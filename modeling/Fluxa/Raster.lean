import Fluxa.Value
import Mathlib.Algebra.BigOperators.Fin
import Mathlib.Algebra.Order.Field.Rat
import Mathlib.Data.Set.Card
import Mathlib.Tactic.FieldSimp
import Mathlib.Tactic.FinCases
import Mathlib.Tactic.LinearCombination
import Mathlib.Tactic.Positivity

/-! Triangles of `std.image`. A pixel is drawn if it is on one side of all three edges; the pixels tried are those of the
triangle's bounding box inside the image. All of it is computed in 64-bit integers. -/

namespace Fluxa.StdImage

/-- The value of a `long` that was computed modulo `2 ^ 64`. -/
def i64 (x : ℤ) : ℤ := x.bmod (2 ^ 64)

theorem i64_eq {x : ℤ} (h : -2 ^ 63 ≤ x ∧ x < 2 ^ 63) : i64 x = x := Int.bmod_eq_of_le (by omega) (by omega)

structure Pixel where
  r : UInt8
  g : UInt8
  b : UInt8
  a : UInt8
  deriving DecidableEq

/-- A live image, with its pixels row by row. -/
structure Image where
  width : ℕ
  height : ℕ
  px : ℤ → Pixel

abbrev Point := ℤ × ℤ

abbrev Corners := Fin 3 → Point

namespace Corners

variable (v : Corners)

/-- The side of a corner's opposite edge that a point is on, without the modulus. -/
def side (i : Fin 3) (p : Point) : ℤ :=
  ((v (i + 2)).1 - (v (i + 1)).1) * (p.2 - (v (i + 1)).2) - ((v (i + 2)).2 - (v (i + 1)).2) * (p.1 - (v (i + 1)).1)

/-- `w0`, `w1` and `w2`. -/
def weight (i : Fin 3) (p : Point) : ℤ := i64 (v.side i p)

def area : ℤ := v.weight 2 (v 2)

def inside (p : Point) : Bool :=
  if v.area < 0 then decide (∀ i, v.weight i p ≤ 0) else decide (∀ i, 0 ≤ v.weight i p)

end Corners

/-- The values of a loop from `lo` to `hi`. -/
def span (lo hi : ℤ) : List ℤ := (List.range (hi + 1 - lo).toNat).map fun i : ℕ => lo + i

/-- The bounding box inside the image, row by row. -/
def box (width height : ℕ) (v : Corners) : List Point :=
  (span (max 0 (min (v 0).2 (min (v 1).2 (v 2).2))) (min (height - 1) (max (v 0).2 (max (v 1).2 (v 2).2)))).flatMap
    fun y => (span (max 0 (min (v 0).1 (min (v 1).1 (v 2).1))) (min (width - 1) (max (v 0).1 (max (v 1).1 (v 2).1)))).map
      fun x => (x, y)

/-- The loop over pixels: `draw` says what a pixel becomes, if it is not skipped. The drawn pixels are counted. -/
def scan {σ : Type} (width : ℕ) (draw : Point → σ → Option σ) (s : (ℤ → σ) × ℤ) (ps : List Point) : (ℤ → σ) × ℤ :=
  ps.foldl (fun s p => match draw p (s.1 (p.2 * width + p.1)) with
    | some c => (Function.update s.1 (p.2 * width + p.1) c, s.2 + 1)
    | none => s) s

/-- A colour with an alpha over a pixel. -/
def Pixel.blend (rgb : ℤ) (a : ℤ) (p : Pixel) : Pixel :=
  let mix (s : ℤ) (old : UInt8) : UInt8 :=
    .ofInt (if 255 ≤ a then s else (s * a + old.toNat * (255 - a)) / 255)
  ⟨mix (rgb / 2 ^ 16 % 256) p.r, mix (rgb / 2 ^ 8 % 256) p.g, mix (rgb % 256) p.b, 255⟩

/-- `image.fill_tri`. -/
def fillTri (img : Image) (v : Corners) (rgb a : ℤ) : Except String (Image × ℤ) :=
  if a < 0 ∨ 255 < a then .error "fill_tri: alpha must be in the 0..255 range"
  else if a = 0 ∨ v.area = 0 then .ok (img, 0)
  else
    let s := scan img.width (fun p c => if v.inside p then some (c.blend rgb a) else none) (img.px, 0)
      (box img.width img.height v)
    .ok ({ img with px := s.1 }, s.2)

section Scan

variable {σ : Type} {width : ℕ} {draw : Point → σ → Option σ} {s : (ℤ → σ) × ℤ} {ps : List Point}

theorem mem_span {lo hi x : ℤ} : x ∈ span lo hi ↔ lo ≤ x ∧ x ≤ hi := by
  simp only [span, List.mem_map, List.mem_range]
  constructor
  · rintro ⟨i, hi', rfl⟩
    omega
  · rintro ⟨hlo, hhi⟩
    exact ⟨(x - lo).toNat, by omega, by omega⟩

theorem nodup_span (lo hi : ℤ) : (span lo hi).Nodup := List.nodup_range.map fun a b h => by simpa using h

theorem mem_box {height : ℕ} {v : Corners} {p : Point} : p ∈ box width height v ↔
    (0 ≤ p.1 ∧ p.1 < width ∧ 0 ≤ p.2 ∧ p.2 < height) ∧ (∃ i, (v i).1 ≤ p.1) ∧ (∃ i, p.1 ≤ (v i).1) ∧
      (∃ i, (v i).2 ≤ p.2) ∧ ∃ i, p.2 ≤ (v i).2 := by
  obtain ⟨x, y⟩ := p
  simp only [box, List.mem_flatMap, List.mem_map, mem_span, Prod.mk.injEq, Fin.exists_fin_succ, max_le_iff, min_le_iff,
    le_min_iff, le_max_iff]
  simp
  omega

theorem nodup_box (height : ℕ) (v : Corners) : (box width height v).Nodup := by
  rw [box, List.nodup_flatMap]
  refine ⟨fun y _ => (nodup_span _ _).map fun a b h => by simpa using h, (nodup_span _ _).imp fun {a b} hab => ?_⟩
  rw [Function.onFun, List.disjoint_iff_ne]
  rintro p hp _ hq rfl
  obtain ⟨x, -, hx⟩ := List.mem_map.mp hp
  obtain ⟨x', -, hx'⟩ := List.mem_map.mp hq
  exact hab (Prod.mk.inj (hx.trans hx'.symm)).2

theorem eq_of_number {p q : Point} (hp : 0 ≤ p.1 ∧ p.1 < width) (hq : 0 ≤ q.1 ∧ q.1 < width)
    (h : p.2 * width + p.1 = q.2 * width + q.1) : p = q := by
  have hrow : p.2 = q.2 := by
    have hdiv (r : Point) (hr : 0 ≤ r.1 ∧ r.1 < width) : (r.2 * width + r.1) / width = r.2 := by
      rw [add_comm, Int.add_mul_ediv_right _ _ (by omega), Int.ediv_eq_zero_of_lt hr.1 hr.2, zero_add]
    rw [← hdiv p hp, h, hdiv q hq]
  rw [hrow] at h
  exact Prod.ext (by omega) hrow

theorem scan_cons (p : Point) : scan width draw s (p :: ps) = scan width draw (scan width draw s [p]) ps := rfl

theorem scan_apply (hps : ps.Nodup) (hin : ∀ p ∈ ps, 0 ≤ p.1 ∧ p.1 < width) {p : Point} (hp : 0 ≤ p.1 ∧ p.1 < width) :
    (scan width draw s ps).1 (p.2 * width + p.1) =
      let c := s.1 (p.2 * width + p.1)
      if p ∈ ps then (draw p c).getD c else c := by
  induction ps generalizing s with
  | nil => rfl
  | cons q ps ih =>
    obtain ⟨hq, hps⟩ := List.nodup_cons.mp hps
    have hin' : ∀ p ∈ ps, 0 ≤ p.1 ∧ p.1 < width := fun p hp => hin p (List.mem_cons_of_mem q hp)
    rw [scan_cons, ih hps hin']
    simp only [scan, List.foldl_cons, List.foldl_nil]
    by_cases hpq : p = q
    · subst hpq
      rw [if_neg hq, if_pos List.mem_cons_self]
      cases draw p (s.1 (p.2 * width + p.1)) <;> simp
    · have hne : p.2 * width + p.1 ≠ q.2 * width + q.1 := fun h =>
        hpq (eq_of_number hp (hin q List.mem_cons_self) h)
      have hmem : p ∈ q :: ps ↔ p ∈ ps := by simp [hpq]
      simp only [hmem]
      cases draw q (s.1 (q.2 * width + q.1)) <;> simp [Function.update_of_ne hne]

theorem scan_count {q : Point → Bool} {f : σ → σ} :
    (scan width (fun p c => if q p then some (f c) else none) s ps).2 = s.2 + ps.countP q := by
  induction ps generalizing s with
  | nil => simp [scan]
  | cons p ps ih =>
    rw [scan_cons, ih, List.countP_cons]
    cases hq : q p <;> simp [scan, hq]
    omega

end Scan

/-- A point of the closed triangle: a weighted mean of its corners. -/
def InTriangle (v : Corners) (p : Point) : Prop :=
  ∃ r : Fin 3 → ℚ, (∀ i, 0 ≤ r i) ∧ ∑ i, r i = 1 ∧ ∑ i, r i * (v i).1 = p.1 ∧ ∑ i, r i * (v i).2 = p.2

section Triangles

variable {v : Corners} {p : Point}

theorem InTriangle.comp (h : InTriangle v p) (σ : Equiv.Perm (Fin 3)) : InTriangle (v ∘ σ) p := by
  obtain ⟨r, hr, hsum, hx, hy⟩ := h
  exact ⟨r ∘ σ, fun i => hr _, (Equiv.sum_comp σ r).trans hsum, (Equiv.sum_comp σ fun i => r i * (v i).1).trans hx,
    (Equiv.sum_comp σ fun i => r i * (v i).2).trans hy⟩

theorem inTriangle_comp (σ : Equiv.Perm (Fin 3)) : InTriangle (v ∘ σ) p ↔ InTriangle v p :=
  ⟨fun h => by simpa [Function.comp_assoc] using h.comp σ.symm, fun h => h.comp σ⟩

theorem side_comp_ne_zero (harea : v.side 2 (v 2) ≠ 0) (σ : Equiv.Perm (Fin 3)) :
    Corners.side (v ∘ σ) 2 ((v ∘ σ) 2) ≠ 0 := by
  have h01 : σ 0 ≠ σ 1 := σ.injective.ne (by decide)
  have h02 : σ 0 ≠ σ 2 := σ.injective.ne (by decide)
  have h12 : σ 1 ≠ σ 2 := σ.injective.ne (by decide)
  simp only [Corners.side, Function.comp_apply, Fin.reduceAdd] at harea ⊢
  generalize σ 0 = i, σ 1 = j, σ 2 = k at h01 h02 h12 ⊢
  fin_cases i <;> fin_cases j <;> fin_cases k <;> first | contradiction | skip
  all_goals
    intro h
    refine harea ?_
    simp at h
    linarith

theorem sum_side : ∑ i, v.side i p = v.side 2 (v 2) := by
  simp [Fin.sum_univ_three, Corners.side]
  ring

theorem sum_side_mul : ∑ i, v.side i p * (v i).1 = v.side 2 (v 2) * p.1 ∧
    ∑ i, v.side i p * (v i).2 = v.side 2 (v 2) * p.2 := by
  simp [Fin.sum_univ_three, Corners.side]
  constructor <;> ring

theorem side_eq {r : Fin 3 → ℚ} (hsum : ∑ i, r i = 1) (hx : ∑ i, r i * (v i).1 = p.1) (hy : ∑ i, r i * (v i).2 = p.2)
    (i : Fin 3) : (v.side i p : ℚ) = r i * v.side 2 (v 2) := by
  simp only [Fin.sum_univ_three] at hsum hx hy
  have key (a b c : Point) (ra rb rc : ℚ) (hs : ra + rb + rc = 1) (hx : ra * a.1 + rb * b.1 + rc * c.1 = p.1)
      (hy : ra * a.2 + rb * b.2 + rc * c.2 = p.2) :
      ((c.1 - b.1 : ℚ)) * (p.2 - b.2) - (c.2 - b.2) * (p.1 - b.1) =
        ra * ((b.1 - a.1) * (c.2 - a.2) - (b.2 - a.2) * (c.1 - a.1)) := by
    obtain rfl : rb = 1 - ra - rc := by linarith
    rw [← hx, ← hy]
    ring
  fin_cases i
  · have h := key (v 0) (v 1) (v 2) _ _ _ hsum hx hy
    simp [Corners.side]
    linarith
  · have h := key (v 1) (v 2) (v 0) (r 1) (r 2) (r 0) (by linarith) (by linarith) (by linarith)
    simp [Corners.side]
    linarith
  · have h := key (v 2) (v 0) (v 1) (r 2) (r 0) (r 1) (by linarith) (by linarith) (by linarith)
    simp [Corners.side]
    linarith

theorem inTriangle_iff (harea : v.side 2 (v 2) ≠ 0) : InTriangle v p ↔
    if v.side 2 (v 2) < 0 then ∀ i, v.side i p ≤ 0 else ∀ i, 0 ≤ v.side i p := by
  constructor
  · rintro ⟨r, hr, hsum, hx, hy⟩
    have hside := side_eq hsum hx hy
    split
    · next hneg =>
      intro i
      have h := mul_nonpos_of_nonneg_of_nonpos (hr i) (Int.cast_nonpos.mpr hneg.le)
      rw [← hside i] at h
      exact_mod_cast h
    · next hpos =>
      intro i
      have h := mul_nonneg (hr i) (Int.cast_nonneg (not_lt.mp hpos))
      rw [← hside i] at h
      exact_mod_cast h
  · intro h
    have hsum (f : Fin 3 → ℤ) (q : ℤ) (hq : ∑ i, v.side i p * f i = v.side 2 (v 2) * q) :
        ∑ i, (v.side i p / v.side 2 (v 2) : ℚ) * f i = q := by
      have hcast : (v.side 2 (v 2) : ℚ) ≠ 0 := Int.cast_ne_zero.mpr harea
      rw [Fin.sum_univ_three] at hq ⊢
      field_simp
      exact_mod_cast hq
    refine ⟨fun i => v.side i p / v.side 2 (v 2), fun i => ?_, ?_, hsum _ _ sum_side_mul.1, hsum _ _ sum_side_mul.2⟩
    · split at h
      · next hneg => exact div_nonneg_of_nonpos (Int.cast_nonpos.mpr (h i)) (Int.cast_nonpos.mpr hneg.le)
      · next hpos => exact div_nonneg (Int.cast_nonneg (h i)) (Int.cast_nonneg (not_lt.mp hpos))
    · simpa using hsum (fun _ => 1) 1 (by simpa using sum_side)

theorem exists_le_of_mean {r : Fin 3 → ℚ} (hr : ∀ i, 0 ≤ r i) (hsum : ∑ i, r i = 1) {f : Fin 3 → ℚ} {q : ℚ}
    (hq : ∑ i, r i * f i = q) : ∃ i, f i ≤ q := by
  by_contra hno
  push Not at hno
  have hzero : ∑ i, r i * (f i - q) = 0 := by
    simp only [mul_sub, Finset.sum_sub_distrib, hq, ← Finset.sum_mul, hsum, one_mul, sub_self]
  have hterm := (Finset.sum_eq_zero_iff_of_nonneg fun i _ => mul_nonneg (hr i) (sub_nonneg.mpr (hno i).le)).mp hzero
  have hnone (i : Fin 3) : r i = 0 :=
    (mul_eq_zero.mp (hterm i (Finset.mem_univ i))).resolve_right (sub_ne_zero.mpr (hno i).ne')
  simp [hnone] at hsum

theorem InTriangle.mem_box {width height : ℕ} (h : InTriangle v p) (hx : 0 ≤ p.1 ∧ p.1 < width)
    (hy : 0 ≤ p.2 ∧ p.2 < height) : p ∈ box width height v := by
  obtain ⟨r, hr, hsum, hpx, hpy⟩ := h
  have hbelow {f : Fin 3 → ℤ} {q : ℤ} (hq : ∑ i, r i * f i = q) : (∃ i, f i ≤ q) ∧ ∃ i, q ≤ f i := by
    obtain ⟨i, hi⟩ := exists_le_of_mean hr hsum hq
    obtain ⟨j, hj⟩ := exists_le_of_mean hr hsum (f := fun i => -(f i : ℚ)) (q := -q) (by simp [hq])
    exact ⟨⟨i, by exact_mod_cast hi⟩, j, by exact_mod_cast neg_le_neg_iff.mp hj⟩
  exact StdImage.mem_box.mpr ⟨⟨hx.1, hx.2, hy⟩, (hbelow hpx).1, (hbelow hpx).2, hbelow hpy⟩

/-- Coordinates of magnitude below `2 ^ 30`. -/
def Corners.Small (v : Corners) : Prop := ∀ i, |(v i).1| < 2 ^ 30 ∧ |(v i).2| < 2 ^ 30

theorem Corners.Small.weight_eq (h : v.Small) (hx : |p.1| < 2 ^ 30) (hy : |p.2| < 2 ^ 30) (i : Fin 3) :
    v.weight i p = v.side i p := by
  have hdiff {a b : ℤ} (ha : |a| < 2 ^ 30) (hb : |b| < 2 ^ 30) : |a - b| ≤ 2 ^ 31 - 1 := by
    rw [abs_lt] at ha hb
    rw [abs_le]
    omega
  have hmul {a b : ℤ} (ha : |a| ≤ 2 ^ 31 - 1) (hb : |b| ≤ 2 ^ 31 - 1) : |a * b| ≤ (2 ^ 31 - 1) * (2 ^ 31 - 1) := by
    rw [abs_mul]
    exact mul_le_mul ha hb (abs_nonneg b) (by norm_num)
  have h₁ := abs_le.mp (hmul (hdiff (h (i + 2)).1 (h (i + 1)).1) (hdiff hy (h (i + 1)).2))
  have h₂ := abs_le.mp (hmul (hdiff (h (i + 2)).2 (h (i + 1)).2) (hdiff hx (h (i + 1)).1))
  refine i64_eq ?_
  rw [Corners.side]
  constructor <;> linarith [h₁.1, h₁.2, h₂.1, h₂.2]

theorem Corners.Small.inside_iff (h : v.Small) {width height : ℕ} (hp : p ∈ box width height v)
    (harea : v.side 2 (v 2) ≠ 0) : v.inside p = true ↔ InTriangle v p := by
  obtain ⟨-, ⟨i, hi⟩, ⟨j, hj⟩, ⟨k, hk⟩, l, hl⟩ := mem_box.mp hp
  have hweight := h.weight_eq (p := p)
    (abs_lt.mpr ⟨(abs_lt.mp (h i).1).1.trans_le hi, hj.trans_lt (abs_lt.mp (h j).1).2⟩)
    (abs_lt.mpr ⟨(abs_lt.mp (h k).2).1.trans_le hk, hl.trans_lt (abs_lt.mp (h l).2).2⟩)
  have hcorner : v.area = v.side 2 (v 2) := h.weight_eq (h 2).1 (h 2).2 2
  rw [inTriangle_iff harea, Corners.inside, hcorner]
  simp only [hweight]
  split <;> simp

end Triangles

def Pixel.solid (rgb : ℤ) : Pixel := ⟨.ofInt (rgb / 2 ^ 16 % 256), .ofInt (rgb / 2 ^ 8 % 256), .ofInt (rgb % 256), 255⟩

def Image.Has (img : Image) (p : Point) : Prop := (0 ≤ p.1 ∧ p.1 < img.width) ∧ 0 ≤ p.2 ∧ p.2 < img.height

/-- **`fill_tri` covers the triangle.** With corners that are not collinear, in whichever of the six orders, it sets the
pixels in the closed triangle, leaves the others, and returns the number of those it set. -/
theorem fillTri_covers (img : Image) (v : Corners) (rgb : ℤ) (hsmall : v.Small) (harea : v.side 2 (v 2) ≠ 0)
    (σ : Equiv.Perm (Fin 3)) :
    ∃ px, fillTri img (v ∘ σ) rgb 255 = .ok ({ img with px }, ({p | img.Has p ∧ InTriangle v p}.ncard : ℤ)) ∧
      ∀ p, img.Has p → (InTriangle v p → px (p.2 * img.width + p.1) = .solid rgb) ∧
        (¬InTriangle v p → px (p.2 * img.width + p.1) = img.px (p.2 * img.width + p.1)) := by
  have hsmall' : Corners.Small (v ∘ σ) := fun i => hsmall (σ i)
  have harea' := side_comp_ne_zero harea σ
  have hinside {p : Point} (hp : p ∈ box img.width img.height (v ∘ σ)) := hsmall'.inside_iff hp harea'
  simp only [inTriangle_comp] at hinside
  have hbox {p : Point} (hp : img.Has p) (h : InTriangle v p) : p ∈ box img.width img.height (v ∘ σ) :=
    ((inTriangle_comp σ).mpr h).mem_box hp.1 hp.2
  have hcorner : Corners.area (v ∘ σ) ≠ 0 := by
    rw [Corners.area, hsmall'.weight_eq (hsmall' 2).1 (hsmall' 2).2]
    exact harea'
  have hset : {p | img.Has p ∧ InTriangle v p} =
      ((box img.width img.height (v ∘ σ)).filter (Corners.inside (v ∘ σ))).toFinset := by
    ext p
    simp only [Set.mem_ofPred_eq, List.coe_toFinset, List.mem_filter]
    constructor
    · exact fun ⟨hp, h⟩ => ⟨hbox hp h, (hinside (hbox hp h)).mpr h⟩
    · rintro ⟨hp, h⟩
      obtain ⟨⟨hx, hx', hy⟩, -⟩ := mem_box.mp hp
      exact ⟨⟨⟨hx, hx'⟩, hy⟩, (hinside hp).mp h⟩
  have hcount : ({p | img.Has p ∧ InTriangle v p}.ncard : ℤ) =
      ((box img.width img.height (v ∘ σ)).countP (Corners.inside (v ∘ σ)) : ℤ) := by
    rw [hset, Set.ncard_coe_finset, List.toFinset_card_of_nodup ((nodup_box _ _).filter _), List.countP_eq_length_filter]
  rw [hcount, fillTri, if_neg (by norm_num), if_neg (by simp [hcorner])]
  refine ⟨_, congrArg Except.ok (Prod.ext rfl (scan_count.trans (zero_add _))), fun p hp => ?_⟩
  rw [scan_apply (nodup_box _ _) (fun p hp => ⟨(mem_box.mp hp).1.1, (mem_box.mp hp).1.2.1⟩) hp.1]
  constructor
  · intro h
    simp [if_pos (hbox hp h), (hinside (hbox hp h)).mpr h, Pixel.blend, Pixel.solid]
  · intro h
    by_cases hmem : p ∈ box img.width img.height (v ∘ σ)
    · simp [(hinside hmem).not.mpr h]
    · simp [hmem]

theorem fillTri_covers_corner : ∃ out,
    fillTri ⟨2, 2, fun _ => ⟨0, 0, 0, 0⟩⟩ (![(0, 0), (1, 0), (0, 1)] ∘ Equiv.refl _) 255 255 = .ok (out, 3) := by
  obtain ⟨px, h, -⟩ := fillTri_covers ⟨2, 2, fun _ => ⟨0, 0, 0, 0⟩⟩ ![(0, 0), (1, 0), (0, 1)] 255
    (by simp [Corners.Small, Fin.forall_fin_succ]) (by decide) (Equiv.refl _)
  have hcount : (fillTri ⟨2, 2, fun _ => ⟨0, 0, 0, 0⟩⟩ (![(0, 0), (1, 0), (0, 1)] ∘ Equiv.refl _) 255 255).toOption.map
      Prod.snd = some 3 := by decide +kernel
  rw [h] at hcount ⊢
  exact ⟨_, congrArg Except.ok (Prod.ext rfl (Option.some.inj hcount))⟩

end Fluxa.StdImage
