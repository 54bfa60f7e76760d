import Mathlib.Data.Rat.Floor
import Mathlib.Algebra.Order.Field.Power
import Mathlib.Tactic.FieldSimp
import Mathlib.Tactic.Positivity
import Mathlib.Tactic.Linarith
import Mathlib.Tactic.Ring

/-! IEEE 754 binary64 over exact rationals. A finite double is a sign and a magnitude with a 53-bit
significand; every operation is the exact rational result rounded once, to nearest with ties to even.
Rounding works on the numerator and the denominator with natural-number division only, so that closed
terms evaluate. The facts proved about it are that representable numbers round to themselves and that
the relative error of a normal result is at most `2 ^ (-53)`. -/

namespace Binary64

/-- The finite magnitudes of the format. -/
def Representable (q : ℚ) : Prop :=
  ∃ (m : ℕ) (e : ℤ), m < 2 ^ 53 ∧ -1074 ≤ e ∧ e ≤ 971 ∧ q = m * 2 ^ e

/-- The number `m * 2 ^ e`. -/
def scale (m : ℕ) (e : ℤ) : ℚ := mkRat (m * 2 ^ e.toNat) (2 ^ (-e).toNat)

/-- The integer nearest to `n / d`, the even one of two. -/
def nearestEven (n d : ℕ) : ℕ :=
  if 2 * (n % d) < d ∨ (2 * (n % d) = d ∧ n / d % 2 = 0) then n / d else n / d + 1

/-- The binary exponent of `n / d`, the floor of its logarithm. -/
def binaryExp (n d : ℕ) : ℤ :=
  let e : ℤ := (n.log2 : ℤ) - d.log2
  if d * 2 ^ e.toNat ≤ n * 2 ^ (-e).toNat then e else e - 1

/-- The exponent of the last significand bit of `n / d`. -/
def ulpExp (n d : ℕ) : ℤ := max (binaryExp n d - 52) (-1074)

/-- The significand of `n / d`, in units of `2 ^ ulpExp n d`. -/
def significand (n d : ℕ) : ℕ :=
  nearestEven (n * 2 ^ (-ulpExp n d).toNat) (d * 2 ^ (ulpExp n d).toNat)

theorem scale_eq (m : ℕ) (e : ℤ) : scale m e = m * 2 ^ e := by
  unfold scale
  rw [Rat.mkRat_eq_div]
  push_cast
  have h2 : (2 : ℚ) ≠ 0 := by norm_num
  rw [mul_div_assoc, ← zpow_natCast, ← zpow_natCast, ← zpow_sub₀ h2]
  congr 2
  omega

theorem scale_div (n d : ℕ) (s : ℤ) (hd : 0 < d) :
    ((n * 2 ^ (-s).toNat : ℕ) : ℚ) / ((d * 2 ^ s.toNat : ℕ) : ℚ) = (n / d : ℚ) / 2 ^ s := by
  push_cast
  have h2 : (2 : ℚ) ≠ 0 := by norm_num
  have hd' : (d : ℚ) ≠ 0 := by positivity
  rw [← zpow_natCast, ← zpow_natCast, div_div, div_eq_div_iff (by positivity) (by positivity)]
  have hs : (2 : ℚ) ^ (((-s).toNat : ℕ) : ℤ) * 2 ^ s = 2 ^ ((s.toNat : ℕ) : ℤ) := by
    rw [← zpow_add₀ h2]
    congr 1
    omega
  rw [← hs]
  ring

section Exponent

variable (n d : ℕ) (hn : 0 < n) (hd : 0 < d)

private theorem test_iff (e : ℤ) (hd : 0 < d) : d * 2 ^ e.toNat ≤ n * 2 ^ (-e).toNat ↔ (2 : ℚ) ^ e ≤ n / d := by
  have hpos : (0 : ℚ) < ((d * 2 ^ e.toNat : ℕ) : ℚ) := by positivity
  have hquot := scale_div n d e hd
  have h2e : (0 : ℚ) < 2 ^ e := by positivity
  rw [← one_le_div₀ h2e, ← hquot, one_le_div₀ hpos]
  exact Nat.cast_le.symm

include hn hd in
private theorem log2_bounds :
    (2 : ℚ) ^ (((n.log2 : ℤ) - d.log2) - 1) < n / d ∧
      (n / d : ℚ) < 2 ^ (((n.log2 : ℤ) - d.log2) + 1) := by
  have h2 : (2 : ℚ) ≠ 0 := by norm_num
  have hd' : (0 : ℚ) < d := by positivity
  have hnlow : ((2 ^ n.log2 : ℕ) : ℚ) ≤ n := Nat.cast_le.mpr (Nat.log2_self_le hn.ne')
  have hnhigh : (n : ℚ) < ((2 ^ (n.log2 + 1) : ℕ) : ℚ) := Nat.cast_lt.mpr Nat.lt_log2_self
  have hdlow : ((2 ^ d.log2 : ℕ) : ℚ) ≤ d := Nat.cast_le.mpr (Nat.log2_self_le hd.ne')
  have hdhigh : (d : ℚ) < ((2 ^ (d.log2 + 1) : ℕ) : ℚ) := Nat.cast_lt.mpr Nat.lt_log2_self
  push_cast at hnlow hnhigh hdlow hdhigh
  constructor
  · rw [lt_div_iff₀ hd']
    calc (2 : ℚ) ^ (((n.log2 : ℤ) - d.log2) - 1) * d
        < 2 ^ (((n.log2 : ℤ) - d.log2) - 1) * 2 ^ (d.log2 + 1) := by gcongr
      _ = 2 ^ n.log2 := by
        rw [← zpow_natCast, ← zpow_add₀ h2, ← zpow_natCast]
        congr 1
        push_cast
        ring
      _ ≤ n := hnlow
  · rw [div_lt_iff₀ hd']
    calc (n : ℚ) < 2 ^ (n.log2 + 1) := hnhigh
      _ = 2 ^ (((n.log2 : ℤ) - d.log2) + 1) * 2 ^ d.log2 := by
        rw [← zpow_natCast, ← zpow_natCast, ← zpow_add₀ h2]
        congr 1
        push_cast
        ring
      _ ≤ 2 ^ (((n.log2 : ℤ) - d.log2) + 1) * d := by gcongr

include hn hd in
theorem binaryExp_spec : (2 : ℚ) ^ binaryExp n d ≤ n / d ∧ (n / d : ℚ) < 2 ^ (binaryExp n d + 1) := by
  obtain ⟨hlow, hhigh⟩ := log2_bounds n d hn hd
  simp only [binaryExp]
  split
  · next h => exact ⟨(test_iff n d _ hd).mp h, hhigh⟩
  · next h =>
      rw [test_iff n d _ hd, not_le] at h
      rw [sub_add_cancel]
      exact ⟨hlow.le, h⟩

include hn hd in
theorem lt_ulpExp : (n / d : ℚ) < 2 ^ (ulpExp n d + 53) := by
  refine (binaryExp_spec n d hn hd).2.trans_le (zpow_le_zpow_right₀ (by norm_num) ?_)
  simp only [ulpExp]
  omega

include hn hd in
/-- Above the subnormal range the significand has its leading bit. -/
theorem le_of_ulpExp (hs : -1074 < ulpExp n d) : (2 : ℚ) ^ (ulpExp n d + 52) ≤ n / d := by
  have heq : ulpExp n d + 52 = binaryExp n d := by
    simp only [ulpExp] at hs ⊢
    omega
  rw [heq]
  exact (binaryExp_spec n d hn hd).1

end Exponent

section Rounding

theorem nearestEven_mul (t d : ℕ) (hd : 0 < d) : nearestEven (t * d) d = t := by
  simp [nearestEven, Nat.mul_mod_left, Nat.mul_div_cancel t hd, hd]

theorem nearestEven_error (n d : ℕ) (hd : 0 < d) : |(nearestEven n d : ℚ) - n / d| ≤ 1 / 2 := by
  have hd' : (0 : ℚ) < d := by positivity
  have hdiv : (n : ℚ) = d * ((n / d : ℕ) : ℚ) + ((n % d : ℕ) : ℚ) := by
    exact_mod_cast (Nat.div_add_mod n d).symm
  have hquot : (n : ℚ) / d = ((n / d : ℕ) : ℚ) + ((n % d : ℕ) : ℚ) / d := by
    rw [eq_comm, ← sub_eq_zero]
    field_simp
    linarith
  have hrem : (0 : ℚ) ≤ ((n % d : ℕ) : ℚ) / d := by positivity
  have hlt : ((n % d : ℕ) : ℚ) / d < 1 := by
    rw [div_lt_one hd']
    exact_mod_cast Nat.mod_lt n hd
  rw [hquot, abs_le]
  unfold nearestEven
  split
  · next h =>
      have hhalf : ((n % d : ℕ) : ℚ) / d ≤ 1 / 2 := by
        rw [div_le_div_iff₀ hd' (by norm_num)]
        have : n % d * 2 ≤ 1 * d := by omega
        exact_mod_cast this
      constructor <;> linarith
  · next h =>
      have hhalf : (1 : ℚ) / 2 ≤ ((n % d : ℕ) : ℚ) / d := by
        rw [div_le_div_iff₀ (by norm_num) hd']
        have : 1 * d ≤ n % d * 2 := by omega
        exact_mod_cast this
      push_cast
      constructor <;> linarith

theorem nearestEven_le (n d b : ℕ) (h : n < b * d) : nearestEven n d ≤ b := by
  have hq : n / d < b := Nat.div_lt_of_lt_mul (by rwa [Nat.mul_comm])
  unfold nearestEven
  split <;> omega

variable (n d : ℕ) (hn : 0 < n) (hd : 0 < d)

include hn hd in
theorem significand_le : significand n d ≤ 2 ^ 53 := by
  apply nearestEven_le
  have hpos : (0 : ℚ) < ((d * 2 ^ (ulpExp n d).toNat : ℕ) : ℚ) := by positivity
  have hlt := lt_ulpExp n d hn hd
  rw [zpow_add₀ (by norm_num), ← div_lt_iff₀' (by positivity), ← scale_div n d _ hd,
    div_lt_iff₀ hpos] at hlt
  exact_mod_cast hlt

include hd in
theorem significand_error : |scale (significand n d) (ulpExp n d) - n / d| ≤ 2 ^ ulpExp n d / 2 := by
  have hunit : (0 : ℚ) < 2 ^ ulpExp n d := by positivity
  have herr := nearestEven_error (n * 2 ^ (-ulpExp n d).toNat) (d * 2 ^ (ulpExp n d).toNat)
    (by positivity)
  rw [scale_div n d _ hd] at herr
  rw [scale_eq]
  calc |(significand n d : ℚ) * 2 ^ ulpExp n d - n / d|
      = |(significand n d : ℚ) - n / d / 2 ^ ulpExp n d| * 2 ^ ulpExp n d := by
        rw [← abs_of_pos hunit, ← abs_mul, abs_of_pos hunit]
        congr 1
        field_simp
    _ ≤ 1 / 2 * 2 ^ ulpExp n d := by
        gcongr
        exact herr
    _ = 2 ^ ulpExp n d / 2 := by ring

include hn hd in
/-- A representable number is a whole number of units in the last place. -/
theorem significand_of_representable (h : Representable (n / d)) :
    scale (significand n d) (ulpExp n d) = n / d ∧ ulpExp n d ≤ 971 ∧ significand n d < 2 ^ 53 := by
  obtain ⟨m, e, hm, hlow, hhigh, heq⟩ := h
  have h2 : (2 : ℚ) ≠ 0 := by norm_num
  have hm' : (m : ℚ) < 2 ^ (53 : ℤ) := by exact_mod_cast hm
  have hlt : (n / d : ℚ) < 2 ^ (53 + e) := by
    rw [heq, zpow_add₀ h2]
    gcongr
  have hle : ulpExp n d ≤ e := by
    by_contra hne
    have hge := (le_of_ulpExp n d hn hd (by omega)).trans_lt hlt
    rw [zpow_lt_zpow_iff_right₀ (by norm_num)] at hge
    omega
  -- in units of `2 ^ ulpExp` the number is `m * 2 ^ (e - ulpExp)`
  obtain ⟨k, hk⟩ : ∃ k : ℕ, e = ulpExp n d + k := ⟨(e - ulpExp n d).toNat, by omega⟩
  have hunits : (n / d : ℚ) / 2 ^ ulpExp n d = ((m * 2 ^ k : ℕ) : ℚ) := by
    rw [heq, hk, zpow_add₀ h2]
    push_cast
    rw [zpow_natCast]
    field_simp
  have hnat : n * 2 ^ (-ulpExp n d).toNat = m * 2 ^ k * (d * 2 ^ (ulpExp n d).toNat) := by
    rw [← scale_div n d _ hd, div_eq_iff (by positivity)] at hunits
    exact_mod_cast hunits
  have hsig : significand n d = m * 2 ^ k := by
    rw [significand, hnat, nearestEven_mul _ _ (by positivity)]
  refine ⟨?_, by omega, ?_⟩
  · rw [scale_eq, hsig, ← hunits]
    field_simp
  · have hlt' := lt_ulpExp n d hn hd
    rw [zpow_add₀ h2, ← div_lt_iff₀' (by positivity), hunits] at hlt'
    rw [hsig]
    exact_mod_cast hlt'

include hn hd in
theorem representable_significand (hs : ulpExp n d ≤ 971)
    (hm : ulpExp n d = 971 → significand n d < 2 ^ 53) :
    Representable (scale (significand n d) (ulpExp n d)) := by
  have hlow : -1074 ≤ ulpExp n d := by
    simp only [ulpExp]
    omega
  have hle := significand_le n d hn hd
  by_cases hlt : significand n d < 2 ^ 53
  · exact ⟨_, _, hlt, hlow, hs, scale_eq _ _⟩
  · -- a carry out of the significand moves the exponent up by one
    have hcarry : significand n d = 2 ^ 53 := by omega
    refine ⟨2 ^ 52, ulpExp n d + 1, by norm_num, by omega, ?_, ?_⟩
    · have : ulpExp n d ≠ 971 := fun h => hlt (hm h)
      omega
    · rw [scale_eq, hcarry, zpow_add₀ (by norm_num)]
      push_cast
      ring

end Rounding

/-! Doubles and their arithmetic. -/

abbrev Magnitude := { q : ℚ // Representable q }

def Magnitude.zero : Magnitude := ⟨0, 0, 0, by norm_num, by norm_num, by norm_num, by norm_num⟩

inductive Double where
  | nan
  | inf (neg : Bool)
  | finite (neg : Bool) (mag : Magnitude)
  deriving DecidableEq

/-- `|q|` rounded to the format, `none` on overflow. -/
def roundMag (q : ℚ) : Option Magnitude :=
  if hn : 0 < q.num.natAbs then
    if h : ulpExp q.num.natAbs q.den ≤ 971 ∧
        (ulpExp q.num.natAbs q.den = 971 → significand q.num.natAbs q.den < 2 ^ 53) then
      some ⟨_, representable_significand q.num.natAbs q.den hn q.den_pos h.1 h.2⟩
    else none
  else some .zero

namespace Double

/-- The double nearest to `q`; an exact zero takes the sign `z`. -/
def ofRat (z : Bool) (q : ℚ) : Double :=
  if q = 0 then .finite z .zero
  else match roundMag q with
    | some m => .finite (decide (q < 0)) m
    | none => .inf (decide (q < 0))

def ofInt (a : ℤ) : Double := ofRat false a

def signed (neg : Bool) (m : Magnitude) : ℚ := if neg then -m.val else m.val

def toRat : Double → Option ℚ
  | .finite neg m => some (signed neg m)
  | _ => none

def neg : Double → Double
  | .nan => .nan
  | .inf a => .inf (!a)
  | .finite a m => .finite (!a) m

def add : Double → Double → Double
  | .finite a x, .finite b y => ofRat (a && b) (signed a x + signed b y)
  | .inf a, .inf b => if a = b then .inf a else .nan
  | .inf a, .finite _ _ => .inf a
  | .finite _ _, .inf b => .inf b
  | _, _ => .nan

def sub (x y : Double) : Double := add x y.neg

def mul : Double → Double → Double
  | .finite a x, .finite b y => ofRat (a ^^ b) (signed a x * signed b y)
  | .inf a, .inf b => .inf (a ^^ b)
  | .inf a, .finite b y => if y.val = 0 then .nan else .inf (a ^^ b)
  | .finite a x, .inf b => if x.val = 0 then .nan else .inf (a ^^ b)
  | _, _ => .nan

def div : Double → Double → Double
  | .finite a x, .finite b y =>
    if y.val = 0 then
      if x.val = 0 then .nan else .inf (a ^^ b)
    else ofRat (a ^^ b) (signed a x / signed b y)
  | .inf a, .finite b _ => .inf (a ^^ b)
  | .finite a _, .inf b => .finite (a ^^ b) .zero
  | _, _ => .nan

def lt : Double → Double → Bool
  | .finite a x, .finite b y => decide (signed a x < signed b y)
  | .inf true, .finite _ _ => true
  | .inf true, .inf false => true
  | .finite _ _, .inf false => true
  | _, _ => false

/-- The IEEE equality: `-0 = 0`, and NaN equals nothing. -/
def eq : Double → Double → Bool
  | .finite a x, .finite b y => decide (signed a x = signed b y)
  | .inf a, .inf b => a == b
  | _, _ => false

def le (x y : Double) : Bool := lt x y || eq x y

/-- The integer part, which only a finite double has. -/
def trunc (x : Double) : Option ℤ := x.toRat.map fun q => q.num.tdiv q.den

end Double

theorem abs_eq_natAbs_div (q : ℚ) : |q| = (q.num.natAbs : ℚ) / q.den := by
  rw [← Rat.num_div_den q, abs_div, Nat.abs_cast, Rat.num_div_den, Nat.cast_natAbs, Int.cast_abs]

theorem roundMag_of_representable {q : ℚ} (h : Representable |q|) : roundMag q = some ⟨|q|, h⟩ := by
  unfold roundMag
  by_cases hn : 0 < q.num.natAbs
  · rw [abs_eq_natAbs_div] at h
    obtain ⟨heq, hs, hm⟩ := significand_of_representable _ _ hn q.den_pos h
    rw [dif_pos hn, dif_pos ⟨hs, fun _ => hm⟩]
    simp only [Option.some.injEq, Subtype.mk.injEq]
    rw [heq, abs_eq_natAbs_div]
  · have hq : q = 0 := by
      rw [← Rat.num_eq_zero]
      omega
    subst hq
    simp [Magnitude.zero]

namespace Double

/-- A representable number survives rounding. -/
theorem toRat_ofRat {q : ℚ} (z : Bool) (h : Representable |q|) : (ofRat z q).toRat = some q := by
  unfold ofRat
  split
  · next hq => cases z <;> simp [toRat, signed, Magnitude.zero, hq]
  · rw [roundMag_of_representable h]
    by_cases hneg : q < 0
    · simp [toRat, signed, hneg, abs_of_neg hneg]
    · simp [toRat, signed, hneg, abs_of_nonneg (not_lt.mp hneg)]

/-- A number in the normal range is rounded with a relative error of at most `2 ^ (-53)`. -/
theorem toRat_ofRat_error {q : ℚ} (z : Bool) (hlow : (2 : ℚ) ^ (-1021 : ℤ) ≤ |q|)
    (hhigh : |q| < 2 ^ (1000 : ℤ)) : ∃ r, (ofRat z q).toRat = some r ∧ |r - q| ≤ |q| / 2 ^ 53 := by
  have hq : q ≠ 0 := by
    rintro rfl
    rw [abs_zero] at hlow
    exact absurd hlow (not_le.mpr (by positivity))
  have hn : 0 < q.num.natAbs := Int.natAbs_pos.mpr (Rat.num_ne_zero.mpr hq)
  rw [abs_eq_natAbs_div] at hlow hhigh
  have hlt := hlow.trans_lt (lt_ulpExp _ _ hn q.den_pos)
  rw [zpow_lt_zpow_iff_right₀ (by norm_num)] at hlt
  have hge := le_of_ulpExp _ _ hn q.den_pos (by omega)
  have hs := hge.trans_lt hhigh
  rw [zpow_lt_zpow_iff_right₀ (by norm_num)] at hs
  have herr := significand_error q.num.natAbs q.den q.den_pos
  have hrel : |scale (significand q.num.natAbs q.den) (ulpExp q.num.natAbs q.den) - abs q|
      ≤ |q| / 2 ^ 53 := by
    rw [abs_eq_natAbs_div q]
    refine herr.trans ?_
    rw [div_le_div_iff₀ (by norm_num) (by positivity)]
    calc (2 : ℚ) ^ ulpExp q.num.natAbs q.den * 2 ^ 53
        = 2 ^ (ulpExp q.num.natAbs q.den + 52) * 2 := by
          rw [zpow_add₀ (by norm_num)]
          norm_num
          ring
      _ ≤ (q.num.natAbs : ℚ) / q.den * 2 := by gcongr
  have hround : roundMag q = some ⟨_, representable_significand q.num.natAbs q.den hn q.den_pos
      (by omega) (by omega)⟩ := by
    rw [roundMag, dif_pos hn, dif_pos ⟨by omega, by omega⟩]
  unfold ofRat
  rw [if_neg hq, hround]
  by_cases hneg : q < 0
  · refine ⟨_, by simp only [toRat, signed, hneg, decide_true, if_true]; rfl, ?_⟩
    rw [abs_of_neg hneg] at hrel
    rw [abs_of_neg hneg, ← abs_neg]
    convert hrel using 2
    ring
  · refine ⟨_, by simp only [toRat, signed, hneg, decide_false]; rfl, ?_⟩
    have habs := abs_of_nonneg (not_lt.mp hneg)
    rw [habs] at hrel ⊢
    simpa using hrel

section Operations

variable {x y : Double} {p q : ℚ}

theorem toRat_eq_some (h : x.toRat = some p) : ∃ a m, x = .finite a m ∧ signed a m = p := by
  cases x with
  | nan => simp [toRat] at h
  | inf a => simp [toRat] at h
  | finite a m => exact ⟨a, m, rfl, by simpa [toRat] using h⟩

theorem representable_toRat (h : x.toRat = some p) : Representable |p| := by
  obtain ⟨a, m, -, rfl⟩ := toRat_eq_some h
  have hpos : 0 ≤ m.val := by
    obtain ⟨k, e, -, -, -, heq⟩ := m.property
    rw [heq]
    positivity
  cases a <;> simpa [signed, abs_of_nonneg hpos] using m.property

theorem toRat_neg (h : x.toRat = some p) : x.neg.toRat = some (-p) := by
  obtain ⟨a, m, rfl, rfl⟩ := toRat_eq_some h
  cases a <;> simp [neg, toRat, signed]

theorem add_eq_ofRat (hx : x.toRat = some p) (hy : y.toRat = some q) : ∃ z, add x y = ofRat z (p + q) := by
  obtain ⟨a, m, rfl, rfl⟩ := toRat_eq_some hx
  obtain ⟨b, k, rfl, rfl⟩ := toRat_eq_some hy
  exact ⟨_, rfl⟩

theorem sub_eq_ofRat (hx : x.toRat = some p) (hy : y.toRat = some q) : ∃ z, sub x y = ofRat z (p - q) := by
  rw [sub_eq_add_neg]
  exact add_eq_ofRat hx (toRat_neg hy)

theorem mul_eq_ofRat (hx : x.toRat = some p) (hy : y.toRat = some q) : ∃ z, mul x y = ofRat z (p * q) := by
  obtain ⟨a, m, rfl, rfl⟩ := toRat_eq_some hx
  obtain ⟨b, k, rfl, rfl⟩ := toRat_eq_some hy
  exact ⟨_, rfl⟩

theorem div_eq_ofRat (hx : x.toRat = some p) (hy : y.toRat = some q) (hq : q ≠ 0) : ∃ z, div x y = ofRat z (p / q) := by
  obtain ⟨a, m, rfl, rfl⟩ := toRat_eq_some hx
  obtain ⟨b, k, rfl, rfl⟩ := toRat_eq_some hy
  have hk : k.val ≠ 0 := by
    intro hk
    cases b <;> simp [signed, hk] at hq
  exact ⟨a ^^ b, by simp [div, hk]⟩

theorem eq_eq_decide (hx : x.toRat = some p) (hy : y.toRat = some q) : eq x y = decide (p = q) := by
  obtain ⟨a, m, rfl, rfl⟩ := toRat_eq_some hx
  obtain ⟨b, k, rfl, rfl⟩ := toRat_eq_some hy
  rfl

theorem lt_eq_decide (hx : x.toRat = some p) (hy : y.toRat = some q) : lt x y = decide (p < q) := by
  obtain ⟨a, m, rfl, rfl⟩ := toRat_eq_some hx
  obtain ⟨b, k, rfl, rfl⟩ := toRat_eq_some hy
  rfl

theorem le_eq_decide (hx : x.toRat = some p) (hy : y.toRat = some q) : le x y = decide (p ≤ q) := by
  rw [le, lt_eq_decide hx hy, eq_eq_decide hx hy, ← Bool.decide_or, decide_eq_decide]
  exact le_iff_lt_or_eq.symm

theorem trunc_eq (hx : x.toRat = some p) : x.trunc = some (p.num.tdiv p.den) := by
  simp [trunc, hx]

end Operations

end Double

end Binary64
