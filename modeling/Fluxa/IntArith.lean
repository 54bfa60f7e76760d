import Fluxa.Operators
import Mathlib.Data.Nat.Prime.Pow
import Mathlib.Data.Nat.Cast.Order.Field

/-! Integer arithmetic of the three operator implementations against the mathematical result. The
evaluator computes every integer operation in doubles, the VM all but sums and differences, so a result
is exact as long as the operands and it have at most 53 significant bits; the inliner computes in
machine integers throughout. -/

namespace Fluxa

open Binary64 Value Double

/-- At most 53 significant bits. -/
def FitsDouble (x : ℤ) : Prop := ∃ m k : ℕ, m < 2 ^ 53 ∧ x.natAbs = m * 2 ^ k

/-- The result the operators stand for: the truncated quotient and its remainder for `/` and `%`. -/
def mathResult (op : BinOp) (a b : ℤ) : Option ℤ :=
  match op with
  | .add => some (a + b)
  | .sub => some (a - b)
  | .mul => some (a * b)
  | .div => if b = 0 then none else some (a.tdiv b)
  | .mod => if b = 0 then none else some (a.tmod b)
  | _ => none

/-- Every implementation returns `c`. -/
structure ExactInAllTiers (op : BinOp) (a b c : Int64) : Prop where
  evaluator : evalBinaryOp op (.int a) (.int b) = .value (.int c)
  vm : vmBinaryOp op (.int a) (.int b) = some (.int c)
  vmArith : vmArith op (.int a) (.int b) = some (.int c)
  inliner : simpleBinaryOp op (.int a) (.int b) = some (.int c)

/-- What an operation needs beyond operands that are exact in a double. -/
def DoubleSafe (op : BinOp) (a b c : Int64) : Prop :=
  match op with
  | .add | .sub | .mul => FitsDouble c.toInt
  | .div => a.toInt.natAbs < 2 ^ 53 ∨ b.toInt ∣ a.toInt
  | .mod => ¬(a = Int64.minValue ∧ b = -1)
  | _ => True

section Casts

theorem longOfInt_eq_some {i : ℤ} {c : Int64} : longOfInt i = some c ↔ c.toInt = i := by
  unfold longOfInt
  rw [Int64.toInt_minValue, Int64.toInt_maxValue]
  constructor
  · intro h
    split at h
    · next hr =>
        rw [← Option.some_inj.mp h]
        exact Int64.toInt_ofInt_of_le hr.1 (by omega)
    · exact absurd h (by simp)
  · rintro rfl
    have hlow := c.le_toInt
    have hhigh := c.toInt_lt
    rw [if_pos ⟨hlow, by omega⟩, Int64.ofInt_toInt]

theorem FitsDouble.of_natAbs_lt {x : ℤ} (h : x.natAbs < 2 ^ 53) : FitsDouble x :=
  ⟨x.natAbs, 0, h, by simp⟩

/-- A factor of a number with few significant bits has few significant bits. -/
theorem FitsDouble.of_dvd {x y : ℤ} (hx : FitsDouble x) (hne : x ≠ 0) (hdvd : y ∣ x) : FitsDouble y := by
  obtain ⟨m, k, hm, hx⟩ := hx
  have hdvd' : y.natAbs ∣ m * 2 ^ k := hx ▸ Int.natAbs_dvd_natAbs.mpr hdvd
  obtain ⟨u, v, hu, hv, huv⟩ := (Nat.dvd_mul).mp hdvd'
  obtain ⟨j, -, rfl⟩ := (Nat.dvd_prime_pow Nat.prime_two).mp hv
  have hmpos : 0 < m := Nat.pos_of_ne_zero fun h => hne (by simpa [h] using hx)
  exact ⟨u, j, (Nat.le_of_dvd hmpos hu).trans_lt hm, huv.symm⟩

theorem representable_of_fitsDouble (x : Int64) (h : FitsDouble x.toInt) : Representable |(x.toInt : ℚ)| := by
  obtain ⟨m, k, hm, heq⟩ := h
  have habs : |(x.toInt : ℚ)| = m * 2 ^ k := by
    rw [← Int.cast_abs, Int.abs_eq_natAbs, heq]
    push_cast
    ring
  by_cases hzero : m = 0
  · exact ⟨0, 0, by norm_num, by norm_num, by norm_num, by rw [habs, hzero]; norm_num⟩
  · refine ⟨m, k, hm, by omega, ?_, by rw [habs, zpow_natCast]⟩
    have hbound : x.toInt.natAbs ≤ 2 ^ 63 := by
      have := x.le_toInt
      have := x.toInt_lt
      omega
    have hpow : 2 ^ k ≤ 2 ^ 63 := by
      calc 2 ^ k ≤ m * 2 ^ k := Nat.le_mul_of_pos_left _ (Nat.pos_of_ne_zero hzero)
        _ ≤ 2 ^ 63 := heq ▸ hbound
    have := (Nat.pow_le_pow_iff_right (by norm_num : 1 < 2)).mp hpow
    omega

theorem toRat_doubleOfLong {a : Int64} (h : FitsDouble a.toInt) : (doubleOfLong a).toRat = some (a.toInt : ℚ) :=
  toRat_ofRat false (representable_of_fitsDouble a h)

theorem longOfDouble_of_toRat {d : Double} {c : Int64} (h : d.toRat = some (c.toInt : ℚ)) :
    longOfDouble d = some c := by
  rw [longOfDouble, trunc_eq h, Option.bind_some, longOfInt_eq_some]
  simp

theorem longOfDouble_doubleOfLong {a : Int64} (h : FitsDouble a.toInt) : longOfDouble (doubleOfLong a) = some a :=
  longOfDouble_of_toRat (toRat_doubleOfLong h)

/-- A `long` that comes out of a double has at most 53 significant bits: past `2 ^ 53` doubles are
integers. -/
theorem fitsDouble_of_longOfDouble {d : Double} {c : Int64} (h : longOfDouble d = some c) : FitsDouble c.toInt := by
  by_cases hsmall : c.toInt.natAbs < 2 ^ 53
  · exact .of_natAbs_lt hsmall
  obtain ⟨i, htrunc, hlong⟩ := Option.bind_eq_some_iff.mp h
  rw [longOfInt_eq_some] at hlong
  obtain ⟨q, hq, rfl⟩ := Option.map_eq_some_iff.mp htrunc
  obtain ⟨m, e, hm, -, -, habs⟩ := representable_toRat hq
  have hnat : c.toInt.natAbs = q.num.natAbs / q.den := by
    rw [hlong, Int.natAbs_tdiv, Int.natAbs_natCast]
    rfl
  have hle : (c.toInt.natAbs : ℚ) ≤ m * 2 ^ e := by
    rw [← habs, abs_eq_natAbs_div, hnat]
    exact Nat.cast_div_le
  have hm' : (m : ℚ) < 2 ^ 53 := by exact_mod_cast hm
  have hbig : (2 : ℚ) ^ 53 ≤ c.toInt.natAbs := by
    exact_mod_cast not_lt.mp hsmall
  have hpos : 0 ≤ e := by
    by_contra hneg
    have hpow : (2 : ℚ) ^ e ≤ 1 := zpow_le_one_of_nonpos₀ (by norm_num) (by omega)
    have : (m : ℚ) * 2 ^ e ≤ m := mul_le_of_le_one_right (by positivity) hpow
    linarith
  lift e to ℕ using hpos
  -- so `q` is the integer `m * 2 ^ e`, up to its sign
  have hint : (q.num.natAbs : ℚ) = ((m * 2 ^ e * q.den : ℕ) : ℚ) := by
    rw [abs_eq_natAbs_div, div_eq_iff (by exact_mod_cast q.den_ne_zero)] at habs
    rw [habs]
    push_cast
    rw [zpow_natCast]
  refine ⟨m, e, hm, ?_⟩
  rw [hnat, Nat.cast_inj.mp hint, Nat.mul_div_cancel _ q.den_pos]

end Casts

section Quotient

def truncRat (q : ℚ) : ℤ := q.num.tdiv q.den

theorem truncRat_neg (q : ℚ) : truncRat (-q) = -truncRat q := by
  simp [truncRat, Int.neg_tdiv]

theorem truncRat_of_nonneg {q : ℚ} (h : 0 ≤ q) : truncRat q = ⌊q⌋ := by
  rw [truncRat, Rat.floor_def', Int.tdiv_eq_ediv_of_nonneg (Rat.num_nonneg.mpr h)]

theorem truncRat_div (a b : ℤ) : truncRat ((a : ℚ) / b) = a.tdiv b := by
  have hnat : ∀ m n : ℕ, truncRat ((m : ℚ) / n) = (m : ℤ).tdiv n := by
    intro m n
    rw [truncRat_of_nonneg (by positivity), Int.tdiv_eq_ediv_of_nonneg (by positivity)]
    exact Rat.floor_natCast_div_natCast m n
  obtain ⟨m, rfl | rfl⟩ := a.eq_nat_or_neg <;> obtain ⟨n, rfl | rfl⟩ := b.eq_nat_or_neg
  · exact hnat m n
  · rw [Int.cast_neg, div_neg, truncRat_neg, Int.tdiv_neg]
    exact congrArg _ (hnat m n)
  · rw [Int.cast_neg, neg_div, truncRat_neg, Int.neg_tdiv]
    exact congrArg _ (hnat m n)
  · rw [Int.cast_neg, Int.cast_neg, neg_div_neg_eq, Int.neg_tdiv, Int.tdiv_neg, neg_neg]
    exact hnat m n

/-- A quotient that is no integer and whose numerator is below `2 ^ 53` lies too far from the integers
around it for the rounding error to reach one. -/
theorem truncRat_of_close {p r : ℚ} {m n : ℕ} (hm : m < 2 ^ 53) (hn : 0 < n) (hmod : m % n ≠ 0)
    (hp : p = (m : ℚ) / n) (hr : |r - p| ≤ p / 2 ^ 53) : truncRat r = truncRat p := by
  have hn' : (0 : ℚ) < n := by positivity
  have hp0 : 0 ≤ p := by
    rw [hp]
    positivity
  have hgap : p / 2 ^ 53 < 1 / n := by
    rw [hp, div_div, div_lt_div_iff₀ (by positivity) hn']
    have hm' : (m : ℚ) < 2 ^ 53 := by exact_mod_cast hm
    nlinarith
  have hclose := abs_le.mp hr
  have hr0 : 0 ≤ r := by
    have : p / 2 ^ 53 ≤ p := div_le_self hp0 (by norm_num)
    linarith
  rw [truncRat_of_nonneg hr0, truncRat_of_nonneg hp0, Int.floor_eq_iff]
  have hdiv : (m : ℚ) = n * ((m / n : ℕ) : ℚ) + ((m % n : ℕ) : ℚ) := by
    exact_mod_cast (Nat.div_add_mod m n).symm
  have hrem : ((m % n : ℕ) : ℚ) + 1 ≤ n := by exact_mod_cast Nat.mod_lt m hn
  have hpq : p = ((m / n : ℕ) : ℚ) + ((m % n : ℕ) : ℚ) / n := by
    rw [hp, div_eq_iff hn'.ne', add_mul, div_mul_cancel₀ _ hn'.ne']
    linarith
  have hfloor : ((⌊p⌋ : ℤ) : ℚ) = ((m / n : ℕ) : ℚ) := by
    rw [hp, Rat.floor_natCast_div_natCast]
    norm_cast
  rw [hfloor]
  constructor
  · have hone : 1 / (n : ℚ) ≤ ((m % n : ℕ) : ℚ) / n := by
      gcongr
      exact_mod_cast Nat.one_le_iff_ne_zero.mpr hmod
    linarith
  · have hlast : ((m % n : ℕ) : ℚ) / n + 1 / n ≤ 1 := by
      rw [← add_div, div_le_one hn']
      exact hrem
    linarith

private theorem quotient_ge {a : ℤ} {b : Int64} (hmod : a.natAbs % b.toInt.natAbs ≠ 0)
    (hn : 0 < b.toInt.natAbs) : (2 : ℚ) ^ (-1021 : ℤ) ≤ |(a : ℚ) / b.toInt| := by
  have hm : (1 : ℚ) ≤ a.natAbs := by
    exact_mod_cast Nat.one_le_iff_ne_zero.mpr fun h => hmod (by rw [h, Nat.zero_mod])
  have hb : (b.toInt.natAbs : ℚ) ≤ 2 ^ 63 := by
    have := b.le_toInt
    have := b.toInt_lt
    exact_mod_cast (by omega : b.toInt.natAbs ≤ 2 ^ 63)
  have hn' : (0 : ℚ) < b.toInt.natAbs := by positivity
  rw [abs_div, ← Int.cast_abs, ← Int.cast_abs, ← Nat.cast_natAbs, ← Nat.cast_natAbs]
  calc (2 : ℚ) ^ (-1021 : ℤ) ≤ 2 ^ (-63 : ℤ) := zpow_le_zpow_right₀ (by norm_num) (by norm_num)
    _ = 1 / 2 ^ 63 := by norm_num
    _ ≤ (a.natAbs : ℚ) / b.toInt.natAbs := by gcongr

private theorem quotient_lt {q : ℚ} {m n : ℕ} (habs : |q| = (m : ℚ) / n) (hm : m < 2 ^ 53) : |q| < 2 ^ (1000 : ℤ) := by
  have hm' : (m : ℚ) < 2 ^ 53 := by exact_mod_cast hm
  rw [habs]
  calc (m : ℚ) / n ≤ m := div_nat_le_self_of_nonnneg (by positivity) n
    _ < 2 ^ (53 : ℤ) := by exact_mod_cast hm'
    _ ≤ 2 ^ (1000 : ℤ) := zpow_le_zpow_right₀ (by norm_num) (by norm_num)

theorem longOfDouble_div {a b c : Int64} (ha : FitsDouble a.toInt) (hb : FitsDouble b.toInt)
    (hb0 : b.toInt ≠ 0) (hc : a.toInt.tdiv b.toInt = c.toInt)
    (hsafe : a.toInt.natAbs < 2 ^ 53 ∨ b.toInt ∣ a.toInt) :
    longOfDouble ((doubleOfLong a).div (doubleOfLong b)) = some c := by
  have hbq : (b.toInt : ℚ) ≠ 0 := by exact_mod_cast hb0
  obtain ⟨z, hdiv⟩ := div_eq_ofRat (toRat_doubleOfLong ha) (toRat_doubleOfLong hb) hbq
  rw [hdiv]
  by_cases hdvd : b.toInt ∣ a.toInt
  · have hmul : a.toInt = c.toInt * b.toInt := by rw [← hc, Int.tdiv_mul_cancel hdvd]
    have hquot : (a.toInt : ℚ) / b.toInt = c.toInt := by
      rw [div_eq_iff hbq]
      exact_mod_cast hmul
    have hfits : FitsDouble c.toInt := by
      by_cases hzero : a.toInt = 0
      · rw [← hc, hzero]
        exact .of_natAbs_lt (by simp)
      · exact ha.of_dvd hzero ⟨b.toInt, hmul⟩
    rw [hquot]
    exact longOfDouble_of_toRat (toRat_ofRat z (representable_of_fitsDouble c hfits))
  · have hm : a.toInt.natAbs < 2 ^ 53 := hsafe.resolve_right hdvd
    have hn : 0 < b.toInt.natAbs := Int.natAbs_pos.mpr hb0
    have hmod : a.toInt.natAbs % b.toInt.natAbs ≠ 0 :=
      fun h => hdvd (Int.natAbs_dvd_natAbs.mp (Nat.dvd_of_mod_eq_zero h))
    have habs : |(a.toInt : ℚ) / b.toInt| = (a.toInt.natAbs : ℚ) / b.toInt.natAbs := by
      rw [abs_div, Nat.cast_natAbs, Nat.cast_natAbs, Int.cast_abs, Int.cast_abs]
    obtain ⟨r, hr, herr⟩ := toRat_ofRat_error (q := (a.toInt : ℚ) / b.toInt) z
      (quotient_ge hmod hn) (quotient_lt habs hm)
    have htrunc : truncRat r = truncRat ((a.toInt : ℚ) / b.toInt) := by
      rcases le_or_gt 0 ((a.toInt : ℚ) / b.toInt) with hpos | hneg
      · rw [abs_of_nonneg hpos] at habs herr
        exact truncRat_of_close hm hn hmod habs herr
      · rw [abs_of_neg hneg] at habs herr
        have hclose : |-r - -((a.toInt : ℚ) / b.toInt)| ≤ -((a.toInt : ℚ) / b.toInt) / 2 ^ 53 := by
          rwa [neg_sub_neg, abs_sub_comm]
        have := truncRat_of_close hm hn hmod habs hclose
        rwa [truncRat_neg, truncRat_neg, neg_inj] at this
    rw [longOfDouble, trunc_eq hr, Option.bind_some, longOfInt_eq_some, ← hc,
      ← truncRat_div]
    exact htrunc.symm

end Quotient

section Tiers

variable {a b c : Int64} (ha : FitsDouble a.toInt) (hb : FitsDouble b.toInt)

private theorem eq_zero_iff (hb : FitsDouble b.toInt) : (doubleOfLong b).eq (.ofInt 0) = decide (b.toInt = 0) := by
  have hzero : (ofInt 0).toRat = some 0 :=
    toRat_ofRat false ⟨0, 0, by norm_num, by norm_num, by norm_num, by norm_num⟩
  rw [eq_eq_decide (toRat_doubleOfLong hb) hzero]
  simp

private theorem longOfDouble_ofRat_iff {d : Double} {z : Bool} {q : ℚ} (hd : d = .ofRat z q)
    (hq : q = (c.toInt : ℚ)) : longOfDouble d = some c ↔ FitsDouble c.toInt := by
  refine ⟨fitsDouble_of_longOfDouble, fun h => ?_⟩
  rw [hd, hq]
  exact longOfDouble_of_toRat (toRat_ofRat z (representable_of_fitsDouble c h))

include ha hb in
theorem longOfDouble_add_iff (hc : a.toInt + b.toInt = c.toInt) :
    longOfDouble ((doubleOfLong a).add (doubleOfLong b)) = some c ↔ FitsDouble c.toInt := by
  obtain ⟨z, h⟩ := add_eq_ofRat (toRat_doubleOfLong ha) (toRat_doubleOfLong hb)
  exact longOfDouble_ofRat_iff h (by rw [← hc]; push_cast; rfl)

include ha hb in
theorem longOfDouble_sub_iff (hc : a.toInt - b.toInt = c.toInt) :
    longOfDouble ((doubleOfLong a).sub (doubleOfLong b)) = some c ↔ FitsDouble c.toInt := by
  obtain ⟨z, h⟩ := sub_eq_ofRat (toRat_doubleOfLong ha) (toRat_doubleOfLong hb)
  exact longOfDouble_ofRat_iff h (by rw [← hc]; push_cast; rfl)

include ha hb in
theorem longOfDouble_mul_iff (hc : a.toInt * b.toInt = c.toInt) :
    longOfDouble ((doubleOfLong a).mul (doubleOfLong b)) = some c ↔ FitsDouble c.toInt := by
  obtain ⟨z, h⟩ := mul_eq_ofRat (toRat_doubleOfLong ha) (toRat_doubleOfLong hb)
  exact longOfDouble_ofRat_iff h (by rw [← hc]; push_cast; rfl)

/-- The remainder of the least integer by `-1` traps; every other one is the mathematical one. -/
theorem longRem_eq_some_iff (hc : a.toInt.tmod b.toInt = c.toInt) :
    longRem a b = some c ↔ ¬(a = Int64.minValue ∧ b = -1) := by
  unfold longRem
  split
  · next h => simp [h]
  · next h =>
      rw [longOfInt_eq_some]
      exact ⟨fun _ => h, fun _ => hc.symm⟩

private theorem ofOption_ofLong_iff {x : Option Int64} :
    OpResult.ofOption (ofLong? x) = .value (.int c) ↔ x = some c := by
  cases x <;> simp [OpResult.ofOption, ofLong?]

private theorem ofLong_iff {x : Option Int64} : ofLong? x = some (.int c) ↔ x = some c := by
  cases x <;> simp [ofLong?]

private theorem int64_ne_zero (h : b.toInt ≠ 0) : b ≠ 0 := fun h0 => h (by rw [h0]; rfl)

private theorem vmBinaryOp_div {l r : Value} : vmBinaryOp .div l r = vmArith .div l r := by
  cases l <;> cases r <;> rfl

private theorem vmBinaryOp_mod {l r : Value} : vmBinaryOp .mod l r = vmArith .mod l r := by
  cases l <;> cases r <;> rfl

private theorem exactInAllTiers_iff {op : BinOp} {x y w : Option Int64}
    (heval : evalBinaryOp op (.int a) (.int b) = .ofOption (ofLong? x))
    (hvm : vmBinaryOp op (.int a) (.int b) = ofLong? y)
    (harith : vmArith op (.int a) (.int b) = ofLong? x)
    (hsimple : simpleBinaryOp op (.int a) (.int b) = ofLong? w) :
    ExactInAllTiers op a b c ↔ x = some c ∧ y = some c ∧ w = some c := by
  constructor
  · intro h
    exact ⟨ofLong_iff.mp (harith ▸ h.vmArith), ofLong_iff.mp (hvm ▸ h.vm),
      ofLong_iff.mp (hsimple ▸ h.inliner)⟩
  · rintro ⟨hx, hy, hw⟩
    exact ⟨heval ▸ ofOption_ofLong_iff.mpr hx, hvm ▸ ofLong_iff.mpr hy, harith ▸ ofLong_iff.mpr hx,
      hsimple ▸ ofLong_iff.mpr hw⟩

include ha hb in
private theorem exactInAllTiers_mod (hb0 : b.toInt ≠ 0) (hc : a.toInt.tmod b.toInt = c.toInt) :
    ExactInAllTiers .mod a b c ↔ ¬(a = Int64.minValue ∧ b = -1) := by
  have hcast : (longOfDouble (doubleOfLong a)).bind (longRem · b) = longRem a b := by
    rw [longOfDouble_doubleOfLong ha]
    rfl
  have harith : vmArith .mod (.int a) (.int b) = ofLong? (longRem a b) := by
    simp [vmArith, toDouble, bothInt, longOfDouble_doubleOfLong hb,
      int64_ne_zero hb0, hcast]
  rw [exactInAllTiers_iff (x := longRem a b) (y := longRem a b) (w := longRem a b)
    (by simp [evalBinaryOp, evalNumeric, toDouble, bothInt, longOfDouble_doubleOfLong hb,
      int64_ne_zero hb0, hcast]) (vmBinaryOp_mod.trans harith) harith (by simp [simpleBinaryOp, int64_ne_zero hb0]),
    and_self, and_self, longRem_eq_some_iff hc]

include ha hb in
private theorem exactInAllTiers_div (hb0 : b.toInt ≠ 0) (hc : a.toInt.tdiv b.toInt = c.toInt)
    (hsafe : a.toInt.natAbs < 2 ^ 53 ∨ b.toInt ∣ a.toInt) : ExactInAllTiers .div a b c := by
  have hguard : (doubleOfLong b).eq (.ofInt 0) = false := by
    rw [eq_zero_iff hb]
    exact decide_eq_false hb0
  have harith : vmArith .div (.int a) (.int b) =
      ofLong? (longOfDouble ((doubleOfLong a).div (doubleOfLong b))) := by
    simp [vmArith, toDouble, bothInt, ofDouble, hguard]
  refine (exactInAllTiers_iff
    (x := longOfDouble ((doubleOfLong a).div (doubleOfLong b)))
    (y := longOfDouble ((doubleOfLong a).div (doubleOfLong b))) (w := longDiv a b)
    (by simp [evalBinaryOp, evalNumeric, toDouble, bothInt, ofDouble, hguard])
    (vmBinaryOp_div.trans harith) harith (by simp [simpleBinaryOp, int64_ne_zero hb0])).mpr ⟨?_, ?_, ?_⟩
  · exact longOfDouble_div ha hb hb0 hc hsafe
  · exact longOfDouble_div ha hb hb0 hc hsafe
  · exact longOfInt_eq_some.mpr hc.symm

include ha hb in
private theorem exactInAllTiers_add (hc : a.toInt + b.toInt = c.toInt) :
    ExactInAllTiers .add a b c ↔ FitsDouble c.toInt := by
  rw [exactInAllTiers_iff rfl rfl rfl rfl, longOfDouble_add_iff ha hb hc, longOfInt_eq_some.mpr hc.symm]
  simp

include ha hb in
private theorem exactInAllTiers_sub (hc : a.toInt - b.toInt = c.toInt) :
    ExactInAllTiers .sub a b c ↔ FitsDouble c.toInt := by
  rw [exactInAllTiers_iff rfl rfl rfl rfl, longOfDouble_sub_iff ha hb hc, longOfInt_eq_some.mpr hc.symm]
  simp

include ha hb in
private theorem exactInAllTiers_mul (hc : a.toInt * b.toInt = c.toInt) :
    ExactInAllTiers .mul a b c ↔ FitsDouble c.toInt := by
  rw [exactInAllTiers_iff (y := longOfDouble ((doubleOfLong a).mul (doubleOfLong b))) rfl rfl rfl rfl,
    longOfDouble_mul_iff ha hb hc, longOfInt_eq_some.mpr hc.symm]
  simp

variable {op : BinOp} (hmath : mathResult op a.toInt b.toInt = some c.toInt)

include hmath ha hb in
theorem ExactInAllTiers.of_doubleSafe (h : DoubleSafe op a b c) : ExactInAllTiers op a b c := by
  cases op with
  | add => exact (exactInAllTiers_add ha hb (Option.some_inj.mp hmath)).mpr h
  | sub => exact (exactInAllTiers_sub ha hb (Option.some_inj.mp hmath)).mpr h
  | mul => exact (exactInAllTiers_mul ha hb (Option.some_inj.mp hmath)).mpr h
  | div =>
    simp only [mathResult, Option.ite_none_left_eq_some, Option.some.injEq] at hmath
    exact exactInAllTiers_div ha hb hmath.1 hmath.2 h
  | mod =>
    simp only [mathResult, Option.ite_none_left_eq_some, Option.some.injEq] at hmath
    exact (exactInAllTiers_mod ha hb hmath.1 hmath.2).mpr h
  | lt | gt | le | ge | eq | ne => simp [mathResult] at hmath

include hmath ha hb in
theorem ExactInAllTiers.doubleSafe (hop : op ≠ .div) (h : ExactInAllTiers op a b c) : DoubleSafe op a b c := by
  cases op with
  | add => exact (exactInAllTiers_add ha hb (Option.some_inj.mp hmath)).mp h
  | sub => exact (exactInAllTiers_sub ha hb (Option.some_inj.mp hmath)).mp h
  | mul => exact (exactInAllTiers_mul ha hb (Option.some_inj.mp hmath)).mp h
  | div => exact absurd rfl hop
  | mod =>
    simp only [mathResult, Option.ite_none_left_eq_some, Option.some.injEq] at hmath
    exact (exactInAllTiers_mod ha hb hmath.1 hmath.2).mp h
  | lt | gt | le | ge | eq | ne => simp [mathResult] at hmath

end Tiers

/-- **On operands that a double carries exactly, every implementation returns the mathematical result
when the result fits a double as well** (sums, differences, products), when the dividend is below
`2 ^ 53` or a multiple of the divisor (quotients), and always but for the least integer by `-1`
(remainders). Quotients apart, nothing less will do. -/
theorem exactInAllTiers_of_doubleSafe (op : BinOp) (a b c : Int64)
    (hmath : mathResult op a.toInt b.toInt = some c.toInt) (ha : FitsDouble a.toInt)
    (hb : FitsDouble b.toInt) :
    (DoubleSafe op a b c → ExactInAllTiers op a b c) ∧
      (op ≠ .div → (ExactInAllTiers op a b c ↔ DoubleSafe op a b c)) :=
  ⟨.of_doubleSafe ha hb hmath, fun hop => ⟨ExactInAllTiers.doubleSafe ha hb hmath hop, .of_doubleSafe ha hb hmath⟩⟩

theorem seven_by_minus_two_in_all_tiers : ExactInAllTiers .div 7 (-2) (-3) :=
  (exactInAllTiers_of_doubleSafe .div 7 (-2) (-3) (by decide) (.of_natAbs_lt (by decide))
    (.of_natAbs_lt (by decide))).1 (.inl (by decide))

/-- The integer an operator returned, if it returned one. -/
def OpResult.long? : OpResult → Option Int64
  | .value (.int i) => some i
  | _ => none

/-- `2 ^ 53 + 1` plus zero is `2 ^ 53` in the evaluator. -/
theorem sum_past_53_bits_not_exact :
    mathResult .add 9007199254740993 0 = some 9007199254740993 ∧
      (evalBinaryOp .add (.int 9007199254740993) (.int 0)).long? = some 9007199254740992 ∧
      ¬ExactInAllTiers .add 9007199254740993 0 9007199254740993 := by
  have heval : (evalBinaryOp .add (.int 9007199254740993) (.int 0)).long? = some 9007199254740992 := by
    decide +kernel
  refine ⟨by decide, heval, fun h => ?_⟩
  rw [h.evaluator] at heval
  exact absurd heval (by decide)

end Fluxa
