import Fluxa.IntArith

/-! Where the operators of the inliner are those of the evaluator. The evaluator computes in doubles and reports
what it cannot compute; the inliner keeps integers exact and makes a value up instead. On the operands described
here neither shows. -/

namespace Fluxa

open Value

open Binary64 (Double)

/-- Both tables have the same value for the operands. -/
def SameEntry (op : BinOp) (l r : Value) : Prop :=
  ∃ v, evalBinaryOp op l r = .value v ∧ simpleBinaryOp op l r = some v

/-- Integers on which no bit is lost and none is divided by zero. -/
def IntsAgree (op : BinOp) (a b : Int64) : Prop :=
  match op with
  | .add | .sub | .mul | .div | .mod => FitsDouble a.toInt ∧ FitsDouble b.toInt ∧
      ∃ c : Int64, mathResult op a.toInt b.toInt = some c.toInt ∧ DoubleSafe op a b c
  | .lt | .gt | .le | .ge => FitsDouble a.toInt ∧ FitsDouble b.toInt
  | .eq | .ne => True

/-- What both make of two numbers that are not both integers: there is no remainder, no quotient by zero, and
the evaluator's equality looks at the types first. -/
def doubleResult (op : BinOp) (x y : Double) : Option Value :=
  match op with
  | .add => some (.float (x.add y))
  | .sub => some (.float (x.sub y))
  | .mul => some (.float (x.mul y))
  | .div => if y.eq (.ofInt 0) then none else some (.float (x.div y))
  | .lt => some (.bool (x.lt y))
  | .gt => some (.bool (y.lt x))
  | .le => some (.bool (x.le y))
  | .ge => some (.bool (y.le x))
  | .mod | .eq | .ne => none

def DoublesAgree (op : BinOp) (l r : Value) : Prop :=
  ∃ x y, l.toDouble = some x ∧ r.toDouble = some y ∧ (doubleResult op x y).isSome

/-- Operands the evaluator and the inliner treat alike. -/
def InlineAgrees (op : BinOp) : Value → Value → Prop
  | .int a, .int b => IntsAgree op a b
  | l, r => (op = .eq ∧ l.type = .float ∧ r.type = .float) ∨ (op ≠ .le ∧ op ≠ .ge ∧ DoublesAgree op l r)

section Ints

variable {a b : Int64}

theorem lt_doubleOfLong (ha : FitsDouble a.toInt) (hb : FitsDouble b.toInt) :
    (doubleOfLong a).lt (doubleOfLong b) = decide (a < b) := by
  rw [Double.lt_eq_decide (toRat_doubleOfLong ha) (toRat_doubleOfLong hb), decide_eq_decide,
    Int64.lt_iff_toInt_lt, Int.cast_lt]

theorem le_doubleOfLong (ha : FitsDouble a.toInt) (hb : FitsDouble b.toInt) :
    (doubleOfLong a).le (doubleOfLong b) = decide (a ≤ b) := by
  rw [Double.le_eq_decide (toRat_doubleOfLong ha) (toRat_doubleOfLong hb), decide_eq_decide,
    Int64.le_iff_toInt_le, Int.cast_le]

theorem IntsAgree.sameEntry {op : BinOp} (h : IntsAgree op a b) : SameEntry op (.int a) (.int b) := by
  cases op with
  | add | sub | mul | div | mod =>
    obtain ⟨ha, hb, c, hmath, hsafe⟩ := h
    have hexact := ExactInAllTiers.of_doubleSafe ha hb hmath hsafe
    exact ⟨_, hexact.evaluator, hexact.inliner⟩
  | lt =>
    refine ⟨.bool (a < b), ?_, rfl⟩
    simp [evalBinaryOp, evalNumeric, toDouble, lt_doubleOfLong h.1 h.2]
  | gt =>
    refine ⟨.bool (b < a), ?_, rfl⟩
    simp [evalBinaryOp, evalNumeric, toDouble, lt_doubleOfLong h.2 h.1]
  | le =>
    refine ⟨.bool (a ≤ b), ?_, rfl⟩
    simp [evalBinaryOp, evalNumeric, toDouble, le_doubleOfLong h.1 h.2]
  | ge =>
    refine ⟨.bool (b ≤ a), ?_, rfl⟩
    simp [evalBinaryOp, evalNumeric, toDouble, le_doubleOfLong h.2 h.1]
  | eq => exact ⟨.bool (a == b), rfl, rfl⟩
  | ne => exact ⟨.bool (a != b), rfl, rfl⟩

end Ints

section Doubles

variable {op : BinOp} {l r v : Value} {x y : Double}

theorem Value.doubles_cases (hl : l.toDouble = some x) (hr : r.toDouble = some y)
    (hne : l.bothInt r = false) : (∃ a, l = .int a ∧ x = doubleOfLong a ∧ r = .float y) ∨
      (∃ b, l = .float x ∧ r = .int b ∧ y = doubleOfLong b) ∨ (l = .float x ∧ r = .float y) := by
  cases l <;> cases r <;> simp_all [toDouble, bothInt]

theorem evalBinaryOp_doubles (hl : l.toDouble = some x) (hr : r.toDouble = some y)
    (hne : l.bothInt r = false) (h : doubleResult op x y = some v) : evalBinaryOp op l r = .value v := by
  cases op <;>
    simp_all [doubleResult, evalBinaryOp, evalNumeric, ofDouble, OpResult.ofOption]

theorem simpleBinaryOp_doubles (hl : l.toDouble = some x) (hr : r.toDouble = some y)
    (hne : l.bothInt r = false) (hle : op ≠ .le) (hge : op ≠ .ge) (h : doubleResult op x y = some v) :
    simpleBinaryOp op l r = some v := by
  rcases doubles_cases hl hr hne with ⟨a, rfl, rfl, rfl⟩ | ⟨b, rfl, rfl, rfl⟩ | ⟨rfl, rfl⟩ <;>
    cases op <;>
    simp_all [doubleResult, simpleBinaryOp, toDouble, type]

theorem InlineAgrees.sameEntry (h : InlineAgrees op l r) : SameEntry op l r := by
  unfold InlineAgrees at h
  split at h
  · exact h.sameEntry
  · next hne =>
    rcases h with ⟨rfl, hl, hr⟩ | ⟨hle, hge, x, y, hl, hr, hv⟩
    · cases l <;> cases r <;> simp_all [SameEntry, type, evalBinaryOp, simpleBinaryOp, eqv, toDouble]
    · obtain ⟨v, hv⟩ := Option.isSome_iff_exists.mp hv
      have hne : l.bothInt r = false := by
        cases l <;> cases r <;> simp_all [bothInt]
      exact ⟨v, evalBinaryOp_doubles hl hr hne hv, simpleBinaryOp_doubles hl hr hne hle hge hv⟩

end Doubles

end Fluxa
