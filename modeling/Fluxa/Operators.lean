import Fluxa.Value

/-! The three implementations of the operators: the evaluator's (`eval_binary`), the VM's (`vm_arith`,
`vm_compare` and the fast paths of the dispatch loop) and the inliner's (`eval_simple_expr`). What C
leaves undefined, a signed overflow, a cast of a double that does not fit or the remainder of the
least integer by `-1`, is `undefined` or `none` here. -/

namespace Fluxa

open Value

open Binary64 (Double)

/-- What an operator does with two values. -/
inductive OpResult where
  | value (v : Value)
  | error (e : RtError)
  | undefined

def OpResult.ofOption : Option Value → OpResult
  | some v => .value v
  | none => .undefined

/-- A mathematical integer as a `long`, if it fits. -/
def longOfInt (i : ℤ) : Option Int64 :=
  if Int64.minValue.toInt ≤ i ∧ i ≤ Int64.maxValue.toInt then some (Int64.ofInt i) else none

/-- The cast `(double)`. -/
def doubleOfLong (i : Int64) : Double := .ofInt i.toInt

/-- The cast `(long)`. -/
def longOfDouble (d : Double) : Option Int64 := d.trunc.bind longOfInt

/-- The C operators `/` and `%` on nonzero divisors. -/
def longDiv (a b : Int64) : Option Int64 := longOfInt (a.toInt.tdiv b.toInt)

def longRem (a b : Int64) : Option Int64 :=
  if a = Int64.minValue ∧ b = -1 then none else longOfInt (a.toInt.tmod b.toInt)

namespace Value

def ofLong? (i : Option Int64) : Option Value := i.map .int

/-- `==` of both tiers: values of different types are never equal. -/
def eqv : Value → Value → Bool
  | nil, nil => true
  | int a, int b => a == b
  | float a, float b => a.eq b
  | bool a, bool b => a == b
  | str a, str b => a == b
  | _, _ => false

/-- The conditions of `if` and `while` in the evaluator. -/
def truthy : Value → Bool
  | bool b => b
  | int i => i != 0
  | float d => !d.eq (.ofInt 0)
  | str s => s != ""
  | _ => false

/-- The operand of `!`, in both tiers (`vm_truthy_not`). -/
def truthyNot : Value → Bool
  | bool b => b
  | int i => i != 0
  | float d => !d.eq (.ofInt 0)
  | nil => false
  | _ => true

/-- The operands of `&&` and `||`, in both tiers (`vm_truthy_logic`). -/
def truthyLogic : Value → Bool
  | bool b => b
  | int i => i != 0
  | nil => false
  | _ => true

/-- `vm_truthy`, the condition of a conditional jump: a string is false. -/
def vmTruthy : Value → Bool
  | bool b => b
  | int i => i != 0
  | float d => !d.eq (.ofInt 0)
  | _ => false

def toDouble : Value → Option Double
  | int i => some (doubleOfLong i)
  | float d => some d
  | _ => none

def bothInt : Value → Value → Bool
  | int _, int _ => true
  | _, _ => false

/-- A result computed in doubles goes back to a `long` when both operands were integers. -/
def ofDouble (bothInt : Bool) (d : Double) : Option Value :=
  if bothInt then ofLong? (longOfDouble d) else some (float d)

end Value

/-- The part of `eval_binary` below `==` and `!=`: operands are turned into doubles first. -/
def evalNumeric (op : BinOp) (l r : Value) : OpResult :=
  match l.toDouble with
  | none => .error (.nonNumeric l.type op)
  | some x =>
    match r.toDouble with
    | none => .error (.nonNumeric r.type op)
    | some y =>
      match op with
      | .add => .ofOption (ofDouble (l.bothInt r) (x.add y))
      | .sub => .ofOption (ofDouble (l.bothInt r) (x.sub y))
      | .mul => .ofOption (ofDouble (l.bothInt r) (x.mul y))
      | .div =>
        if y.eq (.ofInt 0) then .error .divisionByZero
        else .ofOption (ofDouble (l.bothInt r) (x.div y))
      | .mod =>
        if !l.bothInt r then .error .moduloOperands
        else match longOfDouble y with
          | none => .undefined
          | some b =>
            if b = 0 then .error .moduloByZero
            else .ofOption (ofLong? ((longOfDouble x).bind (longRem · b)))
      | .lt => .value (.bool (x.lt y))
      | .gt => .value (.bool (y.lt x))
      | .le => .value (.bool (x.le y))
      | .ge => .value (.bool (y.le x))
      -- the two equalities never get here
      | .eq => .value (.bool (l.eqv r))
      | .ne => .value (.bool (!l.eqv r))

/-- `eval_binary` on evaluated operands. -/
def evalBinaryOp (op : BinOp) (l r : Value) : OpResult :=
  match op with
  | .eq => .value (.bool (l.eqv r))
  | .ne => .value (.bool (!l.eqv r))
  | op => evalNumeric op l r

section Results

variable {v : Value}

theorem OpResult.ofOption_eq_value {o : Option Value} : OpResult.ofOption o = .value v ↔ o = some v := by
  cases o <;> simp [OpResult.ofOption]

theorem Value.type_of_ofLong {i : Option Int64} (h : ofLong? i = some v) : v.type = .int := by
  obtain ⟨i, -, rfl⟩ := Option.map_eq_some_iff.mp h
  rfl

theorem Value.type_of_ofDouble {both : Bool} {d : Double} (h : ofDouble both d = some v) :
    v.type = .int ∨ v.type = .float := by
  unfold ofDouble at h
  split at h
  · exact .inl (type_of_ofLong h)
  · obtain rfl := Option.some.inj h
    exact .inr rfl

theorem evalBinaryOp_scalar {op : BinOp} {l r : Value} (h : evalBinaryOp op l r = .value v) :
    v.type = .int ∨ v.type = .float ∨ v.type = .bool := by
  have hbool {b : Bool} (h : OpResult.value (.bool b) = .value v) : v.type = .bool := by
    obtain rfl := OpResult.value.inj h
    rfl
  cases op <;> simp only [evalBinaryOp, evalNumeric] at h <;> repeat' split at h
  -- an error or a value that is undefined, a boolean, a remainder, or an arithmetic result
  all_goals first
    | contradiction
    | exact .inr (.inr (hbool h))
    | exact .inl (type_of_ofLong (OpResult.ofOption_eq_value.mp h))
    | exact (type_of_ofDouble (OpResult.ofOption_eq_value.mp h)).imp_right .inl

end Results

/-- `vm_arith`: an operand without a numeric payload counts as `0.0`, and a division or a remainder
that the evaluator refuses gives zero. -/
def vmArith (op : BinOp) (l r : Value) : Option Value :=
  let x := l.toDouble.getD (.ofInt 0)
  let y := r.toDouble.getD (.ofInt 0)
  match op with
  | .add => ofDouble (l.bothInt r) (x.add y)
  | .sub => ofDouble (l.bothInt r) (x.sub y)
  | .mul => ofDouble (l.bothInt r) (x.mul y)
  | .div => ofDouble (l.bothInt r) (if y.eq (.ofInt 0) then .ofInt 0 else x.div y)
  | .mod =>
    if l.bothInt r then
      (longOfDouble y).bind fun b =>
        if b = 0 then some (.int 0) else ofLong? ((longOfDouble x).bind (longRem · b))
    else some (.int 0)
  | _ => ofDouble (l.bothInt r) (.ofInt 0)

def longCompare (op : BinOp) (a b : Int64) : Bool :=
  match op with
  | .eq => a == b
  | .ne => a != b
  | .lt => a < b
  | .gt => b < a
  | .le => a ≤ b
  | .ge => b ≤ a
  | _ => false

/-- `vm_compare`: integers are compared as integers, and an ordering of anything that is not a number
is false. -/
def vmCompare (op : BinOp) : Value → Value → Value
  | .int a, .int b => .bool (longCompare op a b)
  | l, r =>
    match op with
    | .eq => .bool (l.eqv r)
    | .ne => .bool (!l.eqv r)
    | op =>
      match l.toDouble, r.toDouble with
      | some x, some y =>
        match op with
        | .lt => .bool (x.lt y)
        | .gt => .bool (y.lt x)
        | .le => .bool (x.le y)
        | .ge => .bool (y.le x)
        | _ => .bool false
      | _, _ => .bool false

/-- The arithmetic and comparison instructions of `vm_run` and `vm_run_fn`. Sums and differences of
two integers stay in integers. -/
def vmBinaryOp (op : BinOp) (l r : Value) : Option Value :=
  match op, l, r with
  | .add, .int a, .int b => ofLong? (longOfInt (a.toInt + b.toInt))
  | .sub, .int a, .int b => ofLong? (longOfInt (a.toInt - b.toInt))
  | .add, l, r => vmArith .add l r
  | .sub, l, r => vmArith .sub l r
  | .mul, l, r => vmArith .mul l r
  | .div, l, r => vmArith .div l r
  | .mod, l, r => vmArith .mod l r
  | op, l, r => some (vmCompare op l r)

/-- The binary case of `eval_simple_expr`. An operand pair its two tables do not cover gives nil; next
to a float, an operand that is not a number is read through the wrong member of the union. -/
def simpleBinaryOp (op : BinOp) (l r : Value) : Option Value :=
  match l, r with
  | .int a, .int b =>
    match op with
    | .add => ofLong? (longOfInt (a.toInt + b.toInt))
    | .sub => ofLong? (longOfInt (a.toInt - b.toInt))
    | .mul => ofLong? (longOfInt (a.toInt * b.toInt))
    | .div => if b = 0 then some (.int 0) else ofLong? (longDiv a b)
    | .mod => if b = 0 then some (.int 0) else ofLong? (longRem a b)
    | op => some (.bool (longCompare op a b))
  | l, r =>
    if l.type = .float ∨ r.type = .float then
      let onDoubles (f : Double → Double → Value) : Option Value :=
        l.toDouble.bind fun x => r.toDouble.map fun y => f x y
      match op with
      | .add => onDoubles fun x y => .float (x.add y)
      | .sub => onDoubles fun x y => .float (x.sub y)
      | .mul => onDoubles fun x y => .float (x.mul y)
      | .div => onDoubles fun x y => .float (if y.eq (.ofInt 0) then .ofInt 0 else x.div y)
      | .eq => onDoubles fun x y => .bool (x.eq y)
      | .lt => onDoubles fun x y => .bool (x.lt y)
      | .gt => onDoubles fun x y => .bool (y.lt x)
      | _ => some .nil
    else some .nil

end Fluxa
