import Fluxa.IntArith

/-! The two instruction loops of the VM. `vm_run` and `vm_run_fn` are each written twice, as a computed goto
for compilers that have it and as a switch. An instruction is here as the chunk holds it, an opcode with three
numbers and an offset, so a chunk need not come from the compiler. Callbacks get pointers to the registers,
the constants and the index caches and may change all of them. Strings are values, not references: retaining
and releasing them, which the two loops do at different places, changes no register. -/

namespace Fluxa.Dispatch

/-- In the order of the dispatch tables. -/
inductive Opcode where
  | loadk | move | add | sub | mul | div | mod | eq | neq | lt | gt | lte | gte | jumpIfFalse | jump | ret
  | callMethod | callFunc | getField | setField | getIndex | prepIndex | setIndex | returnVal | returnNil
  | loadkStr | moveStr | dropStr | getFieldV | not | truthy

structure Instruction where
  op : Opcode
  a : UInt16
  b : UInt16
  c : UInt16
  offset : ℤ

inductive IndexKind where
  | get | prep | set

/-- A call of a callback, with the arguments it gets. `call_cb` gets a pointer to the owner's constant, or null
for a plain function, and the argument window. -/
inductive Event where
  | call (owner : Option UInt16) (name : Value) (args : List Value) (argc : ℤ)
  | getField (owner : UInt16) (field : Value)
  | setField (owner : UInt16) (field value : Value)
  | index (kind : IndexKind) (cache : UInt16) (name : Value) (hint : ℤ) (index value : Value)
  | store (dst src : UInt16)
  | tick

/-- What a callback can reach. -/
structure Shared (W : Type) where
  regs : ℕ → Value
  consts : ℕ → Value
  failed : ℕ → Bool
  world : W

abbrev Callback (W : Type) := Event → Shared W → Value × Shared W

/-- The callbacks, each of which may be null. The cancel flag may be set at any time: `cancelled n` is its value
when the `n`-th instruction runs. `store` and `tick` are arguments of `vm_run` only. -/
structure Callbacks (W : Type) where
  call : Option (Callback W)
  getField : Option (Callback W)
  setField : Option (Callback W)
  index : Option (Callback W)
  store : Option (Callback W)
  tick : Option (Callback W)
  cancelled : ℕ → Bool

structure State (W : Type) extends Shared W where
  ip : ℕ
  steps : ℕ
  calls : List Event

/-- `done` carries the return value, if there is one: `vm_run_fn` always has one and `vm_run` has one after
`did_return` is set. -/
inductive Outcome (W : Type) where
  | next (s : State W)
  | done (result : Option Value) (s : State W)
  | undefined (s : State W)

/-- Which of the two functions runs the chunk. -/
inductive Mode where
  | run | runFn

/-- The result of a chunk that ends without a return value. -/
def Mode.noResult : Mode → Option Value
  | .run => none
  | .runFn => some .nil

namespace State

variable {W : Type}

def reg (s : State W) (r : UInt16) : Value := s.regs r.toNat

def const (s : State W) (k : UInt16) : Value := s.consts k.toNat

def setReg (s : State W) (r : UInt16) (v : Value) : State W :=
  { s with regs := Function.update s.regs r.toNat v }

def window (s : State W) (first : ℕ) (argc : ℤ) : List Value :=
  (List.range argc.toNat).map fun k => s.regs (first + k)

def jump (s : State W) (target : ℤ) : State W := { s with ip := target.toNat }

/-- A callback that is not null is called; otherwise the value is `absent`. -/
def invoke (s : State W) (cb : Option (Callback W)) (e : Event) (absent : Value) : Value × State W :=
  match cb with
  | none => (absent, s)
  | some f =>
    let r := f e s.toShared
    (r.1, { s with toShared := r.2, calls := s.calls ++ [e] })

def write (s : State W) (r : UInt16) : Option Value → Outcome W
  | some v => .next (s.setReg r v)
  | none => .undefined s

end State

/-- The guard of `OP_GET_FIELD_V`: only int, float, bool and nil pass. -/
def plainOrNil : Value → Value
  | .int i => .int i
  | .float d => .float d
  | .bool b => .bool b
  | _ => .nil

/-- The guard of the store callback: a register of the variable band gets or loses a dyn. -/
def isDynStore (a : UInt16) (dst src : Value) : Bool :=
  decide (a.toNat < 128) && (decide (dst.type = .dyn) || decide (src.type = .dyn))

section Goto

variable {W : Type} (m : Mode) (cbs : Callbacks W) (code : List Instruction)

/-- `FN_ADD`, `L_ADD`. -/
def gotoAdd (l r : Value) : Option Value :=
  match l, r with
  | .int x, .int y => Value.ofLong? (longOfInt (x.toInt + y.toInt))
  | l, r => vmArith .add l r

/-- `FN_SUB`, `L_SUB`. -/
def gotoSub (l r : Value) : Option Value :=
  match l, r with
  | .int x, .int y => Value.ofLong? (longOfInt (x.toInt - y.toInt))
  | l, r => vmArith .sub l r

/-- `FN_LT`, `L_LT`. -/
def gotoLt (l r : Value) : Value :=
  match l, r with
  | .int x, .int y => .bool (x < y)
  | l, r => vmCompare .lt l r

/-- `FN_JUMP_IF_FALSE`, `L_JUMP_IF_FALSE`. -/
def gotoTruthy : Value → Bool
  | .bool b => b
  | .int i => i != 0
  | v => v.vmTruthy

/-- One instruction of the computed goto. `NEXT` past the end of the code returns. -/
def gotoStep (s : State W) : Outcome W :=
  match code[s.ip]? with
  | none => .done m.noResult s
  | some i =>
    let s := { s with ip := s.ip + 1, steps := s.steps + 1 }
    match i.op with
    | .loadk | .loadkStr => .next (s.setReg i.a (s.const i.b))
    | .move =>
      match m with
      | .runFn => .next (s.setReg i.a (s.reg i.b))
      | .run =>
        let s := if isDynStore i.a (s.reg i.a) (s.reg i.b) then (s.invoke cbs.store (.store i.a i.b) .nil).2
          else s
        .next (s.setReg i.a (s.reg i.b))
    | .moveStr => .next (s.setReg i.a (s.reg i.b))
    | .dropStr => .next (s.setReg i.a .nil)
    | .add => s.write i.a (gotoAdd (s.reg i.b) (s.reg i.c))
    | .sub => s.write i.a (gotoSub (s.reg i.b) (s.reg i.c))
    | .mul => s.write i.a (vmArith .mul (s.reg i.b) (s.reg i.c))
    | .div => s.write i.a (vmArith .div (s.reg i.b) (s.reg i.c))
    | .mod => s.write i.a (vmArith .mod (s.reg i.b) (s.reg i.c))
    | .lt => .next (s.setReg i.a (gotoLt (s.reg i.b) (s.reg i.c)))
    | .eq => .next (s.setReg i.a (vmCompare .eq (s.reg i.b) (s.reg i.c)))
    | .neq => .next (s.setReg i.a (vmCompare .ne (s.reg i.b) (s.reg i.c)))
    | .gt => .next (s.setReg i.a (vmCompare .gt (s.reg i.b) (s.reg i.c)))
    | .lte => .next (s.setReg i.a (vmCompare .le (s.reg i.b) (s.reg i.c)))
    | .gte => .next (s.setReg i.a (vmCompare .ge (s.reg i.b) (s.reg i.c)))
    | .jumpIfFalse => .next (if gotoTruthy (s.reg i.a) then s else s.jump i.offset)
    | .jump =>
      match m with
      | .runFn => .next (s.jump i.offset)
      | .run =>
        if cbs.cancelled s.steps then .done none s
        else .next ((s.invoke cbs.tick .tick .nil).2.jump i.offset)
    | .callMethod =>
      -- the old string of the destination is released before the call, not cleared
      let first := (i.offset / 65536 % 65536).toNat
      let argc := i.offset % 65536
      let r := s.invoke cbs.call (.call (some i.b) (s.const i.c) (s.window first argc) argc) .nil
      .next (r.2.setReg i.a r.1)
    | .callFunc =>
      let r := s.invoke cbs.call (.call none (s.const i.b) (s.window i.c.toNat i.offset) i.offset) .nil
      .next (r.2.setReg i.a r.1)
    | .not => .next (s.setReg i.a (.bool !(s.reg i.b).truthyNot))
    | .truthy => .next (s.setReg i.a (.bool (s.reg i.b).truthyLogic))
    | .getFieldV =>
      let r := s.invoke cbs.getField (.getField i.b (s.const i.c)) .nil
      .next (r.2.setReg i.a (plainOrNil r.1))
    | .getField =>
      let r := s.invoke cbs.getField (.getField i.b (s.const i.c)) .nil
      .next (r.2.setReg i.a r.1)
    | .setField => .next (s.invoke cbs.setField (.setField i.b (s.const i.c) (s.reg i.a)) .nil).2
    | .getIndex =>
      let r := s.invoke cbs.index (.index .get i.b (s.const i.b) i.offset (s.reg i.c) .nil) .nil
      let s := r.2.setReg i.a r.1
      if s.failed i.b.toNat then .done m.noResult s else .next s
    | .prepIndex =>
      let hint := if i.a = 65535 then -1 else (i.a.toNat : ℤ)
      let r := s.invoke cbs.index (.index .prep i.b (s.const i.b) hint (s.reg i.c) .nil) (.bool false)
      if r.2.failed i.b.toNat then .done m.noResult r.2
      else match r.1 with
        | .bool true => .next r.2
        | _ => .next (r.2.jump i.offset)
    | .setIndex =>
      let r := s.invoke cbs.index (.index .set i.b (s.const i.b) i.offset (s.reg i.c) (s.reg i.a)) .nil
      if r.2.failed i.b.toNat then .done m.noResult r.2 else .next r.2
    | .returnVal => .done (some (s.reg i.a)) s
    | .returnNil => .done (some .nil) s
    | .ret => .done m.noResult s

end Goto

section Switch

variable {W : Type} (m : Mode) (cbs : Callbacks W) (code : List Instruction)

/-- `case OP_ADD`. -/
def switchAdd (l r : Value) : Option Value :=
  match l, r with
  | .int x, .int y => Value.ofLong? (longOfInt (x.toInt + y.toInt))
  | l, r => vmArith .add l r

/-- `case OP_LT`: only the switch of `vm_run` has a case for integers. -/
def switchLt (l r : Value) : Value :=
  match m, l, r with
  | .run, .int x, .int y => .bool (x < y)
  | _, l, r => vmCompare .lt l r

/-- `case OP_JUMP_IF_FALSE`. -/
def switchTruthy : Mode → Value → Bool
  | _, .bool b => b
  | .run, .int i => i != 0
  | _, v => v.vmTruthy

/-- One turn of the `while` loop. `OP_SUB` has no case for integers. -/
def switchStep (s : State W) : Outcome W :=
  match code[s.ip]? with
  | none => .done m.noResult s
  | some i =>
    let s := { s with ip := s.ip + 1, steps := s.steps + 1 }
    match i.op with
    | .loadk => .next (s.setReg i.a (s.const i.b))
    | .move =>
      match m with
      | .runFn => .next (s.setReg i.a (s.reg i.b))
      | .run =>
        let s := if isDynStore i.a (s.reg i.a) (s.reg i.b) then (s.invoke cbs.store (.store i.a i.b) .nil).2
          else s
        .next (s.setReg i.a (s.reg i.b))
    | .add => s.write i.a (switchAdd (s.reg i.b) (s.reg i.c))
    | .sub => s.write i.a (vmArith .sub (s.reg i.b) (s.reg i.c))
    | .mul => s.write i.a (vmArith .mul (s.reg i.b) (s.reg i.c))
    | .div => s.write i.a (vmArith .div (s.reg i.b) (s.reg i.c))
    | .mod => s.write i.a (vmArith .mod (s.reg i.b) (s.reg i.c))
    | .eq => .next (s.setReg i.a (vmCompare .eq (s.reg i.b) (s.reg i.c)))
    | .neq => .next (s.setReg i.a (vmCompare .ne (s.reg i.b) (s.reg i.c)))
    | .lt => .next (s.setReg i.a (switchLt m (s.reg i.b) (s.reg i.c)))
    | .gt => .next (s.setReg i.a (vmCompare .gt (s.reg i.b) (s.reg i.c)))
    | .lte => .next (s.setReg i.a (vmCompare .le (s.reg i.b) (s.reg i.c)))
    | .gte => .next (s.setReg i.a (vmCompare .ge (s.reg i.b) (s.reg i.c)))
    | .jumpIfFalse => .next (if switchTruthy m (s.reg i.a) then s else s.jump i.offset)
    | .jump =>
      match m with
      | .runFn => .next (s.jump i.offset)
      | .run =>
        if cbs.cancelled s.steps then .done none s
        else .next ((s.invoke cbs.tick .tick .nil).2.jump i.offset)
    | .callMethod =>
      let first := (i.offset / 65536 % 65536).toNat
      let argc := i.offset % 65536
      let r := s.invoke cbs.call (.call (some i.b) (s.const i.c) (s.window first argc) argc) .nil
      .next (r.2.setReg i.a r.1)
    | .callFunc =>
      let r := s.invoke cbs.call (.call none (s.const i.b) (s.window i.c.toNat i.offset) i.offset) .nil
      .next (r.2.setReg i.a r.1)
    | .getField =>
      let r := s.invoke cbs.getField (.getField i.b (s.const i.c)) .nil
      .next (r.2.setReg i.a r.1)
    | .getFieldV =>
      let r := s.invoke cbs.getField (.getField i.b (s.const i.c)) .nil
      .next (r.2.setReg i.a (plainOrNil r.1))
    | .not => .next (s.setReg i.a (.bool !(s.reg i.b).truthyNot))
    | .truthy => .next (s.setReg i.a (.bool (s.reg i.b).truthyLogic))
    | .setField => .next (s.invoke cbs.setField (.setField i.b (s.const i.c) (s.reg i.a)) .nil).2
    | .getIndex =>
      let r := s.invoke cbs.index (.index .get i.b (s.const i.b) i.offset (s.reg i.c) .nil) .nil
      let s := r.2.setReg i.a r.1
      if s.failed i.b.toNat then .done m.noResult s else .next s
    | .prepIndex =>
      let hint := if i.a = 65535 then -1 else (i.a.toNat : ℤ)
      let r := s.invoke cbs.index (.index .prep i.b (s.const i.b) hint (s.reg i.c) .nil) (.bool false)
      if r.2.failed i.b.toNat then .done m.noResult r.2
      else match r.1 with
        | .bool true => .next r.2
        | _ => .next (r.2.jump i.offset)
    | .setIndex =>
      let r := s.invoke cbs.index (.index .set i.b (s.const i.b) i.offset (s.reg i.c) (s.reg i.a)) .nil
      if r.2.failed i.b.toNat then .done m.noResult r.2 else .next r.2
    | .returnVal => .done (some (s.reg i.a)) s
    | .returnNil => .done (some .nil) s
    | .ret => .done m.noResult s
    | .loadkStr => .next (s.setReg i.a (s.const i.b))
    | .moveStr => .next (s.setReg i.a (s.reg i.b))
    | .dropStr => .next (s.setReg i.a .nil)

end Switch

section Agreement

variable {W : Type} {code : List Instruction}

theorem gotoLt_eq_switchLt (m : Mode) (l r : Value) : gotoLt l r = switchLt m l r := by
  cases m <;> cases l <;> cases r <;> rfl

theorem gotoTruthy_eq_switchTruthy (m : Mode) (v : Value) : gotoTruthy v = switchTruthy m v := by
  cases m <;> cases v <;> rfl

/-- The difference of two integers is the same in integers and in doubles: both and their difference have at
most 53 significant bits, and the difference is a `long`. -/
def SubExact : Value → Value → Prop
  | .int x, .int y =>
    FitsDouble x.toInt ∧ FitsDouble y.toInt ∧ FitsDouble (x.toInt - y.toInt) ∧
      -2 ^ 63 ≤ x.toInt - y.toInt ∧ x.toInt - y.toInt < 2 ^ 63
  | _, _ => True

theorem gotoSub_eq_vmArith {l r : Value} (h : SubExact l r) : gotoSub l r = vmArith .sub l r := by
  cases l with
  | int x =>
    cases r with
    | int y =>
      obtain ⟨hx, hy, hxy, hlow, hhigh⟩ := h
      have hc : x.toInt - y.toInt = (Int64.ofInt (x.toInt - y.toInt)).toInt :=
        (Int64.toInt_ofInt_of_le hlow hhigh).symm
      have hlong : longOfInt (x.toInt - y.toInt) = some (Int64.ofInt (x.toInt - y.toInt)) :=
        longOfInt_eq_some.mpr hc.symm
      have hdouble := (longOfDouble_sub_iff hx hy hc).mpr (hc ▸ hxy)
      change Value.ofLong? (longOfInt (x.toInt - y.toInt)) =
        Value.ofLong? (longOfDouble ((doubleOfLong x).sub (doubleOfLong y)))
      rw [hlong, hdouble]
    | _ => rfl
  | _ => rfl

/-- The instruction at hand is no subtraction, or an exact one. -/
def StepExact (code : List Instruction) (s : State W) : Prop :=
  ∀ i, code[s.ip]? = some i → i.op = .sub → SubExact (s.reg i.b) (s.reg i.c)

theorem gotoStep_eq_switchStep (m : Mode) (cbs : Callbacks W) {s : State W} (h : StepExact code s) :
    gotoStep m cbs code s = switchStep m cbs code s := by
  unfold gotoStep switchStep
  rcases hi : code[s.ip]? with _ | ⟨op, a, b, c, offset⟩
  · rfl
  · cases op with
    | sub =>
      dsimp only
      rw [gotoSub_eq_vmArith]
      exact h _ hi rfl
    | lt =>
      dsimp only
      rw [gotoLt_eq_switchLt m]
    | jumpIfFalse =>
      dsimp only
      rw [gotoTruthy_eq_switchTruthy m]
    | _ => rfl

/-- At most `n` instructions. -/
def run (step : State W → Outcome W) : ℕ → State W → Outcome W
  | 0, s => .next s
  | n + 1, s =>
    match step s with
    | .next t => run step n t
    | o => o

/-- All subtractions among the first `n` instructions are exact. -/
def RunExact (m : Mode) (cbs : Callbacks W) (code : List Instruction) : ℕ → State W → Prop
  | 0, _ => True
  | n + 1, s => StepExact code s ∧ ∀ t, gotoStep m cbs code s = .next t → RunExact m cbs code n t

/-- **Both dispatchers do the same as long as subtractions are exact.** The outcome has the registers, the
return value and the calls of the callbacks. -/
theorem dispatchers_agree (m : Mode) (cbs : Callbacks W) (code : List Instruction) (n : ℕ) (s : State W)
    (h : RunExact m cbs code n s) : run (gotoStep m cbs code) n s = run (switchStep m cbs code) n s := by
  induction n generalizing s with
  | zero => rfl
  | succ n ih =>
    obtain ⟨hs, hrest⟩ := h
    have hstep := gotoStep_eq_switchStep m cbs hs
    rw [run, run, ← hstep]
    cases hout : gotoStep m cbs code s with
    | next t => exact ih t (hrest t hout)
    | done result t => rfl
    | undefined t => rfl

/-- `R[2] = R[0] - R[1]; return R[2]`. -/
def subtraction : List Instruction := [⟨.sub, 2, 0, 1, 0⟩, ⟨.returnVal, 2, 0, 0, 0⟩]

def noCallbacks : Callbacks Unit := ⟨none, none, none, none, none, none, fun _ => false⟩

def operands (x y : Int64) : State Unit :=
  ⟨⟨fun r => if r = 0 then .int x else if r = 1 then .int y else .nil, fun _ => .nil, fun _ => false, ()⟩, 0, 0, []⟩

theorem dispatchers_agree_on_small_difference :
    run (gotoStep .runFn noCallbacks subtraction) 2 (operands 7 5) =
      run (switchStep .runFn noCallbacks subtraction) 2 (operands 7 5) := by
  refine dispatchers_agree .runFn noCallbacks subtraction 2 (operands 7 5) ⟨?_, ?_⟩
  · rintro i ⟨⟩ -
    exact ⟨.of_natAbs_lt (by decide), .of_natAbs_lt (by decide), .of_natAbs_lt (by decide), by decide, by decide⟩
  · intro t ht
    refine ⟨?_, fun _ _ => trivial⟩
    obtain rfl := Outcome.next.inj ht
    rintro i ⟨⟩ ⟨⟩

def Outcome.long? : Outcome Unit → Option Int64
  | .done (some (.int i)) _ => some i
  | _ => none

/-- `2 ^ 53 + 1` minus zero is `2 ^ 53` in the switch of both functions. -/
theorem dispatchers_differ_on_large_difference :
    ((run (gotoStep .run noCallbacks subtraction) 2 (operands 9007199254740993 0)).long? = some 9007199254740993 ∧
      (run (switchStep .run noCallbacks subtraction) 2 (operands 9007199254740993 0)).long? =
        some 9007199254740992) ∧
    (run (gotoStep .runFn noCallbacks subtraction) 2 (operands 9007199254740993 0)).long? =
        some 9007199254740993 ∧
      (run (switchStep .runFn noCallbacks subtraction) 2 (operands 9007199254740993 0)).long? =
        some 9007199254740992 := by
  decide +kernel

end Agreement

end Fluxa.Dispatch
