import Fluxa.Base.Along
import Fluxa.Base.RefCount
import Fluxa.Runtime

/-! The collector of dyns (`gc.h`), and who takes and drops its pins: the stores of the evaluator (`rt_set`) and of the
VM (`vm_store_callback`). Parameters and the other registers of the VM are filled without a pin, and what a call leaves
in the slots above the caller's own is not unpinned.

Only dyns are looked at: a slot or a register holds a dyn or something else. The program is not fixed. What the source
does not have is only recorded: whether what a slot holds was pinned when it was put there (`counted`), and whether it
was put there since the frame began (`live`). The table is a map here; `gc_find_slot` and the growth of the table are
left out. -/

namespace Fluxa.Gc

open RefCount (held)

/-- The tracked dyns with their `pin_count`. -/
abbrev GCTable := ℕ → Option ℕ

section Table

variable (g : GCTable) (d : ℕ)

def gcRegister : GCTable := if (g d).isSome then g else Function.update g d (some 0)

def gcPin : GCTable := Function.update g d ((g d).map (· + 1))

def gcUnpin : GCTable := Function.update g d ((g d).map (· - 1))

def gcUnregister : GCTable := Function.update g d none

/-- What `gc_sweep` frees is tracked no longer. -/
def gcSweep : GCTable := fun d => if g d = some 0 then none else g d

end Table

structure Slot where
  dyn : Option ℕ
  counted : Bool
  live : Bool

def Slot.empty : Slot := ⟨none, false, false⟩

/-- What is put into a slot without a pin. -/
def Slot.bare (v : Option ℕ) : Slot := ⟨v, false, true⟩

/-- What an earlier frame has left. -/
def Slot.leftOver (x : Slot) : Slot := { x with live := false }

abbrev Slots := Fin fluxaStackSize → Slot

instance : NeZero fluxaStackSize := ⟨by decide⟩

/-- A frame of the stack, and the registers of the functions that `vm_run_fn` runs in it. -/
structure Frame where
  slots : Slots
  size : ℕ
  files : List (List (Option ℕ))

/-- `callers` are the frames that calls have saved, the last one first. -/
structure State where
  table : GCTable
  current : Frame
  callers : List Frame

def State.start : State := ⟨fun _ => none, ⟨fun _ => .empty, 0, []⟩, []⟩

/-- What can happen next. `load` is an instruction of the VM that writes a register, other than `OP_MOVE`. The
events `enterFn`, `setFn` and `leaveFn` are those of `vm_run_fn`. -/
inductive Event where
  | register (d : ℕ)
  | unregister (d : ℕ)
  | set (i : Fin fluxaStackSize) (v : Option ℕ)
  | move (i : Fin fluxaStackSize) (v : Option ℕ)
  | load (i : Fin fluxaStackSize) (v : Option ℕ)
  | free (i : Fin fluxaStackSize)
  | call (args : List (Option ℕ))
  | tailCall (args : List (Option ℕ))
  | ret
  | enterVm (nextReg maxSlot : ℕ)
  | enterFn (args : List (Option ℕ)) (regCount : ℕ)
  | setFn (a : ℕ) (v : Option ℕ)
  | leaveFn
  | sweep

/-- The pins when a slot that holds `old` is given `v`. -/
def unpinOld (g : GCTable) (old v : Option ℕ) : GCTable :=
  match old with
  | some d => if v = some d then g else gcUnpin g d
  | none => g

def pinNew (g : GCTable) : Option ℕ → GCTable
  | some d => gcPin g d
  | none => g

def Frame.setSlot (f : Frame) (i : Fin fluxaStackSize) (x : Slot) : Frame :=
  { f with slots := Function.update f.slots i x }

/-- The slots of a call that has cleared some of them and bound its parameters. -/
def bindParams (slots : Slots) (args : List (Option ℕ)) (callerSize : ℕ) : Slots := fun i =>
  match args[i.val]? with
  | some v => .bare v
  | none => if i < Runtime.zeroCount args.length callerSize then .empty else (slots i).leftOver

namespace State

variable (s : State)

/-- `rt_set` for a name with a slot. A dyn that is stored over itself is pinned once more. -/
def rtSet (i : Fin fluxaStackSize) (v : Option ℕ) : State :=
  { s with
    table := pinNew (unpinOld s.table (s.current.slots i).dyn v) v
    current := { s.current.setSlot i ⟨v, true, true⟩ with size := max s.current.size (i + 1) } }

/-- A register that is written without a look at the pins. -/
def loadReg (i : Fin fluxaStackSize) (v : Option ℕ) : State := { s with current := s.current.setSlot i (.bare v) }

/-- `OP_MOVE` with `vm_store_callback`. -/
def opMove (i : Fin fluxaStackSize) (v : Option ℕ) : State :=
  if firstTemp ≤ i then s.loadReg i v
  else if (s.current.slots i).dyn = v then
    { s with current := s.current.setSlot i { s.current.slots i with live := true } }
  else
    { s with
      table := pinNew (unpinOld s.table (s.current.slots i).dyn v) v
      current := s.current.setSlot i ⟨v, true, true⟩ }

/-- `NODE_FREE` for a name with a slot. -/
def freeSlot (i : Fin fluxaStackSize) : State :=
  match (s.current.slots i).dyn with
  | some d => { s with table := gcUnregister s.table d, current := s.current.setSlot i .empty }
  | none => s

/-- `call_function` or `vm_eval_fallback` up to the body. -/
def enterCall (args : List (Option ℕ)) : State :=
  { s with
    current := ⟨bindParams s.current.slots args s.current.size, args.length, []⟩
    callers := { s.current with
      slots := fun i => if i < s.current.size then s.current.slots i else .empty } :: s.callers }

/-- A round of the trampoline after the first one. -/
def reuse (args : List (Option ℕ)) : State :=
  match s.callers with
  | [] => s
  | c :: _ => { s with current := ⟨bindParams s.current.slots args c.size, args.length, []⟩ }

/-- The caller's frame over what the call has left. -/
def leaveCall : State :=
  match s.callers with
  | [] => s
  | c :: callers =>
    { s with
      current := { c with
        slots := fun i => if i < c.size then c.slots i else (s.current.slots i).leftOver }
      callers := callers }

/-- `NODE_WHILE` before a compiled loop: the registers are claimed and the temporary ones cleared. -/
def claimRegs (nextReg maxSlot : ℕ) : State :=
  { s with
    current := { s.current with
      slots := fun i => if firstTemp ≤ i ∧ i < nextReg then .empty else s.current.slots i
      size := max (max s.current.size nextReg) maxSlot } }

def setFiles (files : List (List (Option ℕ))) : State := { s with current := { s.current with files := files } }

/-- The registers that compiled loops write lie below `stack_size`. -/
def step : Event → State
  | .register d => { s with table := gcRegister s.table d }
  | .unregister d => { s with table := gcUnregister s.table d }
  | .set i v => s.rtSet i v
  | .move i v => if i < s.current.size then s.opMove i v else s
  | .load i v => if i < s.current.size then s.loadReg i v else s
  | .free i => if i < s.current.size then s.freeSlot i else s
  | .call args => s.enterCall args
  | .tailCall args => s.reuse args
  | .ret => s.leaveCall
  | .enterVm nextReg maxSlot => s.claimRegs nextReg maxSlot
  | .enterFn args regCount =>
    s.setFiles ((args ++ List.replicate (regCount - args.length) none) :: s.current.files)
  | .setFn a v =>
    match s.current.files with
    | [] => s
    | regs :: files => s.setFiles (regs.set a v :: files)
  | .leaveFn => s.setFiles s.current.files.tail
  | .sweep => { s with table := gcSweep s.table }

end State

end Fluxa.Gc
