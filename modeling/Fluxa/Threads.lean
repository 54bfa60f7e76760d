import Fluxa.Value

/-! The threads of `std.flxthread` (`fluxa_std_flxthread.h`, `.c`) with their records, mailboxes and stop flags.
A record is taken over by the next `ft.new` as soon as its `active` flag is clear, whether or not the thread
that was started with it is still running.

The program of a thread is not fixed: a thread may call methods and functions, enter loops and leave them as it
likes, and at the back-edge of a loop it goes where the source goes. What the source does not have is only
recorded: the number of a message, the thread it was accepted for, which thread was started with a record last,
and whether `ft.stop` or `ft.kill` has been applied to a thread. -/

namespace Fluxa.FlxThread

def fluxaThreadMax : ℕ := 64

def fluxaMailboxMax : ℕ := 64

def fluxaFtMaxArgs : ℕ := 8

abbrev Name := List UInt8

structure Message where
  method : Name
  args : List Value

/-- What `FlxMessage` has room for. -/
def Message.stored (m : Message) : Message := ⟨m.method.take 127, m.args.take fluxaFtMaxArgs⟩

/-- A message that `ft.message` or `ft.await` has accepted, as the `id`-th one. `addressee` is the thread that was
started under the name last. -/
structure Accepted where
  id : ℕ
  addressee : Option ℕ
  message : Message

/-- `FlxThread`; `owner` is the thread that was started with the record, if one was. -/
structure Record where
  name : Name
  active : Bool
  isBlock : Bool
  stopRequested : Bool
  mailbox : List Accepted
  owner : Option ℕ

/-- Which code runs a loop: the evaluator, `vm_run`, or `vm_run_fn`, which has no tick callback. -/
inductive LoopKind where
  | evaluated | compiled | compiledFn
  deriving DecidableEq

/-- What a thread is in, innermost first: a call, with `current_instance`, a loop, a `danger` block, and
`flx_mailbox_drain` at the back-edge of the loop below it. -/
inductive Frame where
  | call (inst : Option ℕ)
  | loop (kind : LoopKind)
  | danger
  | drain
  deriving DecidableEq

/-- A running thread. `name` is the one `ft.new` was given. -/
structure Runner where
  record : ℕ
  name : Name
  inst : Option ℕ
  frames : List Frame
  hadError : Bool
  ended : Bool
  stopped : Bool

/-- `current_instance`. -/
def currentInstance : List Frame → Option ℕ
  | [] => none
  | .call inst :: _ => inst
  | _ :: frames => currentInstance frames

/-- A message that was executed, and the instance it was executed on. -/
structure Executed where
  msg : Accepted
  inst : ℕ

/-- A call of `ft.message` or `ft.await` between its look at the registry and the push. -/
structure Sending where
  name : Name
  record : ℕ
  found : ℕ

structure State where
  threads : ℕ → Record
  count : ℕ
  runners : ℕ → Runner
  started : ℕ
  sending : List Sending
  created : Name → Option ℕ
  accepted : List Accepted
  executed : List Executed

def Record.blank : Record := ⟨[], false, false, false, [], none⟩

def State.start : State where
  threads := fun _ => .blank
  count := 0
  runners := fun _ => ⟨0, [], none, [], false, true, false⟩
  started := 0
  sending := []
  created := fun _ => none
  accepted := []
  executed := []

namespace State

variable (s : State)

def setRecord (i : ℕ) (t : Record) : State := { s with threads := Function.update s.threads i t }

def setRunner (r : ℕ) (q : Runner) : State := { s with runners := Function.update s.runners r q }

def setMailbox (i : ℕ) (mailbox : List Accepted) : State := s.setRecord i { s.threads i with mailbox := mailbox }

/-- `flx_find_thread`. -/
def flxFindThread (name : Name) : Option ℕ :=
  (List.range s.count).find? fun i => (s.threads i).active && (s.threads i).name == name

/-- The record `flx_alloc_thread` takes: an inactive one if there is one. -/
def freeRecord : Option ℕ :=
  match (List.range s.count).find? fun i => !(s.threads i).active with
  | some i => some i
  | none => if s.count < fluxaThreadMax then some s.count else none

/-- `flx_alloc_thread`. The name is cut to fit. -/
def flxAllocThread (i : ℕ) (name : Name) : State :=
  { s.setRecord i { Record.blank with name := name.take 63, active := true } with count := max s.count (i + 1) }

end State

/-- What the arguments of `ft.new` behind the name ask for. That they are `invalid` is found out only when the record
has been taken, and `unnamed` is a Block with a method that is no `str`. The form with a count is one `ft.new` for
each thread. -/
inductive Target where
  | block (inst : ℕ)
  | function
  | invalid
  | unnamed

namespace Target

def inst : Target → Option ℕ
  | block i => some i
  | _ => none

def isBlock : Target → Bool
  | block _ => true
  | _ => false

end Target

/-- What can happen next. A message is sent in two steps, `find` and `push`; the events from `call` on are those of
the thread `r`. `forwardJump` is a jump of a compiled loop that is no back-edge. -/
inductive Event where
  | new (name : Name) (target : Target)
  | find (name : Name)
  | push (k : ℕ) (m : Message)
  | stop (name : Name)
  | kill (name : Name)
  | call (r : ℕ) (inst : Option ℕ)
  | ret (r : ℕ)
  | enterLoop (r : ℕ) (kind : LoopKind)
  | leaveLoop (r : ℕ)
  | enterDanger (r : ℕ)
  | leaveDanger (r : ℕ)
  | backEdge (r : ℕ)
  | forwardJump (r : ℕ)
  | drain (r : ℕ)
  | fail (r : ℕ)
  | finish (r : ℕ)

namespace State

variable (s : State)

/-- Starts the thread that `ft.new` has set up the record `i` for. -/
def spawn (i : ℕ) (name : Name) (target : Target) : State :=
  { (s.setRecord i { s.threads i with isBlock := target.isBlock, owner := some s.started }).setRunner s.started
      ⟨i, name, target.inst, [.call target.inst], false, false, false⟩ with
    started := s.started + 1
    created := Function.update s.created name (some s.started) }

/-- `ft.new`. -/
def ftNew (name : Name) (target : Target) : State :=
  match s.flxFindThread name with
  | some _ => s
  | none =>
    match s.freeRecord with
    | none => s
    | some i =>
      let s := s.flxAllocThread i name
      match target with
      | .invalid => s.setRecord i { s.threads i with active := false }
      -- `GET_STR` returns with the record taken
      | .unnamed => s
      | target => s.spawn i name target

/-- `ft.message` and `ft.await` up to the push. -/
def ftFind (name : Name) : State :=
  match s.flxFindThread name with
  | none => s
  | some i =>
    -- only a thread makes a record that of a Block
    match (s.threads i).isBlock, (s.threads i).owner with
    | true, some r => { s with sending := s.sending ++ [⟨name, i, r⟩] }
    | _, _ => s

/-- `flx_mailbox_push`, for a call that has found the record before. -/
def flxMailboxPush (k : ℕ) (m : Message) : State :=
  match s.sending[k]? with
  | none => s
  | some c =>
    let t := s.threads c.record
    let s := { s with sending := s.sending.eraseIdx k }
    if fluxaMailboxMax ≤ t.mailbox.length then s
    else
      let a : Accepted := ⟨s.accepted.length, s.created c.name, m⟩
      { s.setMailbox c.record (t.mailbox ++ [{ a with message := m.stored }]) with accepted := s.accepted ++ [a] }

/-- `ft.stop` or `ft.kill` has been applied to the thread. -/
def markStopped : Option ℕ → State
  | some r => s.setRunner r { s.runners r with stopped := true }
  | none => s

def ftStop (name : Name) : State :=
  match s.flxFindThread name with
  | none => s
  | some i => (s.setRecord i { s.threads i with stopRequested := true }).markStopped (s.threads i).owner

def ftKill (name : Name) : State :=
  match s.flxFindThread name with
  | none => s
  | some i =>
    (s.setRecord i { s.threads i with stopRequested := true, mailbox := [], active := false }).markStopped
      (s.threads i).owner

def setFrames (r : ℕ) (frames : List Frame) : State := s.setRunner r { s.runners r with frames := frames }

/-- The frames behind a `return`. The loops of the method go; a `danger` block is left first, and a thread that is in
`flx_mailbox_drain` has nothing to return from. -/
def afterReturn : List Frame → Option (List Frame)
  | .call _ :: frames => some frames
  | .loop _ :: frames => afterReturn frames
  | _ => none

/-- `flx_mailbox_drain` when it is called; -1 is `none`. -/
def enterDrain (r : ℕ) : Option State :=
  let q := s.runners r
  let t := s.threads q.record
  if t.stopRequested then none
  else if t.mailbox.isEmpty then some s
  else some (s.setFrames r (.drain :: q.frames))

/-- The back-edge of a loop. Only the evaluator looks at the result of `flx_mailbox_drain`. -/
def loopBackEdge (r : ℕ) : State :=
  match (s.runners r).frames with
  | .loop .evaluated :: frames =>
    if (s.runners r).hadError then s else (s.enterDrain r).getD (s.setFrames r frames)
  | .loop .compiled :: _ => (s.enterDrain r).getD s
  | _ => s

/-- A round of the loop in `flx_mailbox_drain`, with `flx_invoke_method_n` up to the call of the method. After an
error nothing is evaluated. -/
def drainStep (hasMethod : ℕ → Name → Bool) (r : ℕ) : State :=
  let q := s.runners r
  let t := s.threads q.record
  match q.frames with
  | .drain :: frames =>
    match t.mailbox with
    | [] => s.setFrames r frames
    | m :: rest =>
      let s := s.setMailbox q.record rest
      match currentInstance frames with
      | none => s
      | some i =>
        if !hasMethod i m.message.method then s.setRunner r { q with hadError := true }
        else if q.hadError then s
        else { s.setFrames r (.call (some i) :: q.frames) with executed := s.executed ++ [⟨m, i⟩] }
  | _ => s

def finishRunner (r : ℕ) : State :=
  let q := s.runners r
  if q.frames = [] ∧ q.ended = false then
    (s.setRecord q.record { s.threads q.record with active := false }).setRunner r { q with ended := true }
  else s

/-- A thread evaluates something: it is running, and there was no error. -/
def evaluates (r : ℕ) : Bool := !(s.runners r).frames.isEmpty && !(s.runners r).hadError

def step (hasMethod : ℕ → Name → Bool) : Event → State
  | .new name target => s.ftNew name target
  | .find name => s.ftFind name
  | .push k m => s.flxMailboxPush k m
  | .stop name => s.ftStop name
  | .kill name => s.ftKill name
  | .call r inst =>
    if s.evaluates r ∧ (s.runners r).frames.head? ≠ some .drain then
      s.setFrames r (.call inst :: (s.runners r).frames)
    else s
  | .ret r =>
    match afterReturn (s.runners r).frames with
    | some frames => s.setFrames r frames
    | none => s
  | .enterLoop r kind =>
    if s.evaluates r ∧ (s.runners r).frames.head? ≠ some .drain then
      s.setFrames r (.loop kind :: (s.runners r).frames)
    else s
  | .leaveLoop r =>
    match (s.runners r).frames with
    | .loop _ :: frames => s.setFrames r frames
    | _ => s
  | .enterDanger r =>
    if s.evaluates r ∧ (s.runners r).frames.head? ≠ some .drain then
      s.setFrames r (.danger :: (s.runners r).frames)
    else s
  | .leaveDanger r =>
    match (s.runners r).frames with
    | .danger :: frames => s.setRunner r { s.runners r with frames := frames, hadError := false }
    | _ => s
  | .backEdge r => s.loopBackEdge r
  | .forwardJump r =>
    match (s.runners r).frames with
    | .loop .compiled :: _ => (s.enterDrain r).getD s
    | _ => s
  | .drain r => s.drainStep hasMethod r
  | .fail r => if s.evaluates r then s.setRunner r { s.runners r with hadError := true } else s
  | .finish r => s.finishRunner r

def run (hasMethod : ℕ → Name → Bool) (es : List Event) : State := es.foldl (·.step hasMethod) s

end State

section Steps

variable {s : State} {r u i j : ℕ} {q : Runner} {t : Record}

@[simp] theorem State.runners_setRunner_self (s : State) (r : ℕ) (q : Runner) : (s.setRunner r q).runners r = q :=
  Function.update_self ..

theorem State.runners_setRunner_of_ne (h : u ≠ r) : (s.setRunner r q).runners u = s.runners u :=
  Function.update_of_ne h ..

@[simp] theorem State.threads_setRecord_self (s : State) (i : ℕ) (t : Record) : (s.setRecord i t).threads i = t :=
  Function.update_self ..

theorem State.threads_setRecord_of_ne (h : j ≠ i) : (s.setRecord i t).threads j = s.threads j :=
  Function.update_of_ne h ..

theorem State.setRunner_runners (s : State) (r : ℕ) : s.setRunner r (s.runners r) = s := by
  rw [setRunner, Function.update_eq_self]

theorem State.setMailbox_setRunner (s : State) (i r : ℕ) (mailbox : List Accepted) :
    (s.setMailbox i mailbox).setRunner r (s.runners r) = s.setMailbox i mailbox :=
  setRunner_runners (s.setMailbox i mailbox) r

theorem State.threads_markStopped (s : State) (o : Option ℕ) : (s.markStopped o).threads = s.threads := by
  cases o <;> rfl

/-- A thread that has gone on by itself. -/
structure Runner.Goes (q q' : Runner) : Prop where
  record : q'.record = q.record
  name : q'.name = q.name
  inst : q'.inst = q.inst
  ended : q'.ended = q.ended
  stopped : q'.stopped = q.stopped
  frames : q.frames = [] → q'.frames = []

theorem Runner.Goes.refl (q : Runner) : q.Goes q := ⟨rfl, rfl, rfl, rfl, rfl, id⟩

theorem Runner.goes_frames {frames : List Frame} (h : q.frames = [] → frames = []) : q.Goes { q with frames := frames } :=
  ⟨rfl, rfl, rfl, rfl, rfl, h⟩

/-- The step of a thread that touches neither the registry nor another thread. -/
def State.Moves (s s' : State) (r : ℕ) : Prop := ∃ q, s' = s.setRunner r q ∧ (s.runners r).Goes q

theorem State.Moves.refl (s : State) (r : ℕ) : s.Moves s r :=
  ⟨s.runners r, (s.setRunner_runners r).symm, .refl _⟩

theorem State.moves_setFrames {frames : List Frame} (h : (s.runners r).frames = [] → frames = []) :
    s.Moves (s.setFrames r frames) r := ⟨_, rfl, Runner.goes_frames h⟩

theorem State.moves_enterDrain {s' : State} (h : s.enterDrain r = some s') (hframes : (s.runners r).frames ≠ []) :
    s.Moves s' r := by
  unfold enterDrain at h
  dsimp only at h
  split at h
  · cases h
  · split at h
    · obtain rfl := Option.some.inj h
      exact .refl s r
    · obtain rfl := Option.some.inj h
      exact moves_setFrames fun hnil => absurd hnil hframes

theorem State.moves_loopBackEdge (s : State) (r : ℕ) : s.Moves (s.loopBackEdge r) r := by
  unfold loopBackEdge
  split
  · next frames hframes =>
    have hne : (s.runners r).frames ≠ [] := by simp [hframes]
    split
    · exact .refl s r
    · rcases hd : s.enterDrain r with _ | s'
      · exact moves_setFrames fun hnil => absurd hnil hne
      · exact moves_enterDrain hd hne
  · next frames hframes =>
    rcases hd : s.enterDrain r with _ | s'
    · exact .refl s r
    · exact moves_enterDrain hd (by simp [hframes])
  · exact .refl s r

/-- The state after an `ft.new` that has started a thread with the record `i`. -/
def State.begun (s : State) (i : ℕ) (name : Name) (target : Target) : State :=
  { s with
    threads := Function.update s.threads i ⟨name.take 63, true, target.isBlock, false, [], some s.started⟩
    count := max s.count (i + 1)
    runners := Function.update s.runners s.started ⟨i, name, target.inst, [.call target.inst], false, false, false⟩
    started := s.started + 1
    created := Function.update s.created name (some s.started) }

/-- The state after an `ft.new` that has taken the record `i` and failed. -/
def State.failed (s : State) (i : ℕ) (name : Name) (active : Bool) : State :=
  { s.setRecord i { Record.blank with name := name.take 63, active := active } with count := max s.count (i + 1) }

theorem State.threads_begun_self (s : State) (i : ℕ) (name : Name) (target : Target) :
    (s.begun i name target).threads i = ⟨name.take 63, true, target.isBlock, false, [], some s.started⟩ :=
  Function.update_self ..

theorem State.threads_begun_of_ne {name : Name} {target : Target} (h : j ≠ i) :
    (s.begun i name target).threads j = s.threads j := Function.update_of_ne h ..

theorem State.threads_failed_self (s : State) (i : ℕ) (name : Name) (active : Bool) :
    (s.failed i name active).threads i = { Record.blank with name := name.take 63, active := active } :=
  Function.update_self ..

theorem State.threads_failed_of_ne {name : Name} {active : Bool} (h : j ≠ i) :
    (s.failed i name active).threads j = s.threads j := Function.update_of_ne h ..

theorem State.runners_begun_self (s : State) (i : ℕ) (name : Name) (target : Target) :
    (s.begun i name target).runners s.started =
      ⟨i, name, target.inst, [.call target.inst], false, false, false⟩ := Function.update_self ..

theorem State.runners_begun_of_ne {name : Name} {target : Target} (h : u ≠ s.started) :
    (s.begun i name target).runners u = s.runners u := Function.update_of_ne h ..

/-- What `ft.new` does. -/
inductive State.News (s : State) (name : Name) (target : Target) : State → Prop
  | same : s.News name target s
  | failed (i : ℕ) (active : Bool) : s.flxFindThread name = none → s.freeRecord = some i →
      s.News name target (s.failed i name active)
  | begun (i : ℕ) : s.flxFindThread name = none → s.freeRecord = some i → s.News name target (s.begun i name target)

theorem State.news_ftNew (s : State) (name : Name) (target : Target) : s.News name target (s.ftNew name target) := by
  unfold ftNew
  split
  · exact .same
  · next hfind =>
    split
    · exact .same
    · next i hfree =>
      cases target with
      | invalid =>
        have hstate : ((s.flxAllocThread i name).setRecord i
            { (s.flxAllocThread i name).threads i with active := false }) = s.failed i name false := by
          simp [flxAllocThread, setRecord, State.failed, Record.blank]
        dsimp only
        rw [hstate]
        exact .failed i false hfind hfree
      | unnamed => exact .failed i true hfind hfree
      | block inst =>
        have hstate : (s.flxAllocThread i name).spawn i name (.block inst) = s.begun i name (.block inst) := by
          simp [flxAllocThread, spawn, setRecord, setRunner, State.begun, Record.blank]
        dsimp only
        rw [hstate]
        exact .begun i hfind hfree
      | function =>
        have hstate : (s.flxAllocThread i name).spawn i name .function = s.begun i name .function := by
          simp [flxAllocThread, spawn, setRecord, setRunner, State.begun, Record.blank]
        dsimp only
        rw [hstate]
        exact .begun i hfind hfree

/-- The events by which a thread goes on by itself. -/
def Event.mover : Event → Option ℕ
  | .call r _ | .ret r | .enterLoop r _ | .leaveLoop r | .enterDanger r | .leaveDanger r | .backEdge r
  | .forwardJump r | .fail r => some r
  | _ => none

theorem State.afterReturn_nil : State.afterReturn [] = none := rfl

theorem State.moves_step (s : State) (hasMethod : ℕ → Name → Bool) {e : Event} (h : e.mover = some r) :
    s.Moves (s.step hasMethod e) r := by
  cases e with
  | ret r' =>
    obtain rfl := Option.some.inj h
    dsimp only [step]
    split
    · next frames hret =>
      refine moves_setFrames fun hnil => ?_
      rw [hnil, afterReturn_nil] at hret
      cases hret
    · exact .refl s _
  | call r' _ | enterLoop r' _ | enterDanger r' =>
    obtain rfl := Option.some.inj h
    dsimp only [step]
    split
    · next hev => exact moves_setFrames fun hnil => absurd hev.1 (by simp [evaluates, hnil])
    · exact .refl s _
  | leaveLoop r' =>
    obtain rfl := Option.some.inj h
    dsimp only [step]
    split
    · next hframes => exact moves_setFrames fun hnil => by rw [hframes] at hnil; cases hnil
    · exact .refl s _
  | leaveDanger r' =>
    obtain rfl := Option.some.inj h
    dsimp only [step]
    split
    · next hframes => exact ⟨_, rfl, rfl, rfl, rfl, rfl, rfl, fun hnil => by rw [hframes] at hnil; cases hnil⟩
    · exact .refl s _
  | backEdge r' =>
    obtain rfl := Option.some.inj h
    exact moves_loopBackEdge s _
  | forwardJump r' =>
    obtain rfl := Option.some.inj h
    dsimp only [step]
    split
    · next hframes =>
      rcases hd : s.enterDrain r' with _ | s'
      · exact .refl s _
      · exact moves_enterDrain hd (by simp [hframes])
    · exact .refl s _
  | fail r' =>
    obtain rfl := Option.some.inj h
    dsimp only [step]
    split
    · exact ⟨_, rfl, rfl, rfl, rfl, rfl, rfl, id⟩
    · exact .refl s _
  | new | find | push | stop | kill | drain | finish => cases h

/-- What a round of `flx_mailbox_drain` does: it ends, or takes the first message out of the mailbox, and runs it
if nothing stands in the way. -/
inductive State.Drains (hasMethod : ℕ → Name → Bool) (s : State) (r : ℕ) : State → Prop
  | idle {s'} : s.Moves s' r → s.Drains hasMethod r s'
  | dropped {m rest q} : (s.runners r).frames.head? = some .drain →
      (s.threads (s.runners r).record).mailbox = m :: rest → (s.runners r).Goes q →
      (currentInstance (s.runners r).frames = none ∨ (s.runners r).hadError = true ∨
        ∀ i, currentInstance (s.runners r).frames = some i → hasMethod i m.message.method = false) →
      s.Drains hasMethod r ((s.setMailbox (s.runners r).record rest).setRunner r q)
  | executed {m rest q i} : (s.runners r).frames.head? = some .drain →
      (s.threads (s.runners r).record).mailbox = m :: rest → (s.runners r).Goes q →
      currentInstance (s.runners r).frames = some i → (s.runners r).hadError = false →
      hasMethod i m.message.method = true →
      s.Drains hasMethod r { (s.setMailbox (s.runners r).record rest).setRunner r q with
        executed := s.executed ++ [⟨m, i⟩] }

theorem State.drains_drainStep (s : State) (hasMethod : ℕ → Name → Bool) (r : ℕ) :
    s.Drains hasMethod r (s.drainStep hasMethod r) := by
  unfold drainStep
  dsimp only
  split
  · next frames hframes =>
    have hne : (s.runners r).frames ≠ [] := by simp [hframes]
    have hcur : currentInstance (s.runners r).frames = currentInstance frames := by rw [hframes]; rfl
    have hhead : (s.runners r).frames.head? = some .drain := by rw [hframes]; rfl
    split
    · exact .idle (moves_setFrames fun hnil => absurd hnil hne)
    · next m rest hmail =>
      split
      · next hnone =>
        have hdrop : s.Drains hasMethod r _ := .dropped hhead hmail (.refl _) (.inl (hcur.trans hnone))
        rwa [setMailbox_setRunner] at hdrop
      · next i hsome =>
        split
        · next hno =>
          refine .dropped hhead hmail ⟨rfl, rfl, rfl, rfl, rfl, id⟩ (.inr (.inr fun j hj => ?_))
          obtain rfl : i = j := Option.some.inj ((hcur.trans hsome).symm.trans hj)
          simpa using hno
        · next hyes =>
          split
          · next herr =>
            have hdrop : s.Drains hasMethod r _ := .dropped hhead hmail (.refl _) (.inr (.inl herr))
            rwa [setMailbox_setRunner] at hdrop
          · next herr =>
            exact .executed hhead hmail (Runner.goes_frames fun hnil => absurd hnil hne) (hcur.trans hsome)
              (by simpa using herr)
              (by simpa using hyes)
  · exact .idle (.refl s r)

end Steps

section WellFormed

theorem State.flxFindThread_eq_some {s : State} {name : Name} {i : ℕ} (h : s.flxFindThread name = some i) :
    (s.threads i).active = true ∧ (s.threads i).name = name := by
  have hi := List.find?_some h
  simpa using hi

/-- What holds in every run: the thread that was started with an active record has not ended. -/
structure State.WellFormed (s : State) : Prop where
  fresh : ∀ r, s.started ≤ r → (s.runners r).ended = true ∧ (s.runners r).stopped = false
  owner : ∀ i r, (s.threads i).active = true → (s.threads i).owner = some r →
    r < s.started ∧ (s.runners r).record = i ∧ (s.runners r).ended = false
  frames : ∀ r, (s.runners r).ended = true → (s.runners r).frames = []
  bounded : ∀ i, (s.threads i).active = true → i < s.count

namespace State.WellFormed

variable {s s' : State} {r i : ℕ} {q : Runner} {t : Record}

theorem start : State.start.WellFormed where
  fresh _ _ := ⟨rfl, rfl⟩
  owner _ _ h := absurd h (by simp [State.start, Record.blank])
  frames _ _ := rfl
  bounded _ h := absurd h (by simp [State.start, Record.blank])

theorem setRunner (h : s.WellFormed) (hrecord : q.record = (s.runners r).record)
    (hended : q.ended = (s.runners r).ended) (hframes : (s.runners r).frames = [] → q.frames = [])
    (hstopped : s.started ≤ r → q.stopped = false) : (s.setRunner r q).WellFormed where
  fresh u hu := by
    by_cases hur : u = r
    · subst hur
      rw [runners_setRunner_self, hended]
      exact ⟨(h.fresh u hu).1, hstopped hu⟩
    · rw [runners_setRunner_of_ne hur]
      exact h.fresh u hu
  owner j u hj ho := by
    obtain ⟨hlt, hrec, hlive⟩ := h.owner j u hj ho
    refine ⟨hlt, ?_⟩
    by_cases hur : u = r
    · subst hur
      rw [runners_setRunner_self, hrecord, hended]
      exact ⟨hrec, hlive⟩
    · rw [runners_setRunner_of_ne hur]
      exact ⟨hrec, hlive⟩
  frames u hu := by
    by_cases hur : u = r
    · subst hur
      rw [runners_setRunner_self] at hu ⊢
      exact hframes (h.frames u (hended ▸ hu))
    · rw [runners_setRunner_of_ne hur] at hu ⊢
      exact h.frames u hu
  bounded := h.bounded

theorem moves (h : s.WellFormed) (hm : s.Moves s' r) : s'.WellFormed := by
  obtain ⟨q, rfl, hq⟩ := hm
  exact h.setRunner hq.record hq.ended hq.frames fun hr => hq.stopped.trans (h.fresh r hr).2

theorem setRecord (h : s.WellFormed) (ht : t.active = true → (s.threads i).active = true ∧ t.owner = (s.threads i).owner) :
    (s.setRecord i t).WellFormed where
  fresh := h.fresh
  owner j u hj ho := by
    by_cases hji : j = i
    · subst hji
      rw [threads_setRecord_self] at hj ho
      obtain ⟨hactive, howner⟩ := ht hj
      exact h.owner j u hactive (howner ▸ ho)
    · rw [threads_setRecord_of_ne hji] at hj ho
      exact h.owner j u hj ho
  frames := h.frames
  bounded j hj := by
    by_cases hji : j = i
    · subst hji
      rw [threads_setRecord_self] at hj
      exact h.bounded j (ht hj).1
    · rw [threads_setRecord_of_ne hji] at hj
      exact h.bounded j hj

theorem setMailbox (h : s.WellFormed) (i : ℕ) (mailbox : List Accepted) : (s.setMailbox i mailbox).WellFormed :=
  h.setRecord fun ht => ⟨ht, rfl⟩

theorem markStopped (h : s.WellFormed) {o : Option ℕ} (ho : ∀ r, o = some r → r < s.started) :
    (s.markStopped o).WellFormed := by
  cases o with
  | none => exact h
  | some r => exact h.setRunner rfl rfl id fun hle => absurd (ho r rfl) (Nat.not_lt.mpr hle)

theorem begun (h : s.WellFormed) (i : ℕ) (name : Name) (target : Target) : (s.begun i name target).WellFormed where
  fresh u hu := by
    have hne : u ≠ s.started := (Nat.lt_of_succ_le hu).ne'
    rw [runners_begun_of_ne hne]
    exact h.fresh u (Nat.le_of_succ_le hu)
  owner j u hj ho := by
    by_cases hji : j = i
    · subst hji
      rw [threads_begun_self] at ho
      obtain rfl := Option.some.inj ho
      rw [runners_begun_self]
      exact ⟨Nat.lt_succ_self _, rfl, rfl⟩
    · rw [threads_begun_of_ne hji] at hj ho
      obtain ⟨hlt, hrec, hlive⟩ := h.owner j u hj ho
      rw [runners_begun_of_ne hlt.ne]
      exact ⟨Nat.lt_succ_of_lt hlt, hrec, hlive⟩
  frames u hu := by
    by_cases hus : u = s.started
    · subst hus
      rw [runners_begun_self] at hu
      cases hu
    · rw [runners_begun_of_ne hus] at hu ⊢
      exact h.frames u hu
  bounded j hj := by
    change j < max s.count (i + 1)
    by_cases hji : j = i
    · omega
    · rw [threads_begun_of_ne hji] at hj
      exact lt_max_of_lt_left (h.bounded j hj)

theorem failed (h : s.WellFormed) (i : ℕ) (name : Name) (active : Bool) : (s.failed i name active).WellFormed where
  fresh := h.fresh
  owner j u hj ho := by
    by_cases hji : j = i
    · subst hji
      rw [threads_failed_self] at ho
      cases ho
    · rw [threads_failed_of_ne hji] at hj ho
      exact h.owner j u hj ho
  frames := h.frames
  bounded j hj := by
    change j < max s.count (i + 1)
    by_cases hji : j = i
    · omega
    · rw [threads_failed_of_ne hji] at hj
      exact lt_max_of_lt_left (h.bounded j hj)

theorem finish (h : s.WellFormed) (r : ℕ) : (s.finishRunner r).WellFormed := by
  unfold finishRunner
  dsimp only
  split
  · next hr =>
    have hrecord : (s.setRecord (s.runners r).record
        { s.threads (s.runners r).record with active := false }).WellFormed := h.setRecord nofun
    refine ⟨fun u hu => ?_, fun j u hj ho => ?_, fun u hu => ?_, hrecord.bounded⟩
    · by_cases hur : u = r
      · subst hur
        rw [runners_setRunner_self]
        exact ⟨rfl, (h.fresh u hu).2⟩
      · rw [runners_setRunner_of_ne hur]
        exact h.fresh u hu
    · change ((s.setRecord (s.runners r).record _).threads j).active = true at hj
      have hne : j ≠ (s.runners r).record := by
        rintro rfl
        rw [threads_setRecord_self] at hj
        cases hj
      have hthread : ((s.setRecord (s.runners r).record { s.threads (s.runners r).record with active := false }).setRunner r
          { s.runners r with ended := true }).threads j = s.threads j := threads_setRecord_of_ne hne
      rw [threads_setRecord_of_ne hne] at hj
      rw [hthread] at ho
      obtain ⟨hlt, hrec, hlive⟩ := h.owner j u hj ho
      have hur : u ≠ r := fun hu => hne (by rw [← hu, hrec])
      rw [runners_setRunner_of_ne hur]
      exact ⟨hlt, hrec, hlive⟩
    · by_cases hur : u = r
      · subst hur
        rw [runners_setRunner_self]
        exact hr.1
      · rw [runners_setRunner_of_ne hur] at hu ⊢
        exact h.frames u hu
  · exact h

theorem ftStop (h : s.WellFormed) (name : Name) : (s.ftStop name).WellFormed := by
  unfold State.ftStop
  split
  · exact h
  · next i hi =>
    have hrecord : (s.setRecord i { s.threads i with stopRequested := true }).WellFormed := h.setRecord fun ht => ⟨ht, rfl⟩
    exact hrecord.markStopped fun r hr => (h.owner i r (flxFindThread_eq_some hi).1 hr).1

theorem ftKill (h : s.WellFormed) (name : Name) : (s.ftKill name).WellFormed := by
  unfold State.ftKill
  split
  · exact h
  · next i hi =>
    have hrecord : (s.setRecord i { s.threads i with
        stopRequested := true, mailbox := [], active := false }).WellFormed := h.setRecord nofun
    exact hrecord.markStopped fun r hr => (h.owner i r (flxFindThread_eq_some hi).1 hr).1

theorem drains (h : s.WellFormed) {hasMethod : ℕ → Name → Bool} (hd : s.Drains hasMethod r s') : s'.WellFormed := by
  have hmail {rest : List Accepted} {q : Runner} (hq : (s.runners r).Goes q) :
      ((s.setMailbox (s.runners r).record rest).setRunner r q).WellFormed :=
    (h.setMailbox _ rest).moves ⟨q, rfl, hq⟩
  cases hd with
  | idle hm => exact h.moves hm
  | dropped _ _ hq _ => exact hmail hq
  | @executed m rest q i _ _ hq _ _ _ =>
    have hwf : ((s.setMailbox (s.runners r).record rest).setRunner r q).WellFormed := hmail hq
    exact { hwf with }

theorem news (h : s.WellFormed) {name : Name} {target : Target} (hn : s.News name target s') : s'.WellFormed := by
  cases hn with
  | same => exact h
  | failed i active _ _ => exact h.failed i name active
  | begun i _ _ => exact h.begun i name target

theorem push (h : s.WellFormed) (k : ℕ) (m : Message) : (s.flxMailboxPush k m).WellFormed := by
  unfold flxMailboxPush
  split
  · exact h
  · next c _ =>
    dsimp only
    split
    · exact { h with }
    · have hmail := h.setMailbox c.record ((s.threads c.record).mailbox ++
        [⟨s.accepted.length, s.created c.name, m.stored⟩])
      exact { hmail with }

theorem find (h : s.WellFormed) (name : Name) : (s.ftFind name).WellFormed := by
  unfold ftFind
  split
  · exact h
  · split
    · exact { h with }
    · exact h

/-- **Every step keeps the records and the threads together.** -/
theorem step (h : s.WellFormed) (hasMethod : ℕ → Name → Bool) (e : Event) : (s.step hasMethod e).WellFormed := by
  rcases hr : e.mover with _ | r
  · cases e with
    | new name target => exact h.news (s.news_ftNew name target)
    | find name => exact h.find name
    | push k m => exact h.push k m
    | stop name => exact h.ftStop name
    | kill name => exact h.ftKill name
    | drain r => exact h.drains (s.drains_drainStep hasMethod r)
    | finish r => exact h.finish r
    | call | ret | enterLoop | leaveLoop | enterDanger | leaveDanger | backEdge | forwardJump | fail => cases hr
  · exact h.moves (s.moves_step hasMethod hr)

end State.WellFormed

end WellFormed

end Fluxa.FlxThread
