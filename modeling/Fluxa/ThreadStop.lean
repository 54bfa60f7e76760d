import Fluxa.Base.Along
import Fluxa.Threads

/-! Whether a stopped thread stops. The flag that the back-edge of a loop looks at is in the record, which
`ft.new` clears when it takes the record over; and compiled loops do not look at it. -/

namespace Fluxa.FlxThread

open Along

namespace State

variable (hasMethod : ℕ → Name → Bool)

/-- The back-edge of a loop of a stopped thread ends the loop. -/
def EndsLoop (s : State) (e : Event) : Prop :=
  ∀ r kind frames, e = .backEdge r → (s.runners r).stopped = true → (s.runners r).hadError = false →
    (s.runners r).frames = .loop kind :: frames → ((s.step hasMethod e).runners r).frames = frames

/-- A stopped thread stops: at every step of the run. -/
def StopsThreads (es : List Event) : Prop := All (fun s e => s.step hasMethod e) (EndsLoop hasMethod) .start es

/-- The thread `r` has been stopped, and is still running. -/
def stopping (s : State) (r : ℕ) : Bool := (s.runners r).stopped && !(s.runners r).ended

/-- The condition on a step: a stopped thread does not come to the back-edge of a compiled loop, and `ft.new` takes no
record that a stopped thread still runs with. -/
def keepsStopped (s : State) : Event → Bool
  | .backEdge r =>
    !(s.runners r).stopped ||
      match (s.runners r).frames with
      | .loop kind :: _ => kind == .evaluated
      | _ => true
  | .new name _ =>
    match s.flxFindThread name, s.freeRecord with
    | none, some i => (List.range s.started).all fun r => !(s.stopping r && (s.runners r).record == i)
    | _, _ => true
  | _ => true

def KeepsStopped (es : List Event) : Prop :=
  All (fun s e => s.step hasMethod e) (fun s e => s.keepsStopped e = true) State.start es

instance (es : List Event) : Decidable (KeepsStopped hasMethod es) :=
  inferInstanceAs (Decidable (All _ (fun s e => State.keepsStopped s e = true) _ es))

/-- The flag of a stopped thread is set as long as it runs. -/
def Flagged (s : State) : Prop := ∀ r, s.stopping r = true → (s.threads (s.runners r).record).stopRequested = true

variable {hasMethod} {s s' : State}

theorem stopping_iff {r : ℕ} : s.stopping r = true ↔ (s.runners r).stopped = true ∧ (s.runners r).ended = false := by
  simp [stopping]

namespace Flagged

theorem of_same (h : s.Flagged) (hflag : ∀ i, (s'.threads i).stopRequested = (s.threads i).stopRequested)
    (hrunner : ∀ r, s'.stopping r = true → s.stopping r = true ∧ (s'.runners r).record = (s.runners r).record) :
    s'.Flagged := by
  intro r hr
  obtain ⟨hold, hrecord⟩ := hrunner r hr
  rw [hflag, hrecord]
  exact h r hold

theorem moves {r : ℕ} (h : s.Flagged) (hm : s.Moves s' r) : s'.Flagged := by
  obtain ⟨q, rfl, hq⟩ := hm
  refine h.of_same (fun _ => rfl) fun u hu => ?_
  by_cases hur : u = r
  · subst hur
    rw [stopping_iff, runners_setRunner_self, hq.stopped, hq.ended] at hu
    rw [runners_setRunner_self]
    exact ⟨stopping_iff.mpr hu, hq.record⟩
  · rw [stopping_iff, runners_setRunner_of_ne hur] at hu
    rw [runners_setRunner_of_ne hur]
    exact ⟨stopping_iff.mpr hu, rfl⟩

theorem setMailbox (h : s.Flagged) (i : ℕ) (mailbox : List Accepted) : (s.setMailbox i mailbox).Flagged := by
  refine h.of_same (fun j => ?_) fun _ hr => ⟨hr, rfl⟩
  by_cases hji : j = i
  · subst hji
    simp [State.setMailbox]
  · rw [State.setMailbox, threads_setRecord_of_ne hji]

theorem setRecord (h : s.Flagged) (i : ℕ) {t : Record} (ht : t.stopRequested = true) : (s.setRecord i t).Flagged := by
  intro u hu
  change ((s.setRecord i t).threads (s.runners u).record).stopRequested = true
  by_cases hi : (s.runners u).record = i
  · rw [hi, threads_setRecord_self]
    exact ht
  · rw [threads_setRecord_of_ne hi]
    exact h u hu

theorem markStopped (h : s.Flagged) {o : Option ℕ}
    (ho : ∀ r, o = some r → (s.threads (s.runners r).record).stopRequested = true) : (s.markStopped o).Flagged := by
  cases o with
  | none => exact h
  | some r =>
    intro u hu
    change (s.threads ((s.setRunner r { s.runners r with stopped := true }).runners u).record).stopRequested = true
    by_cases hur : u = r
    · subst hur
      rw [runners_setRunner_self]
      exact ho u rfl
    · rw [stopping_iff, State.markStopped, runners_setRunner_of_ne hur] at hu
      rw [runners_setRunner_of_ne hur]
      exact h u (stopping_iff.mpr hu)

/-- `ft.stop` and `ft.kill` set the flag of the thread they find. -/
theorem mark (hwf : s.WellFormed) (h : s.Flagged) {i : ℕ} {t : Record} (hactive : (s.threads i).active = true)
    (ht : t.stopRequested = true) : ((s.setRecord i t).markStopped (s.threads i).owner).Flagged := by
  refine (h.setRecord i ht).markStopped fun r hr => ?_
  change ((s.setRecord i t).threads (s.runners r).record).stopRequested = true
  rw [(hwf.owner i r hactive hr).2.1, threads_setRecord_self]
  exact ht

theorem drains {r : ℕ} (h : s.Flagged) (hd : s.Drains hasMethod r s') : s'.Flagged := by
  have hmail {rest : List Accepted} {q : Runner} (hq : (s.runners r).Goes q) :
      ((s.setMailbox (s.runners r).record rest).setRunner r q).Flagged := (h.setMailbox _ rest).moves ⟨q, rfl, hq⟩
  cases hd with
  | idle hm => exact h.moves hm
  | dropped _ _ hq _ => exact hmail hq
  | executed _ _ hq _ _ _ => exact (hmail hq).of_same (fun _ => rfl) fun _ hr => ⟨hr, rfl⟩

theorem news (hwf : s.WellFormed) (h : s.Flagged) {name : Name} {target : Target}
    (hk : s.keepsStopped (.new name target) = true) (hn : s.News name target s') : s'.Flagged := by
  have hfree {i : ℕ} (hfind : s.flxFindThread name = none) (hi : s.freeRecord = some i) {r : ℕ}
      (hr : s.stopping r = true) : (s.runners r).record ≠ i := by
    have hlt : r < s.started := by
      by_contra hge
      have hended := (hwf.fresh r (Nat.not_lt.mp hge)).1
      rw [(stopping_iff.mp hr).2] at hended
      cases hended
    simp only [keepsStopped, hfind, hi, List.all_eq_true, List.mem_range] at hk
    simpa [hr] using hk r hlt
  cases hn with
  | same => exact h
  | failed i active hfind hi =>
    intro r hr
    change ((s.failed i name active).threads (s.runners r).record).stopRequested = true
    rw [threads_failed_of_ne (hfree hfind hi hr)]
    exact h r hr
  | begun i hfind hi =>
    intro r hr
    have hnew : r ≠ s.started := by
      rintro rfl
      rw [stopping_iff, runners_begun_self] at hr
      cases hr.1
    rw [stopping_iff, runners_begun_of_ne hnew] at hr
    have hr := stopping_iff.mpr hr
    rw [runners_begun_of_ne hnew, threads_begun_of_ne (hfree hfind hi hr)]
    exact h r hr

theorem finish (h : s.Flagged) (r : ℕ) : (s.finishRunner r).Flagged := by
  unfold finishRunner
  dsimp only
  split
  · refine h.of_same (fun j => ?_) fun u hu => ?_
    · change ((s.setRecord (s.runners r).record _).threads j).stopRequested = _
      by_cases hj : j = (s.runners r).record
      · subst hj
        rw [threads_setRecord_self]
      · rw [threads_setRecord_of_ne hj]
    · have hur : u ≠ r := by
        rintro rfl
        rw [stopping_iff, runners_setRunner_self] at hu
        cases hu.2
      rw [stopping_iff, runners_setRunner_of_ne hur] at hu
      rw [runners_setRunner_of_ne hur]
      exact ⟨stopping_iff.mpr hu, rfl⟩
  · exact h

theorem step (hwf : s.WellFormed) (h : s.Flagged) {e : Event} (hk : s.keepsStopped e = true) :
    (s.step hasMethod e).Flagged := by
  rcases hr : e.mover with _ | r
  · cases e with
    | new name target => exact h.news hwf hk (s.news_ftNew name target)
    | find name =>
      change (s.ftFind name).Flagged
      unfold ftFind
      split
      · exact h
      · split
        · exact h
        · exact h
    | push k m =>
      change (s.flxMailboxPush k m).Flagged
      unfold flxMailboxPush
      split
      · exact h
      · dsimp only
        split
        · exact h
        · exact (h.setMailbox _ _).of_same (fun _ => rfl) fun _ hr => ⟨hr, rfl⟩
    | stop name =>
      change (s.ftStop name).Flagged
      unfold ftStop
      split
      · exact h
      · next i hi => exact h.mark hwf (flxFindThread_eq_some hi).1 rfl
    | kill name =>
      change (s.ftKill name).Flagged
      unfold ftKill
      split
      · exact h
      · next i hi => exact h.mark hwf (flxFindThread_eq_some hi).1 rfl
    | drain r => exact h.drains (s.drains_drainStep hasMethod r)
    | finish r => exact h.finish r
    | call | ret | enterLoop | leaveLoop | enterDanger | leaveDanger | backEdge | forwardJump | fail => cases hr
  · exact h.moves (s.moves_step hasMethod hr)

end Flagged

theorem endsLoop_of_flagged (hwf : s.WellFormed) (h : s.Flagged) {e : Event} (hk : s.keepsStopped e = true) :
    EndsLoop hasMethod s e := by
  rintro r kind frames rfl hstopped herr hframes
  have hlive : (s.runners r).ended = false := by
    by_contra hended
    have hnil := hwf.frames r (by simpa using hended)
    rw [hframes] at hnil
    cases hnil
  have hflag := h r (stopping_iff.mpr ⟨hstopped, hlive⟩)
  obtain rfl : kind = .evaluated := by simpa [keepsStopped, hstopped, hframes] using hk
  have hnone : s.enterDrain r = none := if_pos hflag
  simp [State.step, loopBackEdge, hframes, herr, hnone, setFrames]

/-- **When a stopped thread stops.** -/
theorem stopped_threads_stop (hasMethod : ℕ → Name → Bool) (es : List Event) (h : KeepsStopped hasMethod es) :
    StopsThreads hasMethod es := by
  have hstart : State.start.WellFormed ∧ State.start.Flagged := ⟨.start, fun _ hr => by simp [stopping, State.start] at hr⟩
  refine All.imp (I := fun s => s.WellFormed ∧ s.Flagged) ?_ ?_ hstart h
  · rintro s e ⟨hwf, hflag⟩ hk
    exact ⟨hwf.step hasMethod e, hflag.step hwf hk⟩
  · rintro s e ⟨hwf, hflag⟩ hk
    exact endsLoop_of_flagged hwf hflag hk

/-- A thread with an evaluated loop around another one is stopped while it is in the inner one. -/
def stoppedInLoops : List Event :=
  [.new [97] (.block 0), .enterLoop 0 .evaluated, .enterLoop 0 .evaluated, .stop [97], .backEdge 0, .backEdge 0]

theorem stoppedInLoops_stops : StopsThreads (fun _ _ => true) stoppedInLoops :=
  stopped_threads_stop _ _ (by decide)

/-- A compiled loop goes on after `ft.stop`, and an evaluated one after `ft.kill` when the next `ft.new` has taken
the record. -/
theorem stopped_thread_goes_on :
    let compiled : List Event := [.new [97] (.block 0), .enterLoop 0 .compiled, .stop [97]]
    let recycled : List Event := [.new [97] (.block 0), .enterLoop 0 .evaluated, .kill [97], .new [98] (.block 1)]
    ¬StopsThreads (fun _ _ => true) (compiled ++ [.backEdge 0]) ∧
      ¬StopsThreads (fun _ _ => true) (recycled ++ [.backEdge 0]) := by
  constructor
  · rintro ⟨-, -, -, h, -⟩
    exact absurd (h 0 .compiled [.call (some 0)] rfl (by decide) (by decide) (by decide)) (by decide)
  · rintro ⟨-, -, -, -, h, -⟩
    exact absurd (h 0 .evaluated [.call (some 0)] rfl (by decide) (by decide) (by decide)) (by decide)

end State

end Fluxa.FlxThread
