import Fluxa.Base.Along
import Fluxa.Threads

/-! What becomes of a message. Under a condition on every step, the messages accepted for a thread are those it has
executed, in the order of their acceptance, followed by those in its mailbox. Without it a message may be lost
with the thread, or be executed by another thread, or on the instance whose method happens to run. -/

namespace Fluxa.FlxThread

open Along State

namespace State

section Goal

variable (hasMethod : ℕ → Name → Bool) (s : State)

def acceptedFor (r : ℕ) : List Accepted := s.accepted.filter (·.addressee == some r)

/-- Those of them that were executed, in this order. -/
def executedFor (r : ℕ) : List Accepted := (s.executed.filter (·.msg.addressee == some r)).map (·.msg)

/-- The mailbox of a thread, until it ends. -/
def waiting (r : ℕ) : List Accepted :=
  if (s.runners r).ended then [] else (s.threads (s.runners r).record).mailbox

/-- Every message is addressed to a thread, and executed at most once, on the instance of that thread. What a thread
has executed are the first of the messages accepted for it, in their order; all others wait in its mailbox, unless it
was stopped or killed. -/
structure Delivers : Prop where
  addressed : ∀ a ∈ s.accepted, ∃ r < s.started, a.addressee = some r
  place : ∀ e ∈ s.executed, ∃ r < s.started, e.msg.addressee = some r ∧ (s.runners r).inst = some e.inst
  once : (s.executed.map (·.msg.id)).Nodup
  order : ∀ r < s.started, s.executedFor r <+: s.acceptedFor r
  complete : ∀ r < s.started, (s.runners r).stopped = false → s.acceptedFor r = s.executedFor r ++ s.waiting r

/-- The condition on a step. `ft.new` takes no record of a thread that is still running, and its name fits; a message
fits, and is pushed while the thread that was looked up still has the record; when a thread takes a message out of its
mailbox, a method of its own instance is running without an error, and the instance has the method; and a thread
ends with an empty mailbox, unless it was stopped or killed. -/
def orderly : Event → Bool
  | .new name _ =>
    match s.flxFindThread name, s.freeRecord with
    | none, some i => decide (name.length ≤ 63) &&
        (List.range s.started).all fun r => (s.runners r).ended || (s.runners r).record != i
    | _, _ => true
  | .push k m =>
    match s.sending[k]? with
    | some c => decide (fluxaMailboxMax ≤ (s.threads c.record).mailbox.length) ||
        ((s.threads c.record).active && (s.threads c.record).owner == some c.found &&
          decide (m.method.length ≤ 127 ∧ m.args.length ≤ fluxaFtMaxArgs))
    | none => true
  | .drain r =>
    match (s.threads (s.runners r).record).mailbox with
    | [] => true
    | m :: _ => (s.runners r).frames.head? != some .drain ||
        (!(s.runners r).hadError && currentInstance (s.runners r).frames == (s.runners r).inst &&
          (s.runners r).inst.any (hasMethod · m.message.method))
  | .finish r => !(s.runners r).frames.isEmpty || (s.runners r).ended ||
      (s.threads (s.runners r).record).mailbox.isEmpty || (s.runners r).stopped
  | _ => true

def Orderly (es : List Event) : Prop :=
  All (fun s e => s.step hasMethod e) (fun s e => s.orderly hasMethod e = true) start es

instance (es : List Event) : Decidable (Orderly hasMethod es) :=
  inferInstanceAs (Decidable (All _ (fun s e => orderly hasMethod s e = true) _ es))

end Goal

section Invariant

/-- The records and the threads: a thread keeps its record until it ends, and the active record with a name is that of
the thread that was started under the name last. -/
structure Owned (s : State) : Prop where
  wellFormed : s.WellFormed
  held : ∀ r, (s.runners r).ended = false → (s.threads (s.runners r).record).owner = some r
  named : ∀ i r, (s.threads i).active = true → (s.threads i).owner = some r →
    (s.threads i).name = (s.runners r).name ∧ s.created (s.threads i).name = some r
  sent : ∀ c ∈ s.sending, c.found < s.started ∧ (s.runners c.found).name = c.name

/-- The messages of a thread that is running. After `ft.kill` its record is out of use. -/
def Queued (accepted executed : List Accepted) (q : Runner) (t : Record) : Prop :=
  accepted = executed ++ t.mailbox ∨
    (q.stopped = true ∧ t.mailbox = [] ∧ t.active = false ∧ executed <+: accepted)

def Settled (accepted executed : List Accepted) (q : Runner) : Prop :=
  executed <+: accepted ∧ (q.stopped = false → accepted = executed)

structure Booked (s : State) : Prop where
  ids : s.accepted.map (·.id) = List.range s.accepted.length
  addressed : ∀ a ∈ s.accepted, ∃ r < s.started, a.addressee = some r
  place : ∀ e ∈ s.executed, ∃ r < s.started, e.msg.addressee = some r ∧ (s.runners r).inst = some e.inst
  once : (s.executed.map (·.msg.id)).Nodup
  queued : ∀ r < s.started, (s.runners r).ended = false →
    Queued (s.acceptedFor r) (s.executedFor r) (s.runners r) (s.threads (s.runners r).record)
  settled : ∀ r < s.started, (s.runners r).ended = true → Settled (s.acceptedFor r) (s.executedFor r) (s.runners r)

structure Delivering (s : State) : Prop extends Owned s, Booked s

variable {hasMethod : ℕ → Name → Bool} {s s' : State} {r u i : ℕ} {t : Record} {q : Runner} {a : Accepted}
  {accepted executed : List Accepted}

theorem Queued.order (h : Queued accepted executed q t) : executed <+: accepted := by
  rcases h with h | ⟨-, -, -, h⟩
  · exact ⟨_, h.symm⟩
  · exact h

theorem Queued.setRecord {t' : Record} (h : Queued accepted executed q t)
    (ht : (t'.mailbox = t.mailbox ∧ (t'.active = true → t.active = true)) ∨
      (q.stopped = true ∧ t'.mailbox = [] ∧ t'.active = false)) : Queued accepted executed q t' := by
  rcases ht with ⟨hmail, hactive⟩ | ⟨hstopped, hmail, hactive⟩
  · rcases h with h | ⟨hstopped, hnil, hnot, horder⟩
    · exact .inl (by rw [hmail]; exact h)
    · refine .inr ⟨hstopped, hmail.trans hnil, Bool.eq_false_iff.mpr fun ht => ?_, horder⟩
      rw [hactive ht] at hnot
      cases hnot
  · exact .inr ⟨hstopped, hmail, hactive, h.order⟩

theorem Queued.settled (h : Queued accepted executed q t) (hend : t.mailbox = [] ∨ q.stopped = true) :
    Settled accepted executed q := by
  refine ⟨h.order, fun hnot => ?_⟩
  rcases h with h | ⟨hstopped, -⟩
  · rcases hend with hnil | hstopped
    · rwa [hnil, List.append_nil] at h
    · rw [hnot] at hstopped
      cases hstopped
  · rw [hnot] at hstopped
    cases hstopped

theorem Booked.order (h : s.Booked) (hr : r < s.started) : s.executedFor r <+: s.acceptedFor r := by
  rcases hended : (s.runners r).ended with _ | _
  · exact (h.queued r hr hended).order
  · exact (h.settled r hr hended).1

theorem Booked.delivers (h : s.Booked) : s.Delivers where
  addressed := h.addressed
  place := h.place
  once := h.once
  order _ hr := h.order hr
  complete r hr hstopped := by
    unfold waiting
    rcases hended : (s.runners r).ended with _ | _
    · rcases h.queued r hr hended with hq | ⟨hq, -⟩
      · exact hq
      · rw [hstopped] at hq
        cases hq
    · rw [(h.settled r hr hended).2 hstopped]
      exact (List.append_nil _).symm

theorem Delivering.start : start.Delivering where
  wellFormed := .start
  held _ hr := absurd hr (by simp [State.start])
  named _ _ hi := absurd hi (by simp [State.start, Record.blank])
  sent _ hc := absurd hc (by simp [State.start])
  ids := rfl
  addressed _ ha := absurd ha (by simp [State.start])
  place _ he := absurd he (by simp [State.start])
  once := List.nodup_nil
  queued _ hr := absurd hr (by simp [State.start])
  settled _ hr := absurd hr (by simp [State.start])

theorem Owned.started_of_live (h : s.Owned) (hr : (s.runners r).ended = false) : r < s.started := by
  by_contra hge
  have hended := (h.wellFormed.fresh r (Nat.not_lt.mp hge)).1
  rw [hr] at hended
  cases hended

theorem Owned.record_ne (h : s.Owned) (hr : (s.runners r).ended = false) (hu : (s.runners u).ended = false)
    (hur : u ≠ r) : (s.runners u).record ≠ (s.runners r).record := by
  intro hrec
  apply hur
  have hheld := h.held u hu
  rw [hrec, h.held r hr] at hheld
  exact (Option.some.inj hheld).symm

/-! A thread, or a record, that has changed in a way that concerns no message. -/

/-- A thread that is the same but for its frames, its error and its being stopped; when it ends, its mailbox is
empty or it was stopped. -/
theorem Delivering.setRunner (h : s.Delivering) (hwf : (s.setRunner r q).WellFormed)
    (hrecord : q.record = (s.runners r).record) (hname : q.name = (s.runners r).name)
    (hinst : q.inst = (s.runners r).inst) (hstopped : (s.runners r).stopped = true → q.stopped = true)
    (hended : q.ended = (s.runners r).ended ∨
      (q.ended = true ∧ ((s.threads (s.runners r).record).mailbox = [] ∨ (s.runners r).stopped = true))) :
    (s.setRunner r q).Delivering := by
  have hsame (u : ℕ) : ((s.setRunner r q).runners u).record = (s.runners u).record ∧
      ((s.setRunner r q).runners u).name = (s.runners u).name ∧
      ((s.setRunner r q).runners u).inst = (s.runners u).inst ∧
      ((s.runners u).stopped = true → ((s.setRunner r q).runners u).stopped = true) ∧
      (((s.setRunner r q).runners u).ended = (s.runners u).ended ∨ (((s.setRunner r q).runners u).ended = true ∧
        ((s.threads (s.runners u).record).mailbox = [] ∨ (s.runners u).stopped = true))) := by
    by_cases hur : u = r
    · subst hur
      rw [runners_setRunner_self]
      exact ⟨hrecord, hname, hinst, hstopped, hended⟩
    · rw [runners_setRunner_of_ne hur]
      exact ⟨rfl, rfl, rfl, id, .inl rfl⟩
  have hlives {u : ℕ} (hu : ((s.setRunner r q).runners u).ended = false) : (s.runners u).ended = false := by
    rcases (hsame u).2.2.2.2 with hend | ⟨hend, -⟩
    · exact hend ▸ hu
    · rw [hu] at hend
      cases hend
  refine ⟨⟨hwf, fun u hu => ?_, fun i u hi ho => ?_, fun c hc => ?_⟩, ⟨h.ids, h.addressed, fun e he => ?_, h.once,
    fun u hu hlive => ?_, fun u hu hend => ?_⟩⟩
  · rw [(hsame u).1]
    exact h.held u (hlives hu)
  · rw [(hsame _).2.1]
    exact h.named i u hi ho
  · rw [(hsame _).2.1]
    exact h.sent c hc
  · obtain ⟨u, hu, haddr, hin⟩ := h.place e he
    exact ⟨u, hu, haddr, (hsame u).2.2.1.trans hin⟩
  · obtain ⟨hrec, -, -, hstop, -⟩ := hsame u
    rw [hrec]
    exact (h.queued u hu (hlives hlive)).imp_right fun hq => ⟨hstop hq.1, hq.2⟩
  · obtain ⟨-, -, -, hstop, hend'⟩ := hsame u
    have hbefore : Settled (s.acceptedFor u) (s.executedFor u) (s.runners u) := by
      rcases hlive : (s.runners u).ended with _ | _
      · rcases hend' with hend' | ⟨-, hmail⟩
        · rw [hend', hlive] at hend
          cases hend
        · exact (h.queued u hu hlive).settled hmail
      · exact h.settled u hu hlive
    refine ⟨hbefore.1, fun hnot => hbefore.2 ?_⟩
    -- what does not count as stopped now did not before
    exact Bool.eq_false_iff.mpr fun hwas => absurd (hstop hwas) (Bool.eq_false_iff.mp hnot)

theorem Delivering.moves (h : s.Delivering) (hm : s.Moves s' r) : s'.Delivering := by
  have hwf := h.wellFormed.moves hm
  obtain ⟨q, rfl, hq⟩ := hm
  exact h.setRunner hwf hq.record hq.name hq.inst (fun hs => hq.stopped.trans hs) (.inl hq.ended)

theorem Delivering.markStopped (h : s.Delivering) {o : Option ℕ} (ho : ∀ r, o = some r → r < s.started) :
    (s.markStopped o).Delivering := by
  have hwf := h.wellFormed.markStopped ho
  cases o with
  | none => exact h
  | some r => exact h.setRunner hwf rfl rfl rfl (fun _ => rfl) (.inl rfl)

theorem Owned.setRecord (h : s.Owned)
    (ht : t.active = true → (s.threads i).active = true ∧ t.owner = (s.threads i).owner ∧
      t.name = (s.threads i).name)
    (hlive : ∀ u, (s.runners u).ended = false → (s.runners u).record = i → t.owner = some u) :
    (s.setRecord i t).Owned := by
  refine ⟨h.wellFormed.setRecord fun hact => ⟨(ht hact).1, (ht hact).2.1⟩, fun u hu => ?_, fun j u hj ho => ?_, h.sent⟩
  · change ((s.setRecord i t).threads (s.runners u).record).owner = some u
    by_cases hrec : (s.runners u).record = i
    · rw [hrec, threads_setRecord_self]
      exact hlive u hu hrec
    · rw [threads_setRecord_of_ne hrec]
      exact h.held u hu
  · by_cases hji : j = i
    · subst hji
      rw [threads_setRecord_self] at hj ho ⊢
      obtain ⟨hactive, howner, hname⟩ := ht hj
      rw [hname]
      exact h.named j u hactive (howner ▸ ho)
    · rw [threads_setRecord_of_ne hji] at hj ho ⊢
      exact h.named j u hj ho

theorem Owned.setMailbox (h : s.Owned) (i : ℕ) (mailbox : List Accepted) : (s.setMailbox i mailbox).Owned := by
  refine h.setRecord (fun hactive => ⟨hactive, rfl, rfl⟩) fun u hu hrec => ?_
  rw [← hrec]
  exact h.held u hu

theorem Booked.setRecord (h : s.Booked)
    (ht : ∀ u, (s.runners u).ended = false → (s.runners u).record = i →
      (t.mailbox = (s.threads i).mailbox ∧ (t.active = true → (s.threads i).active = true)) ∨
        ((s.runners u).stopped = true ∧ t.mailbox = [] ∧ t.active = false)) : (s.setRecord i t).Booked := by
  refine ⟨h.ids, h.addressed, h.place, h.once, fun u hu hlive => ?_, h.settled⟩
  change Queued (s.acceptedFor u) (s.executedFor u) (s.runners u) ((s.setRecord i t).threads (s.runners u).record)
  by_cases hrec : (s.runners u).record = i
  · rw [hrec, threads_setRecord_self]
    have hq := h.queued u hu hlive
    rw [hrec] at hq
    exact hq.setRecord (ht u hlive hrec)
  · rw [threads_setRecord_of_ne hrec]
    exact h.queued u hu hlive

/-! `ft.stop`, `ft.kill`, and a message that is on its way. -/

theorem Delivering.ftStop (h : s.Delivering) (name : Name) : (s.ftStop name).Delivering := by
  unfold State.ftStop
  split
  · exact h
  · next i hi =>
    have hactive := (flxFindThread_eq_some hi).1
    have hflag : (s.setRecord i { s.threads i with stopRequested := true }).Delivering := by
      refine ⟨h.toOwned.setRecord (fun hactive => ⟨hactive, rfl, rfl⟩) fun u hu hrec => ?_,
        h.toBooked.setRecord fun u _ _ => .inl ⟨rfl, id⟩⟩
      rw [← hrec]
      exact h.held u hu
    exact hflag.markStopped fun r hr => (h.wellFormed.owner i r hactive hr).1

theorem Delivering.ftKill (h : s.Delivering) (name : Name) : (s.ftKill name).Delivering := by
  unfold State.ftKill
  split
  · exact h
  · next i hi =>
    have hactive := (flxFindThread_eq_some hi).1
    have hmarked := h.markStopped fun r hr => (h.wellFormed.owner i r hactive hr).1
    -- the thread is marked first; it is the only one that runs with the record
    have hswap (t : Record) : (s.setRecord i t).markStopped (s.threads i).owner =
        (s.markStopped (s.threads i).owner).setRecord i t := by
      cases (s.threads i).owner <;> rfl
    rw [hswap]
    have honly (u : ℕ) (hu : ((s.markStopped (s.threads i).owner).runners u).ended = false)
        (hrec : ((s.markStopped (s.threads i).owner).runners u).record = i) : (s.threads i).owner = some u := by
      have hheld := hmarked.held u hu
      rwa [hrec, threads_markStopped] at hheld
    refine ⟨hmarked.toOwned.setRecord (t := ⟨_, false, _, true, [], _⟩) nofun honly,
      hmarked.toBooked.setRecord fun u hu hrec => .inr ⟨?_, rfl, rfl⟩⟩
    rw [honly u hu hrec]
    exact congrArg Runner.stopped (runners_setRunner_self ..)

theorem Delivering.find (h : s.Delivering) (name : Name) : (s.ftFind name).Delivering := by
  unfold ftFind
  split
  · exact h
  · next i hi =>
    obtain ⟨hactive, hname⟩ := flxFindThread_eq_some hi
    split
    · next r _ hr =>
      obtain ⟨hwf, hheld, hnamed, hsent⟩ := h.toOwned
      refine ⟨⟨{ hwf with }, hheld, hnamed, fun c hc => ?_⟩,
        ⟨h.ids, h.addressed, h.place, h.once, h.queued, h.settled⟩⟩
      rcases List.mem_append.mp hc with hc | hc
      · exact hsent c hc
      · obtain rfl := List.mem_singleton.mp hc
        exact ⟨(hwf.owner i r hactive hr).1, (hnamed i r hactive hr).1.symm.trans hname⟩
    · exact h

/-! A message is accepted. -/

theorem mem_acceptedFor : a ∈ s.acceptedFor r ↔ a ∈ s.accepted ∧ a.addressee = some r := by
  simp [acceptedFor]

/-- The thread that is looked up still has the record when the message is pushed. -/
theorem Delivering.accepts (h : s.Delivering) (hactive : (s.threads i).active = true)
    (howner : (s.threads i).owner = some r) (hid : a.id = s.accepted.length) (haddr : a.addressee = some r) :
    Delivering { s.setMailbox i ((s.threads i).mailbox ++ [a]) with accepted := s.accepted ++ [a] } := by
  obtain ⟨hlt, hrecord, hlive⟩ := h.wellFormed.owner i r hactive howner
  obtain ⟨hwf, hheld, hnamed, hsent⟩ := h.toOwned.setMailbox i ((s.threads i).mailbox ++ [a])
  have hother {u : ℕ} (hu : u ≠ r) :
      (s.accepted ++ [a]).filter (·.addressee == some u) = s.acceptedFor u := by
    simp [acceptedFor, haddr, hu.symm]
  have hself : (s.accepted ++ [a]).filter (·.addressee == some r) = s.acceptedFor r ++ [a] := by
    simp [acceptedFor, haddr]
  refine ⟨⟨{ hwf with }, hheld, hnamed, hsent⟩, ⟨?_, fun b hb => ?_, h.place, h.once,
    fun u hu hul => ?_, fun u hu hended => ?_⟩⟩
  · change (s.accepted ++ [a]).map (·.id) = List.range (s.accepted ++ [a]).length
    rw [List.map_append, h.ids, List.length_append, List.length_singleton, List.range_succ, List.map_singleton, hid]
  · rcases List.mem_append.mp hb with hb | hb
    · exact h.addressed b hb
    · obtain rfl := List.mem_singleton.mp hb
      exact ⟨_, hlt, haddr⟩
  · change Queued ((s.accepted ++ [a]).filter (·.addressee == some u)) (s.executedFor u) (s.runners u)
      ((s.setMailbox i _).threads (s.runners u).record)
    by_cases hur : u = r
    · subst hur
      rw [hself, hrecord, setMailbox, threads_setRecord_self]
      have hq := h.queued _ hlt hlive
      rw [hrecord] at hq
      rcases hq with hq | ⟨-, -, hnot, -⟩
      · refine .inl ?_
        rw [hq, List.append_assoc]
      · rw [hactive] at hnot
        cases hnot
    · have hne : (s.runners u).record ≠ i := fun hrec => by
        have hheld := h.held u hul
        rw [hrec, howner] at hheld
        exact hur (Option.some.inj hheld).symm
      rw [hother hur, setMailbox, threads_setRecord_of_ne hne]
      exact h.queued u hu hul
  · change Settled ((s.accepted ++ [a]).filter (·.addressee == some u)) (s.executedFor u) (s.runners u)
    have hur : u ≠ r := by
      rintro rfl
      change (s.runners u).ended = true at hended
      rw [hlive] at hended
      cases hended
    rw [hother hur]
    exact h.settled u hu hended

theorem Message.stored_eq {m : Message} (hmethod : m.method.length ≤ 127) (hargs : m.args.length ≤ fluxaFtMaxArgs) :
    m.stored = m := by
  unfold Message.stored
  rw [List.take_of_length_le hmethod, List.take_of_length_le hargs]

theorem Delivering.erase (h : s.Delivering) (k : ℕ) : Delivering { s with sending := s.sending.eraseIdx k } := by
  obtain ⟨hwf, hheld, hnamed, hsent⟩ := h.toOwned
  exact ⟨⟨{ hwf with }, hheld, hnamed,
    fun c hc => hsent c (List.mem_of_mem_eraseIdx hc)⟩, ⟨h.ids, h.addressed, h.place, h.once, h.queued, h.settled⟩⟩

theorem Delivering.push (h : s.Delivering) {k : ℕ} {m : Message} (hok : s.orderly hasMethod (.push k m) = true) :
    (s.flxMailboxPush k m).Delivering := by
  unfold flxMailboxPush
  split
  · exact h
  · next c hc =>
    dsimp only [orderly] at hok ⊢
    rw [hc] at hok
    have herase := h.erase k
    split
    · exact herase
    · next hfull =>
      have hcond : (s.threads c.record).active = true ∧ (s.threads c.record).owner = some c.found ∧
          m.method.length ≤ 127 ∧ m.args.length ≤ fluxaFtMaxArgs := by
        simpa [hfull, and_assoc] using hok
      obtain ⟨hactive, howner, hmethod, hargs⟩ := hcond
      obtain ⟨hname, hcreated⟩ := h.named c.record c.found hactive howner
      have haddr : s.created c.name = some c.found := by
        rw [← (h.sent c (List.mem_of_getElem? hc)).2, ← hname]
        exact hcreated
      rw [Message.stored_eq hmethod hargs]
      exact herase.accepts hactive howner rfl haddr

/-! A message is executed. -/

theorem Booked.nodup_ids (h : s.Booked) : (s.accepted.map (·.id)).Nodup := by
  rw [h.ids]
  exact List.nodup_range

theorem Booked.accepted_of_executed (h : s.Booked) {e : Executed} (he : e ∈ s.executed) :
    ∃ r, e.msg ∈ s.executedFor r ∧ e.msg ∈ s.acceptedFor r := by
  obtain ⟨r, hr, haddr, -⟩ := h.place e he
  have hmem : e.msg ∈ s.executedFor r := List.mem_map_of_mem (List.mem_filter.mpr ⟨he, by simp [haddr]⟩)
  exact ⟨r, hmem, (h.order hr).subset hmem⟩

theorem Booked.not_executed (h : s.Booked) {m : Accepted} {rest : List Accepted}
    (hall : s.acceptedFor r = s.executedFor r ++ m :: rest) : ∀ e ∈ s.executed, e.msg.id ≠ m.id := by
  intro e he hid
  obtain ⟨u, hex, hacc⟩ := h.accepted_of_executed he
  have hm : m ∈ s.acceptedFor r := by simp [hall]
  have hsame : e.msg = m :=
    List.inj_on_of_nodup_map h.nodup_ids (mem_acceptedFor.mp hacc).1 (mem_acceptedFor.mp hm).1 hid
  rw [hsame] at hex hacc
  obtain rfl : u = r := Option.some.inj ((mem_acceptedFor.mp hacc).2.symm.trans (mem_acceptedFor.mp hm).2)
  have hnodup : (s.acceptedFor u).Nodup := h.nodup_ids.of_map.filter _
  rw [hall, List.nodup_append] at hnodup
  exact hnodup.2.2 m hex m (List.mem_cons_self ..) rfl

/-- A running thread executes the first message of its mailbox, on its own instance. -/
theorem Delivering.executes (h : s.Delivering) {m : Accepted} {rest : List Accepted}
    (hlive : (s.runners r).ended = false) (hmail : (s.threads (s.runners r).record).mailbox = m :: rest)
    (hinst : (s.runners r).inst = some i) :
    Delivering { s.setMailbox (s.runners r).record rest with executed := s.executed ++ [⟨m, i⟩] } := by
  have hr : r < s.started := h.started_of_live hlive
  have hall : s.acceptedFor r = s.executedFor r ++ m :: rest := by
    rcases h.queued r hr hlive with hall | ⟨-, hnil, -⟩
    · rwa [hmail] at hall
    · rw [hmail] at hnil
      cases hnil
  have haddr : m.addressee = some r := (mem_acceptedFor.mp (by simp [hall] : m ∈ s.acceptedFor r)).2
  obtain ⟨hwf, hheld, hnamed, hsent⟩ := h.toOwned.setMailbox (s.runners r).record rest
  let executed : List Executed := s.executed ++ [⟨m, i⟩]
  have hother {u : ℕ} (hu : u ≠ r) :
      (executed.filter (·.msg.addressee == some u)).map (·.msg) = s.executedFor u := by
    simp [executed, executedFor, haddr, hu.symm]
  have hself : (executed.filter (·.msg.addressee == some r)).map (·.msg) = s.executedFor r ++ [m] := by
    simp [executed, executedFor, haddr]
  refine ⟨⟨{ hwf with }, hheld, hnamed, hsent⟩, ⟨h.ids, h.addressed, fun e he => ?_,
    ?_, fun u hu hul => ?_, fun u hu hended => ?_⟩⟩
  · rcases List.mem_append.mp he with he | he
    · exact h.place e he
    · obtain rfl := List.mem_singleton.mp he
      exact ⟨r, hr, haddr, hinst⟩
  · change (executed.map (·.msg.id)).Nodup
    rw [List.map_append, List.nodup_append]
    refine ⟨h.once, List.nodup_singleton _, fun x hx y hy => ?_⟩
    obtain ⟨e, he, rfl⟩ := List.mem_map.mp hx
    obtain rfl := List.mem_singleton.mp hy
    exact h.not_executed hall e he
  · change Queued (s.acceptedFor u) ((executed.filter (·.msg.addressee == some u)).map (·.msg))
      (s.runners u) ((s.setMailbox (s.runners r).record rest).threads (s.runners u).record)
    by_cases hur : u = r
    · subst hur
      refine .inl ?_
      rw [hself, setMailbox, threads_setRecord_self, List.append_assoc]
      exact hall
    · rw [hother hur, setMailbox, threads_setRecord_of_ne (h.record_ne hlive hul hur)]
      exact h.queued u hu hul
  · change Settled (s.acceptedFor u) ((executed.filter (·.msg.addressee == some u)).map (·.msg))
      (s.runners u)
    have hur : u ≠ r := by
      rintro rfl
      change (s.runners u).ended = true at hended
      rw [hlive] at hended
      cases hended
    rw [hother hur]
    exact h.settled u hu hended

theorem Delivering.drain (h : s.Delivering) (hd : s.Drains hasMethod r s')
    (hok : s.orderly hasMethod (.drain r) = true) : s'.Delivering := by
  have hcond {m : Accepted} {rest : List Accepted} (hhead : (s.runners r).frames.head? = some .drain)
      (hmail : (s.threads (s.runners r).record).mailbox = m :: rest) : (s.runners r).hadError = false ∧
        currentInstance (s.runners r).frames = (s.runners r).inst ∧
        ∃ i, (s.runners r).inst = some i ∧ hasMethod i m.message.method = true := by
    dsimp only [orderly] at hok
    rw [hmail] at hok
    simpa [hhead, and_assoc, Option.any_eq_true] using hok
  cases hd with
  | idle hm => exact h.moves hm
  | dropped hhead hmail hq hwhy =>
    obtain ⟨herr, hcur, i, hinst, hmethod⟩ := hcond hhead hmail
    rw [hinst] at hcur
    rcases hwhy with hnone | herr' | hno
    · rw [hcur] at hnone
      cases hnone
    · rw [herr] at herr'
      cases herr'
    · rw [hno i hcur] at hmethod
      cases hmethod
  | @executed m rest q i hhead hmail hq hcur _ _ =>
    obtain ⟨-, hsame, -⟩ := hcond hhead hmail
    have hlive : (s.runners r).ended = false := by
      by_contra hended
      rw [h.wellFormed.frames r (by simpa using hended)] at hhead
      cases hhead
    have hself := runners_setRunner_self s r q
    -- the thread goes on first; the message is then executed in the state that this leads to
    have hmoved : (s.setRunner r q).Delivering := h.moves ⟨q, rfl, hq⟩
    have hlive' : ((s.setRunner r q).runners r).ended = false := by rw [hself, hq.ended, hlive]
    have hinst' : ((s.setRunner r q).runners r).inst = some i := by rw [hself, hq.inst, ← hsame, hcur]
    have hrecord : ((s.setRunner r q).runners r).record = (s.runners r).record := by rw [hself, hq.record]
    have hexecuted := hmoved.executes hlive' (by rw [hrecord]; exact hmail) hinst'
    rw [hrecord] at hexecuted
    exact hexecuted

theorem Delivering.finish (h : s.Delivering) (hok : s.orderly hasMethod (.finish r) = true) :
    (s.finishRunner r).Delivering := by
  have hwf := h.wellFormed.finish r
  unfold finishRunner at hwf ⊢
  dsimp only at hwf ⊢
  split at hwf
  · next hr =>
    rw [if_pos hr]
    have hcond : (s.threads (s.runners r).record).mailbox = [] ∨ (s.runners r).stopped = true := by
      simpa [orderly, hr.1, hr.2] using hok
    have hfreed : (s.setRecord (s.runners r).record
        { s.threads (s.runners r).record with active := false }).Delivering := by
      refine ⟨h.toOwned.setRecord nofun fun u hu hrec => ?_, h.toBooked.setRecord fun u _ _ => .inl ⟨rfl, nofun⟩⟩
      rw [← h.held u hu, hrec]
    exact hfreed.setRunner hwf rfl rfl rfl id (.inr ⟨rfl, by
      change (threads _ (s.runners r).record).mailbox = [] ∨ (s.runners r).stopped = true
      rwa [threads_setRecord_self]⟩)
  · next hr =>
    rw [if_neg hr]
    exact h

/-! `ft.new`. -/

variable {name : Name} {target : Target}

theorem freeRecord_not_live (h : s.Owned) (hok : s.orderly hasMethod (.new name target) = true)
    (hfind : s.flxFindThread name = none) (hfree : s.freeRecord = some i) :
    name.length ≤ 63 ∧ ∀ u, (s.runners u).ended = false → (s.runners u).record ≠ i := by
  dsimp only [orderly] at hok
  rw [hfind, hfree] at hok
  simp only [Bool.and_eq_true, decide_eq_true_eq, List.all_eq_true, List.mem_range, Bool.or_eq_true, bne_iff_ne] at hok
  refine ⟨hok.1, fun u hlive => ?_⟩
  rcases hok.2 u (h.started_of_live hlive) with hended | hne
  · rw [hlive] at hended
    cases hended
  · exact hne

theorem Owned.name_ne (h : s.Owned) (hfind : s.flxFindThread name = none) (hi : (s.threads i).active = true) :
    (s.threads i).name ≠ name := by
  intro hname
  have hnone := List.find?_eq_none.mp hfind i (List.mem_range.mpr (h.wellFormed.bounded i hi))
  exact hnone (by simp [hi, hname])

theorem Owned.begun (h : s.Owned) (hfind : s.flxFindThread name = none) (hlen : name.length ≤ 63)
    (hfree : ∀ u, (s.runners u).ended = false → (s.runners u).record ≠ i) : (s.begun i name target).Owned := by
  refine ⟨h.wellFormed.begun i name target, fun u hu => ?_, fun j u hj ho => ?_, fun c hc => ?_⟩
  · by_cases hus : u = s.started
    · subst hus
      rw [runners_begun_self, threads_begun_self]
    · rw [runners_begun_of_ne hus] at hu ⊢
      rw [threads_begun_of_ne (hfree u hu)]
      exact h.held u hu
  · by_cases hji : j = i
    · subst hji
      rw [threads_begun_self] at ho ⊢
      obtain rfl := Option.some.inj ho
      rw [runners_begun_self]
      -- the name fits, so that it is the one the thread was started under
      change name.take 63 = name ∧ Function.update s.created name (some s.started) (name.take 63) = some s.started
      rw [List.take_of_length_le hlen]
      exact ⟨rfl, Function.update_self ..⟩
    · rw [threads_begun_of_ne hji] at hj ho ⊢
      rw [runners_begun_of_ne (h.wellFormed.owner j u hj ho).1.ne]
      obtain ⟨hname, hcreated⟩ := h.named j u hj ho
      refine ⟨hname, ?_⟩
      change Function.update s.created name (some s.started) (s.threads j).name = _
      rw [Function.update_of_ne (h.name_ne hfind hj)]
      exact hcreated
  · obtain ⟨hfound, hname⟩ := h.sent c hc
    rw [runners_begun_of_ne hfound.ne]
    exact ⟨Nat.lt_succ_of_lt hfound, hname⟩

theorem Booked.acceptedFor_fresh (h : s.Booked) (hr : s.started ≤ r) : s.acceptedFor r = [] := by
  refine List.filter_eq_nil_iff.mpr fun a ha => ?_
  obtain ⟨u, hu, haddr⟩ := h.addressed a ha
  simp only [haddr, beq_iff_eq, Option.some.injEq]
  exact (hu.trans_le hr).ne

theorem Booked.executedFor_fresh (h : s.Booked) (hr : s.started ≤ r) : s.executedFor r = [] := by
  refine List.map_eq_nil_iff.mpr (List.filter_eq_nil_iff.mpr fun e he => ?_)
  obtain ⟨u, hu, haddr, -⟩ := h.place e he
  simp only [haddr, beq_iff_eq, Option.some.injEq]
  exact (hu.trans_le hr).ne

theorem Booked.begun (h : s.Booked) (hfree : ∀ u, (s.runners u).ended = false → (s.runners u).record ≠ i) :
    (s.begun i name target).Booked := by
  refine ⟨h.ids, fun a ha => ?_, fun e he => ?_, h.once, fun u hu hlive => ?_, fun u hu hended => ?_⟩
  · obtain ⟨u, hu, haddr⟩ := h.addressed a ha
    exact ⟨u, Nat.lt_succ_of_lt hu, haddr⟩
  · obtain ⟨u, hu, haddr, hinst⟩ := h.place e he
    refine ⟨u, Nat.lt_succ_of_lt hu, haddr, ?_⟩
    rw [runners_begun_of_ne hu.ne]
    exact hinst
  · change Queued (s.acceptedFor u) (s.executedFor u) _ _
    by_cases hus : u = s.started
    · subst hus
      rw [h.acceptedFor_fresh le_rfl, h.executedFor_fresh le_rfl, runners_begun_self, threads_begun_self]
      exact .inl rfl
    · rw [runners_begun_of_ne hus] at hlive ⊢
      rw [threads_begun_of_ne (hfree u hlive)]
      exact h.queued u (Nat.lt_of_le_of_ne (Nat.le_of_lt_succ hu) hus) hlive
  · change Settled (s.acceptedFor u) (s.executedFor u) _
    have hus : u ≠ s.started := by
      rintro rfl
      rw [runners_begun_self] at hended
      cases hended
    rw [runners_begun_of_ne hus] at hended ⊢
    exact h.settled u (Nat.lt_of_le_of_ne (Nat.le_of_lt_succ hu) hus) hended

theorem Delivering.news (h : s.Delivering) (hn : s.News name target s')
    (hok : s.orderly hasMethod (.new name target) = true) : s'.Delivering := by
  cases hn with
  | same => exact h
  | failed i active hfind hfree =>
    obtain ⟨-, hlive⟩ := freeRecord_not_live h.toOwned hok hfind hfree
    have hbooked : (s.setRecord i { Record.blank with name := name.take 63, active := active }).Booked :=
      h.toBooked.setRecord fun u hu hrec => absurd hrec (hlive u hu)
    refine ⟨⟨h.wellFormed.failed i name active, fun u hu => ?_, fun j u hj ho => ?_, h.sent⟩,
      ⟨hbooked.ids, hbooked.addressed, hbooked.place, hbooked.once, hbooked.queued, hbooked.settled⟩⟩
    · change ((s.failed i name active).threads (s.runners u).record).owner = some u
      rw [threads_failed_of_ne (hlive u hu)]
      exact h.held u hu
    · by_cases hji : j = i
      · subst hji
        rw [threads_failed_self] at ho
        cases ho
      · rw [threads_failed_of_ne hji] at hj ho ⊢
        exact h.named j u hj ho
  | begun i hfind hfree =>
    obtain ⟨hlen, hlive⟩ := freeRecord_not_live h.toOwned hok hfind hfree
    exact ⟨h.toOwned.begun hfind hlen hlive, h.toBooked.begun hlive⟩

theorem Delivering.step (h : s.Delivering) {e : Event} (hok : s.orderly hasMethod e = true) :
    (s.step hasMethod e).Delivering := by
  rcases hr : e.mover with _ | r
  · cases e with
    | new name target => exact h.news (s.news_ftNew name target) hok
    | find name => exact h.find name
    | push k m => exact h.push hok
    | stop name => exact h.ftStop name
    | kill name => exact h.ftKill name
    | drain r => exact h.drain (s.drains_drainStep hasMethod r) hok
    | finish r => exact h.finish hok
    | call | ret | enterLoop | leaveLoop | enterDanger | leaveDanger | backEdge | forwardJump | fail => cases hr
  · exact h.moves (s.moves_step hasMethod hr)

end Invariant

/-- **Every run of orderly steps delivers its messages**: each one is executed by the thread it was accepted for, on the
instance of this thread, at most once and in the order of acceptance, and none is lost unless the thread was stopped
or killed. -/
theorem messages_delivered (hasMethod : ℕ → Name → Bool) (es : List Event) (h : Orderly hasMethod es) :
    (start.run hasMethod es).Delivers :=
  (All.invariant (I := Delivering) (fun hs hok => hs.step hok) Delivering.start h).delivers

def twoMessages : List Event :=
  [.new [97] (.block 0), .enterLoop 0 .evaluated, .find [97], .find [97], .push 0 ⟨[109], [.int 1]⟩,
    .push 0 ⟨[110], []⟩, .backEdge 0, .drain 0, .ret 0, .drain 0, .ret 0, .drain 0, .leaveLoop 0, .ret 0, .finish 0]

theorem twoMessages_delivered : (start.run (fun _ _ => true) twoMessages).Delivers ∧
    (start.run (fun _ _ => true) twoMessages).executed.map (fun e => (e.msg.id, e.inst)) = [(0, 0), (1, 0)] :=
  ⟨messages_delivered (fun _ _ => true) twoMessages (by decide +kernel), by decide +kernel⟩

/-- A message is lost when the method of the thread returns. While a method of another Block runs a loop, the message
is executed on the instance of that Block. And a killed thread executes the messages of the one that has taken over its
record. -/
theorem message_lost_or_misplaced :
    let sent : List Event := [.new [97] (.block 0), .find [97], .push 0 ⟨[109], []⟩]
    let recycled : List Event := [.new [97] (.block 0), .enterLoop 0 .evaluated, .kill [97], .new [98] (.block 1),
      .find [98], .push 0 ⟨[109], []⟩]
    ¬(start.run (fun _ _ => true) (sent ++ [.ret 0, .finish 0])).Delivers ∧
      ¬(start.run (fun _ _ => true)
        (sent ++ [.call 0 (some 1), .enterLoop 0 .evaluated, .backEdge 0, .drain 0])).Delivers ∧
      ¬(start.run (fun _ _ => true) (recycled ++ [.backEdge 0, .drain 0])).Delivers := by
  intro sent recycled
  refine ⟨fun h => ?_, fun h => ?_, fun h => ?_⟩
  · have hcomplete := congrArg List.length (h.complete 0 (by decide +kernel) (by decide +kernel))
    revert hcomplete
    decide +kernel
  · obtain ⟨r, -, haddr, hinst⟩ := h.place ⟨⟨0, some 0, ⟨[109], []⟩⟩, 1⟩ (List.mem_singleton.mpr rfl)
    obtain rfl : 0 = r := Option.some.inj haddr
    revert hinst
    decide +kernel
  · obtain ⟨r, -, haddr, hinst⟩ := h.place ⟨⟨0, some 1, ⟨[109], []⟩⟩, 0⟩ (List.mem_singleton.mpr rfl)
    obtain rfl : 1 = r := Option.some.inj haddr
    revert hinst
    decide +kernel

section AtMostOnce

variable {hasMethod : ℕ → Name → Bool} {s s' : State} {r i : ℕ} {t : Record} {a : Accepted}

/-- The messages in the mailbox of a record, and those that were executed. -/
def kept (s : State) : Option ℕ → List Accepted
  | none => s.executed.map (·.msg)
  | some i => (s.threads i).mailbox

/-- A message is in one place at most, and it is what was accepted under its number, as far as `FlxMessage` has room. -/
structure Unique (s : State) : Prop where
  once : ∀ p, ((s.kept p).map (·.id)).Nodup
  apart : ∀ {p q a b}, a ∈ s.kept p → b ∈ s.kept q → a.id = b.id → p = q
  genuine : ∀ {p a}, a ∈ s.kept p → ∃ m, s.accepted[a.id]? = some { a with message := m } ∧ a.message = m.stored

/-- Messages may get lost. -/
theorem Unique.sub (h : s.Unique) (hacc : s'.accepted = s.accepted)
    (hkept : ∀ p, (s'.kept p).Sublist (s.kept p)) : s'.Unique where
  once p := (h.once p).sublist ((hkept p).map _)
  apart ha hb := h.apart ((hkept _).subset ha) ((hkept _).subset hb)
  genuine ha := hacc ▸ h.genuine ((hkept _).subset ha)

/-- A message that is nowhere is put somewhere. -/
theorem Unique.add (h : s.Unique) {p : Option ℕ} (hacc : s.accepted <+: s'.accepted)
    (hkept : s'.kept = Function.update s.kept p (s.kept p ++ [a])) (hfresh : ∀ q, ∀ b ∈ s.kept q, b.id ≠ a.id)
    (hgenuine : ∃ m, s'.accepted[a.id]? = some { a with message := m } ∧ a.message = m.stored) : s'.Unique := by
  have hself : s'.kept p = s.kept p ++ [a] := by rw [hkept, Function.update_self]
  have hother {q : Option ℕ} (hq : q ≠ p) : s'.kept q = s.kept q := by rw [hkept, Function.update_of_ne hq]
  have hmem {q : Option ℕ} {b : Accepted} (hb : b ∈ s'.kept q) : b ∈ s.kept q ∨ q = p ∧ b = a := by
    by_cases hq : q = p
    · subst hq
      rw [hself] at hb
      exact (List.mem_append.mp hb).imp_right fun hb => ⟨rfl, List.mem_singleton.mp hb⟩
    · exact .inl (hother hq ▸ hb)
  refine ⟨fun q => ?_, fun hb hc hid => ?_, fun hb => ?_⟩
  · by_cases hq : q = p
    · subst hq
      rw [hself, List.map_append, List.nodup_append]
      refine ⟨h.once q, List.nodup_singleton _, fun x hx y hy => ?_⟩
      obtain ⟨b, hb, rfl⟩ := List.mem_map.mp hx
      obtain rfl := List.mem_singleton.mp hy
      exact hfresh q b hb
    · exact hother hq ▸ h.once q
  · rcases hmem hb with hb | ⟨rfl, rfl⟩ <;> rcases hmem hc with hc | ⟨rfl, rfl⟩
    · exact h.apart hb hc hid
    · exact absurd hid (hfresh _ _ hb)
    · exact absurd hid.symm (hfresh _ _ hc)
    · rfl
  · rcases hmem hb with hb | ⟨rfl, rfl⟩
    · obtain ⟨m, hm, hstored⟩ := h.genuine hb
      obtain ⟨more, hmore⟩ := hacc
      rw [← hmore, List.getElem?_append_left (List.getElem?_eq_some_iff.mp hm).1]
      exact ⟨m, hm, hstored⟩
    · exact hgenuine

theorem kept_setRecord (s : State) (i : ℕ) (t : Record) :
    (s.setRecord i t).kept = Function.update s.kept (some i) t.mailbox := by
  funext p
  cases p with
  | none => rfl
  | some j =>
    by_cases hji : j = i
    · subst hji
      rw [Function.update_self, kept, threads_setRecord_self]
    · rw [Function.update_of_ne (by simpa using hji), kept, kept, threads_setRecord_of_ne hji]

theorem Unique.setRecord (h : s.Unique) (hthreads : s'.threads = (s.setRecord i t).threads)
    (hexecuted : s'.executed = s.executed) (hacc : s'.accepted = s.accepted)
    (ht : t.mailbox.Sublist (s.threads i).mailbox) : s'.Unique := by
  have hkept (p : Option ℕ) : s'.kept p = (s.setRecord i t).kept p := by
    cases p with
    | none => exact congrArg (List.map (·.msg)) hexecuted
    | some j => exact congrArg (fun threads : ℕ → Record => (threads j).mailbox) hthreads
  refine h.sub hacc fun p => ?_
  rw [hkept, kept_setRecord]
  by_cases hp : p = some i
  · subst hp
    rw [Function.update_self]
    exact ht
  · rw [Function.update_of_ne hp]

theorem Unique.markStopped (h : s.Unique) (o : Option ℕ) : (s.markStopped o).Unique := by
  cases o with
  | none => exact h
  | some r => exact h.sub rfl fun _ => .refl _

/-- The number of a new message is that of none before. -/
theorem Unique.push (h : s.Unique) (k : ℕ) (m : Message) : (s.flxMailboxPush k m).Unique := by
  unfold flxMailboxPush
  split
  · exact h
  · next c _ =>
    dsimp only
    split
    · exact h.sub rfl fun _ => .refl _
    · have hkept := kept_setRecord s c.record { s.threads c.record with
        mailbox := (s.threads c.record).mailbox ++ [⟨s.accepted.length, s.created c.name, m.stored⟩] }
      refine h.add (List.prefix_append ..) hkept (fun q b hb => ?_) ⟨m, List.getElem?_concat_length, rfl⟩
      obtain ⟨_, hb, -⟩ := h.genuine hb
      exact (List.getElem?_eq_some_iff.mp hb).1.ne

/-- The first message of a mailbox is executed, and is then no longer there. -/
theorem Unique.executes (h : s.Unique) {m : Accepted} {rest : List Accepted} {inst : ℕ}
    (hmail : (s.threads i).mailbox = m :: rest) :
    Unique { s.setMailbox i rest with executed := s.executed ++ [⟨m, inst⟩] } := by
  have hm : m ∈ s.kept (some i) := by simp [kept, hmail]
  have hrest : (s.setMailbox i rest).Unique := h.setRecord rfl rfl rfl (hmail ▸ List.sublist_cons_self m rest)
  refine hrest.add (p := none) (a := m) (List.prefix_refl _) ?_ (fun q b hb hid => ?_) (h.genuine hm)
  · funext p
    cases p with
    | none =>
      rw [Function.update_self]
      exact List.map_append
    | some j => rfl
  · rw [setMailbox, kept_setRecord] at hb
    by_cases hq : q = some i
    · subst hq
      rw [Function.update_self] at hb
      have hnodup := h.once (some i)
      rw [kept, hmail, List.map_cons, List.nodup_cons] at hnodup
      exact hnodup.1 (hid ▸ List.mem_map_of_mem hb)
    · rw [Function.update_of_ne hq] at hb
      exact hq (h.apart hb hm hid)

theorem Unique.drains (h : s.Unique) (hd : s.Drains hasMethod r s') : s'.Unique := by
  cases hd with
  | idle hm =>
    obtain ⟨q, rfl, -⟩ := hm
    exact h.sub rfl fun _ => .refl _
  | dropped _ hmail => exact h.setRecord rfl rfl rfl (hmail ▸ List.sublist_cons_self ..)
  | executed _ hmail => exact (h.executes hmail).sub rfl fun _ => .refl _

theorem Unique.news (h : s.Unique) {name : Name} {target : Target} (hn : s.News name target s') : s'.Unique := by
  cases hn with
  | same => exact h
  | failed i | begun i => exact h.setRecord rfl rfl rfl (List.nil_sublist _)

theorem Unique.step (h : s.Unique) (hasMethod : ℕ → Name → Bool) (e : Event) : (s.step hasMethod e).Unique := by
  rcases hr : e.mover with _ | r
  · cases e with
    | new name target => exact h.news (s.news_ftNew name target)
    | push k m => exact h.push k m
    | drain r => exact h.drains (s.drains_drainStep hasMethod r)
    | find name =>
      dsimp only [State.step, ftFind]
      split
      · exact h
      · split
        · exact h.sub rfl fun _ => .refl _
        · exact h
    | stop name =>
      dsimp only [State.step, ftStop]
      split
      · exact h
      · refine Unique.markStopped ?_ _
        exact h.setRecord rfl rfl rfl (.refl _)
    | kill name =>
      dsimp only [State.step, ftKill]
      split
      · exact h
      · refine Unique.markStopped ?_ _
        exact h.setRecord rfl rfl rfl (List.nil_sublist _)
    | finish r =>
      dsimp only [State.step, finishRunner]
      split
      · exact h.setRecord rfl rfl rfl (.refl _)
      · exact h
    | call | ret | enterLoop | leaveLoop | enterDanger | leaveDanger | backEdge | forwardJump | fail => cases hr
  · obtain ⟨q, hq, -⟩ := s.moves_step hasMethod hr
    exact hq ▸ h.sub rfl fun _ => .refl _

theorem Unique.run (h : s.Unique) (hasMethod : ℕ → Name → Bool) (es : List Event) : (s.run hasMethod es).Unique := by
  induction es generalizing s with
  | nil => exact h
  | cons e es ih => exact ih (h.step hasMethod e)

theorem unique_start : start.Unique := by
  have hnil (p : Option ℕ) : start.kept p = [] := by cases p <;> rfl
  exact ⟨fun p => by simp [hnil], fun ha => by simp [hnil] at ha, fun ha => by simp [hnil] at ha⟩

end AtMostOnce

end State

end Fluxa.FlxThread
