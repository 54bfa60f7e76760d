import Fluxa.IpcServer

/-! The two levels of rescue over time. `RESCUE_HARD` ends when its time is over and not before, whatever arrives in the
meantime. Under `RESCUE_SOFT` a flood brings the server to `RESCUE_HARD` if enough of it is counted: a connection whose
first bytes are there and are not the magic is closed without being counted. -/

namespace Fluxa.Ipc

open IpcServer Connection

def IpcServer.tick (srv : IpcServer) (now : ℤ) : IpcServer := ((srv.drain now).escalate now).leak now

def clocks (events : List Event) : List ℤ := events.filterMap fun
  | .round now _ => some now
  | .program _ => none

section Drain

variable {srv : IpcServer} {host : Host} {ipcMaxConns t now : ℤ}

/-- `RESCUE_HARD` since the time `t`, between two rounds. -/
structure IpcServer.Draining (t : ℤ) (srv : IpcServer) : Prop where
  settled : srv.Settled
  hard : srv.rescueMode = .hard
  since : srv.drainStart = t

theorem noteInvalid_of_hard (h : srv.rescueMode = .hard) (window : ℤ) : srv.noteInvalid window = srv := if_pos h

/-- Of the clock part only the halving of the burst is left while `RESCUE_HARD` drains. -/
theorem tick_of_draining (h : srv.Draining t) (hnow : now < t + rescueDrainSec) :
    (srv.tick now).rescueMode = .hard ∧ (srv.tick now).drainStart = t := by
  have hdrain : srv.drain now = srv := if_neg fun hd => by
    have := hd.2
    rw [h.since] at this
    omega
  have hescalate : srv.escalate now = srv := if_neg fun he => by simp [h.hard] at he
  unfold tick
  rw [hdrain, hescalate]
  unfold leak
  split
  · exact ⟨by simp [h.hard], h.since⟩
  · exact ⟨h.hard, h.since⟩

theorem IpcServer.Draining.tick (h : srv.Draining t) (hnow : now < t + rescueDrainSec) : (srv.tick now).Draining t :=
  ⟨h.settled.tick.toSettled, (tick_of_draining h hnow).1, (tick_of_draining h hnow).2⟩

/-- What arrives in a round changes at most the process while `RESCUE_HARD` drains. -/
theorem next_of_hard (host : Host) (ipcMaxConns : ℤ) (hidle : srv.Settled) (hhard : (srv.tick now).rescueMode = .hard)
    (conn : Option Connection) : ∃ p, srv.next host ipcMaxConns (.round now conn) = { srv.tick now with process := p } := by
  have hcap : ¬maxConns ipcMaxConns ≤ (srv.tick now).activeConns := Int.not_le.mpr hidle.tick.below_cap
  cases conn with
  | none => exact ⟨(srv.tick now).process, rfl⟩
  | some c =>
    change ∃ p, (if maxConns ipcMaxConns ≤ (srv.tick now).activeConns then _ else _ : IpcServer × _).1 = _
    rw [if_neg hcap]
    split
    · exact ⟨(srv.tick now).process, noteInvalid_of_hard hhard _⟩
    · rcases admit_server (srv.tick now) host c with ⟨p, hp⟩ | hp
      · exact ⟨p, hp⟩
      · exact ⟨(srv.tick now).process, hp.trans (noteInvalid_of_hard hhard _)⟩

theorem IpcServer.Draining.next (h : srv.Draining t) {e : Event} (he : ∀ now ∈ clocks [e], now < t + rescueDrainSec) :
    (srv.next host ipcMaxConns e).Draining t := by
  cases e with
  | program p => exact ⟨h.settled.withProcess p, h.hard, h.since⟩
  | round now conn =>
    have htick := h.tick (he now (by simp [clocks]))
    obtain ⟨p, hp⟩ := next_of_hard host ipcMaxConns h.settled htick.hard conn
    rw [hp]
    exact ⟨htick.settled.withProcess p, htick.hard, htick.since⟩

theorem IpcServer.Draining.run (h : srv.Draining t) {events : List Event}
    (he : ∀ now ∈ clocks events, now < t + rescueDrainSec) : (srv.run host ipcMaxConns events).Draining t := by
  induction events generalizing srv with
  | nil => exact h
  | cons e events ih =>
    have hsplit : clocks (e :: events) = clocks [e] ++ clocks events := List.filterMap_append (l := [e])
    rw [hsplit, List.forall_mem_append] at he
    exact ih (h.next he.1) he.2

/-- The level is entered by the escalation of the same round, which notes the time. -/
theorem draining_of_entered (hbefore : srv.rescueMode ≠ .hard)
    (henter : (srv.tick now).rescueMode = .hard) : (srv.tick now).drainStart = now := by
  have hdrain : srv.drain now = srv := if_neg fun hd => hbefore hd.1
  unfold tick at henter ⊢
  rw [hdrain] at henter ⊢
  have hescalated : srv.rescueMode = .soft ∧ burstThreshold * 2 ≤ srv.invalidBurst := by
    by_contra hlow
    rw [show srv.escalate now = srv from if_neg hlow] at henter
    unfold leak at henter
    split at henter
    · dsimp only at henter
      split at henter
      · exact absurd henter nofun
      · exact hbefore henter
    · exact hbefore henter
  rw [show srv.escalate now = { srv with rescueMode := .hard, drainStart := now } from if_pos hescalated]
  unfold leak
  split <;> rfl

theorem tick_of_drained (h : srv.Draining t) (hnow : t + rescueDrainSec ≤ now) :
    (srv.tick now).rescueMode = .none ∧ (srv.tick now).invalidBurst = 0 := by
  have hdrain : srv.drain now = { srv with rescueMode := .none, invalidBurst := 0, windowStart := now } :=
    if_pos ⟨h.hard, by rw [h.since]; omega⟩
  unfold tick
  rw [hdrain]
  unfold escalate
  rw [if_neg (by simp)]
  unfold leak
  rw [if_neg (by simp [rateWindowSec])]
  exact ⟨rfl, rfl⟩

end Drain

/-- A server that enters `RESCUE_HARD` at the time `t` is there in every round before `t + IPC_RESCUE_DRAIN_SEC`, and in
`RESCUE_NONE` with no burst in the first round from then on. -/
theorem hard_drain_fixed (host : Host) (ipcMaxConns started : ℤ) (p : Process) {before between : List Event} {t now : ℤ}
    {conn conn' : Option Connection}
    (hclock : (clocks (before ++ .round t conn :: between ++ [.round now conn'])).Pairwise (· ≤ ·))
    (hbefore : ((start started p).run host ipcMaxConns before).rescueMode ≠ .hard)
    (henter : (((start started p).run host ipcMaxConns before).tick t).rescueMode = .hard) :
    let srv := (start started p).run host ipcMaxConns (before ++ .round t conn :: between)
    (now < t + rescueDrainSec →
      (srv.tick now).rescueMode = .hard ∧ (srv.next host ipcMaxConns (.round now conn')).rescueMode = .hard) ∧
    (t + rescueDrainSec ≤ now → (∀ r ∈ clocks between, r < t + rescueDrainSec) →
      (srv.tick now).rescueMode = .none ∧ (srv.tick now).invalidBurst = 0) := by
  intro srv
  have hstart : ((start started p).run host ipcMaxConns before).Settled := (settled_start started p).run before
  have hentered : (((start started p).run host ipcMaxConns before).next host ipcMaxConns
      (.round t conn)).Draining t := by
    obtain ⟨p', hp⟩ := next_of_hard host ipcMaxConns hstart henter conn
    rw [hp]
    exact ⟨hstart.tick.toSettled.withProcess p', henter, draining_of_entered hbefore henter⟩
  have hsrv : srv = (((start started p).run host ipcMaxConns before).next host ipcMaxConns
      (.round t conn)).run host ipcMaxConns between := by
    simp only [srv, run, List.foldl_append, List.foldl_cons]
  have hdraining (hb : ∀ r ∈ clocks between, r < t + rescueDrainSec) : srv.Draining t := hsrv ▸ hentered.run hb
  constructor
  · intro hnow
    have hb : ∀ r ∈ clocks between, r < t + rescueDrainSec := by
      intro r hr
      have hle : r ≤ now := by
        rw [clocks, List.filterMap_append, List.pairwise_append] at hclock
        refine hclock.2.2 r ?_ now (by simp)
        rw [List.filterMap_append, List.mem_append]
        exact .inr (List.mem_cons_of_mem t hr)
      omega
    have htick := (hdraining hb).tick hnow
    obtain ⟨p', hp⟩ := next_of_hard host ipcMaxConns (hdraining hb).settled htick.hard conn'
    exact ⟨htick.hard, by rw [hp]; exact htick.hard⟩
  · intro hnow hb
    exact tick_of_drained (hdraining hb) hnow

theorem nothing_peeked {m : UInt16} {r : IpcRequest} (h : none = some m) (_ : none = some r) : m = r.magic := by
  cases h

def silent : Connection := ⟨true, none, none, 0, @nothing_peeked⟩

/-- A flood that goes on in the drain. -/
theorem flood_drains :
    let srv := (start 0 freshProcess).run bareHost 0 (flood ++ .round 0 none :: [.round 29 (some silent)])
    (srv.tick 30).rescueMode = .none ∧ (srv.tick 30).invalidBurst = 0 :=
  have hclock : (clocks (flood ++ .round 0 none :: [.round 29 (some silent)] ++ [.round 30 none])).Pairwise (· ≤ ·) := by
    decide +kernel
  (hard_drain_fixed bareHost 0 0 freshProcess hclock (by decide +kernel) (by decide +kernel)).2 (by decide) (by decide)

section Flood

/-- A connection of another user, or one without a valid request. -/
def Connection.invalid (c : Connection) : Bool := !c.sameUser || c.packet.all fun r => !r.valid

/-- A connection of the process's own user whose first two bytes are there and are not the magic: under rescue it is
closed at once. -/
def Connection.dropped (c : Connection) : Bool := c.sameUser && c.peeked.any (· != ipcMagic)

def Event.invalid : Event → Bool
  | .round _ (some c) => c.invalid
  | _ => false

def Event.counted : Event → Bool
  | .round _ (some c) => c.invalid && !c.dropped
  | _ => false

variable {srv : IpcServer} {host : Host} {ipcMaxConns now b w : ℤ} {k : ℕ}

theorem noteInvalid_of_soft (h : srv.rescueMode = .soft) (window : ℤ) :
    srv.noteInvalid window = { srv with invalidBurst := srv.invalidBurst + 1 } := by
  unfold noteInvalid
  rw [if_neg (by simp [h]), if_neg (by simp [h])]

theorem admit_of_soft (host : Host) (h : srv.rescueMode = .soft) {c : Connection} (huser : c.sameUser = true) :
    ∃ p, (srv.admitPeer host c).1 = { srv with
      process := p, invalidBurst := srv.invalidBurst + if c.invalid && !c.dropped then 1 else 0 } := by
  have hdropped : c.dropped = c.peeked.any (· != ipcMagic) := by simp [dropped, huser]
  unfold admitPeer
  dsimp only
  by_cases hpeek : c.peeked.any (· != ipcMagic)
  · rw [if_pos ⟨by simp [h], hpeek⟩]
    exact ⟨srv.process, by simp [hdropped, hpeek]⟩
  · rw [if_neg fun h => hpeek h.2]
    have hnot : c.dropped = false := by rw [hdropped]; simpa using hpeek
    unfold dispatch
    cases hp : c.packet with
    | none =>
      dsimp only
      rw [noteInvalid_activeConns, noteInvalid_of_soft h]
      exact ⟨srv.process, by simp [invalid, hp, hnot]⟩
    | some r =>
      by_cases hr : r.valid
      · exact ⟨(answer host srv.process r).2, by simp [invalid, hp, hr, huser]⟩
      · dsimp only
        rw [if_neg hr, noteInvalid_activeConns, noteInvalid_of_soft h]
        exact ⟨srv.process, by simp [invalid, hp, hr, hnot]⟩

theorem next_of_soft (host : Host) (ipcMaxConns : ℤ) (hidle : srv.Settled) (h : (srv.tick now).rescueMode = .soft)
    (conn : Option Connection) :
    ∃ p, srv.next host ipcMaxConns (.round now conn) = { srv.tick now with
      process := p
      invalidBurst := (srv.tick now).invalidBurst + if (Event.round now conn).counted then 1 else 0 } := by
  have hcap : ¬maxConns ipcMaxConns ≤ (srv.tick now).activeConns := Int.not_le.mpr hidle.tick.below_cap
  cases conn with
  | none => exact ⟨(srv.tick now).process, by simp [next, serve, tick, Event.counted]⟩
  | some c =>
    change ∃ p, (if maxConns ipcMaxConns ≤ (srv.tick now).activeConns then _ else _ : IpcServer × _).1 = _
    rw [if_neg hcap]
    cases huser : c.sameUser with
    | false =>
      refine ⟨(srv.tick now).process, (noteInvalid_of_soft h _).trans ?_⟩
      simp [Event.counted, invalid, dropped, huser]
    | true =>
      obtain ⟨p, hp⟩ := admit_of_soft host h huser
      exact ⟨p, hp⟩

/-- Inside one rate window that began at `w`, with `k` counted since the burst was `b`: the server is still in
`RESCUE_SOFT` and has counted them all, or there were enough and it has gone on to `RESCUE_HARD`. -/
structure IpcServer.Flooded (w b : ℤ) (k : ℕ) (srv : IpcServer) : Prop where
  settled : srv.Settled
  window : srv.windowStart = w
  level : srv.rescueMode = .soft ∧ srv.invalidBurst = b + k ∨
    srv.rescueMode = .hard ∧ w ≤ srv.drainStart ∧ burstThreshold * 2 ≤ b + k

theorem IpcServer.Flooded.next (h : srv.Flooded w b k) {e : Event}
    (he : ∀ now ∈ clocks [e], w ≤ now ∧ now < w + rateWindowSec) :
    (srv.next host ipcMaxConns e).Flooded w b (k + if e.counted then 1 else 0) := by
  cases e with
  | program p => exact ⟨h.settled.withProcess p, h.window, h.level⟩
  | round now conn =>
    obtain ⟨hlow, hhigh⟩ := he now (by simp [clocks])
    have hsettled : (srv.next host ipcMaxConns (.round now conn)).Settled := h.settled.next _
    have hleak (s : IpcServer) (hs : s.windowStart = w) : s.leak now = s := if_neg (by rw [hs]; omega)
    have hdrain : srv.drain now = srv := if_neg fun hd => by
      rcases h.level with ⟨hsoft, -⟩ | ⟨-, hstart, -⟩
      · rw [hsoft] at hd
        exact absurd hd.1 nofun
      · have := hd.2
        simp only [rescueDrainSec, rateWindowSec] at this hhigh
        omega
    by_cases hescalates : srv.rescueMode = .soft ∧ burstThreshold * 2 ≤ srv.invalidBurst
    · have htick : srv.tick now = { srv with rescueMode := .hard, drainStart := now } := by
        rw [tick, hdrain, show srv.escalate now = _ from if_pos hescalates]
        exact hleak _ h.window
      obtain ⟨p, hp⟩ := next_of_hard host ipcMaxConns h.settled (by rw [htick]) conn
      rw [htick] at hp
      refine ⟨hsettled, by rw [hp]; exact h.window, .inr ⟨by rw [hp], by rw [hp]; exact hlow, ?_⟩⟩
      rcases h.level with ⟨-, hburst⟩ | ⟨hhard, -⟩
      · have := hescalates.2
        split <;> omega
      · rw [hhard] at hescalates
        exact absurd hescalates.1 nofun
    · have htick : srv.tick now = srv := by
        rw [tick, hdrain, show srv.escalate now = _ from if_neg hescalates]
        exact hleak _ h.window
      rcases h.level with ⟨hsoft, hburst⟩ | ⟨hhard, hstart, henough⟩
      · obtain ⟨p, hp⟩ := next_of_soft host ipcMaxConns h.settled (by rw [htick, hsoft]) conn
        rw [htick] at hp
        refine ⟨hsettled, by rw [hp]; exact h.window, .inl ⟨by rw [hp]; exact hsoft, ?_⟩⟩
        rw [hp]
        dsimp only
        rw [hburst]
        split <;> simp
        omega
      · obtain ⟨p, hp⟩ := next_of_hard host ipcMaxConns h.settled (by rw [htick, hhard]) conn
        rw [htick] at hp
        refine ⟨hsettled, by rw [hp]; exact h.window, .inr ⟨by rw [hp]; exact hhard, by rw [hp]; exact hstart, ?_⟩⟩
        split <;> omega

theorem IpcServer.Flooded.run (h : srv.Flooded w b k) {events : List Event}
    (he : ∀ now ∈ clocks events, w ≤ now ∧ now < w + rateWindowSec) :
    (srv.run host ipcMaxConns events).Flooded w b (k + events.countP Event.counted) := by
  induction events generalizing srv k with
  | nil => exact h
  | cons e events ih =>
    have hsplit : clocks (e :: events) = clocks [e] ++ clocks events := List.filterMap_append (l := [e])
    rw [hsplit, List.forall_mem_append] at he
    have hnext : (srv.next host ipcMaxConns e).Flooded w b (k + if e.counted then 1 else 0) := h.next he.1
    have hrest := ih hnext he.2
    rw [Nat.add_assoc, Nat.add_comm (if e.counted then 1 else 0)] at hrest
    rw [List.countP_cons]
    exact hrest

/-- At the next round the server is in `RESCUE_HARD`, or has been, exactly if enough was counted. -/
theorem IpcServer.Flooded.escalates_iff (h : srv.Flooded w b k) (now : ℤ) :
    srv.rescueMode = .hard ∨ (srv.tick now).rescueMode = .hard ↔ burstThreshold * 2 ≤ b + k := by
  rcases h.level with ⟨hsoft, hburst⟩ | ⟨hhard, -, henough⟩
  · have hdrain : srv.drain now = srv := if_neg fun hd => by simp [hsoft] at hd
    rw [tick, hdrain, ← hburst]
    by_cases henough : burstThreshold * 2 ≤ srv.invalidBurst
    · rw [show srv.escalate now = _ from if_pos ⟨hsoft, henough⟩]
      refine ⟨fun _ => henough, fun _ => .inr ?_⟩
      unfold leak
      split <;> simp
    · rw [show srv.escalate now = srv from if_neg fun he => henough he.2]
      unfold leak
      split <;> simp [hsoft, henough]
      split <;> simp
  · exact ⟨fun _ => henough, fun _ => .inl hhard⟩

/-- From every state of `RESCUE_SOFT` and for everything that arrives in one rate window: the server goes on to
`RESCUE_HARD`, at the next round at the latest, exactly if the burst together with what was invalid and not closed at
the first look makes two thresholds. -/
theorem flood_escalates_iff (host : Host) (ipcMaxConns started : ℤ) (p : Process) {before during : List Event}
    (hsoft : ((start started p).run host ipcMaxConns before).rescueMode = .soft)
    (hwindow : ∀ now ∈ clocks during,
      ((start started p).run host ipcMaxConns before).windowStart ≤ now ∧
        now < ((start started p).run host ipcMaxConns before).windowStart + rateWindowSec)
    (next : ℤ) :
    let srv := (start started p).run host ipcMaxConns (before ++ during)
    (srv.rescueMode = .hard ∨ (srv.tick next).rescueMode = .hard) ↔
      burstThreshold * 2 ≤ ((start started p).run host ipcMaxConns before).invalidBurst +
        during.countP Event.counted := by
  intro srv
  have hstart : ((start started p).run host ipcMaxConns before).Settled := (settled_start started p).run before
  have hsrv : srv = ((start started p).run host ipcMaxConns before).run host ipcMaxConns during := by
    simp only [srv, run, List.foldl_append]
  rw [hsrv]
  generalize (start started p).run host ipcMaxConns before = first at hsoft hwindow hstart
  have hbegin : first.Flooded first.windowStart first.invalidBurst 0 := ⟨hstart, rfl, .inl ⟨hsoft, by simp⟩⟩
  have hflooded : (first.run host ipcMaxConns during).Flooded _ _ _ := hbegin.run hwindow
  rw [hflooded.escalates_iff next, Nat.zero_add]

/-- A request with the wrong magic that is there when the server looks. -/
def stray : Connection :=
  ⟨true, some 0, some { reqPing 0 with magic := 0 }, 0, by rintro _ _ ⟨⟩ ⟨⟩; rfl⟩

/-- Ten connections that send nothing bring the server to `RESCUE_SOFT`, and ten more to `RESCUE_HARD`. -/
theorem silent_flood_escalates :
    let srv := (start 0 freshProcess).run bareHost 0
      (List.replicate 10 (.round 0 (some silent)) ++ List.replicate 20 (.round 0 (some silent)))
    ((start 0 freshProcess).run bareHost 0 (List.replicate 10 (.round 0 (some silent)))).rescueMode = .soft ∧
      (srv.rescueMode = .hard ∨ (srv.tick 0).rescueMode = .hard) :=
  ⟨by decide +kernel, (flood_escalates_iff bareHost 0 0 freshProcess (by decide +kernel) (by decide +kernel) 0).mpr
    (by decide +kernel)⟩

/-- Any number of requests with the wrong magic leaves the server in `RESCUE_SOFT`. -/
theorem stray_flood_ignored :
    let before := List.replicate 10 (Event.round 0 (some stray))
    let during := List.replicate 20 (Event.round 0 (some stray))
    let srv := (start 0 freshProcess).run bareHost 0 (before ++ during)
    ((start 0 freshProcess).run bareHost 0 before).rescueMode = .soft ∧
      during.countP Event.invalid = 20 ∧ srv.rescueMode = .soft ∧ (srv.tick 0).rescueMode = .soft ∧
      (srv.tick 1).rescueMode = .soft := by
  decide +kernel

end Flood

end Fluxa.Ipc
