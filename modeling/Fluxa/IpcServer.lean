import Fluxa.Ipc

/-! The hardened loop of `ipc_server_thread` (`FLUXA_SECURE`): the rate window, the two levels of rescue and the
cap on connections. The server handles one connection after the other. In every state that connections,
packets and clock readings can bring it to, a valid request of the process's own user is answered as if nothing
had happened. -/

namespace Fluxa.Ipc

inductive RescueLevel where
  | none | soft | hard
  deriving DecidableEq

/-- `IPC_BURST_THRESHOLD`. -/
def burstThreshold : ℤ := 10

/-- `IPC_RATE_WINDOW_SEC`. -/
def rateWindowSec : ℤ := 1

/-- `IPC_RESCUE_DRAIN_SEC`. -/
def rescueDrainSec : ℤ := 30

/-- The cap that a value of `ipc_max_conns` stands for. -/
def maxConns (ipcMaxConns : ℤ) : ℤ := if 0 < ipcMaxConns then ipcMaxConns else 16

structure IpcServer where
  process : Process
  invalidBurst : ℤ
  rescueMode : RescueLevel
  activeConns : ℤ
  windowStart : ℤ
  drainStart : ℤ

/-- A connection that was accepted: whose it is, the first two bytes if they were there when the server peeked at
them, the packet if it came in time, and the clock while it was read. -/
structure Connection where
  sameUser : Bool
  peeked : Option UInt16
  packet : Option IpcRequest
  clock : ℤ
  peeked_eq : ∀ {m r}, peeked = some m → packet = some r → m = r.magic

/-- A round of the loop at a clock reading, or something the program does in between. -/
inductive Event where
  | round (now : ℤ) (conn : Option Connection)
  | program (p : Process)

namespace IpcServer

def start (now : ℤ) (p : Process) : IpcServer := ⟨p, 0, .none, 0, now, 0⟩

variable (srv : IpcServer)

/-- `RESCUE_HARD` ends when its time is over, whatever has come in. -/
def drain (now : ℤ) : IpcServer :=
  if srv.rescueMode = .hard ∧ rescueDrainSec ≤ now - srv.drainStart then
    { srv with rescueMode := .none, invalidBurst := 0, windowStart := now }
  else srv

def escalate (now : ℤ) : IpcServer :=
  if srv.rescueMode = .soft ∧ burstThreshold * 2 ≤ srv.invalidBurst then
    { srv with rescueMode := .hard, drainStart := now }
  else srv

/-- The leaky bucket. -/
def leak (now : ℤ) : IpcServer :=
  if rateWindowSec ≤ now - srv.windowStart then
    { srv with
      invalidBurst := srv.invalidBurst / 2
      windowStart := now
      rescueMode := if srv.rescueMode = .soft ∧ srv.invalidBurst / 2 = 0 then .none else srv.rescueMode }
  else srv

/-- One more invalid connection or packet, except while `RESCUE_HARD` drains. -/
def noteInvalid (window : ℤ) : IpcServer :=
  if srv.rescueMode = .hard then srv
  else if burstThreshold ≤ srv.invalidBurst + 1 ∧ srv.rescueMode = .none then
    { srv with invalidBurst := srv.invalidBurst + 1, rescueMode := .soft, windowStart := window }
  else { srv with invalidBurst := srv.invalidBurst + 1 }

variable (host : Host)

/-- `dispatch`: a packet that is short or invalid is counted, and the latter is answered only outside of rescue. -/
def dispatch (c : Connection) : IpcServer × List IpcResponse :=
  match c.packet with
  | none => (srv.noteInvalid c.clock, [])
  | some r =>
    if r.valid then ({ srv with process := (answer host srv.process r).2 }, (answer host srv.process r).1)
    else
      let srv := srv.noteInvalid c.clock
      (srv, if srv.rescueMode ≠ .none then []
        else [{ IpcResponse.blank .errMagic with version := ipcVersion, seq := r.seq }])

/-- A connection of the process's own user: under rescue its first bytes are looked at before it is read. -/
def admitPeer (c : Connection) : IpcServer × List IpcResponse :=
  let srv := { srv with activeConns := srv.activeConns + 1 }
  let (srv, sent) :=
    if srv.rescueMode ≠ .none ∧ c.peeked.any (· != ipcMagic) then (srv, []) else srv.dispatch host c
  ({ srv with activeConns := srv.activeConns - 1 }, sent)

/-- A connection of another user. The window stays as it is. -/
def reject : IpcServer × List IpcResponse :=
  let srv := srv.noteInvalid srv.windowStart
  (srv, if srv.rescueMode ≠ .none then [] else [IpcResponse.blank .errAuth])

def serve (ipcMaxConns now : ℤ) (conn : Option Connection) : IpcServer × List IpcResponse :=
  let srv := ((srv.drain now).escalate now).leak now
  match conn with
  | none => (srv, [])
  | some c =>
    if maxConns ipcMaxConns ≤ srv.activeConns then ({ srv with invalidBurst := srv.invalidBurst + 1 }, [])
    else if !c.sameUser then srv.reject
    else srv.admitPeer host c

def next (ipcMaxConns : ℤ) : Event → IpcServer
  | .round now conn => (srv.serve host ipcMaxConns now conn).1
  | .program p => { srv with process := p }

def run (ipcMaxConns : ℤ) (events : List Event) : IpcServer := events.foldl (fun s e => s.next host ipcMaxConns e) srv

end IpcServer

section Invariant

variable {srv : IpcServer} {host : Host} {ipcMaxConns now : ℤ}

/-- Between two rounds no connection is open, and the burst has not gone past the next level. -/
structure IpcServer.Settled (srv : IpcServer) : Prop where
  idle : srv.activeConns = 0
  nonneg : 0 ≤ srv.invalidBurst
  bounded : srv.invalidBurst ≤ burstThreshold * 2
  calm : srv.rescueMode = .none → srv.invalidBurst < burstThreshold

/-- Behind the clock part of a round there is room for one more, except while `RESCUE_HARD` drains. -/
structure IpcServer.Open (srv : IpcServer) : Prop extends srv.Settled where
  room : srv.rescueMode ≠ .hard → srv.invalidBurst < burstThreshold * 2

theorem IpcServer.Settled.drain (h : srv.Settled) : (srv.drain now).Settled := by
  unfold IpcServer.drain
  split
  · exact ⟨h.idle, Int.le_refl 0, by show (0 : ℤ) ≤ _; decide, fun _ => by show (0 : ℤ) < _; decide⟩
  · exact h

theorem IpcServer.Settled.escalate (h : srv.Settled) : (srv.escalate now).Open := by
  unfold IpcServer.escalate
  split
  · exact ⟨⟨h.idle, h.nonneg, h.bounded, nofun⟩, fun hne => absurd rfl hne⟩
  · rename_i hlow
    refine ⟨h, fun hne => ?_⟩
    cases hmode : srv.rescueMode with
    | none =>
      have := h.calm hmode
      simp only [burstThreshold] at this ⊢
      omega
    | soft => exact Int.not_le.mp fun hle => hlow ⟨hmode, hle⟩
    | hard => exact absurd hmode hne

theorem IpcServer.Open.leak (h : srv.Open) : (srv.leak now).Open := by
  have hnonneg := h.nonneg
  have hbounded := h.bounded
  have hroom := h.room
  have hcalm := h.calm
  unfold IpcServer.leak
  split
  · simp only [burstThreshold] at hbounded hroom hcalm
    refine ⟨⟨h.idle, ?_, ?_, ?_⟩, ?_⟩ <;> simp only [burstThreshold] <;> try intro hmode
    · omega
    · omega
    · split at hmode
      · omega
      · have := hcalm hmode
        omega
    · omega
  · exact h

theorem IpcServer.Settled.tick (h : srv.Settled) : (((srv.drain now).escalate now).leak now).Open :=
  h.drain.escalate.leak

theorem IpcServer.Open.noteInvalid (h : srv.Open) (window : ℤ) : (srv.noteInvalid window).Settled := by
  have hnonneg := h.nonneg
  have hcalm := h.calm
  unfold IpcServer.noteInvalid
  split
  · exact h.toSettled
  · rename_i hne
    have hroom := h.room hne
    split
    · exact ⟨h.idle, by show 0 ≤ srv.invalidBurst + 1; omega, by show srv.invalidBurst + 1 ≤ _; omega, nofun⟩
    · rename_i hlow
      refine ⟨h.idle, by show 0 ≤ srv.invalidBurst + 1; omega, by show srv.invalidBurst + 1 ≤ _; omega, fun hmode => ?_⟩
      exact Int.not_le.mp fun hle => hlow ⟨hle, hmode⟩

theorem noteInvalid_activeConns (srv : IpcServer) (window n : ℤ) :
    IpcServer.noteInvalid { srv with activeConns := n } window = { srv.noteInvalid window with activeConns := n } := by
  unfold IpcServer.noteInvalid
  split_ifs <;> rfl

theorem activeConns_noteInvalid (srv : IpcServer) (window : ℤ) :
    (srv.noteInvalid window).activeConns = srv.activeConns := by
  unfold IpcServer.noteInvalid
  split_ifs <;> rfl

/-- What `dispatch` does to the server: a request may change the process, and anything else is counted. -/
theorem dispatch_server (srv : IpcServer) (host : Host) (c : Connection) :
    (∃ p, (srv.dispatch host c).1 = { srv with process := p }) ∨ (srv.dispatch host c).1 = srv.noteInvalid c.clock := by
  unfold IpcServer.dispatch
  split
  · exact .inr rfl
  · split
    · exact .inl ⟨_, rfl⟩
    · exact .inr rfl

/-- The count of connections is balanced on every way through a connection. -/
theorem admit_server (srv : IpcServer) (host : Host) (c : Connection) :
    (∃ p, (srv.admitPeer host c).1 = { srv with process := p }) ∨ (srv.admitPeer host c).1 = srv.noteInvalid c.clock := by
  unfold IpcServer.admitPeer
  dsimp only
  split
  · exact .inl ⟨srv.process, by simp⟩
  · rcases dispatch_server { srv with activeConns := srv.activeConns + 1 } host c with ⟨p, h⟩ | h
    · exact .inl ⟨p, by rw [h]; simp⟩
    · rw [h, noteInvalid_activeConns]
      refine .inr ?_
      rw [Int.add_sub_cancel, ← activeConns_noteInvalid srv c.clock]

theorem IpcServer.Settled.withProcess (h : srv.Settled) (p : Process) : { srv with process := p }.Settled :=
  ⟨h.idle, h.nonneg, h.bounded, h.calm⟩

theorem one_le_maxConns (ipcMaxConns : ℤ) : 1 ≤ maxConns ipcMaxConns := by
  unfold maxConns
  split_ifs <;> omega

theorem IpcServer.Settled.below_cap (h : srv.Settled) : srv.activeConns < maxConns ipcMaxConns := by
  have := one_le_maxConns ipcMaxConns
  have := h.idle
  omega

theorem IpcServer.Settled.next (h : srv.Settled) (e : Event) : (srv.next host ipcMaxConns e).Settled := by
  cases e with
  | program p => exact h.withProcess p
  | round now conn =>
    have hopen : (((srv.drain now).escalate now).leak now).Open := h.tick
    cases conn with
    | none => exact hopen.toSettled
    | some c =>
      unfold IpcServer.next IpcServer.serve
      dsimp only
      rw [if_neg (Int.not_le.mpr hopen.below_cap)]
      split
      · exact hopen.noteInvalid _
      · rcases admit_server (((srv.drain now).escalate now).leak now) host c with ⟨p, hp⟩ | hp <;> rw [hp]
        · exact hopen.toSettled.withProcess p
        · exact hopen.noteInvalid _

theorem IpcServer.Settled.run (h : srv.Settled) (events : List Event) : (srv.run host ipcMaxConns events).Settled := by
  induction events generalizing srv with
  | nil => exact h
  | cons e events ih => exact ih (h.next e)

theorem settled_start (now : ℤ) (p : Process) : (IpcServer.start now p).Settled :=
  ⟨rfl, Int.le_refl 0, by show (0 : ℤ) ≤ _; decide, fun _ => by show (0 : ℤ) < _; decide⟩

end Invariant

section Operator

variable {srv : IpcServer} {host : Host}

/-- The clock part of a round touches neither the process nor the count of connections. -/
theorem tick_keeps (srv : IpcServer) (now : ℤ) :
    (((srv.drain now).escalate now).leak now).process = srv.process ∧
      (((srv.drain now).escalate now).leak now).activeConns = srv.activeConns := by
  have hdrain : (srv.drain now).process = srv.process ∧ (srv.drain now).activeConns = srv.activeConns := by
    unfold IpcServer.drain
    split <;> exact ⟨rfl, rfl⟩
  have hescalate : ∀ s : IpcServer, (s.escalate now).process = s.process ∧ (s.escalate now).activeConns = s.activeConns := by
    intro s
    unfold IpcServer.escalate
    split <;> exact ⟨rfl, rfl⟩
  have hleak : ∀ s : IpcServer, (s.leak now).process = s.process ∧ (s.leak now).activeConns = s.activeConns := by
    intro s
    unfold IpcServer.leak
    split <;> exact ⟨rfl, rfl⟩
  exact ⟨(hleak _).1.trans ((hescalate _).1.trans hdrain.1), (hleak _).2.trans ((hescalate _).2.trans hdrain.2)⟩

theorem admit_valid {c : Connection} {r : IpcRequest} (hc : c.packet = some r) (hr : r.valid = true) :
    (srv.admitPeer host c).2 = (answer host srv.process r).1 ∧
      (srv.admitPeer host c).1.process = (answer host srv.process r).2 := by
  have hmagic : r.magic = ipcMagic := by
    simp only [IpcRequest.valid, Bool.and_eq_true, beq_iff_eq] at hr
    exact hr.1.1
  have hpeek : c.peeked.any (· != ipcMagic) = false := by
    cases hp : c.peeked with
    | none => rfl
    | some m => simp [c.peeked_eq hp hc, hmagic]
  unfold IpcServer.admitPeer
  dsimp only
  rw [if_neg (by rw [hpeek]; simp)]
  simp only [IpcServer.dispatch, hc, hr, if_true]
  exact ⟨trivial, trivial⟩

theorem serve_valid (srv : IpcServer) (host : Host) (ipcMaxConns now : ℤ) {c : Connection} {r : IpcRequest}
    (hidle : srv.activeConns = 0) (huser : c.sameUser = true) (hc : c.packet = some r) (hr : r.valid = true) :
    (srv.serve host ipcMaxConns now (some c)).2 = (answer host srv.process r).1 ∧
      (srv.serve host ipcMaxConns now (some c)).1.process = (answer host srv.process r).2 := by
  obtain ⟨hprocess, hconns⟩ := tick_keeps srv now
  have hcap : ¬maxConns ipcMaxConns ≤ (((srv.drain now).escalate now).leak now).activeConns := by
    have := one_le_maxConns ipcMaxConns
    omega
  unfold IpcServer.serve
  dsimp only
  rw [if_neg hcap, if_neg (by simp [huser]), ← hprocess]
  exact admit_valid hc hr

theorem answer_ne_nil (host : Host) (p : Process) (r : IpcRequest) : (answer host p r).1 ≠ [] := by
  unfold answer
  repeat' split
  case h_5 =>
    dsimp only
    unfold answerExplain
    split <;> simp
  all_goals simp

/-- In every state the server can come to, no connection is open when the next one is checked against the cap, and a
valid request of the process's own user has the answer and the effect that it has in `RESCUE_NONE`; there is an
answer. -/
theorem operator_never_locked_out (host : Host) (ipcMaxConns started : ℤ) (p : Process) (events : List Event) :
    let srv := (IpcServer.start started p).run host ipcMaxConns events
    (srv.activeConns < maxConns ipcMaxConns ∧ 0 ≤ srv.invalidBurst ∧ srv.invalidBurst ≤ 20) ∧
    ∀ (now : ℤ) (c : Connection) (r : IpcRequest), c.sameUser = true → c.packet = some r → r.valid = true →
      ((srv.serve host ipcMaxConns now (some c)).2 = (answer host srv.process r).1 ∧
        (srv.serve host ipcMaxConns now (some c)).1.process = (answer host srv.process r).2) ∧
      (srv.serve host ipcMaxConns now (some c)).2 ≠ [] ∧
      ((srv.serve host ipcMaxConns now (some c)).2 =
          (IpcServer.serve { srv with rescueMode := .none } host ipcMaxConns now (some c)).2 ∧
        (srv.serve host ipcMaxConns now (some c)).1.process =
          (IpcServer.serve { srv with rescueMode := .none } host ipcMaxConns now (some c)).1.process) := by
  intro srv
  have hsettled : srv.Settled := (settled_start started p).run events
  refine ⟨⟨hsettled.below_cap, hsettled.nonneg, hsettled.bounded⟩, fun now c r huser hc hr => ?_⟩
  have hnow := serve_valid srv host ipcMaxConns now hsettled.idle huser hc hr
  have hclean := serve_valid { srv with rescueMode := .none } host ipcMaxConns now hsettled.idle huser hc hr
  exact ⟨hnow, hnow.1 ▸ answer_ne_nil host srv.process r, hnow.1.trans hclean.1.symm, hnow.2.trans hclean.2.symm⟩

section Isolation

/-- The events that may change the process: those of the program, and valid requests of its own user. -/
def Event.authorised : Event → Bool
  | .program _ => true
  | .round _ none => false
  | .round _ (some c) => c.sameUser && c.packet.any IpcRequest.valid

theorem process_noteInvalid (srv : IpcServer) (window : ℤ) : (srv.noteInvalid window).process = srv.process := by
  unfold IpcServer.noteInvalid
  split_ifs <;> rfl

/-- A packet that is short or invalid does not reach the process, whether it is looked at or not. -/
theorem process_admitPeer {c : Connection} (h : c.packet.any IpcRequest.valid = false) :
    (srv.admitPeer host c).1.process = srv.process := by
  unfold IpcServer.admitPeer
  dsimp only
  split
  · rfl
  · unfold IpcServer.dispatch
    cases hp : c.packet with
    | none => exact process_noteInvalid _ _
    | some r =>
      have hr : r.valid = false := by simpa [hp] using h
      simp only [hr, Bool.false_eq_true, if_false]
      exact process_noteInvalid _ _

theorem process_next_of_unauthorised (ipcMaxConns : ℤ) {e : Event} (he : e.authorised = false) :
    (srv.next host ipcMaxConns e).process = srv.process := by
  cases e with
  | program p => cases he
  | round now conn =>
    have htick := (tick_keeps srv now).1
    unfold IpcServer.next IpcServer.serve
    dsimp only
    cases conn with
    | none => exact htick
    | some c =>
      dsimp only
      split
      · exact htick
      · split
        · exact (process_noteInvalid _ _).trans htick
        · next huser =>
          have hpacket : c.packet.any IpcRequest.valid = false := by
            have hsame : c.sameUser = true := by simpa using huser
            simpa [Event.authorised, hsame] using he
          exact (process_admitPeer hpacket).trans htick

/-- What an authorised event does to the process does not depend on the rest of the server. -/
theorem process_next_congr {srv srv' : IpcServer} (ipcMaxConns : ℤ) {e : Event} (he : e.authorised = true)
    (hidle : srv.activeConns = 0) (hidle' : srv'.activeConns = 0) (h : srv.process = srv'.process) :
    (srv.next host ipcMaxConns e).process = (srv'.next host ipcMaxConns e).process := by
  cases e with
  | program p => rfl
  | round now conn =>
    cases conn with
    | none => cases he
    | some c =>
      obtain ⟨huser, hpacket⟩ := Bool.and_eq_true_iff.mp he
      obtain ⟨r, hc, hr⟩ := (Option.any_eq_true _ _).mp hpacket
      exact (serve_valid srv host ipcMaxConns now hidle huser hc hr).2.trans
        ((congrArg (fun p => (answer host p r).2) h).trans
          (serve_valid srv' host ipcMaxConns now hidle' huser hc hr).2.symm)

theorem process_run_filter (ipcMaxConns : ℤ) (events : List Event) :
    ∀ {srv srv' : IpcServer}, srv.Settled → srv'.Settled → srv.process = srv'.process →
      (srv.run host ipcMaxConns events).process =
        (srv'.run host ipcMaxConns (events.filter Event.authorised)).process := by
  induction events with
  | nil => exact fun _ _ h => h
  | cons e events ih =>
    intro srv srv' hs hs' h
    cases he : e.authorised with
    | false =>
      rw [List.filter_cons_of_neg (by simp [he])]
      exact ih (hs.next e) hs' ((process_next_of_unauthorised ipcMaxConns he).trans h)
    | true =>
      rw [List.filter_cons_of_pos he]
      exact ih (hs.next e) (hs'.next e) (process_next_congr ipcMaxConns he hs.idle hs'.idle h)

/-- **Foreign and malformed traffic does not reach the process.** What a run leaves of it is what the program and the
valid requests of its own user leave, whatever else has come in and whatever level of rescue that has led to. -/
theorem process_isolated (host : Host) (ipcMaxConns started started' : ℤ) (p : Process) (events : List Event) :
    ((IpcServer.start started p).run host ipcMaxConns events).process =
      ((IpcServer.start started' p).run host ipcMaxConns (events.filter Event.authorised)).process :=
  process_run_filter ipcMaxConns events (settled_start started p) (settled_start started' p) rfl

end Isolation

section Flood

def freshProcess : Process := ⟨1, ⟨false, 0, 0, 0, .script, false, [], [], []⟩, none, none⟩

def bareHost : Host := ⟨fun _ => "", fun _ => 0, fun _ => false, false, fun _ => false, fun _ => true, true⟩

/-- `ipc_req_ping`. -/
def reqPing (seq : UInt32) : IpcRequest :=
  ⟨ipcMagic, ipcVersion, Opcode.ping.code, seq, List.replicate 64 0, List.length_replicate, 0, .ofInt 0, 0, 0⟩

def flood : List Event := List.replicate 20 (.round 0 (some ⟨true, none, none, 0, nofun⟩))

/-- A ping in `RESCUE_HARD`. -/
theorem ping_answered_under_flood :
    let srv := (IpcServer.start 0 freshProcess).run bareHost 0 flood
    (IpcServer.escalate srv 0).rescueMode = .hard ∧
      (srv.serve bareHost 0 0 (some ⟨true, some ipcMagic, some (reqPing 7), 0, by rintro _ _ ⟨⟩ ⟨⟩; rfl⟩)).2 =
        (answer bareHost srv.process (reqPing 7)).1 :=
  ⟨by decide +kernel,
    ((operator_never_locked_out bareHost 0 0 freshProcess flood).2 0 _ (reqPing 7) rfl rfl (by decide)).1.1⟩

end Flood

end Operator

end Fluxa.Ipc
