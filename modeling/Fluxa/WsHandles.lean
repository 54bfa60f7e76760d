import Fluxa.Value
import Fluxa.WsHttp

/-! The request handles of `std.wserver` (`fluxa_std_wserver.h`): a handle is the number of a slot in the table of
requests, and a slot is used again as soon as it is free. Each request carries the number of its accept, which the
source does not have; the trace of a run says which accept got which handle. -/

namespace Fluxa.Wserver

open HeaderText

/-- How the answer of a request reaches its client: the worker writes it to the socket, or it hands it to a thread of the
server that waits for it, or to one that comes back later for a parked connection, or that runs the handler itself. -/
inductive Mode where
  | direct | queued | suspended | inline
  deriving DecidableEq

structure Reply where
  status : ℤ
  contentType : Bytes
  body : Bytes
  deriving DecidableEq

/-- `WsRequest`; `client` is the number of the accept. -/
structure WsRequest where
  client : ℕ
  request : Request
  headers : List (Bytes × Bytes)
  mode : Mode
  reply : Option Reply
  deriving DecidableEq

/-- The table of requests, and how many have been accepted. -/
structure Requests where
  slots : List (Option WsRequest)
  count : ℕ
  deriving DecidableEq

/-- What a run shows: the handle that an accept returned, a reply that was completed, and a slot that was freed. -/
inductive Obs where
  | accepted (client : ℕ) (handle : ℤ)
  | answered (client : ℕ) (handle : ℤ)
  | released (client : ℕ) (handle : ℤ)
  deriving DecidableEq

/-- The calls with a request handle, after the types of the arguments have been checked. The array of `reply_headers`
is given by its elements. -/
inductive Call where
  | reqMethod
  | reqPath
  | reqBody
  | reqHeader (name : Bytes)
  | reply (status : ℤ) (body : Bytes)
  | replyJson (status : ℤ) (json : Bytes)
  | replyHeaders (status : ℤ) (body : Bytes) (elems : List (Option Bytes)) (pairs : ℤ)

def Call.fn : Call → String
  | .reqMethod => "req_method"
  | .reqPath => "req_path"
  | .reqBody => "req_body"
  | .reqHeader _ => "req_header"
  | .reply _ _ => "reply"
  | .replyJson _ _ => "reply_json"
  | .replyHeaders _ _ _ _ => "reply_headers"

structure HeaderLimits where
  maxHeaderPairs : ℕ
  maxHeaderBytes : ℕ

/-- A string value ends at the first null byte. -/
def cstr (b : Bytes) : Bytes := b.takeWhile (· != 0)

/-- What is checked before the handle is looked up. -/
def Call.check (lim : HeaderLimits) : Call → Except String Unit
  | .reply status _ | .replyJson status _ =>
    if status < 100 ∨ status > 599 then .error "HTTP status must be 100-599" else .ok ()
  | .replyHeaders status _ elems pairs =>
    if status < 100 ∨ status > 599 then .error "HTTP status must be 100-599"
    else if pairs < 0 then .error "reply_headers: pair count cannot be negative"
    else if pairs > lim.maxHeaderPairs then
      .error s!"wserver.reply_headers: {pairs} pairs > max_header_pairs {lim.maxHeaderPairs}"
    else if pairs * 2 > elems.length then
      .error s!"wserver.reply_headers: need {pairs * 2} elements for {pairs} pairs, arr has {elems.length}"
    else .ok ()
  | _ => .ok ()

/-- The content type among the headers: the last one counts. The length of a header is taken as an `int`. -/
def replyCt (lim : HeaderLimits) : ℕ → List (Option Bytes) → Bytes → Except String Bytes
  | 0, _, ct => .ok ct
  | n + 1, some k :: some v :: elems, ct =>
    if (k.length + v.length : ℤ).bmod (2 ^ 32) > lim.maxHeaderBytes then
      .error "reply_headers: header key+value exceeds max_header_bytes"
    else replyCt lim n elems (if lower k = ascii "content-type" then v.take 255 else ct)
  | _ + 1, _, _ => .error "reply_headers: all arr elements must be str"

/-- `ws_get_request`. -/
def Requests.get (t : Requests) (h : ℤ) : Option WsRequest := if 1 ≤ h then (t.slots[(h - 1).toNat]?).join else none

def Requests.set (t : Requests) (h : ℤ) (r : Option WsRequest) : Requests :=
  { t with slots := t.slots.set (h - 1).toNat r }

/-- `ws_finish_reply`: in two of the modes the slot is freed later. -/
def Requests.finish (t : Requests) (h : ℤ) (r : WsRequest) (reply : Reply) : Requests × List Obs :=
  match r.mode with
  | .direct | .queued => (t.set h none, [.answered r.client h, .released r.client h])
  | .suspended | .inline => (t.set h (some { r with reply := some reply }), [.answered r.client h])

/-- A second reply to the same request does nothing. -/
def Requests.answer (t : Requests) (h : ℤ) (r : WsRequest) (reply : Except String Reply) :
    Except String Bytes × Requests × List Obs :=
  if r.reply.isSome then (.ok [], t, [])
  else match reply with
    | .error e => (.error e, t, [])
    | .ok reply => (.ok [], t.finish h r reply)

/-- A call with a handle; `nil` is returned as the empty string. -/
def Requests.call (lim : HeaderLimits) (t : Requests) (h : ℤ) (c : Call) : Except String Bytes × Requests × List Obs :=
  match c.check lim with
  | .error e => (.error e, t, [])
  | .ok _ =>
    match t.get h with
    | none => (.error s!"wserver.{c.fn}: invalid or consumed request handle {h}", t, [])
    | some r =>
      match c with
      | .reqMethod => (.ok (cstr r.request.method), t, [])
      | .reqPath => (.ok (cstr r.request.path), t, [])
      | .reqBody => (.ok (cstr r.request.body), t, [])
      | .reqHeader name =>
        (.ok (((r.headers.find? fun kv => lower kv.1 == lower name).map fun kv => kv.2).getD []), t, [])
      | .reply status body => t.answer h r (.ok ⟨status, [], body⟩)
      | .replyJson status json => t.answer h r (.ok ⟨status, ascii "application/json", json⟩)
      | .replyHeaders status body elems pairs =>
        t.answer h r ((replyCt lim pairs.toNat elems []).map fun ct =>
          ⟨status, if ct = [] then ascii "text/plain" else ct, body⟩)

/-- What happens to the table. Every call is at the program's discretion; a request of the two modes that free their
slots later is released by the thread of the server. -/
inductive Event where
  | arrive (request : Request) (headers : List (Bytes × Bytes)) (mode : Mode)
  | call (h : ℤ) (c : Call)
  | release (h : ℤ)

/-- `ws_alloc_request`: the first free slot. -/
def Requests.arrive (t : Requests) (request : Request) (headers : List (Bytes × Bytes)) (mode : Mode) :
    Requests × List Obs :=
  match t.slots.findIdx? Option.isNone with
  | none => (t, [])
  | some i =>
    (⟨t.slots.set i (some ⟨t.count, request, headers, mode, none⟩), t.count + 1⟩, [.accepted t.count (i + 1)])

/-- The thread of the server frees the slot, of a parked connection after the reply. -/
def Requests.release (t : Requests) (h : ℤ) : Requests × List Obs :=
  match t.get h with
  | none => (t, [])
  | some r =>
    if r.mode = .inline ∨ r.mode = .suspended ∧ r.reply.isSome then (t.set h none, [.released r.client h])
    else (t, [])

def Requests.step (lim : HeaderLimits) (t : Requests) : Event → Requests × List Obs
  | .arrive request headers mode => t.arrive request headers mode
  | .call h c => (t.call lim h c).2
  | .release h => t.release h

structure Run where
  table : Requests
  trace : List Obs

def Run.start (maxRequests : ℕ) : Run := ⟨⟨List.replicate maxRequests none, 0⟩, []⟩

def Run.next (lim : HeaderLimits) (run : Run) (e : Event) : Run :=
  ⟨(run.table.step lim e).1, run.trace ++ (run.table.step lim e).2⟩

def Run.of (lim : HeaderLimits) (maxRequests : ℕ) (events : List Event) : Run :=
  events.foldl (Run.next lim) (Run.start maxRequests)

section Table

variable {t : Requests} {h h' : ℤ} {r : WsRequest} {o : Option WsRequest}

theorem Requests.get_eq_some (hr : t.get h = some r) : 1 ≤ h ∧ t.slots[(h - 1).toNat]? = some (some r) := by
  unfold Requests.get at hr
  split_ifs at hr with hpos
  exact ⟨hpos, Option.join_eq_some_iff.mp hr⟩

theorem Requests.get_set (hr : t.get h = some r) : (t.set h o).get h = o := by
  obtain ⟨hpos, hslot⟩ := Requests.get_eq_some hr
  have hlt : (h - 1).toNat < t.slots.length := (List.getElem?_eq_some_iff.mp hslot).1
  unfold Requests.get Requests.set
  rw [if_pos hpos, List.getElem?_set_self hlt]
  rfl

theorem Requests.get_set_of_ne (hr : t.get h = some r) (hne : h' ≠ h) : (t.set h o).get h' = t.get h' := by
  obtain ⟨hpos, -⟩ := Requests.get_eq_some hr
  unfold Requests.get Requests.set
  by_cases hpos' : 1 ≤ h'
  · rw [if_pos hpos', if_pos hpos', List.getElem?_set_ne (by omega)]
  · rw [if_neg hpos', if_neg hpos']

theorem Requests.get_take {i n : ℕ} (hlt : i < t.slots.length) :
    Requests.get ⟨t.slots.set i (some r), n⟩ (i + 1) = some r := by
  have hidx : ((i : ℤ) + 1 - 1).toNat = i := by omega
  unfold Requests.get
  rw [if_pos (by omega), hidx, List.getElem?_set_self hlt]
  rfl

theorem Requests.get_take_of_ne {i n : ℕ} (hne : h' ≠ i + 1) :
    Requests.get ⟨t.slots.set i (some r), n⟩ h' = t.get h' := by
  unfold Requests.get
  by_cases hpos : 1 ≤ h'
  · rw [if_pos hpos, if_pos hpos, List.getElem?_set_ne (by omega)]
  · rw [if_neg hpos, if_neg hpos]

end Table

/-- All that a step can do to the table. -/
inductive Changes (t : Requests) : Requests × List Obs → Prop
  | same : Changes t (t, [])
  | takes (i : ℕ) (r : WsRequest) (hfree : t.get (i + 1) = none) (hclient : r.client = t.count)
      (hlt : i < t.slots.length) : Changes t (⟨t.slots.set i (some r), t.count + 1⟩, [.accepted t.count (i + 1)])
  | keeps (h : ℤ) (r r' : WsRequest) (hr : t.get h = some r) (hclient : r'.client = r.client) :
      Changes t (t.set h (some r'), [.answered r.client h])
  | frees (h : ℤ) (r : WsRequest) (obs : List Obs) (hr : t.get h = some r)
      (hobs : obs = [.released r.client h] ∨ obs = [.answered r.client h, .released r.client h]) :
      Changes t (t.set h none, obs)

section Steps

variable {lim : HeaderLimits} {t : Requests}

theorem changes_answer {h : ℤ} {r : WsRequest} (hr : t.get h = some r) (reply : Except String Reply) :
    Changes t (t.answer h r reply).2 := by
  unfold Requests.answer
  split
  · exact .same
  · cases reply with
    | error e => exact .same
    | ok reply =>
      change Changes t (t.finish h r reply)
      unfold Requests.finish
      split
      · exact .frees h r _ hr (.inr rfl)
      · exact .frees h r _ hr (.inr rfl)
      · exact .keeps h r { r with reply := some reply } hr rfl
      · exact .keeps h r { r with reply := some reply } hr rfl

theorem changes_call (h : ℤ) (c : Call) : Changes t (t.call lim h c).2 := by
  unfold Requests.call
  split
  · exact .same
  · split
    · exact .same
    · rename_i r hr
      cases c with
      | reqMethod | reqPath | reqBody | reqHeader => exact .same
      | reply | replyJson | replyHeaders => exact changes_answer hr _

theorem changes_arrive (request : Request) (headers : List (Bytes × Bytes)) (mode : Mode) :
    Changes t (t.arrive request headers mode) := by
  unfold Requests.arrive
  split
  · exact .same
  · rename_i i hi
    obtain ⟨hlt, hnone, -⟩ := List.findIdx?_eq_some_iff_getElem.mp hi
    refine .takes i _ ?_ rfl hlt
    unfold Requests.get
    have hidx : ((i : ℤ) + 1 - 1).toNat = i := by omega
    rw [if_pos (by omega), hidx, List.getElem?_eq_getElem hlt, Option.isNone_iff_eq_none.mp hnone]
    rfl

theorem changes_step (e : Event) : Changes t (t.step lim e) := by
  cases e with
  | arrive request headers mode => exact changes_arrive request headers mode
  | call h c => exact changes_call h c
  | release h =>
    change Changes t (t.release h)
    unfold Requests.release
    split
    · exact .same
    · rename_i r hr
      split
      · exact .frees h r _ hr (.inl rfl)
      · exact .same

end Steps

/-- The table holds exactly the requests that have been accepted and not released. -/
structure Tracked (run : Run) : Prop where
  live : ∀ h r, run.table.get h = some r →
    .accepted r.client h ∈ run.trace ∧ .released r.client h ∉ run.trace
  gone : ∀ k h, .accepted k h ∈ run.trace →
    .released k h ∈ run.trace ∨ ∃ r, run.table.get h = some r ∧ r.client = k
  old : ∀ k h, .released k h ∈ run.trace → k < run.table.count
  count : ∀ h r, run.table.get h = some r → r.client < run.table.count

section Runs

variable {lim : HeaderLimits} {run : Run}

theorem tracked_start (maxRequests : ℕ) : Tracked (Run.start maxRequests) := by
  have hnone (h : ℤ) : (Run.start maxRequests).table.get h = none := by
    unfold Requests.get
    split
    · simp only [Run.start, List.getElem?_replicate]
      split <;> rfl
    · rfl
  refine ⟨?_, nofun, nofun, ?_⟩
  · intro h r hr
    rw [hnone] at hr
    cases hr
  · intro h r hr
    rw [hnone] at hr
    cases hr

theorem Tracked.takes (htr : Tracked run) {i : ℕ} {r : WsRequest} (hfree : run.table.get (i + 1) = none)
    (hclient : r.client = run.table.count) (hlt : i < run.table.slots.length) :
    Tracked ⟨⟨run.table.slots.set i (some r), run.table.count + 1⟩,
      run.trace ++ [.accepted run.table.count (i + 1)]⟩ := by
  refine ⟨?_, ?_, ?_, ?_⟩
  · intro h r' hr'
    by_cases hh : h = i + 1
    · subst hh
      rw [Requests.get_take hlt] at hr'
      cases hr'
      refine ⟨by simp [hclient], ?_⟩
      intro hmem
      have := htr.old r.client (i + 1) (by simpa using hmem)
      omega
    · rw [Requests.get_take_of_ne hh] at hr'
      obtain ⟨hacc, hrel⟩ := htr.live h r' hr'
      exact ⟨List.mem_append_left _ hacc, by simpa using hrel⟩
  · intro k h hacc
    rcases List.mem_append.mp hacc with hacc | hacc
    · rcases htr.gone k h hacc with hrel | ⟨r', hr', hk⟩
      · exact .inl (List.mem_append_left _ hrel)
      · have hh : h ≠ i + 1 := by
          rintro rfl
          rw [hfree] at hr'
          cases hr'
        exact .inr ⟨r', (Requests.get_take_of_ne hh).trans hr', hk⟩
    · cases List.mem_singleton.mp hacc
      exact .inr ⟨r, Requests.get_take hlt, hclient⟩
  · intro k h hrel
    have := htr.old k h (by simpa using hrel)
    change k < run.table.count + 1
    omega
  · intro h r' hr'
    change r'.client < run.table.count + 1
    by_cases hh : h = i + 1
    · subst hh
      rw [Requests.get_take hlt] at hr'
      cases hr'
      omega
    · rw [Requests.get_take_of_ne hh] at hr'
      have := htr.count h r' hr'
      omega

theorem Tracked.keeps (htr : Tracked run) {h : ℤ} {r r' : WsRequest} (hr : run.table.get h = some r)
    (hclient : r'.client = r.client) :
    Tracked ⟨run.table.set h (some r'), run.trace ++ [.answered r.client h]⟩ := by
  have hget (h' : ℤ) (q : WsRequest) (hq : (run.table.set h (some r')).get h' = some q) :
      ∃ q', run.table.get h' = some q' ∧ q.client = q'.client := by
    by_cases hh : h' = h
    · subst hh
      rw [Requests.get_set hr] at hq
      cases hq
      exact ⟨r, hr, hclient⟩
    · rw [Requests.get_set_of_ne hr hh] at hq
      exact ⟨q, hq, rfl⟩
  refine ⟨?_, ?_, ?_, ?_⟩
  · intro h' q hq
    obtain ⟨q', hq', hc⟩ := hget h' q hq
    obtain ⟨hacc, hrel⟩ := htr.live h' q' hq'
    rw [hc]
    exact ⟨List.mem_append_left _ hacc, by simpa using hrel⟩
  · intro k h' hacc
    have hacc : .accepted k h' ∈ run.trace := by simpa using hacc
    rcases htr.gone k h' hacc with hrel | ⟨q, hq, hk⟩
    · exact .inl (List.mem_append_left _ hrel)
    · by_cases hh : h' = h
      · subst hh
        rw [hr] at hq
        cases hq
        exact .inr ⟨r', Requests.get_set hr, hclient.trans hk⟩
      · exact .inr ⟨q, (Requests.get_set_of_ne hr hh).trans hq, hk⟩
  · intro k h' hrel
    exact htr.old k h' (by simpa using hrel)
  · intro h' q hq
    obtain ⟨q', hq', hc⟩ := hget h' q hq
    exact hc ▸ htr.count h' q' hq'

theorem Tracked.frees (htr : Tracked run) {h : ℤ} {r : WsRequest} {obs : List Obs} (hr : run.table.get h = some r)
    (hobs : obs = [.released r.client h] ∨ obs = [.answered r.client h, .released r.client h]) :
    Tracked ⟨run.table.set h none, run.trace ++ obs⟩ := by
  have hacc {k : ℕ} {h' : ℤ} (hk : .accepted k h' ∈ run.trace ++ obs) : .accepted k h' ∈ run.trace := by
    rcases hobs with rfl | rfl <;> simpa using hk
  have hrel {k : ℕ} {h' : ℤ} : .released k h' ∈ run.trace ++ obs ↔
      .released k h' ∈ run.trace ∨ k = r.client ∧ h' = h := by
    rcases hobs with rfl | rfl <;> simp
  have hget (h' : ℤ) (q : WsRequest) (hq : (run.table.set h none).get h' = some q) :
      h' ≠ h ∧ run.table.get h' = some q := by
    by_cases hh : h' = h
    · subst hh
      rw [Requests.get_set hr] at hq
      cases hq
    · rw [Requests.get_set_of_ne hr hh] at hq
      exact ⟨hh, hq⟩
  refine ⟨?_, ?_, ?_, ?_⟩
  · intro h' q hq
    obtain ⟨hh, hq⟩ := hget h' q hq
    obtain ⟨ha, hn⟩ := htr.live h' q hq
    refine ⟨List.mem_append_left _ ha, ?_⟩
    rintro hmem
    rcases hrel.mp hmem with hmem | ⟨-, heq⟩
    · exact hn hmem
    · exact hh heq
  · intro k h' hk
    rcases htr.gone k h' (hacc hk) with hmem | ⟨q, hq, hk⟩
    · exact .inl (hrel.mpr (.inl hmem))
    · by_cases hh : h' = h
      · subst hh
        rw [hr] at hq
        cases hq
        exact .inl (hrel.mpr (.inr ⟨hk.symm, rfl⟩))
      · exact .inr ⟨q, (Requests.get_set_of_ne hr hh).trans hq, hk⟩
  · intro k h' hmem
    rcases hrel.mp hmem with hmem | ⟨rfl, -⟩
    · exact htr.old k h' hmem
    · exact htr.count h r hr
  · intro h' q hq
    exact htr.count h' q (hget h' q hq).2

theorem Tracked.next (htr : Tracked run) (lim : HeaderLimits) (e : Event) : Tracked (run.next lim e) := by
  have hch : Changes run.table (run.table.step lim e) := changes_step e
  unfold Run.next
  generalize run.table.step lim e = res at hch
  cases hch with
  | same => simpa using htr
  | takes i r hfree hclient hlt => exact htr.takes hfree hclient hlt
  | keeps h r r' hr hclient => exact htr.keeps hr hclient
  | frees h r obs hr hobs => exact htr.frees hr hobs

theorem tracked_run (lim : HeaderLimits) (maxRequests : ℕ) (events : List Event) :
    Tracked (Run.of lim maxRequests events) := by
  have hfold (run : Run) (htr : Tracked run) : Tracked (events.foldl (Run.next lim) run) := by
    induction events generalizing run with
    | nil => exact htr
    | cons e events ih => exact ih _ (htr.next lim e)
  exact hfold _ (tracked_start maxRequests)

theorem Tracked.get_eq_none (htr : Tracked run) (h : ℤ) :
    run.table.get h = none ↔ ∀ k, .accepted k h ∈ run.trace → .released k h ∈ run.trace := by
  constructor
  · intro hnone k hacc
    rcases htr.gone k h hacc with hrel | ⟨r, hr, -⟩
    · exact hrel
    · rw [hnone] at hr
      cases hr
  · intro hall
    cases hr : run.table.get h with
    | none => rfl
    | some r =>
      obtain ⟨hacc, hrel⟩ := htr.live h r hr
      exact absurd (hall r.client hacc) hrel

end Runs

/-- The call fails and changes nothing. If its other arguments are in order it says that the handle is not valid. -/
def Refused (lim : HeaderLimits) (t : Requests) (h : ℤ) (c : Call) : Prop :=
  ∃ msg, t.call lim h c = (.error msg, t, []) ∧
    (c.check lim = .ok () → msg = s!"wserver.{c.fn}: invalid or consumed request handle {h}")

/-- After a reply every call with its handle is refused. -/
def Invalidates (lim : HeaderLimits) (run : Run) : Prop :=
  ∀ k h, .answered k h ∈ run.trace → ∀ c, Refused lim run.table h c

theorem refused_of_empty {lim : HeaderLimits} {t : Requests} {h : ℤ} (hnone : t.get h = none) (c : Call) :
    Refused lim t h c := by
  unfold Refused Requests.call
  cases hcheck : c.check lim with
  | error e => exact ⟨e, rfl, nofun⟩
  | ok _ => exact ⟨_, by rw [hnone], fun _ => rfl⟩

theorem not_refused {lim : HeaderLimits} {t : Requests} {h : ℤ} {r : WsRequest} (hr : t.get h = some r) :
    ¬ Refused lim t h .reqMethod := by
  rintro ⟨msg, hcall, -⟩
  have hok : t.call lim h .reqMethod = (.ok (cstr r.request.method), t, []) := by
    unfold Requests.call
    rw [hr]
    rfl
  rw [hok] at hcall
  cases hcall

/-- After every run, replies have invalidated their handles exactly if no request that is not released has the handle of
an answered one. -/
theorem reply_invalidates_iff (lim : HeaderLimits) (maxRequests : ℕ) (events : List Event) :
    Invalidates lim (Run.of lim maxRequests events) ↔
      ∀ k h, .answered k h ∈ (Run.of lim maxRequests events).trace →
        ∀ j, .accepted j h ∈ (Run.of lim maxRequests events).trace →
          .released j h ∈ (Run.of lim maxRequests events).trace := by
  have htr := tracked_run lim maxRequests events
  constructor
  · intro hinv k h hans
    apply (htr.get_eq_none h).mp
    cases hr : (Run.of lim maxRequests events).table.get h with
    | none => rfl
    | some r => exact absurd (hinv k h hans .reqMethod) (not_refused hr)
  · intro hall k h hans c
    exact refused_of_empty ((htr.get_eq_none h).mpr (hall k h hans)) c

/-- Two clients one after the other. The second gets the handle of the first, which has been answered. -/
def twoClients : List Event :=
  [.arrive ⟨ascii "GET", ascii "/a", [], true⟩ [] .direct, .call 1 (.reply 200 (ascii "A")),
    .arrive ⟨ascii "POST", ascii "/b", ascii "password", true⟩ [] .direct]

theorem answered_handle_reads_next :
    let run := Run.of ⟨16, 4096⟩ 128 twoClients
    .answered 0 1 ∈ run.trace ∧ .accepted 1 1 ∈ run.trace ∧
      (run.table.call ⟨16, 4096⟩ 1 .reqBody).1 = .ok (ascii "password") ∧
      (run.table.call ⟨16, 4096⟩ 1 (.reply 200 (ascii "late"))).2.2 = [.answered 1 1, .released 1 1] ∧
      ¬ Invalidates ⟨16, 4096⟩ run := by
  refine ⟨by decide +kernel, by decide +kernel, by decide +kernel, by decide +kernel, ?_⟩
  intro hinv
  obtain ⟨msg, hcall, -⟩ := hinv 0 1 (by decide +kernel) .reqBody
  have hok : ((Run.of ⟨16, 4096⟩ 128 twoClients).table.call ⟨16, 4096⟩ 1 .reqBody).1 = .ok (ascii "password") := by
    decide +kernel
  rw [hcall] at hok
  cases hok

end Fluxa.Wserver
