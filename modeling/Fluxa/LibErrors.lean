import Fluxa.Base.RingBuffer
import Fluxa.StdLib
import Mathlib.Data.List.Induction

/-! Errors of library calls outside `danger` (`err.h`, `rt_surface_lib_errors`). The runtime takes what the call has pushed
from the ring by comparing the numbers of entries before and behind the call. -/

namespace Fluxa.LibErrors

open StdLib RingBuffer

section Model

inductive ErrKind where
  | fluxa | cFfi | reload | handover

/-- `ErrEntry`. -/
structure ErrEntry where
  kind : ErrKind
  message : Bytes
  context : Bytes
  line : ℤ

def errMsgMax : ℕ := 1024

def errStackCap : ℕ := 32

/-- The entry that `errstack_push` writes: texts are cut to their buffers. -/
def errEntry (kind : ErrKind) (message context : Bytes) (line : ℤ) : ErrEntry :=
  ⟨kind, message.take (errMsgMax - 1), context.take 127, line⟩

structure Raised where
  kind : ErrKind
  message : Bytes
  context : Bytes
  line : ℤ

def Raised.entry (r : Raised) : ErrEntry := errEntry r.kind r.message r.context r.line

/-- The runtime, with the text of `rt_error_where` and what was written to `stderr`. -/
structure Rt where
  errStack : RingBuffer ErrEntry errStackCap
  hadError : Bool
  dangerDepth : ℕ
  place : Bytes
  stderr : List Bytes

def report (place : Bytes) (e : ErrEntry) : Bytes :=
  ascii "[fluxa] Runtime error" ++ place ++ ascii ": " ++ e.message ++ [10]

/-- `rt_surface_lib_errors`. -/
def rtSurfaceLibErrors (rt : Rt) (before : ℕ) : Rt :=
  if 0 < rt.dangerDepth then rt
  else if h : rt.errStack.count ≤ before then rt
  else
    { rt with
      stderr := rt.stderr ++
        ((List.range (rt.errStack.count - before)).reverse.filterMap rt.errStack.get).map (report rt.place)
      errStack := rt.errStack.keep before (Nat.le_of_not_le h)
      hadError := true }

/-- A library call as the runtime makes it: the library pushes errors, and sets `had_error` or not. -/
def libCall (raised : List Raised) (fails : Bool) (rt : Rt) : Rt :=
  rtSurfaceLibErrors
    { rt with
      errStack := (raised.map Raised.entry).foldl push rt.errStack
      hadError := rt.hadError || fails }
    rt.errStack.count

end Model

section Faithful

variable {rt : Rt} {raised : List Raised} {fails : Bool}

/-- The errors, or the last of them if the ring has no room for all, are reported in order, the program has failed, and `err`
is as before. -/
structure Faithful (rt : Rt) (raised : List Raised) (fails : Bool) : Prop where
  reported : (libCall raised fails rt).stderr =
    rt.stderr ++ (((raised.drop (raised.length - errStackCap)).map Raised.entry).map (report rt.place))
  failed : raised ≠ [] → (libCall raised fails rt).hadError = true
  kept : (libCall raised fails rt).errStack.contents = rt.errStack.contents

/-- The entries in the ring when the library returns. -/
def pushed (rt : Rt) (raised : List Raised) : RingBuffer ErrEntry errStackCap :=
  (raised.map Raised.entry).foldl push rt.errStack

theorem contents_pushed (rt : Rt) (raised : List Raised) :
    (pushed rt raised).contents =
      (rt.errStack.contents ++ raised.map Raised.entry).drop (rt.errStack.count + raised.length - errStackCap) := by
  rw [pushed, contents_foldl_push, List.length_map]

theorem count_pushed (rt : Rt) (raised : List Raised) :
    (pushed rt raised).count = min (rt.errStack.count + raised.length) errStackCap := by
  have hle := rt.errStack.count_le
  rw [← length_contents, contents_pushed, List.length_drop, List.length_append, List.length_map,
    length_contents]
  omega

theorem libCall_full (fails : Bool) (h : (pushed rt raised).count ≤ rt.errStack.count) :
    libCall raised fails rt = { rt with errStack := pushed rt raised, hadError := rt.hadError || fails } := by
  rw [libCall, rtSurfaceLibErrors]
  split
  · rfl
  · exact dif_pos h

theorem libCall_grown (raised : List Raised) (fails : Bool) (hdanger : rt.dangerDepth = 0)
    (h : rt.errStack.count < (pushed rt raised).count) :
    libCall raised fails rt =
      { rt with
        stderr := rt.stderr ++ ((pushed rt raised).contents.drop rt.errStack.count).map (report rt.place)
        errStack := (pushed rt raised).keep rt.errStack.count h.le
        hadError := true } := by
  have hnew : (List.range ((pushed rt raised).count - rt.errStack.count)).reverse.filterMap (pushed rt raised).get =
      (pushed rt raised).contents.drop rt.errStack.count := by
    rw [filterMap_get]
    congr 1
    omega
  rw [libCall, rtSurfaceLibErrors, if_neg (by rw [hdanger]; exact Nat.lt_irrefl 0)]
  refine (dif_neg (Nat.not_le_of_lt h)).trans ?_
  rw [← hnew]
  rfl

theorem length_stderr (hdanger : rt.dangerDepth = 0) :
    (libCall raised fails rt).stderr.length =
      rt.stderr.length + (min (rt.errStack.count + raised.length) errStackCap - rt.errStack.count) := by
  have hcount := count_pushed rt raised
  by_cases h : (pushed rt raised).count ≤ rt.errStack.count
  · rw [libCall_full fails h, ← hcount, Nat.sub_eq_zero_of_le h, Nat.add_zero]
  · rw [libCall_grown raised fails hdanger (Nat.lt_of_not_le h), List.length_append, List.length_map, List.length_drop,
      length_contents, hcount]

theorem faithful_of_room (hdanger : rt.dangerDepth = 0) (h : rt.errStack.count + raised.length ≤ errStackCap) :
    Faithful rt raised fails := by
  have hcount := count_pushed rt raised
  have hcontents := contents_pushed rt raised
  rw [Nat.sub_eq_zero_of_le h, List.drop_zero] at hcontents
  have hdrop : raised.drop (raised.length - errStackCap) = raised := by
    rw [Nat.sub_eq_zero_of_le (by omega), List.drop_zero]
  cases raised with
  | nil =>
    rw [List.map_nil, List.append_nil] at hcontents
    rw [List.length_nil, Nat.add_zero] at hcount h
    have hcall := libCall_full fails (hcount.trans_le (Nat.min_le_left _ _))
    refine ⟨?_, fun hne => absurd rfl hne, ?_⟩
    · rw [hcall, hdrop]
      exact (List.append_nil _).symm
    · rw [hcall]
      exact hcontents
  | cons r raised =>
    rw [List.length_cons] at hcount h
    have hcall := libCall_grown (r :: raised) fails hdanger (by omega)
    refine ⟨?_, fun _ => by rw [hcall], ?_⟩
    · rw [hcall, hdrop]
      dsimp only
      rw [hcontents, ← length_contents, List.drop_left]
    · rw [hcall]
      dsimp only
      rw [contents_keep, hcontents, ← length_contents, List.take_left]

theorem faithful_of_empty (hdanger : rt.dangerDepth = 0) (h : rt.errStack.count = 0)
    (hmany : errStackCap < raised.length) : Faithful rt raised fails := by
  have hcount := count_pushed rt raised
  have hnil : rt.errStack.contents = [] := List.eq_nil_of_length_eq_zero (by rw [length_contents, h])
  have hcontents := contents_pushed rt raised
  rw [hnil, List.nil_append, h, Nat.zero_add, ← List.map_drop] at hcontents
  unfold errStackCap at hmany hcount
  have hcall := libCall_grown raised fails hdanger (by omega)
  refine ⟨?_, fun _ => by rw [hcall], ?_⟩
  · rw [hcall]
    dsimp only
    rw [hcontents, h, List.drop_zero]
  · rw [hcall]
    dsimp only
    rw [contents_keep, hnil, h, List.take_zero]

/-- Library errors are surfaced faithfully if and only if the ring has room for all of them or was empty. -/
theorem surfaced_faithfully_iff (hdanger : rt.dangerDepth = 0) (raised : List Raised) (fails : Bool) :
    Faithful rt raised fails ↔ rt.errStack.count + raised.length ≤ errStackCap ∨ rt.errStack.count = 0 := by
  constructor
  · intro hfaithful
    have hlength := congrArg List.length hfaithful.reported
    rw [length_stderr hdanger, List.length_append, List.length_map, List.length_map, List.length_drop] at hlength
    have hle := rt.errStack.count_le
    unfold errStackCap at hlength hle ⊢
    omega
  · rintro (hroom | hempty)
    · exact faithful_of_room hdanger hroom
    · by_cases hmany : errStackCap < raised.length
      · exact faithful_of_empty hdanger hempty hmany
      · exact faithful_of_room hdanger (by omega)

/-- A runtime whose ring holds a number of equal entries. -/
def withErrors (n : ℕ) (h : n ≤ errStackCap) : Rt where
  errStack := ⟨fun _ => errEntry .fluxa (ascii "division by zero") (ascii "<global>") 1, 0, n, by decide, h⟩
  hadError := false
  dangerDepth := 0
  place := ascii " (line 7)"
  stderr := []

def readFailed : Raised := ⟨.fluxa, ascii "fs.read: cannot open file", ascii "fs", 7⟩

theorem error_after_three_is_surfaced : Faithful (withErrors 3 (by decide)) [readFailed] true :=
  (surfaced_faithfully_iff rfl [readFailed] true).mpr (.inl (by decide))

/-- A full ring: nothing is written. -/
theorem error_after_full_ring_is_silent :
    ¬ Faithful (withErrors 32 (by decide)) [readFailed] true ∧
      (libCall [readFailed] true (withErrors 32 (by decide))).stderr = [] := by
  constructor
  · intro h
    have hlength := congrArg List.length h.reported
    rw [length_stderr rfl] at hlength
    exact absurd hlength (by decide)
  · rfl

end Faithful

section History

/-- The arguments of `errstack_push`. -/
structure Push where
  kind : ErrKind
  message : Option Bytes
  context : Option Bytes
  line : ℤ

/-- What is written for a push; `NULL` has its own text. -/
def Push.entry (p : Push) : ErrEntry :=
  errEntry p.kind (p.message.getD []) (p.context.getD (ascii "<global>")) p.line

inductive Call where
  | clear
  | push (p : Push)

/-- `errstack_clear` and `errstack_push`. -/
def Call.run (s : RingBuffer ErrEntry errStackCap) : Call → RingBuffer ErrEntry errStackCap
  | clear => { s with base := 0, count := 0, base_lt := by decide, count_le := Nat.zero_le _ }
  | push p => s.push p.entry

/-- `errstack_get`. -/
def errstackGet (s : RingBuffer ErrEntry errStackCap) (i : ℤ) : Option ErrEntry := if i < 0 then none else s.get i.toNat

/-- The pushes since the last clear, the newest first. -/
def recent (calls : List Call) : List Push :=
  calls.foldl (fun pushes c => match c with | .clear => [] | .push p => p :: pushes) []

/-- The entry says what was pushed: the kind and the line, and the texts as far as there is room. -/
structure ErrEntry.Records (e : ErrEntry) (p : Push) : Prop where
  kind : e.kind = p.kind
  message : e.message = (p.message.getD []).take 1023
  context : e.context = (p.context.getD (ascii "<global>")).take 127
  line : e.line = p.line

theorem Push.records_entry (p : Push) : p.entry.Records p := ⟨rfl, rfl, rfl, rfl⟩

theorem reverse_contents_run {s : RingBuffer ErrEntry errStackCap} (hs : s.count = 0) (calls : List Call) :
    (calls.foldl Call.run s).contents.reverse = ((recent calls).map Push.entry).take errStackCap := by
  induction calls using List.reverseRecOn with
  | nil =>
    have hnil : s.contents = [] := List.eq_nil_of_length_eq_zero (by rw [length_contents, hs])
    rw [List.foldl_nil, hnil]
    rfl
  | append_singleton calls c ih =>
    rw [List.foldl_append, List.foldl_cons, List.foldl_nil, recent, List.foldl_append, ← recent]
    cases c with
    | clear => rfl
    | push p =>
      rw [Call.run, reverse_contents_push, ih, List.foldl_cons, List.foldl_nil, List.map_cons,
        List.take_cons (by decide), List.take_cons (by decide), List.take_take, Nat.min_eq_left (Nat.sub_le _ _)]

/-- **The ring is a bounded history** of what was pushed since it was last cleared. -/
theorem errStack_history {s : RingBuffer ErrEntry errStackCap} (hs : s.count = 0) (calls : List Call) :
    (calls.foldl Call.run s).count = min (recent calls).length errStackCap ∧
      (∀ (n : ℕ) (hn : n < (recent calls).length), n < errStackCap →
        ∃ e, errstackGet (calls.foldl Call.run s) n = some e ∧ e.Records (recent calls)[n]) ∧
      ∀ i : ℤ, i < 0 ∨ min (recent calls).length errStackCap ≤ i → errstackGet (calls.foldl Call.run s) i = none := by
  have hcontents := reverse_contents_run hs calls
  refine ⟨?_, fun n hn hcap => ?_, fun i hi => ?_⟩
  · rw [← length_contents, ← List.length_reverse, hcontents, List.length_take, List.length_map, Nat.min_comm]
  · refine ⟨_, ?_, Push.records_entry _⟩
    rw [errstackGet, if_neg (Int.not_lt.mpr (Int.natCast_nonneg n)), Int.toNat_natCast, get_eq, hcontents,
      List.getElem?_take_of_lt hcap, List.getElem?_map, List.getElem?_eq_getElem hn]
    rfl
  · rw [errstackGet, get_eq, hcontents]
    by_cases hneg : i < 0
    · exact if_pos hneg
    rw [if_neg hneg, List.getElem?_eq_none]
    rw [List.length_take, List.length_map]
    omega

/-- The last of forty pushes that is still there. -/
theorem last_of_forty_pushes : ∃ s : RingBuffer ErrEntry errStackCap, s.count = 0 ∧
    ∃ e, errstackGet ((List.replicate 40 (Call.push ⟨.fluxa, none, none, 7⟩)).foldl Call.run s) 31 = some e ∧
      e.line = 7 := by
  let s : RingBuffer ErrEntry errStackCap := ⟨fun _ => errEntry .fluxa [] [] 0, 0, 0, by decide, by decide⟩
  obtain ⟨-, hget, -⟩ := errStack_history (s := s) rfl (List.replicate 40 (Call.push ⟨.fluxa, none, none, 7⟩))
  obtain ⟨e, he, hrecords⟩ := hget 31 (by decide) (by decide)
  exact ⟨s, rfl, e, he, hrecords.line⟩

end History

end Fluxa.LibErrors
