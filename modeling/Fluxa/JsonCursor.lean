import Fluxa.Base.Json
import Fluxa.StdLib

/-! The cursor of `std.json` (`fluxa_std_json.h`): `json.open` and `json.next` read the objects of a file one by one, each
into a buffer of `FLUXA_JSON_MAX_STR` bytes. Files that cannot be opened and running out of memory are left out. -/

namespace Fluxa.StdJson

open StdLib Json
open Json (quotation backslash)

section Model

/-- `FLUXA_JSON_MAX_STR`. -/
def jsonMaxStr : ℕ := 4096

/-- Up to the first brace or bracket. -/
def skipToOpen : Bytes → Option (UInt8 × Bytes)
  | [] => none
  | c :: file => if c = 123 ∨ c = 91 then some (c, file) else skipToOpen file

def closeOf (opener : UInt8) : UInt8 := if opener = 123 then 125 else 93

/-- The loop over the characters behind the opener, outside of strings and inside, with the depth and the buffer: whether
the depth came back to 0, the buffer, and the rest of the file. A character is taken from the file before the room in the
buffer is looked at. -/
def objectLoop (opener : UInt8) : Bool → ℕ → Bytes → Bytes → Bool × Bytes × Bytes
  | false, 0, buf, file => (true, buf, file)
  | false, _ + 1, buf, [] => (false, buf, [])
  | false, depth + 1, buf, c :: file =>
    if buf.length < jsonMaxStr - 1 then
      if c = quotation then objectLoop opener true (depth + 1) (buf ++ [c]) file
      else if c = opener then objectLoop opener false (depth + 2) (buf ++ [c]) file
      else if c = closeOf opener then objectLoop opener false depth (buf ++ [c]) file
      else objectLoop opener false (depth + 1) (buf ++ [c]) file
    else (false, buf, file)
  | true, _, buf, [] => (false, buf, [])
  | true, depth, buf, c :: file =>
    if buf.length < jsonMaxStr - 1 then
      if c = backslash then
        match file with
        | [] => (false, buf ++ [c], [])
        | e :: file =>
          objectLoop opener true depth (if buf.length + 1 < jsonMaxStr - 1 then buf ++ [c, e] else buf ++ [c]) file
      else objectLoop opener (c != quotation) depth (buf ++ [c]) file
    -- the loop around this one takes one more character
    else (false, buf, file.tail)

/-- The text of an object or an array, and the rest of the file. -/
def jsonReadOneObject (file : Bytes) : Option Bytes × Bytes :=
  match skipToOpen file with
  | none => (none, [])
  | some (opener, file) =>
    match objectLoop opener false 1 [opener] file with
    | (true, buf, file) => (some buf, file)
    | (false, _, file) => (none, file)

/-- `JsonCursor`. -/
structure Cursor where
  file : Bytes
  eof : Bool := false

def nextLoop : ℕ → Cursor → List Bytes × Cursor
  | 0, cur => ([], cur)
  | n + 1, cur =>
    match jsonReadOneObject cur.file with
    | (none, file) => ([], { file, eof := true })
    | (some buf, file) =>
      match nextLoop n { cur with file } with
      | (objs, cur) => (cString buf :: objs, cur)

/-- `json.next`. -/
def next (cur : Cursor) (size : Int64) : Except String (List Bytes) × Cursor :=
  let chunkSize := getInt size
  if chunkSize ≤ 0 then (.error "json.next: chunk_size must be > 0", cur)
  else if cur.eof then (.ok [], cur)
  else match nextLoop chunkSize.toNat cur with
    | (objs, cur) => (.ok objs, cur)

def cursorAfter (file : Bytes) (sizes : ℕ → Int64) : ℕ → Cursor
  | 0 => { file }
  | n + 1 => (next (cursorAfter file sizes n) (sizes n)).2

def chunk (file : Bytes) (sizes : ℕ → Int64) (n : ℕ) : Except String (List Bytes) :=
  (next (cursorAfter file sizes n) (sizes n)).1

end Model

/-- The calls up to the first empty chunk return these objects. -/
def Enumerates (file : Bytes) (sizes : ℕ → Int64) (objs : List Bytes) : Prop :=
  ∃ chunks : List (List Bytes), (∀ c ∈ chunks, c ≠ []) ∧ chunks.flatten = objs ∧
    (∀ n (h : n < chunks.length), chunk file sizes n = .ok chunks[n]) ∧ chunk file sizes chunks.length = .ok []

section Reads

variable {w : Bytes}

theorem isWs_ne {b : UInt8} (h : isWs b) : b ≠ 123 ∧ b ≠ 91 ∧ b ≠ 93 ∧ b ≠ quotation := by
  simp only [isWs, Bool.or_eq_true, beq_iff_eq] at h
  rcases h with ((rfl | rfl) | rfl) | rfl <;> decide

theorem skipToOpen_append (hw : Ws w) (file : Bytes) : skipToOpen (w ++ 91 :: file) = some (91, file) := by
  induction w with
  | nil => rfl
  | cons b w ih =>
    obtain ⟨hbrace, hbracket, -⟩ := isWs_ne (hw b List.mem_cons_self)
    rw [List.cons_append, skipToOpen, if_neg (not_or.mpr ⟨hbrace, hbracket⟩)]
    exact ih fun b hb => hw b (List.mem_cons_of_mem _ hb)

theorem objectLoop_keeps (opener : UInt8) (inString : Bool) (depth : ℕ) (buf file : Bytes) :
    buf <+: (objectLoop opener inString depth buf file).2.1 := by
  fun_induction objectLoop opener inString depth buf file with
  | case1 | case2 | case7 | case8 | case12 => exact List.prefix_rfl
  | case9 => exact List.prefix_append _ _
  | case10 =>
    rename_i ih
    refine List.IsPrefix.trans ?_ ih
    split <;> exact List.prefix_append _ _
  | case3 | case4 | case5 | case6 | case11 =>
    rename_i ih
    exact (List.prefix_append _ _).trans ih

/-- White space between brackets is read to the end if there is room for it and the closing bracket. -/
theorem objectLoop_ws (hw : Ws w) (buf rest : Bytes) :
    (buf.length + w.length < jsonMaxStr - 1 →
        objectLoop 91 false 1 buf (w ++ 93 :: rest) = (true, buf ++ w ++ [93], rest)) ∧
      (jsonMaxStr - 1 ≤ buf.length + w.length → (objectLoop 91 false 1 buf (w ++ 93 :: rest)).1 = false) := by
  induction w generalizing buf with
  | nil =>
    rw [List.nil_append, objectLoop, List.append_nil, List.length_nil, Nat.add_zero]
    constructor
    · intro h
      rw [if_pos h, if_neg (by decide), if_neg (by decide), if_pos (by decide), objectLoop]
    · intro h
      rw [if_neg (Nat.not_lt.mpr h)]
  | cons b w ih =>
    obtain ⟨-, hopen, hclose, hquote⟩ := isWs_ne (hw b List.mem_cons_self)
    obtain ⟨hroom, hfull⟩ := ih (fun b hb => hw b (List.mem_cons_of_mem _ hb)) (buf ++ [b])
    rw [List.cons_append, objectLoop, if_neg hquote, if_neg hopen, if_neg (show b ≠ closeOf 91 from hclose)]
    rw [List.length_append, List.length_singleton] at hroom hfull
    rw [List.length_cons]
    constructor
    · intro h
      rw [if_pos (by omega), hroom (by omega)]
      simp
    · intro h
      split
      · exact hfull (by omega)
      · rfl

end Reads

section Arrays

variable {file before after text : Bytes} {objs : List Bytes} {sizes : ℕ → Int64}

/-- The first read of a file with an array: if it succeeds, its text starts with the bracket. -/
theorem head?_of_read {buf rest : Bytes} (hbefore : Ws before) (t : Bytes)
    (h : jsonReadOneObject (before ++ 91 :: t) = (some buf, rest)) : (cString buf).head? = some 91 := by
  rw [jsonReadOneObject, skipToOpen_append hbefore] at h
  dsimp only at h
  have hkeeps := objectLoop_keeps 91 false 1 [91] t
  split at h
  · rename_i buf' file' heq
    rw [heq] at hkeeps
    obtain ⟨hbuf, -⟩ := Prod.mk.inj h
    cases Option.some.inj hbuf
    obtain ⟨t', ht'⟩ := hkeeps
    dsimp only at ht'
    rw [← ht']
    rfl
  · cases h

theorem chunk_zero {buf rest : Bytes} (hsize : 0 < getInt (sizes 0)) (h : jsonReadOneObject file = (some buf, rest)) :
    ∃ c, chunk file sizes 0 = .ok (cString buf :: c) := by
  obtain ⟨n, hn⟩ : ∃ n, (getInt (sizes 0)).toNat = n + 1 := ⟨(getInt (sizes 0)).toNat - 1, by omega⟩
  rw [chunk, cursorAfter, next, if_neg (Int.not_le.mpr hsize), if_neg Bool.false_ne_true, hn, nextLoop, h]
  exact ⟨_, rfl⟩

theorem chunk_zero_of_none {rest : Bytes} (hsize : 0 < getInt (sizes 0)) (h : jsonReadOneObject file = (none, rest)) :
    chunk file sizes 0 = .ok [] := by
  obtain ⟨n, hn⟩ : ∃ n, (getInt (sizes 0)).toNat = n + 1 := ⟨(getInt (sizes 0)).toNat - 1, by omega⟩
  rw [chunk, cursorAfter, next, if_neg (Int.not_le.mpr hsize), if_neg Bool.false_ne_true, hn, nextLoop, h]

/-- What is enumerated starts with the first read, and is nothing if that fails. -/
theorem Enumerates.head? (hsize : 0 < getInt (sizes 0)) (h : Enumerates file sizes objs) :
    objs.head? = (jsonReadOneObject file).1.map cString := by
  obtain ⟨chunks, hne, rfl, hchunks, hend⟩ := h
  cases hread : jsonReadOneObject file with
  | mk buf rest =>
    cases buf with
    | none =>
      have hzero := chunk_zero_of_none hsize hread
      cases chunks with
      | nil => rfl
      | cons c chunks =>
        have := hchunks 0 (Nat.zero_lt_succ _)
        rw [hzero] at this
        exact absurd (Except.ok.inj this).symm (hne c List.mem_cons_self)
    | some buf =>
      obtain ⟨c, hzero⟩ := chunk_zero hsize hread
      cases chunks with
      | nil =>
        rw [List.length_nil, hzero] at hend
        cases hend
      | cons c' chunks =>
        have hc : Except.ok (cString buf :: c) = Except.ok c' := hzero.symm.trans (hchunks 0 (Nat.zero_lt_succ _))
        rw [List.flatten_cons, ← Except.ok.inj hc]
        rfl

theorem head?_of_object {ms : List (Bytes × Value)} (h : Denotes text (.object ms)) : text.head? = some 123 := by
  generalize hv : Value.object ms = v at h
  cases h with
  | emptyObject | object => rfl
  | number n h =>
    rw [Number.value] at hv
    split at hv <;> cases hv
  | _ => cases hv

/-- The objects of an array are enumerated only if there are none and the brackets are too far apart for the buffer:
otherwise the array itself is taken for the first object. -/
theorem enumerates_array_iff (hbefore : Ws before) (h : ArrayOfObjects text objs)
    (hsizes : ∀ n, 0 < getInt (sizes n)) :
    Enumerates (before ++ text ++ after) sizes objs ↔ objs = [] ∧ jsonMaxStr ≤ text.length := by
  cases h with
  | @empty w hw =>
    have hfile : before ++ inBrackets w ++ after = before ++ 91 :: (w ++ 93 :: after) := by
      simp [inBrackets]
    have hlen : (inBrackets w).length = w.length + 2 := by simp [inBrackets]
    obtain ⟨hroom, hfull⟩ := objectLoop_ws hw [91] after
    rw [hfile, hlen]
    constructor
    · intro henum
      refine ⟨rfl, Nat.le_of_not_lt fun hlt => ?_⟩
      have hread : (jsonReadOneObject (before ++ 91 :: (w ++ 93 :: after))).1 = some ([91] ++ w ++ [93]) := by
        rw [jsonReadOneObject, skipToOpen_append hbefore]
        dsimp only
        rw [hroom (by rw [List.length_singleton]; omega)]
      have hhead := henum.head? (hsizes 0)
      rw [hread] at hhead
      cases hhead
    · rintro ⟨-, hle⟩
      have hread : (jsonReadOneObject (before ++ 91 :: (w ++ 93 :: after))).1 = none := by
        have hfalse := hfull (by rw [List.length_singleton]; omega)
        rw [jsonReadOneObject, skipToOpen_append hbefore]
        dsimp only
        split
        · rename_i heq
          rw [heq] at hfalse
          cases hfalse
        · rfl
      refine ⟨[], nofun, rfl, nofun, ?_⟩
      exact chunk_zero_of_none (hsizes 0) (Prod.ext hread rfl)
  | objects items hne hws hdenotes hobj =>
    refine iff_of_false ?_ ?_
    · intro henum
      have hhead := henum.head? (hsizes 0)
      obtain ⟨i, items, rfl⟩ := List.exists_cons_of_ne_nil hne
      obtain ⟨ms, hms⟩ := hobj i List.mem_cons_self
      have hobject := hdenotes i List.mem_cons_self
      rw [hms] at hobject
      rw [List.append_assoc] at hhead
      cases hread : jsonReadOneObject (before ++ (inBrackets (commas ((i :: items).map Item.full)) ++ after)) with
      | mk buf rest =>
        rw [hread] at hhead
        cases buf with
        | none => cases hhead
        | some buf =>
          have hbracket := head?_of_read hbefore _ hread
          rw [← Option.some.inj hhead, head?_of_object hobject] at hbracket
          revert hbracket
          decide
    · rintro ⟨hnil, -⟩
      exact hne (List.map_eq_nil_iff.mp hnil)

/-- The file ` [{}]`. -/
theorem one_object_not_enumerated : ArrayOfObjects [91, 123, 125, 93] [[123, 125]] ∧
    ¬ Enumerates ([32] ++ [91, 123, 125, 93] ++ []) (fun _ => 1) [[123, 125]] := by
  have hnone : Ws [] := fun b hb => absurd hb List.not_mem_nil
  have hobject : Denotes [123, 125] (.object []) := .emptyObject hnone
  have harray : ArrayOfObjects [91, 123, 125, 93] [[123, 125]] :=
    .objects [⟨[], [123, 125], [], .object []⟩] (List.cons_ne_nil _ _) (by simpa [Item.Spaced] using hnone)
      (by simpa using hobject) (by simp)
  have hws : Ws [32] := by simp [Ws, isWs]
  exact ⟨harray, fun henum => nomatch ((enumerates_array_iff hws harray fun _ => by decide).mp henum).1⟩

/-- The file `[{},{}]`: the first object that is returned is the whole array. -/
theorem array_is_first_object : ¬ Enumerates [91, 123, 125, 44, 123, 125, 93] (fun _ => 10) [[123, 125], [123, 125]] := by
  intro henum
  have hhead := henum.head? (by decide)
  revert hhead
  decide

end Arrays

end Fluxa.StdJson
