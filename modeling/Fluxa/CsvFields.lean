import Fluxa.Csv

/-! The fields of a row: `csv.field` and `csv.field_count` of `std.csv` (`fluxa_std_csv.h`). The two loops treat quotes
differently. `field_count` takes every quote for the start or the end of a quoted part. `field` looks whether anything of
the field is in the buffer yet, and the buffer is filled in the field that was asked for only: there a quote that does not
come first is a character, in every other field it opens a quoted part. -/

namespace Fluxa.StdCsv

open StdLib

def quote : UInt8 := 34

section Model

/-- A byte of the field that was asked for, as long as there is room. -/
def pushByte (wanted : Bool) (buf : Bytes) (c : UInt8) : Bytes :=
  if wanted ∧ buf.length < csvMaxLine - 1 then buf ++ [c] else buf

/-- The loop of `csv.field`: the field, and the places where it ended a field on the way, each as the rest of the row
from there on. -/
def fieldScan (delim : UInt8) (idx : ℕ) : ℕ → Bytes → Bool → Bytes → Option Bytes × List Bytes
  -- a quote that is not closed
  | _, _, true, [] => (none, [])
  | fieldIdx, buf, true, c :: p =>
    if c = quote then
      match p with
      | [] => fieldScan delim idx fieldIdx buf false []
      | c' :: p' =>
        if c' = quote then fieldScan delim idx fieldIdx (pushByte (fieldIdx = idx) buf quote) true p'
        else fieldScan delim idx fieldIdx buf false (c' :: p')
    else fieldScan delim idx fieldIdx (pushByte (fieldIdx = idx) buf c) true p
  | fieldIdx, buf, false, [] => if fieldIdx = idx then (some buf, [[]]) else (none, [[]])
  | fieldIdx, buf, false, c :: p =>
    if c = quote ∧ buf = [] then fieldScan delim idx fieldIdx buf true p
    else if c = delim then
      if fieldIdx = idx then (some buf, [c :: p])
      else match fieldScan delim idx (fieldIdx + 1) [] false p with
        | (field, cuts) => (field, (c :: p) :: cuts)
    else fieldScan delim idx fieldIdx (pushByte (fieldIdx = idx) buf c) false p

/-- `csv.field`. -/
def field (line : ℤ) (row : Bytes) (idx : Int64) (delim : UInt8) : Except String Bytes :=
  let i := getInt idx
  if i < 0 then .error (csvErr "field" line "field index must be >= 0")
  else match (fieldScan delim i.toNat 0 [] false row).1 with
    | some f => .ok f
    | none => .error (csvErr "field" line "field index out of range")

/-- Where the fields end up to the one that was asked for. -/
def fieldCuts (row : Bytes) (idx : ℕ) (delim : UInt8) : List Bytes := (fieldScan delim idx 0 [] false row).2

def countLoop (delim : UInt8) : ℕ → Bool → Bytes → ℕ
  | count, _, [] => count
  | count, inQuote, c :: p =>
    if c = quote then countLoop delim count (!inQuote) p
    else if !inQuote ∧ c = delim then countLoop delim (count + 1) inQuote p
    else countLoop delim count inQuote p

/-- `csv.field_count`. The counter is an `int`. -/
def fieldCount (row : Bytes) (delim : UInt8) : ℤ := (countLoop delim 1 false row : ℤ).bmod (2 ^ 32)

end Model

section Quoted

/-- Behind an opening quote: the text up to the closing one, where a doubled quote stands for one, and what follows. -/
def unescape : Bytes → Option (Bytes × Bytes)
  | [] => none
  | c :: p =>
    if c = quote then
      match p with
      | [] => some ([], [])
      | c' :: p' =>
        if c' = quote then (unescape p').map fun r => (quote :: r.1, r.2) else some ([], c' :: p')
    else (unescape p).map fun r => (c :: r.1, r.2)

def escape (body : Bytes) : Bytes := body.flatMap fun c => if c = quote then [quote, quote] else [c]

/-- The value of a field: a quoted part at its start without the quotes, and the rest as it is. -/
def unquote (s : Bytes) : Bytes :=
  match s with
  | [] => []
  | c :: t =>
    if c = quote then
      match unescape t with
      | some (body, tail) => body ++ tail
      | none => t
    else s

/-- What of a field is not in quotes at its start; nothing is known of that if they are not closed. -/
def bare (s : Bytes) : Option Bytes :=
  match s with
  | [] => some []
  | c :: t => if c = quote then (unescape t).map (·.2) else some s

variable {body tail u : Bytes} {c : UInt8}

theorem unescape_close (h : tail.head? ≠ some quote) : unescape (quote :: tail) = some ([], tail) := by
  cases tail with
  | nil => rfl
  | cons c tail =>
    have hc : c ≠ quote := fun hc => h (congrArg some hc)
    rw [unescape, if_pos rfl, if_neg hc]

theorem unescape_cons (hc : c ≠ quote) (p : Bytes) : unescape (c :: p) = (unescape p).map fun r => (c :: r.1, r.2) := by
  rw [unescape.eq_def]
  exact if_neg hc

theorem escape_cons (c : UInt8) (body : Bytes) :
    escape (c :: body) = (if c = quote then [quote, quote] else [c]) ++ escape body := List.flatMap_cons

theorem unescape_escape (body : Bytes) (h : tail.head? ≠ some quote) :
    unescape (escape body ++ quote :: tail) = some (body, tail) := by
  induction body with
  | nil => exact unescape_close h
  | cons c body ih =>
    rw [escape_cons]
    by_cases hc : c = quote
    · rw [if_pos hc, hc]
      exact congrArg (Option.map fun r => (quote :: r.1, r.2)) ih
    · rw [if_neg hc, List.singleton_append, List.cons_append, unescape_cons hc, ih]
      rfl

theorem of_unescape (h : unescape u = some (body, tail)) :
    u = escape body ++ quote :: tail ∧ tail.head? ≠ some quote := by
  induction u using unescape.induct generalizing body with
  | case1 => cases h
  | case2 =>
    cases h
    exact ⟨rfl, nofun⟩
  | case3 p ih =>
    obtain ⟨r, hr, hbody⟩ := Option.map_eq_some_iff.mp h
    obtain ⟨rfl, rfl⟩ := Prod.mk.inj hbody
    obtain ⟨hp, htail⟩ := ih hr
    refine ⟨?_, htail⟩
    nth_rewrite 1 [hp]
    rw [escape_cons, if_pos rfl]
    rfl
  | case4 c p hc =>
    have hhead : (c :: p).head? ≠ some quote := fun h => hc (Option.some.inj h)
    rw [unescape_close hhead] at h
    cases h
    exact ⟨rfl, hhead⟩
  | case5 c p hc ih =>
    rw [unescape_cons hc] at h
    obtain ⟨r, hr, hbody⟩ := Option.map_eq_some_iff.mp h
    obtain ⟨rfl, rfl⟩ := Prod.mk.inj hbody
    obtain ⟨hp, htail⟩ := ih hr
    refine ⟨?_, htail⟩
    nth_rewrite 1 [hp]
    rw [escape_cons, if_neg hc]
    rfl

end Quoted

section Own

/-! The field that was asked for. -/

variable {delim : UInt8} {idx : ℕ} {buf row rest : Bytes}

theorem span_eq_iff (t : Bytes) (hrest : rest = [] ∨ rest.head? = some delim) :
    (t ++ rest).takeWhile (· != delim) = t ∧ (t ++ rest).dropWhile (· != delim) = rest ↔ delim ∉ t := by
  constructor
  · rintro ⟨htake, -⟩ hmem
    rw [← htake] at hmem
    simpa using List.mem_takeWhile_imp hmem
  · intro hmem
    have hall : ∀ c ∈ t, (c != delim) = true := fun c hc => bne_iff_ne.mpr fun h => hmem (h ▸ hc)
    rw [List.takeWhile_append_of_pos hall, List.dropWhile_append_of_pos hall]
    rcases hrest with rfl | hhead
    · simp
    · obtain ⟨rest, rfl⟩ := List.head?_eq_some_iff.mp hhead
      simp

theorem pushByte_true (c : UInt8) (h : buf.length ≤ csvMaxLine - 1) :
    pushByte true buf c = (buf ++ [c]).take (csvMaxLine - 1) := by
  unfold pushByte
  split
  · rename_i hlt
    rw [List.take_of_length_le]
    simp only [List.length_append, List.length_singleton]
    omega
  · rename_i hlt
    have hlen : buf.length = csvMaxLine - 1 := by
      simp only [true_and] at hlt
      omega
    rw [← hlen, List.take_left]

theorem fieldScan_plain (hbuf : buf.length ≤ csvMaxLine - 1) (h : buf ≠ [] ∨ row.head? ≠ some quote) :
    fieldScan delim idx idx buf false row =
      (some ((buf ++ row.takeWhile (· != delim)).take (csvMaxLine - 1)), [row.dropWhile (· != delim)]) := by
  induction row generalizing buf with
  | nil =>
    rw [fieldScan, if_pos rfl, List.takeWhile_nil, List.append_nil, List.take_of_length_le hbuf]
    rfl
  | cons c p ih =>
    have hopen : ¬ (c = quote ∧ buf = []) := by
      rintro ⟨rfl, rfl⟩
      rcases h with h | h
      · exact h rfl
      · exact h rfl
    rw [fieldScan, if_neg hopen]
    by_cases hc : c = delim
    · rw [if_pos hc, if_pos rfl, hc]
      simp [List.take_of_length_le hbuf]
    · have hpush := pushByte_true c hbuf
      have hne : (buf ++ [c]).take (csvMaxLine - 1) ≠ [] := by
        rw [Ne, List.take_eq_nil_iff]
        simp [csvMaxLine]
      rw [if_neg hc, decide_eq_true rfl, hpush, ih (List.length_take_le _ _) (.inl hne), take_take_append]
      simp [hc]

theorem fieldScan_close (fieldIdx : ℕ) (h : row.head? ≠ some quote) :
    fieldScan delim idx fieldIdx buf true (quote :: row) = fieldScan delim idx fieldIdx buf false row := by
  cases row with
  | nil => rfl
  | cons c p =>
    have hc : c ≠ quote := fun hc => h (congrArg some hc)
    rw [fieldScan, if_pos rfl, if_neg hc]

theorem fieldScan_cons_quoted (fieldIdx : ℕ) {c : UInt8} (hc : c ≠ quote) :
    fieldScan delim idx fieldIdx buf true (c :: row) =
      fieldScan delim idx fieldIdx (pushByte (fieldIdx = idx) buf c) true row := by
  rw [fieldScan.eq_def]
  exact if_neg hc

/-- The outcome of a field that starts with a quote. -/
def readQuoted (delim : UInt8) (buf : Bytes) : Option (Bytes × Bytes) → Option Bytes × List Bytes
  | none => (none, [])
  | some (body, tail) =>
    (some ((buf ++ (body ++ tail.takeWhile (· != delim))).take (csvMaxLine - 1)), [tail.dropWhile (· != delim)])

theorem readQuoted_push (c : UInt8) (hbuf : buf.length ≤ csvMaxLine - 1) (r : Option (Bytes × Bytes)) :
    readQuoted delim (pushByte true buf c) r = readQuoted delim buf (r.map fun r => (c :: r.1, r.2)) := by
  cases r with
  | none => rfl
  | some r =>
    dsimp only [Option.map_some, readQuoted]
    rw [pushByte_true c hbuf, take_take_append, List.append_assoc]
    rfl

theorem length_pushByte_le (c : UInt8) (hbuf : buf.length ≤ csvMaxLine - 1) :
    (pushByte true buf c).length ≤ csvMaxLine - 1 := by
  rw [pushByte_true c hbuf]
  exact List.length_take_le _ _

theorem fieldScan_quoted (hbuf : buf.length ≤ csvMaxLine - 1) :
    fieldScan delim idx idx buf true row = readQuoted delim buf (unescape row) := by
  induction row using unescape.induct generalizing buf with
  | case1 => rfl
  | case2 => exact fieldScan_plain hbuf (.inr nofun)
  | case3 p ih =>
    rw [fieldScan, if_pos rfl, if_pos rfl, decide_eq_true rfl, ih (length_pushByte_le quote hbuf),
      readQuoted_push quote hbuf]
    rfl
  | case4 c p hc =>
    have hhead : (c :: p).head? ≠ some quote := fun h => hc (Option.some.inj h)
    rw [fieldScan_close idx hhead, unescape_close hhead, fieldScan_plain hbuf (.inr hhead)]
    rfl
  | case5 c p hc ih =>
    rw [fieldScan_cons_quoted idx hc, unescape_cons hc, decide_eq_true rfl, ih (length_pushByte_le c hbuf),
      readQuoted_push c hbuf]

/-- A field that is read whole when it is asked for: the delimiters in it stand between a quote at its start and the
one that closes it, and its value fits into the buffer. -/
def Regular (delim : UInt8) (s : Bytes) : Prop :=
  (unquote s).length < csvMaxLine ∧ ∃ t, bare s = some t ∧ delim ∉ t

theorem read_eq_iff (body tail : Bytes) (hrest : rest = [] ∨ rest.head? = some delim) :
    (some ((body ++ (tail ++ rest).takeWhile (· != delim)).take (csvMaxLine - 1)),
        [(tail ++ rest).dropWhile (· != delim)]) = (some (body ++ tail), [rest]) ↔
      (body ++ tail).length < csvMaxLine ∧ delim ∉ tail := by
  constructor
  · intro h
    obtain ⟨hvalue, hcut⟩ := Prod.mk.inj h
    have hvalue := Option.some.inj hvalue
    have hcut : (tail ++ rest).dropWhile (· != delim) = rest := List.singleton_inj.mp hcut
    have htail : (tail ++ rest).takeWhile (· != delim) = tail := by
      apply (List.append_left_inj rest).mp
      nth_rewrite 2 [← hcut]
      exact List.takeWhile_append_dropWhile
    rw [htail, List.take_eq_self_iff] at hvalue
    exact ⟨Nat.lt_of_le_pred (by decide) hvalue, (span_eq_iff tail hrest).mp ⟨htail, hcut⟩⟩
  · rintro ⟨hlen, hmem⟩
    obtain ⟨htake, hdrop⟩ := (span_eq_iff tail hrest).mpr hmem
    rw [htake, hdrop, (List.take_eq_self_iff _).mpr (show _ ≤ csvMaxLine - 1 from Nat.le_pred_of_lt hlen)]

theorem head?_of_append {t : Bytes} (h : (t ++ rest).head? ≠ some quote) : t.head? ≠ some quote := by
  cases t with
  | nil => nofun
  | cons c t => exact h

theorem head?_append {t : Bytes} (ht : t.head? ≠ some quote) (hrest : rest.head? ≠ some quote) :
    (t ++ rest).head? ≠ some quote := by
  cases t with
  | nil => exact hrest
  | cons c t => exact ht

theorem unescape_append {t body tail : Bytes} (h : unescape t = some (body, tail)) (hrest : rest.head? ≠ some quote) :
    unescape (t ++ rest) = some (body, tail ++ rest) := by
  obtain ⟨htext, htail⟩ := of_unescape h
  rw [htext, List.append_assoc, List.cons_append]
  exact unescape_escape body (head?_append htail hrest)

theorem unescape_of_append {t body tail : Bytes} (h : unescape (t ++ rest) = some (body, tail ++ rest)) :
    unescape t = some (body, tail) := by
  obtain ⟨htext, htail⟩ := of_unescape h
  have ht : t = escape body ++ quote :: tail := by
    apply (List.append_left_inj rest).mp
    rw [htext, List.append_assoc, List.cons_append]
  rw [ht]
  exact unescape_escape body (head?_of_append htail)

/-- Asked for the field at the start of a row, the scan gives its value and stops right behind it exactly if it is
regular. -/
theorem fieldScan_own (hdelim : delim ≠ quote) (s : Bytes) (hrest : rest = [] ∨ rest.head? = some delim) :
    fieldScan delim idx idx [] false (s ++ rest) = (some (unquote s), [rest]) ↔ Regular delim s := by
  have hhead : rest.head? ≠ some quote := by
    rcases hrest with rfl | h
    · nofun
    · rw [h]
      exact fun h => hdelim (Option.some.inj h)
  by_cases hquote : s.head? = some quote
  · obtain ⟨t, rfl⟩ := List.head?_eq_some_iff.mp hquote
    have hscan : fieldScan delim idx idx [] false (quote :: t ++ rest) = readQuoted delim [] (unescape (t ++ rest)) := by
      rw [List.cons_append, fieldScan, if_pos ⟨rfl, rfl⟩]
      exact fieldScan_quoted (Nat.zero_le _)
    have hbare : bare (quote :: t) = (unescape t).map (·.2) := by rw [bare, if_pos rfl]
    rw [hscan, Regular, hbare]
    cases ht : unescape t with
    | none =>
      -- a quote that closes behind the field cannot be the end of the field
      refine iff_of_false ?_ (by simp)
      intro h
      cases htr : unescape (t ++ rest) with
      | none =>
        rw [htr] at h
        cases h
      | some r =>
        obtain ⟨body, tail⟩ := r
        rw [htr] at h
        have hcut : tail.dropWhile (· != delim) = rest := List.singleton_inj.mp (Prod.mk.inj h).2
        rw [← List.takeWhile_append_dropWhile (p := (· != delim)) (l := tail), hcut] at htr
        rw [unescape_of_append htr] at ht
        cases ht
    | some r =>
      obtain ⟨body, tail⟩ := r
      have hvalue : unquote (quote :: t) = body ++ tail := by
        rw [unquote, if_pos rfl, ht]
      rw [unescape_append ht hhead, hvalue, readQuoted, List.nil_append, read_eq_iff body tail hrest]
      simp
  · have hplain : unquote s = s ∧ bare s = some s := by
      cases s with
      | nil => exact ⟨rfl, rfl⟩
      | cons c s =>
        have hc : c ≠ quote := fun hc => hquote (congrArg some hc)
        exact ⟨if_neg hc, if_neg hc⟩
    rw [fieldScan_plain (Nat.zero_le _) (.inr (head?_append hquote hhead)), Regular, hplain.1, hplain.2]
    have hread := read_eq_iff [] s hrest
    rw [List.nil_append, List.nil_append] at hread
    rw [List.nil_append, hread]
    simp

end Own

section Segments

/-! The fields as `field_count` sees them. -/

def onHead (w : Bytes) : List Bytes → List Bytes
  | [] => [w]
  | s :: ss => (w ++ s) :: ss

/-- A row cut at the delimiters that have an even number of quotes before them. -/
def segments (delim : UInt8) : Bool → Bytes → List Bytes
  | _, [] => [[]]
  | inQuote, c :: p =>
    if c = quote then onHead [c] (segments delim (!inQuote) p)
    else if !inQuote ∧ c = delim then [] :: segments delim inQuote p
    else onHead [c] (segments delim inQuote p)

def restOf (delim : UInt8) (fields : List Bytes) : Bytes := fields.flatMap (delim :: ·)

def joined (delim : UInt8) : List Bytes → Bytes
  | [] => []
  | f :: fs => f ++ restOf delim fs

def rests (delim : UInt8) : List Bytes → List Bytes
  | [] => []
  | _ :: fs => restOf delim fs :: rests delim fs

variable {delim : UInt8} {idx : ℕ}

theorem segments_ne_nil (delim : UInt8) (inQuote : Bool) (row : Bytes) : segments delim inQuote row ≠ [] := by
  cases row with
  | nil => simp [segments]
  | cons c p =>
    rw [segments]
    split
    · cases segments delim (!inQuote) p <;> simp [onHead]
    · split
      · simp
      · cases segments delim inQuote p <;> simp [onHead]

theorem joined_onHead (w : Bytes) {ss : List Bytes} (h : ss ≠ []) : joined delim (onHead w ss) = w ++ joined delim ss := by
  cases ss with
  | nil => exact absurd rfl h
  | cons s ss => exact List.append_assoc w s _

theorem joined_segments (delim : UInt8) (inQuote : Bool) (row : Bytes) : joined delim (segments delim inQuote row) = row := by
  induction row generalizing inQuote with
  | nil => rfl
  | cons c p ih =>
    rw [segments]
    split
    · rw [joined_onHead _ (segments_ne_nil delim _ _), ih]
      rfl
    · split
      · rename_i hc
        obtain ⟨s, ss, hss⟩ := List.exists_cons_of_ne_nil (segments_ne_nil delim inQuote p)
        have hp := ih inQuote
        rw [hss] at hp ⊢
        rw [hc.2, ← hp]
        rfl
      · rw [joined_onHead _ (segments_ne_nil delim _ _), ih]
        rfl

theorem length_onHead (w : Bytes) {ss : List Bytes} (h : ss ≠ []) : (onHead w ss).length = ss.length := by
  cases ss with
  | nil => exact absurd rfl h
  | cons s ss => rfl

theorem countLoop_eq (delim : UInt8) (count : ℕ) (inQuote : Bool) (row : Bytes) :
    countLoop delim count inQuote row + 1 = count + (segments delim inQuote row).length := by
  induction row generalizing count inQuote with
  | nil => rfl
  | cons c p ih =>
    rw [countLoop, segments]
    split
    · rw [ih, length_onHead _ (segments_ne_nil delim _ _)]
    · split
      · rw [ih, List.length_cons]
        omega
      · rw [ih, length_onHead _ (segments_ne_nil delim _ _)]

theorem countLoop_le (delim : UInt8) (count : ℕ) (inQuote : Bool) (row : Bytes) :
    countLoop delim count inQuote row ≤ count + row.length := by
  induction row generalizing count inQuote with
  | nil => exact le_rfl
  | cons c p ih =>
    rw [countLoop, List.length_cons]
    split
    · exact (ih count _).trans (by omega)
    · split
      · exact (ih (count + 1) _).trans (by omega)
      · exact (ih count _).trans (by omega)

theorem fieldCount_eq {row : Bytes} (hrow : row.length + 1 < 2 ^ 31) :
    fieldCount row delim = (segments delim false row).length := by
  have h := countLoop_eq delim 1 false row
  have hle := countLoop_le delim 1 false row
  have hint : (countLoop delim 1 false row : ℤ).bmod (2 ^ 32) = countLoop delim 1 false row :=
    Int.bmod_eq_of_le (by omega) (by omega)
  exact hint.trans (by omega)

/-- A field that was not asked for is passed over as `field_count` passes over it. -/
def Skips (delim : UInt8) (idx fieldIdx : ℕ) (inQuote : Bool) (row : Bytes) : Prop :=
  (segments delim inQuote row = [row] ∧ (fieldScan delim idx fieldIdx [] inQuote row).1 = none) ∨
    ∃ s p, row = s ++ delim :: p ∧ segments delim inQuote row = s :: segments delim false p ∧
      fieldScan delim idx fieldIdx [] inQuote row =
        ((fieldScan delim idx (fieldIdx + 1) [] false p).1,
          (delim :: p) :: (fieldScan delim idx (fieldIdx + 1) [] false p).2)

theorem Skips.append {fieldIdx : ℕ} {inQuote inQuote' : Bool} {row : Bytes} (w : Bytes)
    (hscan : fieldScan delim idx fieldIdx [] inQuote (w ++ row) = fieldScan delim idx fieldIdx [] inQuote' row)
    (hseg : segments delim inQuote (w ++ row) = onHead w (segments delim inQuote' row))
    (h : Skips delim idx fieldIdx inQuote' row) : Skips delim idx fieldIdx inQuote (w ++ row) := by
  rcases h with ⟨hone, hnone⟩ | ⟨s, p, hrow, hcons, hres⟩
  · refine .inl ⟨?_, by rw [hscan, hnone]⟩
    rw [hseg, hone]
    rfl
  · refine .inr ⟨w ++ s, p, by rw [hrow, List.append_assoc], ?_, by rw [hscan, hres]⟩
    rw [hseg, hcons]
    rfl

theorem onHead_onHead (w w' : Bytes) (ss : List Bytes) : onHead w (onHead w' ss) = onHead (w ++ w') ss := by
  cases ss <;> simp [onHead]

theorem skips (hdelim : delim ≠ quote) {fieldIdx : ℕ} (hidx : fieldIdx ≠ idx) (inQuote : Bool) (row : Bytes) :
    Skips delim idx fieldIdx inQuote row := by
  have hpush (c : UInt8) : pushByte (decide (fieldIdx = idx)) [] c = [] := by
    rw [decide_eq_false hidx]
    rfl
  induction hn : row.length using Nat.strong_induction_on generalizing row inQuote with
  | _ n ih =>
    cases row with
    | nil =>
      refine .inl ⟨rfl, ?_⟩
      cases inQuote with
      | true => rfl
      | false => rw [fieldScan, if_neg hidx]
    | cons c p =>
      have hlen : p.length < n := by rw [← hn]; exact Nat.lt_succ_self _
      by_cases hc : c = quote
      · subst hc
        cases inQuote with
        | false =>
          refine Skips.append [quote] ?_ ?_ (ih p.length hlen true p rfl)
          · rw [List.singleton_append, fieldScan, if_pos ⟨rfl, rfl⟩]
          · rw [List.singleton_append, segments, if_pos rfl]
            rfl
        | true =>
          by_cases hhead : p.head? = some quote
          · -- a doubled quote
            obtain ⟨p, rfl⟩ := List.head?_eq_some_iff.mp hhead
            refine Skips.append [quote, quote] ?_ ?_ (ih p.length (Nat.lt_of_succ_lt hlen) true p rfl)
            · rw [List.cons_append, List.singleton_append, fieldScan, if_pos rfl, if_pos rfl, hpush]
            · rw [List.cons_append, List.singleton_append, segments, if_pos rfl, segments, if_pos rfl,
                onHead_onHead]
              rfl
          · refine Skips.append [quote] (fieldScan_close fieldIdx hhead) ?_ (ih p.length hlen false p rfl)
            rw [List.singleton_append, segments, if_pos rfl]
            rfl
      · cases inQuote with
        | true =>
          refine Skips.append [c] ?_ ?_ (ih p.length hlen true p rfl)
          · rw [List.singleton_append, fieldScan_cons_quoted fieldIdx hc, hpush]
          · rw [List.singleton_append, segments, if_neg hc, if_neg (by simp)]
        | false =>
          by_cases hcut : c = delim
          · subst hcut
            refine .inr ⟨[], p, rfl, ?_, ?_⟩
            · rw [segments, if_neg hc, if_pos ⟨rfl, rfl⟩]
            · rw [fieldScan, if_neg (fun h => hc h.1), if_pos rfl, if_neg hidx]
          · refine Skips.append [c] ?_ ?_ (ih p.length hlen false p rfl)
            · rw [List.singleton_append, fieldScan, if_neg (fun h => hc h.1), if_neg hcut, hpush]
            · rw [List.singleton_append, segments, if_neg hc, if_neg (fun h => hcut h.2)]

/-- The scan for a field passes over those before it and reads what stands from there on. -/
theorem fieldScan_eq (hdelim : delim ≠ quote) (d fieldIdx : ℕ) (row : Bytes) (hd : idx = fieldIdx + d) :
    if d < (segments delim false row).length then
      fieldScan delim idx fieldIdx [] false row =
        ((fieldScan delim idx idx [] false (joined delim ((segments delim false row).drop d))).1,
          (rests delim (segments delim false row)).take d ++
            (fieldScan delim idx idx [] false (joined delim ((segments delim false row).drop d))).2)
    else (fieldScan delim idx fieldIdx [] false row).1 = none := by
  induction d generalizing fieldIdx row with
  | zero =>
    rw [if_pos (List.length_pos_of_ne_nil (segments_ne_nil delim false row)), List.drop_zero, joined_segments, hd]
    rfl
  | succ d ih =>
    rcases skips hdelim (show fieldIdx ≠ idx by omega) false row with ⟨hone, hnone⟩ | ⟨s, p, hrow, hcons, hres⟩
    · rw [hone, if_neg (by simp)]
      exact hnone
    · have hrest : delim :: p = restOf delim (segments delim false p) := by
        obtain ⟨f, fs, hf⟩ := List.exists_cons_of_ne_nil (segments_ne_nil delim false p)
        have hp := joined_segments delim false p
        rw [hf] at hp ⊢
        rw [← hp]
        rfl
      have := ih (fieldIdx + 1) p (by omega)
      rw [hcons, List.length_cons, List.drop_succ_cons, rests, List.take_succ_cons, ← hrest, hres]
      split at this
      · rename_i hlt
        rw [if_pos (Nat.succ_lt_succ hlt), this]
        rfl
      · rename_i hlt
        rw [if_neg fun h => hlt (Nat.lt_of_succ_lt_succ h)]
        exact this

end Segments

section Grammar

variable {delim : UInt8}

/-- A way of cutting the row into fields that both functions follow: the count is right, each field is found under its
index, the scan for it ends the fields where they end, and no other index is accepted. Indices are such as an `int`
holds: any other is taken for the one that is left of it. -/
structure CutsInto (delim : UInt8) (row : Bytes) (fields : List Bytes) : Prop where
  joins : joined delim fields = row
  count : fieldCount row delim = fields.length
  found : ∀ (line : ℤ) (i : Int64) (n : ℕ) (h : n < fields.length), FitsInt i → i.toInt = n →
    field line row i delim = .ok (unquote fields[n])
  cuts : ∀ i < fields.length, fieldCuts row i delim = (rests delim fields).take (i + 1)
  outside : ∀ (line : ℤ) (i : Int64), FitsInt i → (i.toInt < 0 ∨ fields.length ≤ i.toInt) →
    ∃ msg, field line row i delim = .error msg

theorem field_eq_ok {line : ℤ} {row : Bytes} {i : Int64} {n : ℕ} (hfits : FitsInt i) (hi : i.toInt = n) {v : Bytes} :
    field line row i delim = .ok v ↔ (fieldScan delim n 0 [] false row).1 = some v := by
  rw [field, getInt_of_fits hfits, hi]
  rw [if_neg (Int.not_lt.mpr (Int.natCast_nonneg n)), Int.toNat_natCast]
  cases (fieldScan delim n 0 [] false row).1 <;> simp

theorem length_rests (fs : List Bytes) : (rests delim fs).length = fs.length := by
  induction fs with
  | nil => rfl
  | cons f fs ih => rw [rests, List.length_cons, ih, List.length_cons]

theorem rests_getElem {fs : List Bytes} {i : ℕ} (h : i < (rests delim fs).length) :
    (rests delim fs)[i] = restOf delim (fs.drop (i + 1)) := by
  induction fs generalizing i with
  | nil => exact absurd h (Nat.not_lt_zero i)
  | cons f fs ih =>
    cases i with
    | zero => rfl
    | succ i => exact ih (Nat.lt_of_succ_lt_succ h)

theorem restOf_head (fs : List Bytes) : restOf delim fs = [] ∨ (restOf delim fs).head? = some delim := by
  cases fs with
  | nil => exact .inl rfl
  | cons f fs => exact .inr rfl

theorem joined_drop {fs : List Bytes} {i : ℕ} (h : i < fs.length) :
    joined delim (fs.drop i) = fs[i] ++ restOf delim (fs.drop (i + 1)) := by
  rw [List.drop_eq_getElem_cons h]
  rfl

theorem fields_unique {fs gs : List Bytes} (hlen : fs.length = gs.length) (hrow : joined delim fs = joined delim gs)
    (hrests : (rests delim fs).take (fs.length - 1) = (rests delim gs).take (fs.length - 1)) : fs = gs := by
  induction fs generalizing gs with
  | nil => exact (List.eq_nil_of_length_eq_zero hlen.symm).symm
  | cons f fs ih =>
    cases gs with
    | nil => cases hlen
    | cons g gs =>
      have hlen : fs.length = gs.length := Nat.succ.inj hlen
      cases fs with
      | nil =>
        cases gs with
        | nil =>
          rw [joined, joined] at hrow
          rw [List.append_cancel_right hrow]
        | cons g' gs => cases hlen
      | cons f' fs =>
        cases gs with
        | nil => cases hlen
        | cons g' gs =>
          obtain ⟨hrest, htake⟩ := List.cons.inj hrests
          rw [joined, joined, hrest] at hrow
          rw [List.append_cancel_right hrow, ih hlen (List.cons.inj hrest).2 htake]

/-- Where all fields are regular, both functions follow the cut at the delimiters outside quotes. -/
theorem cutsInto_segments (hdelim : delim ≠ quote) {row : Bytes} (hrow : row.length + 1 < 2 ^ 31)
    (h : ∀ s ∈ segments delim false row, Regular delim s) : CutsInto delim row (segments delim false row) := by
  have hscan (i : ℕ) := fieldScan_eq hdelim i 0 row (Nat.zero_add i).symm
  have hres (i : ℕ) (hi : i < (segments delim false row).length) : fieldScan delim i 0 [] false row =
      (some (unquote (segments delim false row)[i]), (rests delim (segments delim false row)).take (i + 1)) := by
    have hown : fieldScan delim i i [] false _ = _ :=
      (fieldScan_own hdelim _ (restOf_head ((segments delim false row).drop (i + 1)))).mpr (h _ (List.getElem_mem hi))
    have := hscan i
    rw [if_pos hi, joined_drop hi, hown] at this
    rw [this, List.take_succ_eq_append_getElem (by rwa [length_rests]), rests_getElem]
  refine ⟨joined_segments delim false row, fieldCount_eq hrow, ?_, ?_, ?_⟩
  · intro line i n hn hfits hi
    rw [field_eq_ok hfits hi, hres n hn]
  · intro i hi
    rw [fieldCuts, hres i hi]
  · intro line i hfits hi
    rw [field, getInt_of_fits hfits]
    by_cases hneg : i.toInt < 0
    · exact ⟨_, if_pos hneg⟩
    · have hle := hi.resolve_left hneg
      have := hscan i.toInt.toNat
      rw [if_neg (by omega)] at this
      rw [if_neg hneg, this]
      exact ⟨_, rfl⟩

/-- Both functions follow one way of cutting the row exactly if each field, cut at the delimiters that have an even
number of quotes before them, is regular. -/
theorem one_grammar_iff (hdelim : delim ≠ quote) {row : Bytes} (hrow : row.length + 1 < 2 ^ 31) :
    (∃ fields, CutsInto delim row fields) ↔ ∀ s ∈ segments delim false row, Regular delim s := by
  have hscan (i : ℕ) := fieldScan_eq hdelim i 0 row (Nat.zero_add i).symm
  constructor
  · rintro ⟨fields, h⟩
    have hlen : fields.length = (segments delim false row).length := by
      exact_mod_cast h.count.symm.trans (fieldCount_eq hrow)
    have hfew : fields.length < 2 ^ 31 := by
      have hcount := countLoop_eq delim 1 false row
      have hle := countLoop_le delim 1 false row
      omega
    -- the scan for each field, in both descriptions
    have hboth (i : ℕ) (hi : i < fields.length) :
        (rests delim (segments delim false row)).take i = (rests delim fields).take i ∧
          fieldScan delim i i [] false (joined delim ((segments delim false row).drop i)) =
            (some (unquote fields[i]), [restOf delim (fields.drop (i + 1))]) := by
      have hres := hscan i
      rw [if_pos (hlen ▸ hi)] at hres
      obtain ⟨k, hfits, hk⟩ := exists_int64 (hi.trans hfew)
      have hfield := (field_eq_ok hfits hk).mp (h.found 0 k i hi hfits hk)
      have hcuts := h.cuts i hi
      have hir : i < (rests delim fields).length := by rwa [length_rests]
      rw [hres] at hfield
      rw [fieldCuts, hres, List.take_succ_eq_append_getElem hir, rests_getElem] at hcuts
      obtain ⟨htake, hown⟩ := List.append_inj hcuts (by
        rw [List.length_take, List.length_take, length_rests, length_rests, hlen])
      exact ⟨htake, Prod.ext hfield hown⟩
    have hfields : fields = segments delim false row := by
      apply fields_unique hlen (h.joins.trans (joined_segments delim false row).symm)
      cases hn : fields.length with
      | zero => rfl
      | succ n => exact (hboth n (by omega)).1.symm
    intro s hs
    rw [← hfields] at hs hboth
    obtain ⟨i, hi, rfl⟩ := List.getElem_of_mem hs
    have hown := (hboth i hi).2
    rw [joined_drop hi] at hown
    exact (fieldScan_own hdelim fields[i] (restOf_head _)).mp hown
  · exact fun h => ⟨_, cutsInto_segments hdelim hrow h⟩

/-- The row `"a,b",c` has two fields. -/
theorem quoted_comma_two_fields : (44 : UInt8) ≠ quote ∧ ∃ fields, CutsInto 44 [34, 97, 44, 98, 34, 44, 99] fields := by
  refine ⟨by decide, (one_grammar_iff (by decide) (by decide)).mpr ?_⟩
  intro s hs
  rw [show segments 44 false [34, 97, 44, 98, 34, 44, 99] = [[34, 97, 44, 98, 34], [99]] by decide] at hs
  rcases List.mem_cons.mp hs with rfl | hs
  · exact ⟨by decide, [], by decide, by decide⟩
  · rw [List.mem_singleton.mp hs]
    exact ⟨by decide, [99], by decide, by decide⟩

/-- In the row `a"b,c"` there is one field for `csv.field_count`, but `csv.field` ends it at the comma. -/
theorem quote_inside_field : ¬ ∃ fields, CutsInto 44 [97, 34, 98, 44, 99, 34] fields := by
  rintro ⟨fields, h⟩
  have hcount : fieldCount [97, 34, 98, 44, 99, 34] 44 = 1 := by decide
  obtain ⟨f, rfl⟩ := List.length_eq_one_iff.mp (by exact_mod_cast h.count.symm.trans hcount)
  have hf : f ++ [] = [97, 34, 98, 44, 99, 34] := h.joins
  rw [List.append_nil] at hf
  subst hf
  have hfound := h.found 0 0 0 Nat.zero_lt_one (by decide) (by decide)
  revert hfound
  decide

end Grammar

section Rfc4180

variable {delim : UInt8} {f t row : Bytes}

/-- A field as RFC 4180 writes it: plain, or in quotes with the quotes in it doubled. -/
inductive Writes (delim : UInt8) : Bytes → Bytes → Prop
  | plain {f : Bytes} (hdelim : delim ∉ f) (hquote : quote ∉ f) : Writes delim f f
  | quoted (f : Bytes) : Writes delim f (quote :: (escape f ++ [quote]))

theorem segments_plain (hdelim : delim ∉ f) (hquote : quote ∉ f) :
    segments delim false (f ++ row) = onHead f (segments delim false row) := by
  induction f with
  | nil =>
    obtain ⟨s, ss, hss⟩ := List.exists_cons_of_ne_nil (segments_ne_nil delim false row)
    rw [List.nil_append, hss]
    rfl
  | cons c f ih =>
    obtain ⟨hc, hdelim⟩ := not_or.mp (mt List.mem_cons.mpr hdelim)
    obtain ⟨hc', hquote⟩ := not_or.mp (mt List.mem_cons.mpr hquote)
    rw [List.cons_append, segments, if_neg (Ne.symm hc'), if_neg fun h => hc h.2.symm, ih hdelim hquote, onHead_onHead]
    rfl

theorem segments_escape (f : Bytes) :
    segments delim true (escape f ++ row) = onHead (escape f) (segments delim true row) := by
  induction f with
  | nil =>
    obtain ⟨s, ss, hss⟩ := List.exists_cons_of_ne_nil (segments_ne_nil delim true row)
    change segments delim true row = onHead [] (segments delim true row)
    rw [hss]
    rfl
  | cons c f ih =>
    rw [escape_cons, List.append_assoc]
    by_cases hc : c = quote
    · rw [if_pos hc, List.cons_append, List.singleton_append, segments, if_pos rfl, segments, if_pos rfl, Bool.not_not,
        ih, onHead_onHead, onHead_onHead]
      rfl
    · rw [if_neg hc, List.singleton_append, segments, if_neg hc, if_neg (by simp), ih, onHead_onHead]

theorem Writes.segments_append (h : Writes delim f t) (row : Bytes) :
    segments delim false (t ++ row) = onHead t (segments delim false row) := by
  cases h with
  | plain hdelim hquote => exact segments_plain hdelim hquote
  | quoted =>
    rw [List.cons_append, List.append_assoc, segments, if_pos rfl, Bool.not_false, segments_escape,
      List.singleton_append, segments, if_pos rfl, Bool.not_true, onHead_onHead, onHead_onHead]
    rfl

theorem segments_joined (hdelim : delim ≠ quote) {fields texts : List Bytes}
    (h : List.Forall₂ (Writes delim) fields texts) (hne : texts ≠ []) :
    segments delim false (joined delim texts) = texts := by
  induction h with
  | nil => exact absurd rfl hne
  | @cons f t fields texts hf _ ih =>
    rw [joined, hf.segments_append]
    cases texts with
    | nil => exact congrArg (fun s => [s]) (List.append_nil t)
    | cons u texts =>
      have hrest : restOf delim (u :: texts) = delim :: joined delim (u :: texts) := rfl
      rw [hrest, segments, if_neg hdelim, if_pos ⟨rfl, rfl⟩, ih (List.cons_ne_nil u texts)]
      exact congrArg (· :: u :: texts) (List.append_nil t)

theorem Writes.unquote_eq (h : Writes delim f t) : unquote t = f ∧ ∃ b, bare t = some b ∧ delim ∉ b := by
  cases h with
  | plain hdelim hquote =>
    cases f with
    | nil => exact ⟨rfl, [], rfl, List.not_mem_nil⟩
    | cons c f =>
      have hc : c ≠ quote := fun hc => hquote (hc ▸ List.mem_cons_self)
      exact ⟨if_neg hc, c :: f, if_neg hc, hdelim⟩
  | quoted =>
    have hbody : unescape (escape f ++ [quote]) = some (f, []) := unescape_escape f nofun
    refine ⟨?_, [], ?_, List.not_mem_nil⟩
    · rw [unquote, if_pos rfl, hbody]
      exact List.append_nil f
    · rw [bare, if_pos rfl, hbody]
      rfl

/-- **`csv.field` undoes the quoting of RFC 4180**, and `csv.field_count` counts the fields, for indices that an `int`
holds. -/
theorem field_inverts_quoting (hdelim : delim ≠ quote) {fields texts : List Bytes} (hne : fields ≠ [])
    (hlen : ∀ f ∈ fields, f.length ≤ 1023) (h : List.Forall₂ (Writes delim) fields texts)
    (hrow : (joined delim texts).length + 1 < 2 ^ 31) (line : ℤ) :
    fieldCount (joined delim texts) delim = fields.length ∧ ∀ i : Int64, FitsInt i →
      (∀ (n : ℕ) (hn : n < fields.length), i.toInt = n → field line (joined delim texts) i delim = .ok fields[n]) ∧
        (fields.length ≤ i.toInt → ∃ msg, field line (joined delim texts) i delim = .error msg) := by
  have htexts : texts ≠ [] := by
    rintro rfl
    exact hne (List.forall₂_nil_right_iff.mp h)
  have hseg := segments_joined hdelim h htexts
  have hregular : ∀ t ∈ texts, Regular delim t := by
    intro t ht
    obtain ⟨i, hi, rfl⟩ := List.getElem_of_mem ht
    have hif : i < fields.length := h.length_eq ▸ hi
    obtain ⟨hvalue, hbare⟩ := (h.get hif hi).unquote_eq
    refine ⟨?_, hbare⟩
    rw [List.get_eq_getElem, List.get_eq_getElem] at hvalue
    rw [hvalue]
    exact Nat.lt_succ_of_le (hlen _ (List.getElem_mem hif))
  have hcuts : CutsInto delim (joined delim texts) texts := by
    have hall : ∀ t ∈ segments delim false (joined delim texts), Regular delim t := by rwa [hseg]
    have hcuts := cutsInto_segments hdelim hrow hall
    rwa [hseg] at hcuts
  have hcount : fieldCount (joined delim texts) delim = fields.length := by rw [hcuts.count, h.length_eq]
  refine ⟨hcount, fun i hfits => ⟨?_, fun hi => hcuts.outside line i hfits (.inr (h.length_eq ▸ hi))⟩⟩
  intro n hn hi
  have hnt : n < texts.length := h.length_eq ▸ hn
  rw [hcuts.found line i n hnt hfits hi]
  exact congrArg Except.ok (h.get hn hnt).unquote_eq.1

/-- The fields `a`, the empty one and `,"` as the row `a,"",","""`. -/
theorem three_fields_come_back :
    field 1 (joined 44 [[97], [34, 34], [34, 44, 34, 34, 34]]) 2 44 = .ok [44, 34] ∧
      fieldCount (joined 44 [[97], [34, 34], [34, 44, 34, 34, 34]]) 44 = 3 := by
  have hwritten : List.Forall₂ (Writes 44) [[97], [], [44, 34]] [[97], [34, 34], [34, 44, 34, 34, 34]] :=
    .cons (.plain (by decide) (by decide)) (.cons (.quoted []) (.cons (.quoted [44, 34]) .nil))
  obtain ⟨hcount, hfound⟩ := field_inverts_quoting (by decide) (by decide) (by decide) hwritten (by decide) 1
  exact ⟨(hfound 2 (by decide)).1 2 (by decide) (by decide), hcount⟩

/-- In the row `a,b` the index `2 ^ 32` is taken for 0. -/
theorem index_taken_for_zero : field 1 (joined 44 [[97], [98]]) 4294967296 44 = .ok [97] := by decide

end Rfc4180

end Fluxa.StdCsv
