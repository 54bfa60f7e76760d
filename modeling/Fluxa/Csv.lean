import Mathlib.Data.List.DropRight
import Mathlib.Data.List.TakeWhile
import Mathlib.Algebra.BigOperators.Group.List.Basic
import Mathlib.Algebra.GroupWithZero.Nat
import Fluxa.Base.Lines
import Fluxa.StdLib

/-! `std.csv` (`fluxa_std_csv.h`): the rows of a file, all at once or through a cursor. A row is what one `fgets` into a
buffer of `FLUXA_CSV_MAX_LINE` bytes gives, without the line ends behind it. Files that cannot be opened and running out
of memory are left out. -/

namespace Fluxa.StdCsv

open StdLib Lines

section Model

/-- `FLUXA_CSV_MAX_LINE`. -/
def csvMaxLine : ℕ := 1024

def newline : UInt8 := 10

def carriageReturn : UInt8 := 13

/-- The rows a call returns, and the errors it reports. -/
structure Reply where
  rows : List Bytes
  errors : List String
  deriving DecidableEq, Repr

/-- `CSV_ERR`. -/
def csvErr (fn : String) (line : ℤ) (msg : String) : String := s!"csv.{fn} (line {line}): {msg}"

def isLineEnd (c : UInt8) : Bool := c == newline || c == carriageReturn

def rowOf (buf : Bytes) : Bytes := (cString buf).rdropWhile isLineEnd

/-- The buffer keeps a byte for the NUL. At the end of the file nothing is read. -/
def fgets (file : Bytes) : Option (Bytes × Bytes) :=
  if file = [] then none else some (readLine newline (csvMaxLine - 1) file)

/-- Every read takes a byte at least, so that the length of the file bounds the loop. -/
def csvReadLoop (chunkSize : ℤ) : ℕ → ℕ → Bytes → List Bytes × Bytes
  | 0, _, file => ([], file)
  | fuel + 1, linesRead, file =>
    if chunkSize ≤ 0 ∨ linesRead < chunkSize then
      match fgets file with
      | none => ([], file)
      | some (buf, file) =>
        match csvReadLoop chunkSize fuel (linesRead + 1) file with
        | (rows, file) => (rowOf buf :: rows, file)
    else ([], file)

def csvReadChunk (file : Bytes) (chunkSize : ℤ) : List Bytes × Bytes := csvReadLoop chunkSize file.length 0 file

/-- `CsvCursor`. -/
structure Cursor where
  file : Bytes
  eof : Bool := false

/-- `csv.load`. -/
def load (file : Bytes) : Reply := ⟨(csvReadChunk file 0).1, []⟩

/-- `csv.next`. -/
def next (line : ℤ) (cur : Cursor) (size : Int64) : Reply × Cursor :=
  let chunkSize := getInt size
  if chunkSize ≤ 0 then (⟨[], [csvErr "next" line "chunk_size must be > 0"]⟩, cur)
  else if cur.eof then (⟨[], []⟩, cur)
  else
    let (rows, file) := csvReadChunk cur.file chunkSize
    (⟨rows, []⟩, { file, eof := rows.length < chunkSize })

/-- The replies to a sequence of `csv.next` calls. -/
def nexts (line : ℤ) : Cursor → List Int64 → List Reply
  | _, [] => []
  | cur, size :: sizes => (next line cur size).1 :: nexts line (next line cur size).2 sizes

end Model

section Reads

def reads (file : Bytes) : List Bytes := pieces newline 1022 1022 file

theorem reads_of_fgets {file buf rest : Bytes} (h : fgets file = some (buf, rest)) :
    reads file = buf :: reads rest ∧ rest.length < file.length := by
  rw [fgets] at h
  split at h
  · cases h
  · rename_i hne
    have hread : readLine newline (1022 + 1) file = (buf, rest) := Option.some.inj h
    constructor
    · rw [reads, pieces_eq_cons hne, hread]
      rfl
    · have hlt := length_readLine_lt newline 1022 hne
      rwa [hread] at hlt

theorem fgets_eq_none {file : Bytes} (h : fgets file = none) : reads file = [] := by
  rw [fgets] at h
  split at h
  · rename_i hnil
    rw [hnil]
    rfl
  · cases h

def taken (chunkSize : ℤ) (linesRead : ℕ) (file : Bytes) : ℕ :=
  if chunkSize ≤ 0 then (reads file).length else (chunkSize - linesRead).toNat

theorem csvReadLoop_spec (chunkSize : ℤ) (fuel linesRead : ℕ) (file : Bytes) (hfuel : file.length ≤ fuel) :
    (csvReadLoop chunkSize fuel linesRead file).1 =
        ((reads file).take (taken chunkSize linesRead file)).map rowOf ∧
      reads (csvReadLoop chunkSize fuel linesRead file).2 = (reads file).drop (taken chunkSize linesRead file) := by
  induction fuel generalizing linesRead file with
  | zero =>
    rw [List.eq_nil_of_length_eq_zero (Nat.le_zero.mp hfuel)]
    simp [csvReadLoop, reads, pieces]
  | succ fuel ih =>
    rw [csvReadLoop]
    by_cases hmore : chunkSize ≤ 0 ∨ linesRead < chunkSize
    · rw [if_pos hmore]
      cases hget : fgets file with
      | none => simp [fgets_eq_none hget]
      | some r =>
        obtain ⟨buf, rest⟩ := r
        obtain ⟨hreads, hlen⟩ := reads_of_fgets hget
        have htaken : taken chunkSize linesRead file = taken chunkSize (linesRead + 1) rest + 1 := by
          unfold taken
          split
          · rw [hreads, List.length_cons]
          · omega
        obtain ⟨hrows, hrest⟩ := ih (linesRead + 1) rest (by omega)
        dsimp only
        rw [hreads, htaken, List.take_succ_cons, List.drop_succ_cons, List.map_cons]
        exact ⟨by rw [← hrows], hrest⟩
    · rw [if_neg hmore]
      have htaken : taken chunkSize linesRead file = 0 := by
        unfold taken
        rw [if_neg fun h => hmore (.inl h)]
        omega
      rw [htaken]
      exact ⟨rfl, rfl⟩

theorem load_rows (file : Bytes) : (load file).rows = (reads file).map rowOf := by
  have h := (csvReadLoop_spec 0 file.length 0 file le_rfl).1
  rw [taken, if_pos (Int.le_refl 0), List.take_length] at h
  exact h

def Cursor.left (cur : Cursor) : List Bytes := if cur.eof then [] else reads cur.file

theorem next_spec (line : ℤ) (cur : Cursor) (size : Int64) :
    (next line cur size).1.rows = (cur.left.take (getInt size).toNat).map rowOf ∧
      (next line cur size).2.left = cur.left.drop (getInt size).toNat := by
  unfold next
  dsimp only
  by_cases hsize : getInt size ≤ 0
  · rw [if_pos hsize, Int.toNat_of_nonpos hsize]
    exact ⟨rfl, rfl⟩
  · rw [if_neg hsize]
    by_cases heof : cur.eof
    · rw [if_pos heof]
      simp [Cursor.left, heof]
    · rw [if_neg heof]
      obtain ⟨hrows, hrest⟩ := csvReadLoop_spec (getInt size) cur.file.length 0 cur.file le_rfl
      have htaken : taken (getInt size) 0 cur.file = (getInt size).toNat := by
        rw [taken, if_neg hsize]
        simp
      have hleft : cur.left = reads cur.file := if_neg heof
      rw [htaken, ← hleft] at hrows hrest
      refine ⟨hrows, ?_⟩
      rw [Cursor.left]
      split
      · -- fewer rows than were asked for: nothing is left
        rename_i hlt
        have hlen := congrArg List.length hrows
        rw [List.length_map, List.length_take] at hlen
        have hlt : ((csvReadChunk cur.file (getInt size)).1.length : ℤ) < getInt size := of_decide_eq_true hlt
        rw [csvReadChunk] at hlt
        exact (List.drop_eq_nil_of_le (by omega)).symm
      · exact hrest

end Reads

def fileLines (file : Bytes) : List Bytes := lines newline file

/-- A line without its line end: LF or CR LF. -/
def lineText (l : Bytes) : Bytes :=
  if l.getLast? = some newline then
    if l.dropLast.getLast? = some carriageReturn then l.dropLast.dropLast else l.dropLast
  else l

def asked (sizes : List Int64) : ℕ := (sizes.map fun size => (getInt size).toNat).sum

/-- The calls of `csv.next` give the rows of `csv.load` one after another; these are the lines, cut to the limit, and
each line that is cut is reported. -/
structure RowsAreLines (file : Bytes) : Prop where
  next : ∀ (line : ℤ) (sizes : List Int64),
    (nexts line { file } sizes).flatMap (·.rows) = (load file).rows.take (asked sizes)
  rows : (load file).rows = (fileLines file).map fun l => (lineText l).take csvMaxLine
  reported : (load file).errors.length = (fileLines file).countP fun l => csvMaxLine < (lineText l).length

theorem nexts_rows (line : ℤ) (cur : Cursor) (sizes : List Int64) :
    (nexts line cur sizes).flatMap (·.rows) = (cur.left.take (asked sizes)).map rowOf := by
  induction sizes generalizing cur with
  | nil => rfl
  | cons size sizes ih =>
    obtain ⟨hrows, hleft⟩ := next_spec line cur size
    have hasked : asked (size :: sizes) = (getInt size).toNat + asked sizes := List.sum_cons
    rw [nexts, List.flatMap_cons, ih, hrows, hleft, hasked, List.take_add, List.map_append]

/-- **`csv.next` is `csv.load` in pieces**, for every file and whatever the sizes of the pieces. -/
theorem nexts_eq_load (file : Bytes) (line : ℤ) (sizes : List Int64) :
    (nexts line { file } sizes).flatMap (·.rows) = (load file).rows.take (asked sizes) := by
  rw [nexts_rows, load_rows, List.map_take]
  rfl

section LineText

variable {l : Bytes}

theorem lineText_append (l : Bytes) :
    l = lineText l ∨ l = lineText l ++ [newline] ∨ l = lineText l ++ [carriageReturn, newline] := by
  unfold lineText
  split
  · rename_i hlast
    have hl := List.dropLast_append_getLast? newline hlast
    split
    · rename_i hlast'
      have hl' := List.dropLast_append_getLast? carriageReturn hlast'
      refine .inr (.inr ?_)
      nth_rewrite 1 [← hl, ← hl']
      rw [List.append_assoc]
      rfl
    · exact .inr (.inl hl.symm)
  · exact .inl rfl

theorem not_mem_rowOf (buf : Bytes) : 0 ∉ rowOf buf := by
  intro h
  have hmem := List.mem_takeWhile_imp ((List.rdropWhile_prefix isLineEnd (cString buf)).subset h)
  simp at hmem

theorem newline_not_mem_lineText (hl : newline ∉ l.dropLast) : newline ∉ lineText l := by
  unfold lineText
  split
  · split
    · exact fun h => hl (List.dropLast_subset _ h)
    · exact hl
  · rename_i hlast
    intro hmem
    obtain ⟨a, ha⟩ := List.getLast?_isSome.mpr (List.ne_nil_of_mem hmem) |> Option.isSome_iff_exists.mp
    rw [← List.dropLast_append_getLast? a ha, List.mem_append, List.mem_singleton] at hmem
    rcases hmem with hmem | rfl
    · exact hl hmem
    · exact hlast ha

theorem rdropWhile_lineText (l : Bytes) : l.rdropWhile isLineEnd = (lineText l).rdropWhile isLineEnd := by
  rcases lineText_append l with h | h | h
  · rw [← h]
  · nth_rewrite 1 [h]
    exact List.rdropWhile_concat_pos _ _ _ rfl
  · nth_rewrite 1 [h]
    rw [List.append_cons, List.rdropWhile_concat_pos _ _ _ rfl, List.rdropWhile_concat_pos _ _ _ rfl]

/-- The row of a line is its text exactly if that is a string which does not end in a carriage return. -/
theorem rowOf_eq_lineText (hl : newline ∉ l.dropLast) :
    rowOf l = lineText l ↔ 0 ∉ l ∧ (lineText l).getLast? ≠ some carriageReturn := by
  constructor
  · intro h
    have hzero : 0 ∉ lineText l := h ▸ not_mem_rowOf l
    refine ⟨fun hmem => ?_, fun hlast => ?_⟩
    · rcases lineText_append l with he | he | he <;> rw [he] at hmem
      · exact hzero hmem
      · rcases List.mem_append.mp hmem with h | h
        · exact hzero h
        · revert h
          decide
      · rcases List.mem_append.mp hmem with h | h
        · exact hzero h
        · revert h
          decide
    · have hne : (cString l).rdropWhile isLineEnd ≠ [] := by
        intro hnil
        rw [← h, rowOf, hnil] at hlast
        cases hlast
      apply List.rdropWhile_last_not isLineEnd (cString l) hne
      rw [← h, rowOf, List.getLast?_eq_some_getLast hne] at hlast
      rw [Option.some.inj hlast]
      rfl
  · rintro ⟨hzero, hlast⟩
    have hstring : cString l = l := by
      apply List.takeWhile_eq_self_iff.mpr
      intro c hc
      exact bne_iff_ne.mpr fun h => hzero (h ▸ hc)
    rw [rowOf, hstring, rdropWhile_lineText, List.rdropWhile_eq_self_iff]
    intro hne hend
    rcases Bool.or_eq_true_iff.mp hend with hc | hc
    · exact newline_not_mem_lineText hl (eq_of_beq hc ▸ List.getLast_mem hne)
    · exact hlast (by rw [List.getLast?_eq_some_getLast hne, eq_of_beq hc])

theorem length_lineText_le (l : Bytes) : (lineText l).length ≤ l.length := by
  rcases lineText_append l with h | h | h <;> nth_rewrite 2 [h] <;> simp

end LineText

/-- The rows of a file are its lines exactly if every line fits into the buffer with its line end, has no NUL, and has no
carriage return before its line end. -/
theorem rows_are_lines (file : Bytes) :
    RowsAreLines file ↔ ∀ l ∈ fileLines file,
      l.length < csvMaxLine ∧ 0 ∉ l ∧ (lineText l).getLast? ≠ some carriageReturn := by
  have hlines : ∀ l ∈ fileLines file, newline ∉ l.dropLast := fun l hl => (not_mem_dropLast_of_mem_lines hl).2
  obtain ⟨hfit, hsplit⟩ := pieces_of_lines newline 1022 1022 file
  rw [fits_self] at hfit hsplit
  constructor
  · rintro ⟨-, hrows, -⟩
    rw [load_rows] at hrows
    have hlen : ∀ l ∈ fileLines file, l.length ≤ 1022 + 1 := by
      by_contra hlong
      have hlt := hsplit hlong
      have heq := congrArg List.length hrows
      rw [List.length_map, List.length_map] at heq
      exact absurd heq hlt.ne'
    rw [reads, hfit hlen] at hrows
    intro l hl
    have hrow : rowOf l = (lineText l).take csvMaxLine := List.map_inj_left.mp hrows l hl
    have hle : (lineText l).length ≤ 1022 + 1 := (length_lineText_le l).trans (hlen l hl)
    rw [List.take_of_length_le (hle.trans (by decide))] at hrow
    exact ⟨Nat.lt_succ_of_le (hlen l hl), (rowOf_eq_lineText (hlines l hl)).mp hrow⟩
  · intro h
    have hlen : ∀ l ∈ fileLines file, l.length ≤ 1022 + 1 := fun l hl => Nat.le_of_lt_succ (h l hl).1
    have hshort : ∀ l ∈ fileLines file, (lineText l).length ≤ csvMaxLine := fun l hl =>
      ((length_lineText_le l).trans (hlen l hl)).trans (by decide)
    refine ⟨fun line sizes => ?_, ?_, ?_⟩
    · rw [nexts_rows, load_rows, List.map_take]
      rfl
    · rw [load_rows, reads, hfit hlen]
      apply List.map_congr_left
      intro l hl
      rw [List.take_of_length_le (hshort l hl)]
      exact (rowOf_eq_lineText (hlines l hl)).mpr (h l hl).2
    · have hnone : (fileLines file).countP (fun l => csvMaxLine < (lineText l).length) = 0 := by
        apply List.countP_eq_zero.mpr
        intro l hl
        simpa using hshort l hl
      rw [hnone]
      rfl

/-- A line of 1023 bytes and its line end are two rows. -/
theorem long_line_is_two_rows : ¬ RowsAreLines (List.replicate 1023 97 ++ [newline]) := by
  intro h
  have hrows := congrArg List.length h.rows
  revert hrows
  decide +kernel

end Fluxa.StdCsv
