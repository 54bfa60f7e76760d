import Mathlib.Data.List.Basic
import Mathlib.Data.List.DropRight
import Mathlib.Data.List.TakeWhile
import Mathlib.Data.List.Infix
import Mathlib.Data.Int.Order.Basic
import Mathlib.Algebra.Group.Int.Defs
import Mathlib.Algebra.Group.Nat.Defs

/-! Text of header fields, as in RFC 9112: lines that end in CR LF, fields that may go on in lines that begin with a
blank, and decimal numbers in them. -/

namespace HeaderText

abbrev Bytes := List UInt8

def crlf : Bytes := [13, 10]

/-- Where `needle` first occurs. -/
def find (needle : Bytes) : Bytes → Option ℕ
  | [] => none
  | b :: bs => if needle <+: b :: bs then some 0 else (find needle bs).map (· + 1)

section Find

variable {needle s : Bytes} {i : ℕ}

theorem find_eq_some (h : find needle s = some i) :
    needle <+: s.drop i ∧ i + needle.length ≤ s.length ∧ ∀ k < i, ¬ needle <+: s.drop k := by
  induction s generalizing i with
  | nil => cases h
  | cons b bs ih =>
    rw [find] at h
    split at h
    · rename_i hp
      cases h
      exact ⟨hp, by simpa using hp.length_le, fun k hk => absurd hk (Nat.not_lt_zero k)⟩
    · rename_i hp
      obtain ⟨j, hj, rfl⟩ := Option.map_eq_some_iff.mp h
      obtain ⟨hpre, hlen, hfirst⟩ := ih hj
      refine ⟨hpre, by rw [List.length_cons]; omega, ?_⟩
      intro k hk
      cases k with
      | zero => exact hp
      | succ k => exact hfirst k (by omega)

theorem find_eq_none (hn : needle ≠ []) : find needle s = none ↔ ¬ needle <:+: s := by
  induction s with
  | nil => simp [find, hn]
  | cons b bs ih =>
    rw [find, List.infix_cons_iff]
    split
    · rename_i hp
      simp [hp]
    · rename_i hp
      simp [hp, ih]

/-- Of a first part of the text it is enough to know that it holds the occurrence. -/
theorem find_take (hn : needle ≠ []) (n : ℕ) :
    find needle (s.take n) = some i ↔ find needle s = some i ∧ i + needle.length ≤ n := by
  have hlen := List.length_pos_of_ne_nil hn
  induction s generalizing n i with
  | nil => simp [find]
  | cons b bs ih =>
    cases n with
    | zero =>
      simp only [List.take_zero, find, reduceCtorEq, false_iff, not_and]
      omega
    | succ n =>
      have hpre : needle <+: b :: bs.take n ↔ needle <+: b :: bs ∧ needle.length ≤ n + 1 := by
        rw [← List.take_succ_cons]
        exact List.prefix_take_iff
      rw [List.take_succ_cons, find, find]
      by_cases hp : needle <+: b :: bs
      · rw [if_pos hp]
        by_cases hle : needle.length ≤ n + 1
        · rw [if_pos (hpre.mpr ⟨hp, hle⟩)]
          constructor
          · intro h
            cases h
            exact ⟨rfl, by omega⟩
          · exact fun h => h.1
        · rw [if_neg fun h => hle (hpre.mp h).2]
          constructor
          · intro h
            obtain ⟨j, hj, rfl⟩ := Option.map_eq_some_iff.mp h
            have := ((ih n).mp hj).2
            omega
          · rintro ⟨h, hi⟩
            cases h
            omega
      · rw [if_neg hp, if_neg fun h => hp (hpre.mp h).1]
        constructor
        · intro h
          obtain ⟨j, hj, rfl⟩ := Option.map_eq_some_iff.mp h
          obtain ⟨hj, hle⟩ := (ih n).mp hj
          exact ⟨Option.map_eq_some_iff.mpr ⟨j, hj, rfl⟩, by omega⟩
        · rintro ⟨h, hi⟩
          obtain ⟨j, hj, rfl⟩ := Option.map_eq_some_iff.mp h
          exact Option.map_eq_some_iff.mpr ⟨j, (ih n).mpr ⟨hj, by omega⟩, rfl⟩

end Find

/-- What comes after each CR LF. -/
def lineStarts : Bytes → List Bytes
  | [] => []
  | b :: bs => if crlf <+: b :: bs then bs.tail :: lineStarts bs else lineStarts bs

/-- The first line. -/
def takeLine : Bytes → Bytes
  | [] => []
  | b :: bs => if crlf <+: b :: bs then [] else b :: takeLine bs

section Lines

variable {p s : Bytes} {i : ℕ}

theorem prefix_crlf_append {b : UInt8} {bs : Bytes} : crlf ++ p <+: b :: bs ↔ crlf <+: b :: bs ∧ p <+: bs.tail := by
  cases bs with
  | nil => simp [crlf, List.cons_prefix_cons]
  | cons c cs => simp [crlf, List.cons_prefix_cons, and_assoc]

theorem find_line_eq_none : find (crlf ++ p) s = none ↔ ∀ t ∈ lineStarts s, ¬ p <+: t := by
  induction s with
  | nil => simp [find, lineStarts]
  | cons b bs ih =>
    rw [find, lineStarts]
    by_cases hb : crlf <+: b :: bs
    · by_cases hp : p <+: bs.tail
      · simp [prefix_crlf_append, hb, hp]
      · simp [prefix_crlf_append, hb, hp, ih]
    · simp [prefix_crlf_append, hb, ih]

theorem find_line_eq_some (h : find (crlf ++ p) s = some i) : s.drop (i + 2) ∈ lineStarts s ∧ p <+: s.drop (i + 2) := by
  induction s generalizing i with
  | nil => cases h
  | cons b bs ih =>
    rw [find] at h
    rw [lineStarts]
    by_cases hb : crlf ++ p <+: b :: bs
    · rw [if_pos hb] at h
      cases h
      obtain ⟨hb, hp⟩ := prefix_crlf_append.mp hb
      rw [if_pos hb, List.drop_succ_cons, List.drop_one]
      exact ⟨List.mem_cons_self, hp⟩
    · rw [if_neg hb] at h
      obtain ⟨j, hj, rfl⟩ := Option.map_eq_some_iff.mp h
      obtain ⟨hmem, hp⟩ := ih hj
      refine ⟨?_, hp⟩
      split
      · exact List.mem_cons_of_mem _ hmem
      · exact hmem

theorem takeLine_isPrefixOf (s : Bytes) : takeLine s <+: s := by
  induction s with
  | nil => exact List.nil_prefix
  | cons b bs ih =>
    rw [takeLine]
    split
    · exact List.nil_prefix
    · exact List.cons_prefix_cons.mpr ⟨rfl, ih⟩

end Lines

def isBlank (b : UInt8) : Bool := b == 32 || b == 9

def startsBlank (s : Bytes) : Bool := s.head?.any isBlank

/-- A line with the lines that continue it. -/
def logical : Bytes → Bytes
  | [] => []
  | [b] => [b]
  | b :: c :: rest =>
    if b = 13 ∧ c = 10 then if startsBlank rest then logical rest else []
    else b :: logical (c :: rest)

/-- The fields of a header: every line after the first that does not continue another. -/
def fields (s : Bytes) : List Bytes := ((lineStarts s).filter fun t => !startsBlank t).map logical

def trim (s : Bytes) : Bytes := (s.dropWhile isBlank).rdropWhile isBlank

/-- The name of a field, also if there are blanks before the colon. -/
def fieldName (f : Bytes) : Bytes := trim (f.takeWhile (· != 58))

def isDigit (b : UInt8) : Bool := 48 ≤ b && b ≤ 57

def digitsValue (ds : Bytes) : ℕ := ds.foldl (fun n d => 10 * n + (d.toNat - 48)) 0

/-- A number is one or more digits. -/
def number (s : Bytes) : Option ℕ := if s ≠ [] ∧ s.all isDigit then some (digitsValue s) else none

/-- The elements of a list that is separated by commas. -/
def elements (v : Bytes) : List Bytes := (v.splitOn 44).map trim

def isSpace (b : UInt8) : Bool := b == 32 || (9 ≤ b && b ≤ 13)

def signedValue : Bytes → ℤ
  | 45 :: s => max (-2 ^ 63) (-(digitsValue (s.takeWhile isDigit) : ℤ))
  | 43 :: s => min (2 ^ 63 - 1) (digitsValue (s.takeWhile isDigit) : ℤ)
  | s => min (2 ^ 63 - 1) (digitsValue (s.takeWhile isDigit) : ℤ)

/-- `strtol` in base ten, for numbers of 64 bits. -/
def strtol (s : Bytes) : ℤ := signedValue (s.dropWhile isSpace)

section Logical

theorem logical_cons {b : UInt8} {bs : Bytes} (h : ¬ crlf <+: b :: bs) : logical (b :: bs) = b :: logical bs := by
  cases bs with
  | nil => rfl
  | cons c rest =>
    have h : ¬(b = 13 ∧ c = 10) := by
      rintro ⟨rfl, rfl⟩
      exact h ⟨rest, rfl⟩
    rw [logical, if_neg h]

theorem logical_crlf (rest : Bytes) : logical (13 :: 10 :: rest) = if startsBlank rest then logical rest else [] := by
  rw [logical, if_pos ⟨rfl, rfl⟩]

theorem not_prefix_crlf {b : UInt8} (h : b ≠ 13) (bs : Bytes) : ¬ crlf <+: b :: bs := by
  rintro ⟨rest, hrest⟩
  cases hrest
  exact h rfl

theorem ne_cr_of_isBlank {b : UInt8} (h : isBlank b) : b ≠ 13 := by
  rintro rfl
  cases h

theorem isDigit_of_isBlank {b : UInt8} (h : isBlank b) : isDigit b = false := by
  rcases Bool.or_eq_true_iff.mp h with h | h <;> rw [beq_iff_eq.mp h] <;> rfl

theorem isSpace_of_isBlank {b : UInt8} (h : isBlank b) : isSpace b := by
  rcases Bool.or_eq_true_iff.mp h with h | h <;> rw [beq_iff_eq.mp h] <;> rfl

/-- No number is continued in another line. -/
theorem takeWhile_logical (s : Bytes) : (logical s).takeWhile isDigit = s.takeWhile isDigit := by
  induction s with
  | nil => rfl
  | cons b bs ih =>
    by_cases hb : crlf <+: b :: bs
    · obtain ⟨rest, h⟩ := hb
      cases h
      change (logical (13 :: 10 :: rest)).takeWhile isDigit = []
      rw [logical_crlf]
      cases rest with
      | nil => rfl
      | cons w rest =>
        by_cases hw : startsBlank (w :: rest)
        · have hw' : isBlank w := by simpa [startsBlank] using hw
          rw [if_pos hw, logical_cons (not_prefix_crlf (ne_cr_of_isBlank hw') rest),
            List.takeWhile_cons_of_neg (by simp [isDigit_of_isBlank hw'])]
        · rw [if_neg hw]
          rfl
    · rw [logical_cons hb, List.takeWhile_cons, List.takeWhile_cons, ih]

theorem logical_append {p : Bytes} (hp : 13 ∉ p) (r : Bytes) : logical (p ++ r) = p ++ logical r := by
  induction p with
  | nil => rfl
  | cons b p ih =>
    obtain ⟨hb, hp⟩ := not_or.mp (mt List.mem_cons.mpr hp)
    rw [List.cons_append, logical_cons (not_prefix_crlf (Ne.symm hb) _), ih hp, List.cons_append]

/-- A text without blanks does not go over the end of a line. -/
theorem prefix_of_logical {p s : Bytes} (hp : ∀ b ∈ p, ¬ isBlank b) (h : p <+: logical s) : p <+: s := by
  induction s generalizing p with
  | nil => exact h
  | cons b bs ih =>
    cases p with
    | nil => exact List.nil_prefix
    | cons c p =>
      have hc : ¬ isBlank c := hp c List.mem_cons_self
      by_cases hb : crlf <+: b :: bs
      · exfalso
        obtain ⟨rest, hrest⟩ := hb
        cases hrest
        change c :: p <+: logical (13 :: 10 :: rest) at h
        rw [logical_crlf] at h
        cases rest with
        | nil => simp [startsBlank] at h
        | cons w rest =>
          split at h
          · rename_i hw
            have hw : isBlank w := by simpa [startsBlank] using hw
            rw [logical_cons (not_prefix_crlf (ne_cr_of_isBlank hw) rest)] at h
            obtain ⟨rfl, -⟩ := List.cons_prefix_cons.mp h
            exact hc hw
          · simp at h
      · rw [logical_cons hb] at h
        obtain ⟨rfl, hrest⟩ := List.cons_prefix_cons.mp h
        exact List.cons_prefix_cons.mpr ⟨rfl, ih (fun b hb => hp b (List.mem_cons_of_mem _ hb)) hrest⟩

end Logical

section Numbers

variable {s : Bytes} {n : ℕ}

theorem number_eq_some (h : number s = some n) : s ≠ [] ∧ (∀ d ∈ s, isDigit d) ∧ digitsValue s = n := by
  unfold number at h
  split_ifs at h with hs
  exact ⟨hs.1, List.all_eq_true.mp hs.2, Option.some.inj h⟩

/-- A number with blanks after it. -/
theorem takeWhile_of_number (h : number (s.rdropWhile isBlank) = some n) : digitsValue (s.takeWhile isDigit) = n := by
  obtain ⟨-, hd, hn⟩ := number_eq_some h
  have hblank : (s.rtakeWhile isBlank).takeWhile isDigit = [] := by
    cases hr : s.rtakeWhile isBlank with
    | nil => rfl
    | cons b bs =>
      have hb : isBlank b := List.mem_rtakeWhile_imp (hr ▸ List.mem_cons_self)
      exact List.takeWhile_cons_of_neg (by simp [isDigit_of_isBlank hb])
  have hs : s.takeWhile isDigit = s.rdropWhile isBlank := by
    conv_lhs => rw [← List.rdropWhile_append_rtakeWhile (p := isBlank) (l := s)]
    rw [List.takeWhile_append_of_pos hd, hblank, List.append_nil]
  rw [hs, hn]

theorem takeWhile_comma (v : Bytes) : (v.takeWhile (· != 44)).takeWhile isDigit = v.takeWhile isDigit := by
  induction v with
  | nil => rfl
  | cons b bs ih =>
    by_cases hb : b = 44
    · subst hb
      rfl
    · rw [List.takeWhile_cons_of_pos (by simpa using hb), List.takeWhile_cons, List.takeWhile_cons, ih]

theorem strtol_cons_space {b : UInt8} (h : isSpace b) (bs : Bytes) : strtol (b :: bs) = strtol bs := by
  unfold strtol
  rw [List.dropWhile_cons_of_pos h]

theorem isSpace_of_isDigit {b : UInt8} (h : isDigit b) : isSpace b = false := by
  simp only [isDigit, isSpace, Bool.and_eq_true, decide_eq_true_eq, Bool.or_eq_false_iff, beq_eq_false_iff_ne,
    UInt8.le_iff_toNat_le, ne_eq, ← UInt8.toNat_inj] at h ⊢
  simp at h ⊢
  omega

theorem strtol_cons_digit {b : UInt8} (h : isDigit b) (bs : Bytes) :
    strtol (b :: bs) = min (2 ^ 63 - 1) (digitsValue ((b :: bs).takeWhile isDigit) : ℤ) := by
  unfold strtol
  rw [List.dropWhile_cons_of_neg (by simp [isSpace_of_isDigit h])]
  unfold signedValue
  split
  · rename_i heq
    cases heq
    cases h
  · rename_i heq
    cases heq
    cases h
  · rfl

/-- A number begins with a digit. -/
theorem isDigit_of_number {b : UInt8} {bs : Bytes} (h : number ((b :: bs).rdropWhile isBlank) = some n) : isDigit b := by
  obtain ⟨hne, hd, -⟩ := number_eq_some h
  obtain ⟨d, ds, hds⟩ := List.exists_cons_of_ne_nil hne
  have hpre : d :: ds <+: b :: bs := hds ▸ List.rdropWhile_prefix isBlank _
  obtain ⟨rfl, -⟩ := List.cons_prefix_cons.mp hpre
  exact hd d (hds ▸ List.mem_cons_self)

theorem strtol_eq_number_cons {b : UInt8} {bs : Bytes} (hb : ¬ crlf <+: b :: bs)
    (ih : number (trim ((logical bs).takeWhile (· != 44))) = some n → strtol bs = min (2 ^ 63 - 1) (n : ℤ))
    (h : number (trim ((logical (b :: bs)).takeWhile (· != 44))) = some n) :
    strtol (b :: bs) = min (2 ^ 63 - 1) (n : ℤ) := by
  have hlog := logical_cons hb
  by_cases hcomma : b = 44
  · subst hcomma
    rw [hlog] at h
    cases h
  have htake : (logical (b :: bs)).takeWhile (· != 44) = b :: (logical bs).takeWhile (· != 44) := by
    rw [hlog, List.takeWhile_cons_of_pos (by simpa using hcomma)]
  by_cases hblank : isBlank b
  · rw [htake, trim, List.dropWhile_cons_of_pos hblank] at h
    rw [strtol_cons_space (isSpace_of_isBlank hblank)]
    exact ih h
  · rw [htake, trim, List.dropWhile_cons_of_neg hblank] at h
    have hvalue := takeWhile_of_number h
    rw [← htake, takeWhile_comma, takeWhile_logical] at hvalue
    rw [strtol_cons_digit (isDigit_of_number h), hvalue]

/-- The number at the start of a field, before a comma if there is one. -/
theorem strtol_eq_number (h : number (trim ((logical s).takeWhile (· != 44))) = some n) :
    strtol s = min (2 ^ 63 - 1) (n : ℤ) := by
  induction s using logical.induct with
  | case1 => cases h
  | case2 b => exact strtol_eq_number_cons (by simp [crlf]) (fun h => nomatch h) h
  | case3 b c rest hcr hblank ih =>
    obtain ⟨rfl, rfl⟩ := hcr
    rw [logical_crlf, if_pos hblank] at h
    rw [strtol_cons_space rfl, strtol_cons_space rfl]
    exact ih h
  | case4 b c rest hcr hblank =>
    obtain ⟨rfl, rfl⟩ := hcr
    rw [logical_crlf, if_neg hblank] at h
    cases h
  | case5 b c rest hcr ih =>
    refine strtol_eq_number_cons ?_ ih h
    rintro ⟨tail, htail⟩
    cases htail
    exact hcr ⟨rfl, rfl⟩

theorem elements_eq_cons (v : Bytes) : ∃ es, elements v = trim (v.takeWhile (· != 44)) :: es := by
  have h : ∃ ls, v.splitOn 44 = v.takeWhile (· != 44) :: ls := by
    induction v with
    | nil => exact ⟨[], rfl⟩
    | cons b bs ih =>
      obtain ⟨ls, hls⟩ := ih
      rw [List.splitOn_cons_eq_if_modifyHead, hls]
      by_cases hb : b = 44
      · subst hb
        exact ⟨_, rfl⟩
      · refine ⟨ls, ?_⟩
        rw [if_neg (by simpa using hb), List.takeWhile_cons_of_pos (by simpa using hb), List.modifyHead_cons]
  obtain ⟨ls, hls⟩ := h
  exact ⟨ls.map trim, by rw [elements, hls, List.map_cons]⟩

end Numbers

end HeaderText
