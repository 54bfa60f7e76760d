import Fluxa.Base.HeaderText
import Fluxa.StdLib

/-! The lexer (`lexer.c`). A source text is a C string, so it holds no NUL; its length is taken to fit an `int`. -/

namespace Fluxa.Lex

open StdLib
open HeaderText (isSpace isDigit)

/-- `TokenType`. -/
inductive TokenType where
  | int | float | string | bool | ident
  | fn | return | nil | if | else | while | for | import | block | typeof | prst | free | danger | err
  | typeInt | typeFloat | typeStr | typeBool | typeChar | typeArr | typeDyn
  | lparen | rparen | lbrace | rbrace | lbracket | rbracket | comma | dot | eq
  | neq | eqeq | lt | gt | lte | gte | plus | minus | star | slash | percent
  | and | or | not
  | eof | error
  deriving DecidableEq

/-- `Token`: the text of a number, a string, a word or an operator, or the message of an error. -/
structure RawToken where
  type : TokenType
  value : Bytes
  line : ℕ
  deriving DecidableEq

/-- `Lexer`: what is left of the source text, and the number of the line. -/
structure Lexer where
  rest : Bytes
  line : ℕ
  deriving DecidableEq

namespace Lexer

/-- The lexer further on in the text, with the newlines on the way counted. -/
def advanceTo (l : Lexer) (rest : Bytes) : Lexer := ⟨rest, l.line + (l.rest.count 10 - rest.count 10)⟩

def skip (l : Lexer) (p : UInt8 → Bool) : Lexer := l.advanceTo (l.rest.dropWhile p)

theorem length_skip_le (l : Lexer) (p : UInt8 → Bool) : (l.skip p).rest.length ≤ l.rest.length :=
  (List.dropWhile_suffix p).length_le

/-- Behind blanks and comments. -/
def restart (l : Lexer) : Lexer :=
  match _h : (l.skip isSpace).rest with
  | 47 :: 47 :: _ => restart (((l.skip isSpace).advanceTo ((l.skip isSpace).rest.drop 2)).skip (· != 10))
  | _ => l.skip isSpace
termination_by l.rest.length
decreasing_by
  have hskip := l.length_skip_le isSpace
  have hcomment := ((l.skip isSpace).advanceTo ((l.skip isSpace).rest.drop 2)).length_skip_le (· != 10)
  have hdrop : ((l.skip isSpace).advanceTo ((l.skip isSpace).rest.drop 2)).rest.length = (l.skip isSpace).rest.length - 2 :=
    List.length_drop
  have hpos : 0 < (l.skip isSpace).rest.length := by
    rw [_h]
    exact Nat.succ_pos _
  omega

end Lexer

section Tokens

def unescape (esc : UInt8) : UInt8 := if esc = 110 then 10 else if esc = 116 then 9 else esc

/-- The characters up to a quotation mark, with the escapes undone, and the text from there on. A backslash at the end of
the text takes the NUL behind it. -/
def scanString : Bytes → Bytes × Bytes
  | [] => ([], [])
  | c :: r =>
    if c = 34 then ([], c :: r)
    else if c = 92 then
      match r with
      | [] => ([0], [])
      | esc :: r =>
        match scanString r with
        | (s, q) => (unescape esc :: s, q)
    else
      match scanString r with
      | (s, q) => (c :: s, q)

/-- Characters that `buf` of a string has room for. -/
def maxString : ℕ := 4095

def maxNumber : ℕ := 63

def maxWord : ℕ := 255

def isNumberChar (c : UInt8) : Bool := isDigit c || c == 46

/-- `isalpha` in the C locale. -/
def isAlpha (c : UInt8) : Bool := (65 ≤ c && c ≤ 90) || (97 ≤ c && c ≤ 122)

def isWordStart (c : UInt8) : Bool := isAlpha c || c == 95

def isWordChar (c : UInt8) : Bool := isAlpha c || isDigit c || c == 95

def keywords : List (String × TokenType) :=
  [("fn", .fn), ("return", .return), ("nil", .nil), ("if", .if), ("else", .else), ("while", .while), ("for", .for),
    ("import", .import), ("Block", .block), ("typeof", .typeof), ("prst", .prst), ("free", .free), ("danger", .danger),
    ("err", .err), ("true", .bool), ("false", .bool), ("int", .typeInt), ("float", .typeFloat), ("str", .typeStr),
    ("bool", .typeBool), ("char", .typeChar), ("arr", .typeArr), ("dyn", .typeDyn)]

def wordType (text : Bytes) : TokenType := ((keywords.find? fun k => ascii k.1 == text).map (·.2)).getD .ident

def operator2 (c d : UInt8) : Option TokenType :=
  if c = 33 ∧ d = 61 then some .neq
  else if c = 61 ∧ d = 61 then some .eqeq
  else if c = 60 ∧ d = 61 then some .lte
  else if c = 62 ∧ d = 61 then some .gte
  else if c = 38 ∧ d = 38 then some .and
  else if c = 124 ∧ d = 124 then some .or
  else none

def operator1 (c : UInt8) : Option TokenType :=
  [(33, .not), (40, .lparen), (41, .rparen), (123, .lbrace), (125, .rbrace), (91, .lbracket), (93, .rbracket), (44, .comma),
    (46, .dot), (61, .eq), (60, .lt), (62, .gt), (43, .plus), (45, .minus), (42, .star), (47, .slash),
    (37, .percent)].lookup c

end Tokens

/-- `lexer_next`. -/
def lexerNext (l : Lexer) : RawToken × Lexer :=
  let l := l.restart
  match l.rest with
  | [] => (⟨.eof, [], l.line⟩, l)
  | c :: r =>
    if c = 34 then
      match scanString r with
      | (s, 34 :: r') => (⟨.string, s.take maxString, l.line⟩, l.advanceTo r')
      | (_, r') => (⟨.error, ascii "unterminated string literal", l.line⟩, l.advanceTo r')
    else if isDigit c then
      let more := r.takeWhile isNumberChar
      (⟨if 46 ∈ more then .float else .int, (c :: more).take maxNumber, l.line⟩, l.advanceTo (r.dropWhile isNumberChar))
    else if isWordStart c then
      let text := (c :: r.takeWhile isWordChar).take maxWord
      (⟨wordType text, text, l.line⟩, l.advanceTo (r.dropWhile isWordChar))
    else
      match r.head?.bind (operator2 c) with
      | some t => (⟨t, c :: r.take 1, l.line⟩, l.advanceTo r.tail)
      | none =>
        match operator1 c with
        | some t => (⟨t, [c], l.line⟩, l.advanceTo r)
        | none => (⟨.error, ascii "unexpected char '" ++ [c] ++ ascii "'", l.line⟩, l.advanceTo r)

section Strings

/-- A string literal: quotation marks, backslashes, newlines and tabs are written with a backslash. -/
def writeChar (c : UInt8) : Bytes :=
  if c = 34 then [92, 34] else if c = 92 then [92, 92] else if c = 10 then [92, 110] else if c = 9 then [92, 116] else [c]

def literal (s : Bytes) : Bytes := 34 :: (s.flatMap writeChar ++ [34])

theorem scanString_backslash (esc : UInt8) (r : Bytes) :
    scanString (92 :: esc :: r) = (unescape esc :: (scanString r).1, (scanString r).2) := by
  rw [scanString.eq_def]
  rfl

theorem scanString_plain {c : UInt8} (hq : c ≠ 34) (hb : c ≠ 92) (r : Bytes) :
    scanString (c :: r) = (c :: (scanString r).1, (scanString r).2) := by
  rw [scanString.eq_def]
  dsimp only
  rw [if_neg hq, if_neg hb]

theorem scanString_quotation (r : Bytes) : scanString (34 :: r) = ([], 34 :: r) := by
  rw [scanString.eq_def]
  exact if_pos rfl

theorem scanString_writeChar (c : UInt8) (r : Bytes) :
    scanString (writeChar c ++ r) = (c :: (scanString r).1, (scanString r).2) := by
  rw [writeChar]
  split
  · rename_i h
    rw [h]
    exact scanString_backslash 34 r
  · rename_i hq
    split
    · rename_i h
      rw [h]
      exact scanString_backslash 92 r
    · rename_i hb
      split
      · rename_i h
        rw [h]
        exact scanString_backslash 110 r
      · split
        · rename_i h
          rw [h]
          exact scanString_backslash 116 r
        · exact scanString_plain hq hb r

theorem scanString_literal (s rest : Bytes) : scanString (s.flatMap writeChar ++ 34 :: rest) = (s, 34 :: rest) := by
  induction s with
  | nil => exact scanString_quotation rest
  | cons c s ih => rw [List.flatMap_cons, List.append_assoc, scanString_writeChar, ih]

theorem restart_of_head {l : Lexer} {c : UInt8} {r : Bytes} (h : l.rest = c :: r) (hc : isSpace c = false) (hne : c ≠ 47) :
    l.restart = l := by
  have hskip : l.skip isSpace = l := by
    rw [Lexer.skip, Lexer.advanceTo, h, List.dropWhile_cons_of_neg (by rw [hc]; exact Bool.false_ne_true), ← h, Nat.sub_self]
    rfl
  rw [Lexer.restart.eq_def]
  split
  · rename_i r' h'
    rw [hskip, h] at h'
    exact absurd (List.cons.inj h').1 hne
  · exact hskip

theorem newlines_literal (s : Bytes) : (s.flatMap writeChar).count 10 = 0 := by
  rw [List.count_eq_zero]
  intro h
  obtain ⟨c, -, hc⟩ := List.mem_flatMap.mp h
  revert hc
  exact forall_byte (P := fun c => 10 ∉ writeChar c) (by decide +kernel) c

/-- What a literal is read as: a token with as much of the string as the buffer has room for, and the lexer stands behind
the closing quotation mark. -/
theorem lexerNext_literal (s rest : Bytes) (line : ℕ) :
    lexerNext ⟨literal s ++ rest, line⟩ = (⟨.string, s.take maxString, line⟩, ⟨rest, line⟩) := by
  have htext : literal s ++ rest = 34 :: (s.flatMap writeChar ++ 34 :: rest) := by simp [literal]
  have hline : (34 :: (s.flatMap writeChar ++ 34 :: rest)).count 10 - rest.count 10 = 0 := by
    rw [List.count_cons, List.count_append, newlines_literal, List.count_cons]
    simp
  rw [htext, lexerNext, restart_of_head rfl (by decide) (by decide)]
  have hto : (⟨34 :: (s.flatMap writeChar ++ 34 :: rest), line⟩ : Lexer).advanceTo rest = ⟨rest, line⟩ := by
    rw [Lexer.advanceTo, hline]
    rfl
  dsimp only [Lexer.rest]
  rw [if_pos rfl, scanString_literal]
  exact Prod.ext rfl hto

/-- A literal is one string token whose value is the string. -/
def Lossless (s : Bytes) : Prop :=
  ∀ rest line, lexerNext ⟨literal s ++ rest, line⟩ = (⟨.string, s, line⟩, ⟨rest, line⟩)

/-- Exactly the strings of at most 4095 bytes come through a literal. -/
theorem literal_lossless_iff (s : Bytes) : Lossless s ↔ s.length ≤ maxString := by
  rw [← List.take_eq_self_iff]
  constructor
  · intro h
    have htoken := congrArg (fun r => r.1.value) ((lexerNext_literal s [] 1).symm.trans (h [] 1))
    exact htoken
  · intro h rest line
    rw [lexerNext_literal, h]

/-- A string of 4096 letters loses the last one. -/
theorem long_literal_is_cut : 0 ∉ List.replicate 4096 (97 : UInt8) ∧ ¬ Lossless (List.replicate 4096 97) ∧
    (lexerNext ⟨literal (List.replicate 4096 97), 1⟩).1.value = List.replicate 4095 97 := by
  refine ⟨fun h => ?_, fun h => ?_, ?_⟩
  · exact absurd (List.eq_of_mem_replicate h) (by decide)
  · have hlen := (literal_lossless_iff _).mp h
    rw [List.length_replicate] at hlen
    exact absurd hlen (by decide)
  · have hlex := lexerNext_literal (List.replicate 4096 97) [] 1
    rw [List.append_nil] at hlex
    rw [hlex, List.take_replicate]
    rfl

end Strings

end Fluxa.Lex
