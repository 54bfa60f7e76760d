import Mathlib.Data.Rat.Defs
import Mathlib.Algebra.Order.Field.Rat
import Mathlib.Tactic.Common
import Fluxa.Base.HeaderText

/-! JSON texts after RFC 8259: which bytes are a document, and what it denotes. The grammar is read over bytes, and a
document is UTF-8 besides. -/

namespace Json

open HeaderText (Bytes isDigit digitsValue)

/-- What a document denotes. A number without fraction and exponent is an integer. -/
inductive Value where
  | null
  | bool (b : Bool)
  | int (i : ℤ)
  | real (q : ℚ)
  | string (s : Bytes)
  | array (vs : List Value)
  | object (ms : List (Bytes × Value))

section Tokens

def isWs (b : UInt8) : Bool := b == 32 || b == 9 || b == 10 || b == 13

def quotation : UInt8 := 34

def backslash : UInt8 := 92

def Digits (ds : Bytes) : Prop := ds ≠ [] ∧ ∀ d ∈ ds, isDigit d

/-- `[ minus ] int [ frac ] [ exp ]`. An exponent is the letter, a sign that may be missing, and digits. -/
structure Number where
  minus : Bool
  int : Bytes
  frac : Option Bytes
  exp : Option (UInt8 × Option Bool × Bytes)

namespace Number

/-- No zero in front of other digits. -/
structure WellFormed (n : Number) : Prop where
  int : Digits n.int
  noZero : n.int.head? = some 48 → n.int = [48]
  frac : ∀ ds ∈ n.frac, Digits ds
  exp : ∀ e ∈ n.exp, (e.1 = 101 ∨ e.1 = 69) ∧ Digits e.2.2

def fracText (n : Number) : Bytes := n.frac.elim [] (46 :: ·)

/-- The sign of an exponent: plus or minus. -/
def signText : Option Bool → Bytes
  | none => []
  | some true => [45]
  | some false => [43]

def expText (n : Number) : Bytes := n.exp.elim [] fun e => e.1 :: (signText e.2.1 ++ e.2.2)

def text (n : Number) : Bytes := (if n.minus then [45] else []) ++ n.int ++ n.fracText ++ n.expText

/-- The power of ten. -/
def exponent (n : Number) : ℤ :=
  n.exp.elim 0 fun e => if e.2.1 = some true then -(digitsValue e.2.2 : ℤ) else digitsValue e.2.2

def sign (n : Number) : ℤ := if n.minus then -1 else 1

/-- The number without its sign. -/
def absolute (n : Number) : ℚ :=
  (digitsValue n.int + (n.frac.elim 0 fun ds => (digitsValue ds : ℚ) / 10 ^ ds.length)) * (10 : ℚ) ^ n.exponent

def rational (n : Number) : ℚ := n.sign * n.absolute

def isInt (n : Number) : Bool := n.frac.isNone && n.exp.isNone

def value (n : Number) : Value := if n.isInt then .int (n.sign * digitsValue n.int) else .real n.rational

end Number

def hexDigit (b : UInt8) : Option ℕ :=
  if 48 ≤ b ∧ b ≤ 57 then some (b.toNat - 48)
  else if 65 ≤ b ∧ b ≤ 70 then some (b.toNat - 55)
  else if 97 ≤ b ∧ b ≤ 102 then some (b.toNat - 87)
  else none

/-- Four hexadecimal digits. -/
def hex4 (a b c d : UInt8) : Option ℕ := do
  return 4096 * (← hexDigit a) + 256 * (← hexDigit b) + 16 * (← hexDigit c) + (← hexDigit d)

/-- The UTF-8 form of a code point. -/
def utf8 (n : ℕ) : Bytes :=
  if n < 0x80 then [.ofNat n]
  else if n < 0x800 then [.ofNat (0xC0 + n / 64), .ofNat (0x80 + n % 64)]
  else if n < 0x10000 then [.ofNat (0xE0 + n / 4096), .ofNat (0x80 + n / 64 % 64), .ofNat (0x80 + n % 64)]
  else [.ofNat (0xF0 + n / 262144), .ofNat (0x80 + n / 4096 % 64), .ofNat (0x80 + n / 64 % 64), .ofNat (0x80 + n % 64)]

def isHigh (n : ℕ) : Prop := 0xD800 ≤ n ∧ n < 0xDC00

def isLow (n : ℕ) : Prop := 0xDC00 ≤ n ∧ n < 0xE000

/-- The escapes of one character. -/
def shortEscape (e : UInt8) : Option UInt8 :=
  if e = 34 ∨ e = 92 ∨ e = 47 then some e
  else if e = 98 then some 8
  else if e = 102 then some 12
  else if e = 110 then some 10
  else if e = 114 then some 13
  else if e = 116 then some 9
  else none

/-- The second half of a surrogate pair comes first. -/
def StartsLow (t : Bytes) : Prop :=
  ∃ a b c d m t', t = backslash :: 117 :: a :: b :: c :: d :: t' ∧ hex4 a b c d = some m ∧ isLow m

/-- The text between the quotes of a string, and the string. Two halves of a surrogate pair are one character. -/
inductive Chars : Bytes → Bytes → Prop
  | nil : Chars [] []
  | plain {c : UInt8} {t s : Bytes} (hc : 32 ≤ c ∧ c ≠ quotation ∧ c ≠ backslash) (h : Chars t s) :
      Chars (c :: t) (c :: s)
  | escape {e b : UInt8} {t s : Bytes} (he : shortEscape e = some b) (h : Chars t s) :
      Chars (backslash :: e :: t) (b :: s)
  | unicode {a b c d : UInt8} {n : ℕ} {t s : Bytes} (hn : hex4 a b c d = some n)
      (hpair : isHigh n → ¬ StartsLow t) (h : Chars t s) :
      Chars (backslash :: 117 :: a :: b :: c :: d :: t) (utf8 n ++ s)
  | pair {a b c d a' b' c' d' : UInt8} {n m : ℕ} {t s : Bytes} (hn : hex4 a b c d = some n)
      (hm : hex4 a' b' c' d' = some m) (hhigh : isHigh n) (hlow : isLow m) (h : Chars t s) :
      Chars (backslash :: 117 :: a :: b :: c :: d :: backslash :: 117 :: a' :: b' :: c' :: d' :: t)
        (utf8 (0x10000 + 1024 * (n - 0xD800) + (m - 0xDC00)) ++ s)

def quoted (t : Bytes) : Bytes := quotation :: (t ++ [quotation])

end Tokens

section Documents

/-- An element of an array with the white space around it. -/
structure Item where
  before : Bytes
  text : Bytes
  after : Bytes
  value : Value

def Item.full (i : Item) : Bytes := i.before ++ i.text ++ i.after

/-- A member of an object: its name, and the item behind the colon. -/
structure Member where
  before : Bytes
  nameText : Bytes
  name : Bytes
  colon : Bytes
  item : Item

def Member.full (m : Member) : Bytes := m.before ++ quoted m.nameText ++ m.colon ++ 58 :: m.item.full

def Ws (w : Bytes) : Prop := ∀ b ∈ w, isWs b

def Item.Spaced (i : Item) : Prop := Ws i.before ∧ Ws i.after

def Member.Spaced (m : Member) : Prop := Ws m.before ∧ Ws m.colon ∧ m.item.Spaced

def commas (texts : List Bytes) : Bytes := List.intercalate [44] texts

def inBrackets (t : Bytes) : Bytes := 91 :: (t ++ [93])

def inBraces (t : Bytes) : Bytes := 123 :: (t ++ [125])

/-- The strings and the numbers of a dialect: a text between quotes with the string it denotes, and the numbers that may be
written. -/
structure Lexis where
  chars : Bytes → Bytes → Prop
  number : Number → Prop

def rfc8259 : Lexis := ⟨Chars, Number.WellFormed⟩

/-- A text that is a value, and what it denotes. -/
inductive DenotesIn (L : Lexis) : Bytes → Value → Prop
  | null : DenotesIn L [110, 117, 108, 108] .null
  | true : DenotesIn L [116, 114, 117, 101] (.bool .true)
  | false : DenotesIn L [102, 97, 108, 115, 101] (.bool .false)
  | number (n : Number) (h : L.number n) : DenotesIn L n.text n.value
  | string {t s : Bytes} (h : L.chars t s) : DenotesIn L (quoted t) (.string s)
  | emptyArray {w : Bytes} (hw : Ws w) : DenotesIn L (inBrackets w) (.array [])
  | array (items : List Item) (hne : items ≠ []) (hws : ∀ i ∈ items, i.Spaced)
      (h : ∀ i ∈ items, DenotesIn L i.text i.value) :
      DenotesIn L (inBrackets (commas (items.map Item.full))) (.array (items.map Item.value))
  | emptyObject {w : Bytes} (hw : Ws w) : DenotesIn L (inBraces w) (.object [])
  | object (members : List Member) (hne : members ≠ []) (hws : ∀ m ∈ members, m.Spaced)
      (hnames : ∀ m ∈ members, L.chars m.nameText m.name) (h : ∀ m ∈ members, DenotesIn L m.item.text m.item.value) :
      DenotesIn L (inBraces (commas (members.map Member.full)))
        (.object (members.map fun m => (m.name, m.item.value)))

abbrev Denotes : Bytes → Value → Prop := DenotesIn rfc8259

/-- A value that is an array of objects, and the texts of these. -/
inductive ArrayOfObjects : Bytes → List Bytes → Prop
  | empty {w : Bytes} (hw : Ws w) : ArrayOfObjects (inBrackets w) []
  | objects (items : List Item) (hne : items ≠ []) (hws : ∀ i ∈ items, i.Spaced)
      (h : ∀ i ∈ items, Denotes i.text i.value) (hobj : ∀ i ∈ items, ∃ ms, i.value = .object ms) :
      ArrayOfObjects (inBrackets (commas (items.map Item.full))) (items.map Item.text)

end Documents

end Json
