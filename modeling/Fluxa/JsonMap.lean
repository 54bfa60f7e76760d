import Fluxa.Base.Decimal
import Fluxa.Base.Escaped
import Fluxa.JsonCursor

/-! Objects of `std.json` (`fluxa_std_json.h`) as maps. An object is its text: `json.set` searches the text for the key and
writes it anew, and the getters search it. The buffer of 16384 bytes that `json.set` writes into has room for every object
of fewer than 8191 bytes with one more pair and is left out. `json.from_int` and `json.from_bool` convert a value of
another type first; here they take the converted value. -/

namespace Fluxa.StdJson

open StdLib
open Json (quotation backslash)
open HeaderText (isSpace isDigit strtol)
open Escaped (scan Plain)
open Decimal (intText)

section Model

/-- `FLUXA_JSON_MAX_KEY`. -/
def jsonMaxKey : ℕ := 256

/-- `JSON_ERR`. -/
def jsonErr (fn : String) (msg : Bytes) : Bytes := ascii "json." ++ ascii fn ++ ascii ": " ++ msg.take 900

def jsonSkipWs (p : Bytes) : Bytes := p.dropWhile isSpace

/-- The string and the text behind it, from an opening quotation mark on. The closing one may be missing. -/
def jsonReadString (size : ℕ) : Bytes → Option (Bytes × Bytes)
  | [] => none
  | c :: p =>
    if c = quotation then
      match scan (size - 1) p with
      | (s, q) => some (s, if q.head? = some quotation then q.tail else q)
    else none

/-- A key with the colon behind it, up to the value. -/
def readKey (p : Bytes) : Option (Bytes × Bytes) :=
  match jsonReadString jsonMaxKey p with
  | none => none
  | some (kbuf, p) =>
    match jsonSkipWs p with
    | [] => none
    | c :: p => if c = 58 then some (kbuf, jsonSkipWs p) else none

def skipNested (opener : UInt8) : ℕ → Bytes → Bytes
  | 0, p => p
  | _ + 1, [] => []
  | depth + 1, c :: p =>
    if c = opener then skipNested opener (depth + 2) p
    else if c = closeOf opener then skipNested opener depth p
    else skipNested opener (depth + 1) p

/-- The text behind a value. Quotation marks inside of nested objects and arrays are not looked at. -/
def skipValue : Bytes → Bytes
  | [] => []
  | c :: p =>
    if c = quotation then (jsonReadString jsonMaxStr (c :: p)).elim [] (·.2)
    else if c = 123 ∨ c = 91 then skipNested c 1 p
    else (c :: p).dropWhile fun c => c != 44 && c != 125

theorem jsonSkipWs_suffix (p : Bytes) : jsonSkipWs p <:+ p := List.dropWhile_suffix _

theorem jsonReadString_suffix {size : ℕ} {p s q : Bytes} (h : jsonReadString size p = some (s, q)) :
    ∃ r, p = quotation :: r ∧ s = (scan (size - 1) r).1 ∧ q <:+ (scan (size - 1) r).2 := by
  match p with
  | [] => cases h
  | c :: r =>
    rw [jsonReadString] at h
    split at h
    · rename_i hc
      cases h
      refine ⟨r, by rw [hc], rfl, ?_⟩
      split
      · exact List.tail_suffix _
      · exact List.suffix_rfl
    · cases h

theorem skipNested_suffix (opener : UInt8) (depth : ℕ) (p : Bytes) : skipNested opener depth p <:+ p := by
  fun_induction skipNested opener depth p with
  | case1 p => exact List.suffix_rfl
  | case2 => exact List.suffix_rfl
  | case3 _ p ih => exact ih.trans (List.suffix_cons _ p)
  | case4 _ p _ ih => exact ih.trans (List.suffix_cons _ p)
  | case5 _ c p _ _ ih => exact ih.trans (List.suffix_cons c p)

theorem skipValue_suffix (p : Bytes) : skipValue p <:+ p := by
  match p with
  | [] => exact List.suffix_rfl
  | c :: p =>
    rw [skipValue]
    split
    · cases h : jsonReadString jsonMaxStr (c :: p) with
      | none => exact List.nil_suffix
      | some r =>
        obtain ⟨q, hq, -, hr⟩ := jsonReadString_suffix h
        rw [(List.cons.inj hq).2]
        exact (hr.trans (Escaped.scan_suffix _ q)).trans (List.suffix_cons c q)
    · split
      · exact (skipNested_suffix c 1 p).trans (List.suffix_cons c p)
      · exact List.dropWhile_suffix _

/-- A key takes its opening quotation mark, its bytes and the colon from the text. -/
theorem length_readKey {p kbuf v : Bytes} (h : readKey p = some (kbuf, v)) :
    ∃ r, p = quotation :: r ∧ kbuf = (scan (jsonMaxKey - 1) r).1 ∧ v <:+ r ∧ v.length + kbuf.length < r.length := by
  rw [readKey] at h
  split at h
  · cases h
  · rename_i s q hread
    split at h
    · cases h
    · rename_i c w hskip
      split at h
      · cases h
        obtain ⟨r, hp, hs, hq⟩ := jsonReadString_suffix hread
        have hw : c :: w <:+ (scan (jsonMaxKey - 1) r).2 := hskip ▸ (jsonSkipWs_suffix q).trans hq
        have hwr := (List.suffix_cons c w).trans (hw.trans (Escaped.scan_suffix _ r))
        refine ⟨r, hp, hs, (jsonSkipWs_suffix w).trans hwr, ?_⟩
        have h₁ := hw.length_le
        have h₂ := (jsonSkipWs_suffix w).length_le
        have h₃ := Escaped.length_scan (jsonMaxKey - 1) r
        rw [List.length_cons] at h₁
        rw [hs]
        omega
      · cases h

theorem length_skipValue_lt {p kbuf v : Bytes} (h : readKey p = some (kbuf, v)) : (skipValue v).length < p.length := by
  obtain ⟨r, rfl, -, -, hlen⟩ := length_readKey h
  have := (skipValue_suffix v).length_le
  rw [List.length_cons]
  omega

def findKeyLoop (key p : Bytes) : Option Bytes :=
  match _hp : jsonSkipWs p with
  | [] => none
  | c :: q =>
    if c = 125 then none
    else if c = 44 then findKeyLoop key q
    else match _hk : readKey (c :: q) with
      | none => none
      | some (kbuf, v) => if kbuf = key then some v else findKeyLoop key (skipValue v)
termination_by p.length
decreasing_by
  · have := (jsonSkipWs_suffix p).length_le
    rw [_hp, List.length_cons] at this
    omega
  · have := (jsonSkipWs_suffix p).length_le
    have hlt := length_skipValue_lt _hk
    rw [_hp] at this
    omega

def jsonFindKey (json key : Bytes) : Option Bytes :=
  match jsonSkipWs json with
  | [] => none
  | c :: p => if c = 123 then findKeyLoop key p else none

def pairText (key val : Bytes) : Bytes := quotation :: key ++ quotation :: 58 :: val

/-- The pairs of the other keys, written with commas between them, and whether there is none. A value is copied. -/
def rebuildLoop (key : Bytes) (first : Bool) (p : Bytes) : Bytes × Bool :=
  match p with
  | [] => ([], first)
  | c :: q =>
    if c = 125 then ([], first)
    else if c = 44 then rebuildLoop key first q
    else match _hk : readKey (jsonSkipWs (c :: q)) with
      | none => ([], first)
      | some (kbuf, v) =>
        let rest := skipValue v
        if kbuf = key then rebuildLoop key first (jsonSkipWs rest)
        else match rebuildLoop key false (jsonSkipWs rest) with
          | (out, first') =>
            ((if first then [] else [44]) ++ pairText kbuf (v.take (v.length - rest.length)) ++ out, first')
termination_by p.length
decreasing_by
  · exact Nat.lt_succ_self _
  all_goals
    have h₁ := (jsonSkipWs_suffix (c :: q)).length_le
    have h₂ := (jsonSkipWs_suffix (skipValue v)).length_le
    have h₃ := length_skipValue_lt _hk
    omega

/-- `strrchr`: the text in front of the last such character. -/
def beforeLast (c : UInt8) (p : Bytes) : Option Bytes :=
  match p.reverse.dropWhile (· != c) with
  | [] => none
  | _ :: r => some r.reverse

/-- `json.object`. -/
def object : Bytes := [123, 125]

/-- `json.set`. -/
def set (obj key val : Bytes) : Except Bytes Bytes :=
  match jsonSkipWs obj with
  | [] => .error (jsonErr "set" (ascii "json.set: first argument must be a JSON object"))
  | c :: p =>
    if c = 123 then
      if (jsonFindKey obj key).isSome then
        match rebuildLoop key true (jsonSkipWs p) with
        | (out, first) => .ok (123 :: out ++ (if first then [] else [44]) ++ pairText key val ++ [125])
      else
        let tmp := obj.take (jsonMaxStr * 2 - 1)
        match beforeLast 125 tmp with
        | none => .error (jsonErr "set" (ascii "json.set: malformed JSON object"))
        | some front =>
          if (jsonSkipWs tmp.tail).head? = some 125 then .ok (123 :: pairText key val ++ [125])
          else .ok (front ++ 44 :: pairText key val ++ [125])
    else .error (jsonErr "set" (ascii "json.set: first argument must be a JSON object"))

/-- `json.has`. -/
def has (json key : Bytes) : Bool := (jsonFindKey json key).isSome

/-- What the getters share: the value, or the key is missing. -/
def valueAt (fn : String) (json key : Bytes) : Except Bytes Bytes :=
  match jsonFindKey json key with
  | none => .error (jsonErr fn (ascii "key '" ++ key ++ ascii "' not found"))
  | some vp => .ok (jsonSkipWs vp)

/-- `json.get_str`. -/
def getStr (json key : Bytes) : Except Bytes Bytes := do
  match jsonReadString jsonMaxStr (← valueAt "get_str" json key) with
  | none => .error (jsonErr "get_str" (ascii "key '" ++ key ++ ascii "' is not a string"))
  | some (vbuf, _) => .ok vbuf

/-- Whether `strtol` finds a number: digits, with a sign in front of them or none. -/
def converts : Bytes → Bool
  | [] => false
  | c :: p => isDigit c || (c == 43 || c == 45) && p.head?.any isDigit

/-- `json.get_int`. -/
def getInt (json key : Bytes) : Except Bytes ℤ := do
  let vp ← valueAt "get_int" json key
  if converts vp then .ok (strtol vp) else .error (jsonErr "get_int" (ascii "value is not an integer"))

def trueText : Bytes := [116, 114, 117, 101]

def falseText : Bytes := [102, 97, 108, 115, 101]

/-- `json.get_bool`. -/
def getBool (json key : Bytes) : Except Bytes Bool := do
  let vp ← valueAt "get_bool" json key
  if trueText <+: vp then .ok true
  else if falseText <+: vp then .ok false
  else .error (jsonErr "get_bool" (ascii "value is not a boolean"))

/-- The values that are made into text by `json.from_int`, `json.from_bool` and `json.from_str`. -/
inductive Val where
  | int (n : Int64)
  | bool (b : Bool)
  | str (s : Bytes)
  deriving DecidableEq

/-- `json.from_int`. -/
def fromInt (n : Int64) : Bytes := intText n.toInt

/-- `json.from_bool`. -/
def fromBool (b : Bool) : Bytes := if b then trueText else falseText

/-- `json.from_str`: the buffer has room for 4095 bytes. -/
def fromStr (s : Bytes) : Bytes := (quotation :: s ++ [quotation]).take (jsonMaxStr - 1)

def Val.text : Val → Bytes
  | .int n => fromInt n
  | .bool b => fromBool b
  | .str s => fromStr s

/-- The object after a sequence of `json.set` calls. -/
def setAll (o : Bytes) : List (Bytes × Val) → Except Bytes Bytes
  | [] => .ok o
  | (k, v) :: kvs => do setAll (← set o k v.text) kvs

end Model

def Val.ReadFrom (o k : Bytes) : Val → Prop
  | .int n => getInt o k = .ok n.toInt
  | .bool b => getBool o k = .ok b
  | .str s => getStr o k = .ok s

/-- The value most recently set under a key. -/
def latest (kvs : List (Bytes × Val)) (k : Bytes) : Option Val := kvs.reverse.lookup k

/-- An object behaves as the map that a sequence of calls makes. -/
def Represents (o : Bytes) (kvs : List (Bytes × Val)) : Prop :=
  ∀ k, (has o k ↔ k ∈ kvs.map (·.1)) ∧ ∀ v, latest kvs k = some v → v.ReadFrom o k

def IsMap (kvs : List (Bytes × Val)) : Prop := ∃ o, setAll object kvs = .ok o ∧ Represents o kvs

/-- Keys, values and objects that the buffers have room for. -/
structure WithinLimits (kvs : List (Bytes × Val)) : Prop where
  key : ∀ kv ∈ kvs, 0 ∉ kv.1 ∧ kv.1.length < jsonMaxKey
  val : ∀ kv ∈ kvs, 0 ∉ kv.2.text ∧ kv.2.text.length < jsonMaxStr - 1
  obj : ∀ pre, pre <+: kvs → ∀ o, setAll object pre = .ok o → o.length < jsonMaxStr * 2 - 1

def Val.Plain : Val → Prop
  | .str s => Escaped.Plain s
  | _ => True

section Text

/-- Digits, the minus sign and small letters. -/
def isBare (c : UInt8) : Bool := isDigit c || c == 45 || 97 ≤ c && c ≤ 122

theorem isBare_ne {c : UInt8} (h : isBare c) :
    isSpace c = false ∧ c ≠ quotation ∧ c ≠ backslash ∧ c ≠ 123 ∧ c ≠ 91 ∧ c ≠ 44 ∧ c ≠ 125 :=
  forall_byte (P := fun c => isBare c → isSpace c = false ∧ c ≠ quotation ∧ c ≠ backslash ∧ c ≠ 123 ∧ c ≠ 91 ∧ c ≠ 44 ∧
    c ≠ 125) (by decide +kernel) c h

theorem isBare_intText {i : ℤ} {c : UInt8} (h : c ∈ intText i) : isBare c := by
  rcases Decimal.mem_intText h with rfl | h
  · rfl
  · rw [isBare, h, Bool.true_or, Bool.true_or]

theorem fromBool_bare (b : Bool) : fromBool b ≠ [] ∧ ∀ c ∈ fromBool b, isBare c := by
  cases b <;> decide +kernel

theorem fromStr_eq {s : Bytes} (h : (fromStr s).length < jsonMaxStr - 1) :
    fromStr s = quotation :: s ++ [quotation] ∧ s.length + 2 < jsonMaxStr - 1 := by
  have hlen : (quotation :: s ++ [quotation]).length = s.length + 2 := by simp
  have hshort : s.length + 2 < jsonMaxStr - 1 := by
    rw [fromStr, List.length_take, hlen] at h
    omega
  exact ⟨List.take_of_length_le (by omega), hshort⟩

theorem text_cases (v : Val) (h : v.text.length < jsonMaxStr - 1) :
    (v.text ≠ [] ∧ ∀ c ∈ v.text, isBare c) ∨
      ∃ s, v = .str s ∧ v.text = quotation :: s ++ [quotation] ∧ s.length + 2 < jsonMaxStr - 1 := by
  cases v with
  | int n => exact .inl ⟨Decimal.intText_ne_nil _, fun c hc => isBare_intText hc⟩
  | bool b => exact .inl (fromBool_bare b)
  | str s => exact .inr ⟨s, rfl, fromStr_eq h⟩

theorem jsonSkipWs_cons {c : UInt8} (h : isSpace c = false) (p : Bytes) : jsonSkipWs (c :: p) = c :: p :=
  List.dropWhile_cons_of_neg (by rw [h]; exact Bool.false_ne_true)

theorem jsonSkipWs_text {v : Val} (h : v.text.length < jsonMaxStr - 1) (p : Bytes) :
    jsonSkipWs (v.text ++ p) = v.text ++ p := by
  rcases text_cases v h with ⟨hne, hbare⟩ | ⟨s, -, hs, -⟩
  · obtain ⟨c, t, ht⟩ := List.exists_cons_of_ne_nil hne
    rw [ht, List.cons_append]
    exact jsonSkipWs_cons (isBare_ne (hbare c (ht ▸ List.mem_cons_self))).1 _
  · rw [hs]
    exact jsonSkipWs_cons (by decide) _

/-- What stands behind a pair: a comma or the closing brace. -/
def Delim (p : Bytes) : Prop := ∃ c q, p = c :: q ∧ (c = 44 ∨ c = 125)

theorem jsonReadString_plain {s : Bytes} (hs : Plain s) {size : ℕ} (hsize : s.length < size) (p : Bytes) :
    jsonReadString size (quotation :: s ++ quotation :: p) = some (s, p) := by
  rw [List.cons_append, jsonReadString, if_pos rfl, Escaped.scan_plain hs (Nat.le_sub_one_of_lt hsize)]
  rfl

theorem skipValue_text {v : Val} (hv : v.Plain) (h : v.text.length < jsonMaxStr - 1) {p : Bytes} (hp : Delim p) :
    skipValue (v.text ++ p) = p := by
  rcases text_cases v h with ⟨hne, hbare⟩ | ⟨s, rfl, hs, hlen⟩
  · obtain ⟨c, t, ht⟩ := List.exists_cons_of_ne_nil hne
    obtain ⟨-, hq, -, hbrace, hbracket, -⟩ := isBare_ne (hbare c (ht ▸ List.mem_cons_self))
    have hloop : (v.text ++ p).dropWhile (fun c => c != 44 && c != 125) = p := by
      rw [List.dropWhile_append_of_pos]
      · obtain ⟨d, q, rfl, rfl | rfl⟩ := hp <;> rfl
      · intro d hd
        obtain ⟨-, -, -, -, -, hcomma, hclose⟩ := isBare_ne (hbare d hd)
        simp [hcomma, hclose]
    rw [ht, List.cons_append] at hloop ⊢
    rw [skipValue, if_neg hq, if_neg (not_or.mpr ⟨hbrace, hbracket⟩), hloop]
  · rw [hs, List.append_assoc, List.cons_append, skipValue, if_pos rfl, ← List.cons_append, List.singleton_append,
      jsonReadString_plain hv (by omega)]
    rfl

theorem readKey_pair {k : Bytes} (hk : Plain k) (hlen : k.length < jsonMaxKey) (t : Bytes) :
    readKey (pairText k t) = some (k, jsonSkipWs t) := by
  rw [readKey, pairText, jsonReadString_plain hk hlen]
  dsimp only
  rw [jsonSkipWs_cons (by decide)]
  exact if_pos rfl

theorem pairText_append (k t p : Bytes) : pairText k t ++ p = pairText k (t ++ p) := by
  simp only [pairText, List.cons_append, List.append_assoc]

end Text

section Search

variable {key : Bytes}

theorem findKeyLoop_cons {c : UInt8} (hc : isSpace c = false) (q : Bytes) :
    findKeyLoop key (c :: q) = if c = 125 then none else if c = 44 then findKeyLoop key q else
      match readKey (c :: q) with
      | none => none
      | some (kbuf, v) => if kbuf = key then some v else findKeyLoop key (skipValue v) := by
  rw [findKeyLoop]
  split
  · rename_i h
    rw [jsonSkipWs_cons hc] at h
    cases h
  · rename_i h
    rw [jsonSkipWs_cons hc] at h
    cases h
    split
    · rfl
    · split
      · rfl
      · split
        · rename_i h
          rw [h]
        · rename_i h
          rw [h]

theorem findKeyLoop_comma (q : Bytes) : findKeyLoop key (44 :: q) = findKeyLoop key q := by
  rw [findKeyLoop_cons (by decide), if_neg (by decide), if_pos rfl]

theorem findKeyLoop_close (q : Bytes) : findKeyLoop key (125 :: q) = none := by
  rw [findKeyLoop_cons (by decide), if_pos rfl]

theorem findKeyLoop_pair {k : Bytes} {v : Val} (hk : Plain k) (hlen : k.length < jsonMaxKey)
    (hv : v.text.length < jsonMaxStr - 1) (p : Bytes) :
    findKeyLoop key (pairText k v.text ++ p) =
      if k = key then some (v.text ++ p) else findKeyLoop key (skipValue (v.text ++ p)) := by
  have hread := readKey_pair hk hlen (v.text ++ p)
  rw [jsonSkipWs_text hv] at hread
  rw [pairText_append]
  rw [pairText, List.cons_append] at hread ⊢
  rw [findKeyLoop_cons (by decide), if_neg (by decide), if_neg (by decide), hread]

theorem findKeyLoop_some {p vp : Bytes} (h : findKeyLoop key p = some vp) :
    ∃ r, quotation :: r <:+ p ∧ (scan (jsonMaxKey - 1) r).1 = key ∧ vp.length + key.length < r.length := by
  fun_induction findKeyLoop key p with
  | case1 p hp => cases h
  | case2 p q hp => cases h
  | case3 p q hp _ ih =>
    obtain ⟨r, hr, hrest⟩ := ih h
    have hsuffix : 44 :: q <:+ p := hp ▸ jsonSkipWs_suffix p
    exact ⟨r, (hr.trans (List.suffix_cons 44 q)).trans hsuffix, hrest⟩
  | case4 p c q hp _ _ hk => cases h
  | case5 p c q hp _ _ v hk =>
    cases h
    obtain ⟨r, hr, hkey, -, hlen⟩ := length_readKey hk
    exact ⟨r, hr ▸ hp ▸ jsonSkipWs_suffix p, hkey.symm, hlen⟩
  | case6 p c q hp _ _ kbuf v hk _ ih =>
    obtain ⟨r, hr, hrest⟩ := ih h
    obtain ⟨r', hr', -, hv, -⟩ := length_readKey hk
    have hsuffix : quotation :: r' <:+ p := hr' ▸ hp ▸ jsonSkipWs_suffix p
    exact ⟨r, (hr.trans ((skipValue_suffix v).trans (hv.trans (List.suffix_cons _ r')))).trans hsuffix, hrest⟩

end Search

end Fluxa.StdJson
