import Mathlib.Data.List.Basic
import Mathlib.Data.List.Infix
import Fluxa.Base.Json

/-! Strings behind an opening quotation mark, read with backslash escapes into a buffer of bounded size. -/

namespace Escaped

open HeaderText (Bytes)
open Json (quotation backslash)

/-- Letters that stand for control characters. Any other character stands for itself. -/
def unescape (c : UInt8) : UInt8 := if c = 110 then 10 else if c = 114 then 13 else if c = 116 then 9 else c

/-- What a reader stores while there is room, and the text at which it stops: a quotation mark, or the end. A backslash at
the end is dropped. -/
def scan : ℕ → Bytes → Bytes × Bytes
  | 0, p => ([], p)
  | _ + 1, [] => ([], [])
  | room + 1, c :: p =>
    if c = quotation then ([], c :: p)
    else if c = backslash then
      match p with
      | [] => ([], [])
      | e :: p => match scan room p with | (s, q) => (unescape e :: s, q)
    else match scan room p with | (s, q) => (c :: s, q)

/-- A string that can stand between quotation marks as it is. -/
def Plain (s : Bytes) : Prop := quotation ∉ s ∧ backslash ∉ s

instance (s : Bytes) : Decidable (Plain s) := inferInstanceAs (Decidable (_ ∧ _))

section Scan

variable {c e : UInt8} {s p : Bytes}

@[simp] theorem scan_nil (n : ℕ) : scan n [] = ([], []) := by
  cases n <;> rfl

@[simp] theorem scan_quotation (n : ℕ) (p : Bytes) : scan n (quotation :: p) = ([], quotation :: p) := by
  cases n with
  | zero => rfl
  | succ n => exact if_pos rfl

theorem scan_backslash (n : ℕ) (e : UInt8) (p : Bytes) :
    scan (n + 1) (backslash :: e :: p) = (unescape e :: (scan n p).1, (scan n p).2) := by
  rw [scan, if_neg (by decide), if_pos rfl]

theorem scan_cons (hq : c ≠ quotation) (hb : c ≠ backslash) (n : ℕ) (p : Bytes) :
    scan (n + 1) (c :: p) = (c :: (scan n p).1, (scan n p).2) := by
  rw [scan.eq_def]
  dsimp only
  rw [if_neg hq, if_neg hb]

theorem plain_nil : Plain [] := ⟨List.not_mem_nil, List.not_mem_nil⟩

theorem plain_cons : Plain (c :: s) ↔ (c ≠ quotation ∧ c ≠ backslash) ∧ Plain s := by
  simp only [Plain, List.mem_cons, not_or, ne_comm (a := c)]
  tauto

theorem scan_suffix (n : ℕ) (p : Bytes) : (scan n p).2 <:+ p := by
  fun_induction scan n p with
  | case1 p => exact List.suffix_rfl
  | case2 => exact List.suffix_rfl
  | case3 => exact List.suffix_rfl
  | case4 => exact List.nil_suffix
  | case5 room e p s q h _ ih =>
    rw [h] at ih
    exact (ih.trans (List.suffix_cons e p)).trans (List.suffix_cons _ _)
  | case6 room c p _ _ s q h ih =>
    rw [h] at ih
    exact ih.trans (List.suffix_cons c p)

/-- Every stored byte takes a byte of the text. -/
theorem length_scan (n : ℕ) (p : Bytes) : (scan n p).1.length + (scan n p).2.length ≤ p.length := by
  fun_induction scan n p with
  | case1 p => exact (Nat.zero_add _).le
  | case2 => exact Nat.le_refl _
  | case3 => exact (Nat.zero_add _).le
  | case4 => exact Nat.zero_le _
  | case5 room e p s q h _ ih =>
    rw [h] at ih
    simp only [List.length_cons] at ih ⊢
    omega
  | case6 room c p _ _ s q h ih =>
    rw [h] at ih
    simp only [List.length_cons] at ih ⊢
    omega

/-- No backslash comes in front of the next quotation mark. -/
def Clear (p : Bytes) : Prop := backslash ∉ p.takeWhile (· != quotation)

theorem clear_nil : Clear [] := List.not_mem_nil

theorem clear_quotation (p : Bytes) : Clear (quotation :: p) := List.not_mem_nil

theorem clear_cons (hc : c ≠ backslash) (hp : Clear p) : Clear (c :: p) := by
  by_cases hq : c = quotation
  · rw [hq]
    exact clear_quotation p
  · rw [Clear, List.takeWhile_cons_of_pos (by simpa using hq), List.mem_cons, not_or]
    exact ⟨Ne.symm hc, hp⟩

theorem clear_append (hs : backslash ∉ s) (hp : Clear p) : Clear (s ++ p) := by
  induction s with
  | nil => exact hp
  | cons c s ih =>
    obtain ⟨hc, hs⟩ := not_or.mp (mt List.mem_cons.mpr hs)
    exact clear_cons (Ne.symm hc) (ih hs)

/-- What is stored of such a text are the bytes in front of the quotation mark. -/
theorem mem_of_mem_scan (n : ℕ) (hp : Clear p) (hc : c ∈ (scan n p).1) : c ∈ p.takeWhile (· != quotation) := by
  induction p generalizing n with
  | nil => rwa [scan_nil] at hc
  | cons d p ih =>
    by_cases hq : d = quotation
    · rw [hq, scan_quotation] at hc
      cases hc
    · rw [Clear, List.takeWhile_cons_of_pos (by simpa using hq), List.mem_cons, not_or] at hp
      rw [List.takeWhile_cons_of_pos (by simpa using hq)]
      cases n with
      | zero => cases hc
      | succ n =>
        rw [scan_cons hq (Ne.symm hp.1)] at hc
        rcases List.mem_cons.mp hc with rfl | hc
        · exact List.mem_cons_self
        · exact List.mem_cons_of_mem d (ih n hp.2 hc)

theorem plain_scan (n : ℕ) (hp : Clear p) : Plain (scan n p).1 := by
  constructor
  · intro h
    have hq := List.all_eq_true.mp (List.all_takeWhile (l := p) (p := (· != quotation))) _ (mem_of_mem_scan n hp h)
    exact absurd hq (by decide)
  · exact fun h => hp (mem_of_mem_scan n hp h)

/-- A string that was written as it is: the reader ends within it, and then it gives the string back only if it is plain;
or a backslash in front of the closing quotation mark makes the reader go on behind it. -/
theorem scan_append_quotation (n : ℕ) (s p : Bytes) :
    ((scan n (s ++ quotation :: p)).1.length ≤ s.length ∧ ((scan n (s ++ quotation :: p)).1 = s → Plain s)) ∨
      s.getLast? = some backslash ∧ ∃ m d, (scan n (s ++ quotation :: p)).1 = d ++ quotation :: (scan m p).1 := by
  induction n generalizing s with
  | zero => exact .inl ⟨Nat.zero_le _, fun h => h ▸ plain_nil⟩
  | succ n ih =>
    match s with
    | [] =>
      rw [List.nil_append, scan_quotation]
      exact .inl ⟨Nat.le_refl _, fun _ => plain_nil⟩
    | c :: s =>
      by_cases hq : c = quotation
      · rw [hq, List.cons_append, scan_quotation]
        exact .inl ⟨Nat.zero_le _, fun h => nomatch h⟩
      · by_cases hb : c = backslash
        · rw [hb]
          match s with
          | [] =>
            refine .inr ⟨rfl, n, [], ?_⟩
            rw [List.singleton_append, scan_backslash]
            rfl
          | e :: s =>
            rw [List.cons_append, List.cons_append, scan_backslash]
            rcases ih s with ⟨hle, -⟩ | ⟨hlast, m, d, hd⟩
            · simp only [List.length_cons]
              refine .inl ⟨by omega, fun h => ?_⟩
              -- the escape has left the reader one byte short
              have hlen := congrArg List.length h
              simp only [List.length_cons] at hlen
              omega
            · refine .inr ⟨?_, m, unescape e :: d, by rw [hd]; rfl⟩
              rw [List.getLast?_cons_cons, List.getLast?_cons, hlast]
              rfl
        · rw [List.cons_append, scan_cons hq hb]
          rcases ih s with ⟨hle, hplain⟩ | ⟨hlast, m, d, hd⟩
          · exact .inl ⟨Nat.succ_le_succ hle, fun h => plain_cons.mpr ⟨⟨hq, hb⟩, hplain (List.cons.inj h).2⟩⟩
          · refine .inr ⟨?_, m, c :: d, by rw [hd]; rfl⟩
            rw [List.getLast?_cons, hlast]
            rfl

/-- A string that is read where it was written as it is, or from within it on, is plain. -/
theorem plain_of_scan (hp : Clear p) {k r : Bytes} (hr : r <:+ k) {n : ℕ} (h : (scan n (r ++ quotation :: p)).1 = k) :
    Plain k := by
  rcases scan_append_quotation n r p with ⟨hle, hplain⟩ | ⟨hlast, m, d, hd⟩
  · rw [h] at hle hplain
    have hrk : r = k := hr.eq_of_length_le hle
    exact hrk ▸ hplain hrk.symm
  · -- the last byte is a backslash, but none is stored behind the quotation mark
    have hlastk : k.getLast? = some backslash := by
      obtain ⟨p, rfl⟩ := hr
      rw [List.getLast?_append, hlast]
      rfl
    rw [← h, hd, List.getLast?_append, List.getLast?_cons] at hlastk
    cases hscan : (scan m p).1.getLast? with
    | none =>
      rw [hscan] at hlastk
      exact absurd (Option.some.inj hlastk) (by decide)
    | some c =>
      rw [hscan] at hlastk
      have hc : c = backslash := Option.some.inj hlastk
      exact absurd (hc ▸ List.mem_of_getLast? hscan) (plain_scan m hp).2

end Scan

section Closed

/-- A text with every escape undone. -/
def decode : Bytes → Bytes
  | [] => []
  | c :: t =>
    if c = backslash then
      match t with
      | [] => []
      | e :: t => unescape e :: decode t
    else c :: decode t

/-- A text in which no quotation mark stands by itself and no escape is cut off. -/
inductive Closed : Bytes → Prop
  | nil : Closed []
  | plain {c : UInt8} {t : Bytes} (hq : c ≠ quotation) (hb : c ≠ backslash) (h : Closed t) : Closed (c :: t)
  | escape (e : UInt8) {t : Bytes} (h : Closed t) : Closed (backslash :: e :: t)

variable {t : Bytes}

theorem decode_cons {c : UInt8} (hb : c ≠ backslash) (t : Bytes) : decode (c :: t) = c :: decode t := by
  rw [decode.eq_def]
  exact if_neg hb

theorem decode_backslash (e : UInt8) (t : Bytes) : decode (backslash :: e :: t) = unescape e :: decode t := by
  rw [decode.eq_def]
  exact if_pos rfl

theorem scan_closed (h : Closed t) {n : ℕ} (hn : (decode t).length ≤ n) (p : Bytes) :
    scan n (t ++ p) = (decode t ++ (scan (n - (decode t).length) p).1, (scan (n - (decode t).length) p).2) := by
  induction h generalizing n with
  | nil => rfl
  | @plain c t hq hb h ih =>
    rw [decode_cons hb, List.length_cons] at hn ⊢
    obtain ⟨n, rfl⟩ : ∃ m, n = m + 1 := ⟨n - 1, by omega⟩
    rw [List.cons_append, scan_cons hq hb, ih (by omega), Nat.add_sub_add_right]
    rfl
  | @escape e t h ih =>
    rw [decode_backslash, List.length_cons] at hn ⊢
    obtain ⟨n, rfl⟩ : ∃ m, n = m + 1 := ⟨n - 1, by omega⟩
    rw [List.cons_append, List.cons_append, scan_backslash, ih (by omega), Nat.add_sub_add_right]
    rfl

theorem scan_closed_quotation (h : Closed t) {n : ℕ} (hn : (decode t).length ≤ n) (p : Bytes) :
    scan n (t ++ quotation :: p) = (decode t, quotation :: p) := by
  rw [scan_closed h hn, scan_quotation, List.append_nil]

theorem closed_of_plain {s : Bytes} (hs : Plain s) : Closed s ∧ decode s = s := by
  induction s with
  | nil => exact ⟨.nil, rfl⟩
  | cons c s ih =>
    obtain ⟨⟨hq, hb⟩, hs⟩ := plain_cons.mp hs
    obtain ⟨hclosed, hdecode⟩ := ih hs
    exact ⟨.plain hq hb hclosed, by rw [decode_cons hb, hdecode]⟩

/-- The reader inverts the writing of a plain string. -/
theorem scan_plain {s : Bytes} (hs : Plain s) {n : ℕ} (hn : s.length ≤ n) (p : Bytes) :
    scan n (s ++ quotation :: p) = (s, quotation :: p) := by
  obtain ⟨hclosed, hdecode⟩ := closed_of_plain hs
  have hscan := scan_closed_quotation hclosed (n := n) (by rwa [hdecode]) p
  rwa [hdecode] at hscan

end Closed

end Escaped
