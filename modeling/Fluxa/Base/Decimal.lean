import Mathlib.Data.Nat.Digits.Defs
import Fluxa.Base.HeaderText

/-! Decimal numbers as text, and reading them back with `strtol`. -/

namespace Decimal

open HeaderText

def natText (n : ℕ) : Bytes := (Nat.toDigits 10 n).map fun c => .ofNat c.toNat

/-- `%ld`. -/
def intText (i : ℤ) : Bytes := if i < 0 then 45 :: natText i.natAbs else natText i.natAbs

variable {n : ℕ}

theorem natText_of_lt (h : n < 10) : natText n = [.ofNat (48 + n)] := by
  rw [natText, Nat.toDigits_of_lt_base h, List.map_singleton, Nat.toNat_digitChar_of_lt_ten h]

theorem natText_of_le (h : 10 ≤ n) : natText n = natText (n / 10) ++ [.ofNat (48 + n % 10)] := by
  have hdigit := Nat.toNat_digitChar_of_lt_ten (Nat.mod_lt n (by decide : 0 < 10))
  rw [natText, Nat.toDigits_of_base_le (by decide) h, List.map_append, List.map_singleton, hdigit]
  rfl

theorem natText_ne_nil (n : ℕ) : natText n ≠ [] := by
  rw [natText, Ne, List.map_eq_nil_iff]
  exact Nat.toDigits_ne_nil

theorem toNat_digit (h : n < 10) : (UInt8.ofNat (48 + n)).toNat = 48 + n := by
  rw [UInt8.toNat_ofNat']
  omega

theorem isDigit_digit (h : n < 10) : isDigit (.ofNat (48 + n)) := by
  simp only [isDigit, Bool.and_eq_true, decide_eq_true_eq, UInt8.le_iff_toNat_le, toNat_digit h]
  simp
  omega

theorem digitsValue_concat (ds : Bytes) (h : n < 10) : digitsValue (ds ++ [.ofNat (48 + n)]) = 10 * digitsValue ds + n := by
  rw [digitsValue, List.foldl_append, List.foldl_cons, List.foldl_nil, toNat_digit h, Nat.add_sub_cancel_left]
  rfl

/-- The digits of a number have its value. -/
theorem digitsValue_natText (n : ℕ) : digitsValue (natText n) = n := by
  induction n using Nat.strong_induction_on with
  | _ n ih =>
    by_cases h : n < 10
    · rw [natText_of_lt h]
      exact (digitsValue_concat [] h).trans (Nat.zero_add n)
    · rw [natText_of_le (Nat.le_of_not_lt h), digitsValue_concat _ (Nat.mod_lt n (by decide)), ih (n / 10) (by omega)]
      omega

theorem isDigit_of_mem_natText {d : UInt8} (hd : d ∈ natText n) : isDigit d := by
  induction n using Nat.strong_induction_on with
  | _ n ih =>
    by_cases h : n < 10
    · rw [natText_of_lt h, List.mem_singleton] at hd
      rw [hd]
      exact isDigit_digit h
    · rw [natText_of_le (Nat.le_of_not_lt h), List.mem_append, List.mem_singleton] at hd
      rcases hd with hd | rfl
      · exact ih (n / 10) (by omega) hd
      · exact isDigit_digit (Nat.mod_lt n (by decide))

theorem mem_intText {i : ℤ} {d : UInt8} (hd : d ∈ intText i) : d = 45 ∨ isDigit d := by
  rw [intText] at hd
  split at hd
  · rcases List.mem_cons.mp hd with hd | hd
    · exact .inl hd
    · exact .inr (isDigit_of_mem_natText hd)
  · exact .inr (isDigit_of_mem_natText hd)

theorem intText_ne_nil (i : ℤ) : intText i ≠ [] := by
  rw [intText]
  split
  · exact List.cons_ne_nil _ _
  · exact natText_ne_nil _

/-- Digits in front of something that is none. -/
theorem takeWhile_digits {ds rest : Bytes} (hds : ∀ d ∈ ds, isDigit d) (h : ∀ d ∈ rest.head?, isDigit d = false) :
    (ds ++ rest).takeWhile isDigit = ds := by
  rw [List.takeWhile_append_of_pos hds]
  cases rest with
  | nil => exact List.append_nil _
  | cons d rest => rw [List.takeWhile_cons_of_neg (by rw [h d rfl]; exact Bool.false_ne_true), List.append_nil]

/-- `strtol` on digits, with a minus sign in front of them or none. -/
theorem strtol_digits {ds : Bytes} (hne : ds ≠ []) (hds : ∀ d ∈ ds, isDigit d) (rest : Bytes)
    (h : ∀ d ∈ rest.head?, isDigit d = false) : strtol (ds ++ rest) = min (2 ^ 63 - 1) (digitsValue ds : ℤ) := by
  obtain ⟨d, ds, rfl⟩ := List.exists_cons_of_ne_nil hne
  rw [List.cons_append, strtol_cons_digit (hds d List.mem_cons_self), ← List.cons_append, takeWhile_digits hds h]

theorem strtol_minus {ds : Bytes} (hds : ∀ d ∈ ds, isDigit d) (rest : Bytes) (h : ∀ d ∈ rest.head?, isDigit d = false) :
    strtol (45 :: (ds ++ rest)) = max (-2 ^ 63) (-(digitsValue ds : ℤ)) := by
  have hstrtol : strtol (45 :: (ds ++ rest)) = max (-2 ^ 63) (-(digitsValue ((ds ++ rest).takeWhile isDigit) : ℤ)) := rfl
  rw [hstrtol, takeWhile_digits hds h]

theorem strtol_intText {i : ℤ} (hlo : -2 ^ 63 ≤ i) (hhi : i < 2 ^ 63) {rest : Bytes}
    (h : ∀ d ∈ rest.head?, isDigit d = false) : strtol (intText i ++ rest) = i := by
  rw [intText]
  split
  · rw [List.cons_append, strtol_minus (fun d hd => isDigit_of_mem_natText hd) rest h, digitsValue_natText]
    omega
  · rw [strtol_digits (natText_ne_nil _) (fun d hd => isDigit_of_mem_natText hd) rest h, digitsValue_natText]
    omega

end Decimal
