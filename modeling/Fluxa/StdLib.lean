import Mathlib.Data.List.Basic
import Mathlib.Data.Int.Order.Basic
import Mathlib.Algebra.Group.Int.Defs
import Mathlib.Algebra.Group.Nat.Defs

/-! What the calls of the standard libraries share: strings of the C side, and int arguments. -/

namespace Fluxa.StdLib

abbrev Bytes := List UInt8

/-- A string ends at its first NUL. -/
def cString (buf : Bytes) : Bytes := buf.takeWhile (· != 0)

def ascii (s : String) : Bytes := s.toUTF8.toList

/-- `GET_INT`: an int argument is cut to 32 bits. -/
def getInt (i : Int64) : ℤ := i.toInt.bmod (2 ^ 32)

/-- The arguments that `GET_INT` leaves as they are. -/
def FitsInt (i : Int64) : Prop := -2 ^ 31 ≤ i.toInt ∧ i.toInt < 2 ^ 31

instance (i : Int64) : Decidable (FitsInt i) := inferInstanceAs (Decidable (_ ∧ _))

theorem getInt_of_fits {i : Int64} (h : FitsInt i) : getInt i = i.toInt :=
  Int.bmod_eq_of_le (by have := h.1; omega) (by have := h.2; omega)

theorem exists_int64 {n : ℕ} (h : n < 2 ^ 31) : ∃ i : Int64, FitsInt i ∧ i.toInt = n := by
  have hn : (Int64.ofInt n).toInt = n := Int64.toInt_ofInt_of_le (by omega) (by omega)
  exact ⟨.ofInt n, ⟨by omega, by omega⟩, hn⟩

theorem forall_byte {P : UInt8 → Prop} (h : ∀ n < 256, P (.ofNat n)) (c : UInt8) : P c := by
  have hc := h c.toNat c.toNat_lt
  rwa [UInt8.ofNat_toNat] at hc

theorem take_take_append {α : Type} (m : ℕ) (l l' : List α) : (l.take m ++ l').take m = (l ++ l').take m := by
  rcases Nat.le_total l.length m with h | h
  · rw [List.take_of_length_le h]
  · rw [List.take_append_of_le_length (by rw [List.length_take]; omega), List.take_take, Nat.min_self,
      List.take_append_of_le_length h]

end Fluxa.StdLib
