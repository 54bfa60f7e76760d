import Mathlib.Data.List.Basic
import Mathlib.Tactic.Ring

/-! The base64 encoding of RFC 4648, section 4: the bits of the input in groups of six, each group a letter, and as many
`=` as are needed to make the number of characters a multiple of four. -/

namespace Base64

def alphabet : List Char := "ABCDEFGHIJKLMNOPQRSTUVWXYZabcdefghijklmnopqrstuvwxyz0123456789+/".toList

def letter (n : ℕ) : Char := alphabet.getD n '='

/-- The bits of a byte, the most significant first. -/
def bits (b : UInt8) : List Bool := (List.range 8).map fun i => b.toNat.testBit (7 - i)

/-- Groups of six bits. Zero bits are added on the right of the last. -/
def sextets : List Bool → List (List Bool)
  | [] => []
  | a :: b :: c :: d :: e :: f :: rest => [a, b, c, d, e, f] :: sextets rest
  | few => [few ++ List.replicate (6 - few.length) false]

/-- The number that bits stand for, the most significant first. -/
def number (bs : List Bool) : ℕ := bs.foldl (fun n b => 2 * n + b.toNat) 0

def pad (cs : List Char) : List Char := cs ++ List.replicate ((4 - cs.length % 4) % 4) '='

def encode (bytes : List UInt8) : List Char :=
  pad ((sextets (bytes.flatMap bits)).map fun s => letter (number s))

theorem number_bits (b : UInt8) : number (bits b) = b.toNat := by
  have h : ∀ n : Fin 256, number ((List.range 8).map fun i => n.val.testBit (7 - i)) = n.val := by decide +kernel
  exact h ⟨b.toNat, b.toNat_lt⟩

theorem foldl_eq (bs : List Bool) (n : ℕ) :
    bs.foldl (fun n b => 2 * n + b.toNat) n = n * 2 ^ bs.length + number bs := by
  induction bs generalizing n with
  | nil => simp [number]
  | cons b bs ih =>
    unfold number
    rw [List.foldl_cons, List.foldl_cons, ih, ih (2 * 0 + b.toNat), List.length_cons, pow_succ]
    ring

theorem number_cons (b : Bool) (bs : List Bool) : number (b :: bs) = b.toNat * 2 ^ bs.length + number bs := by
  unfold number
  rw [List.foldl_cons, Nat.mul_zero, Nat.zero_add, foldl_eq]
  rfl

theorem number_append (as bs : List Bool) : number (as ++ bs) = number as * 2 ^ bs.length + number bs := by
  unfold number
  rw [List.foldl_append, foldl_eq]
  rfl

theorem number_lt (bs : List Bool) : number bs < 2 ^ bs.length := by
  induction bs with
  | nil => simp [number]
  | cons b bs ih =>
    rw [number_cons, List.length_cons, pow_succ]
    have hb : b.toNat * 2 ^ bs.length ≤ 1 * 2 ^ bs.length := Nat.mul_le_mul_right _ b.toNat_le
    omega

/-- A group of six bits inside a longer sequence, by division. -/
theorem number_slice (as s bs : List Bool) (hs : s.length = 6) :
    number (as ++ s ++ bs) / 2 ^ bs.length % 64 = number s := by
  have hb := number_lt bs
  have hn := number_lt s
  rw [hs] at hn
  rw [number_append, Nat.mul_comm, Nat.mul_add_div (Nat.two_pow_pos _), Nat.div_eq_of_lt hb, Nat.add_zero,
    number_append, hs]
  omega

theorem pad_four (a b c d : Char) (cs : List Char) : pad (a :: b :: c :: d :: cs) = a :: b :: c :: d :: pad cs := by
  unfold pad
  have h : (a :: b :: c :: d :: cs).length % 4 = cs.length % 4 := by
    simp only [List.length_cons]
    omega
  rw [h]
  rfl

/-- The 24 bits of three bytes as one number. -/
def group (b₀ b₁ b₂ : UInt8) : ℕ := number (bits b₀ ++ bits b₁ ++ bits b₂)

theorem group_eq (b₀ b₁ b₂ : UInt8) : group b₀ b₁ b₂ = 65536 * b₀.toNat + 256 * b₁.toNat + b₂.toNat := by
  unfold group
  rw [number_append, number_append, number_bits, number_bits, number_bits]
  simp only [bits, List.length_map, List.length_range]
  omega

/-- The letter of the six bits of a group that have `k` bits after them. -/
def groupLetter (b₀ b₁ b₂ : UInt8) (k : ℕ) : Char := letter (group b₀ b₁ b₂ / 2 ^ k % 64)

theorem groupLetter_eq {b₀ b₁ b₂ : UInt8} {s : List Bool} (as bs : List Bool) (hs : s.length = 6)
    (h : bits b₀ ++ bits b₁ ++ bits b₂ = as ++ s ++ bs) :
    groupLetter b₀ b₁ b₂ bs.length = letter (number s) := by
  unfold groupLetter group
  rw [h, number_slice as s bs hs]

theorem encode_one (a : UInt8) : encode [a] = [groupLetter a 0 0 18, groupLetter a 0 0 12, '=', '='] := by
  have h₁ : groupLetter a 0 0 18 = letter (number ((bits a).take 6)) :=
    groupLetter_eq [] ((bits a).drop 6 ++ bits 0 ++ bits 0) rfl rfl
  have h₂ : groupLetter a 0 0 12 = letter (number ((bits a).drop 6 ++ List.replicate 4 false)) :=
    groupLetter_eq ((bits a).take 6) (List.replicate 12 false) rfl rfl
  rw [h₁, h₂]
  rfl

theorem encode_two (a b : UInt8) :
    encode [a, b] = [groupLetter a b 0 18, groupLetter a b 0 12, groupLetter a b 0 6, '='] := by
  have h₁ : groupLetter a b 0 18 = letter (number ((bits a).take 6)) :=
    groupLetter_eq [] ((bits a).drop 6 ++ bits b ++ bits 0) rfl rfl
  have h₂ : groupLetter a b 0 12 = letter (number ((bits a).drop 6 ++ (bits b).take 4)) :=
    groupLetter_eq ((bits a).take 6) ((bits b).drop 4 ++ bits 0) rfl rfl
  have h₃ : groupLetter a b 0 6 = letter (number ((bits b).drop 4 ++ List.replicate 2 false)) :=
    groupLetter_eq (bits a ++ (bits b).take 4) (List.replicate 6 false) rfl rfl
  rw [h₁, h₂, h₃]
  rfl

theorem encode_three (a b c : UInt8) (rest : List UInt8) :
    encode (a :: b :: c :: rest) =
      [groupLetter a b c 18, groupLetter a b c 12, groupLetter a b c 6, groupLetter a b c 0] ++ encode rest := by
  have h₁ : groupLetter a b c 18 = letter (number ((bits a).take 6)) :=
    groupLetter_eq [] ((bits a).drop 6 ++ bits b ++ bits c) rfl rfl
  have h₂ : groupLetter a b c 12 = letter (number ((bits a).drop 6 ++ (bits b).take 4)) :=
    groupLetter_eq ((bits a).take 6) ((bits b).drop 4 ++ bits c) rfl rfl
  have h₃ : groupLetter a b c 6 = letter (number ((bits b).drop 4 ++ (bits c).take 2)) :=
    groupLetter_eq (bits a ++ (bits b).take 4) ((bits c).drop 2) rfl rfl
  have h₄ : groupLetter a b c 0 = letter (number ((bits c).drop 2)) :=
    groupLetter_eq (bits a ++ bits b ++ (bits c).take 2) [] rfl rfl
  rw [h₁, h₂, h₃, h₄]
  exact pad_four _ _ _ _ _

end Base64
