import Fluxa.Base.Cutoff
import Mathlib.Tactic.NormNum
import Mathlib.Tactic.Ring

/-! Decoding bytes from a buffer. A decoder walks a cursor through memory of which only the first `size`
bytes are the buffer's: nothing stops it from reading on, but every range it reads is noted, so that
reading outside the buffer is a fact about the cursor. Decoders that recurse on what they read take fuel.

There are two sets of rules. `Meets` is for input from anywhere: what holds of the cursor whatever the
bytes are. `Decodes` is for input that an encoder wrote: what is read back from it. -/

namespace Wire

open Cutoff Wire

section Words

/-- The `w` low bytes of a number, least significant first. -/
def bytesLE : ℕ → ℕ → List UInt8
  | 0, _ => []
  | w + 1, n => UInt8.ofNat n :: bytesLE w (n / 256)

def natLE : List UInt8 → ℕ
  | [] => 0
  | b :: bs => b.toNat + 256 * natLE bs

@[simp] theorem length_bytesLE (w n : ℕ) : (bytesLE w n).length = w := by
  induction w generalizing n with
  | zero => rfl
  | succ w ih => simp [bytesLE, ih]

theorem natLE_bytesLE (w n : ℕ) : natLE (bytesLE w n) = n % 256 ^ w := by
  induction w generalizing n with
  | zero => simp [bytesLE, natLE, Nat.mod_one]
  | succ w ih =>
    have hsplit : n % 256 ^ (w + 1) = n % 256 + 256 * (n / 256 % 256 ^ w) := by rw [pow_succ', Nat.mod_mul]
    rw [bytesLE, natLE, ih, UInt8.toNat_ofNat', hsplit]

theorem bytesLE_natLE (l : List UInt8) : bytesLE l.length (natLE l) = l := by
  induction l with
  | nil => rfl
  | cons b bs ih =>
    have hlow : UInt8.ofNat (b.toNat + 256 * natLE bs) = b := by
      apply UInt8.toNat.inj
      rw [UInt8.toNat_ofNat']
      have := b.toNat_lt
      omega
    have hhigh : (b.toNat + 256 * natLE bs) / 256 = natLE bs := by
      have := b.toNat_lt
      omega
    rw [List.length_cons, natLE, bytesLE, hlow, hhigh, ih]

theorem natLE_lt (l : List UInt8) : natLE l < 256 ^ l.length := by
  rw [← bytesLE_natLE l, natLE_bytesLE, length_bytesLE]
  exact Nat.mod_lt _ (by positivity)

theorem natLE_append (l l' : List UInt8) : natLE (l ++ l') = natLE l + 256 ^ l.length * natLE l' := by
  induction l with
  | nil => simp [natLE]
  | cons b bs ih =>
    rw [List.cons_append, natLE, natLE, ih, List.length_cons, pow_succ]
    ring

theorem natLE_injective {l l' : List UInt8} (hlen : l.length = l'.length) (h : natLE l = natLE l') : l = l' := by
  rw [← bytesLE_natLE l, ← bytesLE_natLE l', hlen, h]

def int32LE (x : Int32) : List UInt8 := bytesLE 4 x.toUInt32.toNat

def int64LE (x : Int64) : List UInt8 := bytesLE 8 x.toUInt64.toNat

def uint32LE (x : UInt32) : List UInt8 := bytesLE 4 x.toNat

def uint64LE (x : UInt64) : List UInt8 := bytesLE 8 x.toNat

@[simp] theorem length_uint32LE (x : UInt32) : (uint32LE x).length = 4 := length_bytesLE 4 _

@[simp] theorem length_int32LE (x : Int32) : (int32LE x).length = 4 := length_bytesLE 4 _

@[simp] theorem length_int64LE (x : Int64) : (int64LE x).length = 8 := length_bytesLE 8 _

@[simp] theorem length_uint64LE (x : UInt64) : (uint64LE x).length = 8 := length_bytesLE 8 _

def int32OfLE (l : List UInt8) : Int32 := (UInt32.ofNat (natLE l)).toInt32

def int64OfLE (l : List UInt8) : Int64 := (UInt64.ofNat (natLE l)).toInt64

def uint32OfLE (l : List UInt8) : UInt32 := .ofNat (natLE l)

def uint64OfLE (l : List UInt8) : UInt64 := .ofNat (natLE l)

@[simp] theorem uint32OfLE_uint32LE (x : UInt32) : uint32OfLE (uint32LE x) = x := by
  simp [uint32OfLE, uint32LE, natLE_bytesLE]

theorem natLE_uint32LE (x : UInt32) : natLE (uint32LE x) = x.toNat := by
  rw [uint32LE, natLE_bytesLE]
  exact Nat.mod_eq_of_lt x.toNat_lt

theorem uint32LE_uint32OfLE {l : List UInt8} (h : l.length = 4) : uint32LE (uint32OfLE l) = l := by
  have hlt := natLE_lt l
  rw [h] at hlt
  rw [uint32LE, uint32OfLE, UInt32.toNat_ofNat_of_lt' hlt, ← h, bytesLE_natLE]

theorem uint64LE_uint64OfLE {l : List UInt8} (h : l.length = 8) : uint64LE (uint64OfLE l) = l := by
  have hlt := natLE_lt l
  rw [h] at hlt
  rw [uint64LE, uint64OfLE, UInt64.toNat_ofNat_of_lt' hlt, ← h, bytesLE_natLE]

@[simp] theorem int32OfLE_int32LE (x : Int32) : int32OfLE (int32LE x) = x := by
  simp [int32OfLE, int32LE, natLE_bytesLE]

@[simp] theorem uint64OfLE_uint64LE (x : UInt64) : uint64OfLE (uint64LE x) = x := by
  simp [uint64OfLE, uint64LE, natLE_bytesLE]

@[simp] theorem int64OfLE_int64LE (x : Int64) : int64OfLE (int64LE x) = x := by
  simp [int64OfLE, int64LE, natLE_bytesLE]

end Words

/-- Memory from the start of a buffer on, and the size of the buffer. -/
structure Buffer where
  byte : ℕ → UInt8
  size : ℕ

namespace Buffer

def slice (b : Buffer) (pos n : ℕ) : List UInt8 := (List.range n).map fun i => b.byte (pos + i)

@[simp] theorem length_slice (b : Buffer) (pos n : ℕ) : (b.slice pos n).length = n := by simp [slice]

/-- The buffer holds these bytes at a position. -/
def At (b : Buffer) (pos : ℕ) (l : List UInt8) : Prop := pos + l.length ≤ b.size ∧ b.slice pos l.length = l

variable {b : Buffer} {pos : ℕ} {l l' : List UInt8}

theorem slice_add (b : Buffer) (pos n k : ℕ) : b.slice pos (n + k) = b.slice pos n ++ b.slice (pos + n) k := by
  simp [slice, List.range_add, Function.comp_def, Nat.add_assoc]

theorem At.split (h : b.At pos (l ++ l')) : b.At pos l ∧ b.At (pos + l.length) l' := by
  obtain ⟨hsize, hbytes⟩ := h
  rw [List.length_append] at hsize hbytes
  rw [slice_add] at hbytes
  obtain ⟨hl, hl'⟩ := List.append_inj hbytes (length_slice ..)
  exact ⟨⟨by omega, hl⟩, by omega, hl'⟩

theorem At.append (h : b.At pos l) (h' : b.At (pos + l.length) l') : b.At pos (l ++ l') := by
  refine ⟨by have := h'.1; rw [List.length_append]; omega, ?_⟩
  rw [List.length_append, slice_add, h.2, h'.2]

/-- The buffer that holds nothing but these bytes. -/
def ofList (l : List UInt8) : Buffer := ⟨fun i => l.getD i 0, l.length⟩

theorem at_ofList (l : List UInt8) : (ofList l).At 0 l := by
  refine ⟨by simp [ofList], List.ext_getElem (by simp) fun i hi hi' => ?_⟩
  simp [slice, ofList, hi']

/-- The memory from a position on, taken as a buffer of its own. -/
def window (b : Buffer) (pos n : ℕ) : Buffer := ⟨fun i => b.byte (pos + i), n⟩

theorem slice_window (b : Buffer) (pos n k m : ℕ) : (b.window pos n).slice k m = b.slice (pos + k) m := by
  simp [slice, window, Nat.add_assoc]

theorem At.window (h : b.At pos l) : (b.window pos l.length).At 0 l := by
  refine ⟨(Nat.zero_add _).le, ?_⟩
  rw [slice_window, Nat.add_zero]
  exact h.2

end Buffer

/-- Where a decoder is, the ranges it has read as start and length, and whether it ran out of fuel. -/
structure Cursor where
  pos : ℕ
  reads : List (ℕ × ℕ)
  spent : Bool

def Cursor.start : Cursor := ⟨0, [], false⟩

abbrev Decoder := Cutoff Cursor

section Decoders

variable {α : Type} (b : Buffer)

/-- Fails unless that many bytes are left. -/
def require (n : ℕ) : Decoder Unit := fun c => if c.pos + n ≤ b.size then (some (), c) else (none, c)

/-- Whether that many bytes are left. -/
def fits (n : ℕ) : Decoder Bool := fun c => (some (decide (c.pos + n ≤ b.size)), c)

/-- Copies bytes out of the memory and steps over them. -/
def bytes (n : ℕ) : Decoder (List UInt8) := fun c =>
  (some (b.slice c.pos n), { c with pos := c.pos + n, reads := (c.pos, n) :: c.reads })

/-- Steps over bytes without looking at them. -/
def skip (n : ℕ) : Decoder Unit := fun c => (some (), { c with pos := c.pos + n })

def int32 : Decoder Int32 := int32OfLE <$> bytes b 4

def int64 : Decoder Int64 := int64OfLE <$> bytes b 8

def uint64 : Decoder UInt64 := uint64OfLE <$> bytes b 8

def outOfFuel : Decoder α := fun c => (none, { c with spent := true })

def times : ℕ → Decoder α → Decoder (List α)
  | 0, _ => pure []
  | n + 1, d => do
      let a ← d
      let as ← times n d
      pure (a :: as)

/-- Reads the number at a position, wherever the cursor is. -/
def uint32At (pos : ℕ) : Decoder UInt32 := fun c =>
  (some (uint32OfLE (b.slice pos 4)), { c with reads := (pos, 4) :: c.reads })

/-- Runs a decoder on a window. It starts at the beginning of the window, and its reads are noted where they are. -/
def inWindow (pos n : ℕ) (d : Buffer → Decoder α) : Decoder α := fun c =>
  let r := d (b.window pos n) .start
  (r.1, ⟨c.pos, (r.2.reads.map fun x => (pos + x.1, x.2)) ++ c.reads, c.spent || r.2.spent⟩)

theorem fst_inWindow (pos n : ℕ) (d : Buffer → Decoder α) (c : Cursor) :
    (inWindow b pos n d c).1 = (d (b.window pos n) .start).1 := rfl

/-- Goes on after a failure, which is reported as `none`. -/
def attempt (d : Decoder α) : Decoder (Option α) := fun c => (some (d c).1, (d c).2)

variable {b} {n : ℕ} {c : Cursor}

theorem require_of_le (h : c.pos + n ≤ b.size) : require b n c = (some (), c) := if_pos h

theorem require_of_lt (h : b.size < c.pos + n) : require b n c = (none, c) := if_neg (Nat.not_le.mpr h)

theorem fits_of_le (h : c.pos + n ≤ b.size) : fits b n c = (some true, c) := by rw [fits, decide_eq_true h]

theorem fits_of_lt (h : b.size < c.pos + n) : fits b n c = (some false, c) := by
  rw [fits, decide_eq_false (Nat.not_le.mpr h)]

end Decoders

section Fuel

variable {α β : Type} {d d' : Decoder α} {f f' : α → Decoder β} {c : Cursor}

/-- The decoder is cut off because its fuel has run out. -/
def RunsOut (d : Decoder α) (c : Cursor) : Prop := (d c).1 = none ∧ (d c).2.spent = true

theorem runsOut_bind : RunsOut (d >>= f) c ↔ RunsOut d c ∨ ∃ a c', d c = (some a, c') ∧ RunsOut (f a) c' := by
  rcases hd : d c with ⟨_ | a, c'⟩
  · simp [RunsOut, bind_of_none hd, hd]
  · simp [RunsOut, bind_of_some hd, hd]

theorem not_runsOut_pure (a : α) : ¬RunsOut (pure a) c := by
  rintro ⟨h, -⟩
  cases h

theorem runsOut_bind_pure {g : α → β} : RunsOut (d >>= fun a => pure (g a)) c ↔ RunsOut d c := by
  rw [runsOut_bind]
  refine or_iff_left ?_
  rintro ⟨a, c', -, h⟩
  exact not_runsOut_pure _ h

/-- Out of fuel in one of several rounds: the rounds before it have a result. -/
theorem runsOut_times : ∀ {n : ℕ} {c : Cursor},
    RunsOut (times n d) c ↔ ∃ i < n, ∃ as c', times i d c = (some as, c') ∧ RunsOut d c'
  | 0, c => by simp [times, not_runsOut_pure]
  | n + 1, c => by
      rw [times, runsOut_bind]
      constructor
      · rintro (h | ⟨a, c₁, hd, h⟩)
        · exact ⟨0, Nat.succ_pos n, [], c, rfl, h⟩
        · obtain ⟨i, hi, as, c', hrun, hout⟩ := runsOut_times.mp (runsOut_bind_pure.mp h)
          exact ⟨i + 1, Nat.succ_lt_succ hi, a :: as, c', by rw [times, bind_of_some hd, bind_of_some hrun]; rfl, hout⟩
      · rintro ⟨_ | i, hi, as, c', hrun, hout⟩
        · cases hrun
          exact .inl hout
        · obtain ⟨a, c₁, hd, hrun⟩ := exists_of_bind hrun
          obtain ⟨as', c₂, htail, hrun⟩ := exists_of_bind hrun
          cases hrun
          have hout' := runsOut_times.mpr ⟨i, Nat.lt_of_succ_lt_succ hi, as', c', htail, hout⟩
          exact .inr ⟨a, c₁, hd, runsOut_bind_pure.mpr hout'⟩

theorem RunsOut.times_of_le {n k : ℕ} (h : RunsOut (times n d) c) (hk : n ≤ k) : RunsOut (times k d) c := by
  obtain ⟨i, hi, hrun⟩ := runsOut_times.mp h
  exact runsOut_times.mpr ⟨i, hi.trans_le hk, hrun⟩

/-- The first decoder does what the second does until its fuel runs out. -/
def Falters (d d' : Decoder α) : Prop := ∀ c, RunsOut d c ∨ d c = d' c

theorem Falters.refl (d : Decoder α) : Falters d d := fun _ => .inr rfl

theorem Falters.bind (hd : Falters d d') (hf : ∀ a, Falters (f a) (f' a)) : Falters (d >>= f) (d' >>= f') := by
  intro c
  rcases hd c with h | h
  · exact .inl (runsOut_bind.mpr (.inl h))
  · rcases hdc : d c with ⟨_ | a, c'⟩ <;> rw [hdc] at h
    · exact .inr (by rw [bind_of_none hdc, bind_of_none h.symm])
    · rcases hf a c' with hout | heq
      · exact .inl (runsOut_bind.mpr (.inr ⟨a, c', hdc, hout⟩))
      · exact .inr (by rw [bind_of_some hdc, bind_of_some h.symm, heq])

theorem Falters.ite {P : Prop} [Decidable P] {e e' : Decoder α} (hd : Falters d d') (he : Falters e e') :
    Falters (if P then d else e) (if P then d' else e') := by
  split
  · exact hd
  · exact he

theorem Falters.times (h : Falters d d') : ∀ n, Falters (times n d) (times n d')
  | 0 => .refl _
  | n + 1 => h.bind fun _ => (Falters.times h n).bind fun _ => .refl _

theorem Falters.trans {d'' : Decoder α} (h : Falters d d') (h' : Falters d' d'') : Falters d d'' := by
  intro c
  rcases h c with hout | heq
  · exact .inl hout
  · rcases h' c with hout | heq'
    · exact .inl (by rwa [RunsOut, heq])
    · exact .inr (heq.trans heq')

theorem Falters.extends (h : Falters d d') : d.Extends d' := by
  intro c a c' hd
  rcases h c with hout | heq
  · rw [RunsOut, hd] at hout
    cases hout.1
  · rw [← heq, hd]

/-- A result that some fuel gives is given by any other, unless that runs out. -/
theorem runsOut_or_eq {d : ℕ → Decoder α} (h : ∀ {m n : ℕ}, m ≤ n → Falters (d m) (d n)) {fuel : ℕ} {a : α} {c' : Cursor}
    (hd : d fuel c = (some a, c')) (fuel' : ℕ) : RunsOut (d fuel') c ∨ d fuel' c = (some a, c') := by
  rcases le_total fuel' fuel with hle | hle
  · rcases h hle c with hout | heq
    · exact .inl hout
    · exact .inr (heq.trans hd)
  · exact .inr ((h hle).extends hd)

/-- The decoder uses no fuel. -/
def Unfuelled (d : Decoder α) : Prop := ∀ c, (d c).2.spent = c.spent

theorem Unfuelled.bind (hd : Unfuelled d) (hf : ∀ a, Unfuelled (f a)) : Unfuelled (d >>= f) := by
  intro c
  have h := hd c
  rcases hdc : d c with ⟨_ | a, c'⟩ <;> rw [hdc] at h
  · rw [bind_of_none hdc]
    exact h
  · rw [bind_of_some hdc, hf a c']
    exact h

theorem unfuelled_require (b : Buffer) (n : ℕ) : Unfuelled (require b n) := by
  intro c
  rw [require]
  split <;> rfl

theorem Unfuelled.ite {P : Prop} [Decidable P] (hd : Unfuelled d) (hd' : Unfuelled d') :
    Unfuelled (if P then d else d') := by
  split
  · exact hd
  · exact hd'

/-- A result costs no fuel: only being cut off does. -/
def Frugal (d : Decoder α) : Prop := ∀ ⦃c a c'⦄, d c = (some a, c') → c'.spent = c.spent

theorem Unfuelled.frugal (hd : Unfuelled d) : Frugal d := by
  intro c a c' h
  rw [← hd c, h]

theorem Frugal.bind (hd : Frugal d) (hf : ∀ a, Frugal (f a)) : Frugal (d >>= f) := by
  intro c r c' h
  obtain ⟨a, c₁, hfirst, hrest⟩ := exists_of_bind h
  exact (hf a hrest).trans (hd hfirst)

theorem Frugal.times (hd : Frugal d) : ∀ n, Frugal (times n d)
  | 0 => Unfuelled.frugal fun _ => rfl
  | n + 1 => hd.bind fun _ => (Frugal.times hd n).bind fun _ => Unfuelled.frugal fun _ => rfl

theorem Unfuelled.not_runsOut (hd : Unfuelled d) (hc : c.spent = false) : ¬RunsOut d c := by
  intro h
  have hspent := hd c
  rw [h.2, hc] at hspent
  cases hspent

end Fuel

section Anywhere

/-- All reads were inside the buffer, and the fuel has lasted. -/
structure Cursor.Safe (b : Buffer) (c : Cursor) : Prop where
  inside : ∀ r ∈ c.reads, r.1 + r.2 ≤ b.size
  unspent : c.spent = false

/-- A safe cursor with `n` bytes left to read, and with more fuel than there are bytes left. -/
structure Cursor.Within (b : Buffer) (fuel n : ℕ) (c : Cursor) : Prop extends c.Safe b where
  left : c.pos + n ≤ b.size
  fueled : b.size < c.pos + fuel

/-- From a cursor with `P` the decoder gives a result with `Q`, or fails with a safe cursor. -/
def Meets {α : Type} (b : Buffer) (d : Decoder α) (P : Cursor → Prop) (Q : α → Cursor → Prop) : Prop :=
  ∀ c, P c → match d c with
    | (some a, c') => Q a c'
    | (none, c') => c'.Safe b

variable {α β : Type} {b : Buffer} {fuel n k : ℕ} {P P' : Cursor → Prop} {Q : α → Cursor → Prop}

theorem Cursor.Within.mono {fuel' n' : ℕ} {c : Cursor} (h : c.Within b fuel n) (hfuel : fuel ≤ fuel')
    (hn : n' ≤ n) : c.Within b fuel' n' :=
  ⟨h.toSafe, by have := h.left; omega, by have := h.fueled; omega⟩

theorem meets_pure {a : α} (h : ∀ c, P c → Q a c) : Meets b (pure a) P Q := h

theorem meets_cut (h : ∀ c, P c → c.Safe b) : Meets b (cut : Decoder α) P Q := h

theorem Meets.bind {d : Decoder α} {f : α → Decoder β} {R : β → Cursor → Prop} (hd : Meets b d P Q)
    (hf : ∀ a, Meets b (f a) (Q a) R) : Meets b (d >>= f) P R := by
  intro c hc
  have h := hd c hc
  rw [bind_apply]
  rcases hdc : d c with ⟨_ | a, c'⟩ <;> rw [hdc] at h
  · exact h
  · exact hf a c' h

theorem Meets.mono {d : Decoder α} {Q' : α → Cursor → Prop} (h : Meets b d P Q) (hP : ∀ c, P' c → P c)
    (hQ : ∀ a c, Q a c → Q' a c) : Meets b d P' Q' := by
  intro c hc
  have h := h c (hP c hc)
  rcases hdc : d c with ⟨_ | a, c'⟩ <;> rw [hdc] at h
  · exact h
  · exact hQ a c' h

theorem Meets.map {d : Decoder α} {f : α → β} {Q : Cursor → Prop} (h : Meets b d P fun _ => Q) :
    Meets b (f <$> d) P fun _ => Q := by
  rw [map_eq_pure_bind]
  exact h.bind fun a => meets_pure fun _ h => h

theorem meets_require : Meets b (require b n) (Cursor.Within b fuel 0) fun _ => Cursor.Within b fuel n := by
  intro c hc
  rcases le_or_gt (c.pos + n) b.size with h | h
  · rw [require_of_le h]
    exact ⟨hc.toSafe, h, hc.fueled⟩
  · rw [require_of_lt h]
    exact hc.toSafe

theorem meets_fits :
    Meets b (fits b n) (Cursor.Within b fuel 0) fun ok => Cursor.Within b fuel (if ok then n else 0) := by
  intro c hc
  rcases le_or_gt (c.pos + n) b.size with h | h
  · rw [fits_of_le h]
    exact ⟨hc.toSafe, h, hc.fueled⟩
  · rw [fits_of_lt h]
    exact hc

theorem meets_bytes : Meets b (bytes b k) (Cursor.Within b fuel (k + n)) fun _ => Cursor.Within b (fuel - k) n := by
  intro c hc
  have hleft := hc.left
  have hfueled := hc.fueled
  refine ⟨⟨fun r hr => ?_, hc.unspent⟩, ?_, ?_⟩
  · rcases List.mem_cons.mp hr with rfl | hr
    · show c.pos + k ≤ b.size
      omega
    · exact hc.inside r hr
  · show c.pos + k + n ≤ b.size
    omega
  · show b.size < c.pos + k + (fuel - k)
    omega

theorem meets_skip : Meets b (skip k) (Cursor.Within b fuel (k + n)) fun _ => Cursor.Within b fuel n := by
  intro c hc
  have hleft := hc.left
  have hfueled := hc.fueled
  exact ⟨⟨hc.inside, hc.unspent⟩, by show c.pos + k + n ≤ b.size; omega, by show b.size < c.pos + k + fuel; omega⟩

theorem meets_times {d : Decoder α} (h : Meets b d P fun _ => P) (hP : ∀ c, P c → c.Safe b) :
    ∀ n, Meets b (times n d) P fun _ => P
  | 0 => meets_pure fun _ h => h
  | n + 1 => h.bind fun _ => (meets_times h hP n).bind fun _ => meets_pure fun _ h => h

theorem Cursor.Safe.uint32At {c : Cursor} {pos : ℕ} (hc : c.Safe b) (hpos : pos + 4 ≤ b.size) :
    (uint32At b pos c).2.Safe b := by
  refine ⟨fun r hr => ?_, hc.unspent⟩
  rcases List.mem_cons.mp hr with rfl | hr
  · exact hpos
  · exact hc.inside r hr

/-- A window that lies in the buffer keeps reads that are safe in it. -/
theorem Cursor.Safe.inWindow {d : Buffer → Decoder α} {c : Cursor} {pos : ℕ} (hc : c.Safe b) (hpos : pos + n ≤ b.size)
    (hd : (d (b.window pos n) .start).2.Safe (b.window pos n)) : (inWindow b pos n d c).2.Safe b := by
  refine ⟨fun r hr => ?_, ?_⟩
  · rcases List.mem_append.mp hr with hr | hr
    · obtain ⟨x, hx, rfl⟩ := List.mem_map.mp hr
      have hinside : x.1 + x.2 ≤ n := hd.inside x hx
      show pos + x.1 + x.2 ≤ b.size
      omega
    · exact hc.inside r hr
  · show (c.spent || _) = false
    rw [hc.unspent, hd.unspent]
    rfl

theorem meets_attempt {d : Decoder α} (h : Meets b d P Q) :
    Meets b (attempt d) P fun o c => match o with
      | some a => Q a c
      | none => c.Safe b := by
  intro c hc
  have h := h c hc
  rcases hd : d c with ⟨_ | a, c'⟩ <;> rw [hd] at h <;> simpa [attempt, hd] using h

/-- The decoder ends in a safe cursor, with a result. -/
structure Gives (b : Buffer) (d : Decoder α) (c : Cursor) (Q : α → Prop) : Prop where
  ends : ∃ a c', d c = (some a, c') ∧ c'.Safe b ∧ Q a

theorem gives_pure {a : α} {c : Cursor} {Q : α → Prop} (hc : c.Safe b) (ha : Q a) : Gives b (pure a) c Q :=
  ⟨a, c, rfl, hc, ha⟩

theorem Gives.bind {d : Decoder α} {f : α → Decoder β} {c : Cursor} {Q : α → Prop} {R : β → Prop}
    (hd : Gives b d c Q) (hf : ∀ a c, c.Safe b → Q a → Gives b (f a) c R) : Gives b (d >>= f) c R := by
  obtain ⟨a, c', hrun, hsafe, ha⟩ := hd.ends
  obtain ⟨r, c'', hrest, hsafe', hr⟩ := (hf a c' hsafe ha).ends
  exact ⟨r, c'', (bind_of_some hrun).trans hrest, hsafe', hr⟩

theorem gives_uint32At {c : Cursor} {pos : ℕ} (hc : c.Safe b) (hpos : pos + 4 ≤ b.size) :
    Gives b (uint32At b pos) c (· = uint32OfLE (b.slice pos 4)) :=
  ⟨_, _, rfl, hc.uint32At hpos, rfl⟩

theorem gives_inWindow {d : Buffer → Decoder α} {c : Cursor} {pos : ℕ} {Q : α → Prop} (hc : c.Safe b)
    (hpos : pos + n ≤ b.size) (hd : Gives (b.window pos n) (d (b.window pos n)) .start Q) :
    Gives b (inWindow b pos n d) c Q := by
  obtain ⟨a, c', hrun, hsafe, ha⟩ := hd.ends
  refine ⟨a, (inWindow b pos n d c).2, Prod.ext ?_ rfl, hc.inWindow hpos ?_, ha⟩
  · rw [fst_inWindow, hrun]
  · rw [hrun]
    exact hsafe

end Anywhere

section Encoded

variable {α β : Type} {b : Buffer} {l l' : List UInt8}

/-- Where the buffer holds these bytes the decoder reads them all and gives this result. -/
def Decodes (b : Buffer) (d : Decoder α) (l : List UInt8) (a : α) : Prop :=
  ∀ c, b.At c.pos l → ∃ reads, d c = (some a, ⟨c.pos + l.length, reads, c.spent⟩)

theorem decodes_pure (a : α) : Decodes b (pure a) [] a := fun c _ => ⟨c.reads, rfl⟩

theorem Decodes.bind {d : Decoder α} {f : α → Decoder β} {a : α} {r : β} (hd : Decodes b d l a)
    (hf : Decodes b (f a) l' r) : Decodes b (d >>= f) (l ++ l') r := by
  intro c hc
  obtain ⟨hl, hl'⟩ := hc.split
  obtain ⟨reads, hd⟩ := hd c hl
  obtain ⟨reads', hf⟩ := hf ⟨c.pos + l.length, reads, c.spent⟩ hl'
  exact ⟨reads', by rw [bind_of_some hd, hf, List.length_append, Nat.add_assoc]⟩

theorem Decodes.last {d : Decoder α} {f : α → Decoder β} {a : α} {r : β} (hd : Decodes b d l a)
    (hf : Decodes b (f a) [] r) : Decodes b (d >>= f) l r := by
  rw [← l.append_nil]
  exact hd.bind hf

theorem Decodes.map {d : Decoder α} {a : α} (f : α → β) (h : Decodes b d l a) : Decodes b (f <$> d) l (f a) := by
  rw [map_eq_pure_bind]
  exact h.last (decodes_pure (f a))

theorem Decodes.require {d : Unit → Decoder α} {a : α} {n : ℕ} (h : Decodes b (d ()) l a) (hn : n ≤ l.length) :
    Decodes b (Wire.require b n >>= d) l a := by
  intro c hc
  rw [bind_of_some (require_of_le ((Nat.add_le_add_left hn _).trans hc.1))]
  exact h c hc

theorem Decodes.fits {d : Bool → Decoder α} {a : α} {n : ℕ} (h : Decodes b (d true) l a) (hn : n ≤ l.length) :
    Decodes b (Wire.fits b n >>= d) l a := by
  intro c hc
  rw [bind_of_some (fits_of_le ((Nat.add_le_add_left hn _).trans hc.1))]
  exact h c hc

theorem decodes_bytes (l : List UInt8) : Decodes b (bytes b l.length) l l :=
  fun c hc => ⟨(c.pos, l.length) :: c.reads, by rw [bytes, hc.2]⟩

theorem decodes_skip (l : List UInt8) : Decodes b (skip l.length) l () := fun c _ => ⟨c.reads, rfl⟩

theorem decodes_int32 (x : Int32) : Decodes b (int32 b) (int32LE x) x := by
  have h := (decodes_bytes (b := b) (int32LE x)).map int32OfLE
  rwa [int32OfLE_int32LE, length_int32LE] at h

theorem decodes_int64 (x : Int64) : Decodes b (int64 b) (int64LE x) x := by
  have h := (decodes_bytes (b := b) (int64LE x)).map int64OfLE
  rwa [int64OfLE_int64LE, length_int64LE] at h

theorem decodes_uint64 (x : UInt64) : Decodes b (uint64 b) (uint64LE x) x := by
  have h := (decodes_bytes (b := b) (uint64LE x)).map uint64OfLE
  rwa [uint64OfLE_uint64LE, length_uint64LE] at h

theorem Decodes.attempt {d : Decoder α} {a : α} (h : Decodes b d l a) : Decodes b (attempt d) l (some a) := by
  intro c hc
  obtain ⟨reads, hd⟩ := h c hc
  exact ⟨reads, by rw [Wire.attempt, hd]⟩

/-- A decoder may give something else than what was encoded. -/
theorem decodes_times_map {d : Decoder β} {encode : α → List UInt8} {f : α → β} : ∀ {as : List α},
    (∀ a ∈ as, Decodes b d (encode a) (f a)) → Decodes b (times as.length d) (as.flatMap encode) (as.map f)
  | [], _ => decodes_pure []
  | a :: as, h => by
      have hrest : Decodes b (times as.length d) (as.flatMap encode) (as.map f) :=
        decodes_times_map fun x hx => h x (List.mem_cons_of_mem a hx)
      have hcons := hrest.map (f a :: ·)
      rw [map_eq_pure_bind] at hcons
      exact (h a List.mem_cons_self).bind hcons

theorem decodes_times {d : Decoder α} {encode : α → List UInt8} {as : List α}
    (h : ∀ a ∈ as, Decodes b d (encode a) a) : Decodes b (times as.length d) (as.flatMap encode) as := by
  have hmap := decodes_times_map (f := id) h
  rwa [List.map_id] at hmap

end Encoded

section Exhausts

variable {α β : Type} {b : Buffer} {l l' : List UInt8} {a : α}

/-- Where these bytes are the last ones of the buffer the decoder gives this result. -/
def Exhausts (b : Buffer) (d : Decoder α) (l : List UInt8) (a : α) : Prop :=
  ∀ c, b.At c.pos l → c.pos + l.length = b.size → ∃ c', d c = (some a, c')

theorem exhausts_pure (a : α) : Exhausts b (pure a) l a := fun c _ _ => ⟨c, rfl⟩

theorem Decodes.then_exhausts {d : Decoder β} {f : β → Decoder α} {r : β} (hd : Decodes b d l r)
    (hf : Exhausts b (f r) l' a) : Exhausts b (d >>= f) (l ++ l') a := by
  intro c hc hend
  obtain ⟨hl, hl'⟩ := hc.split
  obtain ⟨reads, hd⟩ := hd c hl
  rw [bind_of_some hd]
  exact hf _ hl' (by rw [← hend, List.length_append, Nat.add_assoc])

theorem Exhausts.bind_pure {d : Decoder β} {r : β} {f : β → α} (h : Exhausts b d l r) :
    Exhausts b (d >>= fun r => pure (f r)) l (f r) := by
  intro c hc hend
  obtain ⟨c', hd⟩ := h c hc hend
  exact ⟨c', by rw [bind_of_some hd]; rfl⟩

theorem Exhausts.require {d : Unit → Decoder α} {n : ℕ} (h : Exhausts b (d ()) l a) (hn : n ≤ l.length) :
    Exhausts b (Wire.require b n >>= d) l a := by
  intro c hc hend
  rw [bind_of_some (require_of_le (by omega))]
  exact h c hc hend

/-- No more bytes are there. -/
theorem exhausts_fits {d : Bool → Decoder α} {n : ℕ} (h : Exhausts b (d false) [] a) (hn : 0 < n) :
    Exhausts b (fits b n >>= d) [] a := by
  intro c hc hend
  rw [List.length_nil] at hend
  rw [bind_of_some (fits_of_lt (by omega))]
  exact h c hc hend

end Exhausts

section CutShort

variable {α β : Type} {b : Buffer} {l l' : List UInt8} {n : ℕ} {Q : α → Cursor → Prop}

/-- The buffer ends inside these bytes, which start at a position. -/
structure Buffer.EndsIn (b : Buffer) (pos : ℕ) (l : List UInt8) : Prop where
  left : pos ≤ b.size
  short : b.size < pos + l.length
  bytes : b.slice pos (b.size - pos) = l.take (b.size - pos)

/-- The end lies in the second part, or in the first. -/
theorem Buffer.EndsIn.split {pos : ℕ} (h : b.EndsIn pos (l ++ l')) :
    if pos + l.length ≤ b.size then b.At pos l ∧ b.EndsIn (pos + l.length) l' else b.EndsIn pos l := by
  obtain ⟨hleft, hshort, hbytes⟩ := h
  rw [List.length_append] at hshort
  split
  · next hroom =>
    obtain ⟨k, hk⟩ := Nat.exists_eq_add_of_le hroom
    have hsize : b.size - pos = l.length + k := by omega
    have hk' : b.size - (pos + l.length) = k := by omega
    rw [hsize, slice_add, List.take_length_add_append] at hbytes
    obtain ⟨hl, hl'⟩ := List.append_inj hbytes (length_slice ..)
    exact ⟨⟨hroom, hl⟩, ⟨hroom, by omega, by rw [hk', hl']⟩⟩
  · next hroom =>
    refine ⟨hleft, by omega, ?_⟩
    rwa [List.take_append_of_le_length (by omega)] at hbytes

/-- Where the buffer ends inside these bytes, though not in the first `n`, the decoder fails or gives a result
with `Q`. -/
def CutShort (b : Buffer) (d : Decoder α) (n : ℕ) (l : List UInt8) (Q : α → Cursor → Prop) : Prop :=
  ∀ c, b.EndsIn c.pos l → c.pos + n ≤ b.size → Ensures False d c Q

theorem cutShort_nil {d : Decoder α} : CutShort b d n [] Q := by
  intro c hc
  have hshort := hc.short
  rw [List.length_nil] at hshort
  exact absurd hshort (Nat.not_lt.mpr hc.left)

theorem CutShort.require {d : Unit → Decoder α} (h : CutShort b (d ()) n l Q) :
    CutShort b (require b n >>= d) 0 l Q := by
  intro c hc _
  rcases le_or_gt (c.pos + n) b.size with hn | hn
  · rw [Ensures, bind_of_some (require_of_le hn)]
    exact h c hc hn
  · exact ensures_of_none (by rw [bind_of_none (require_of_lt hn)])

/-- The first bytes are there and are read as ever. -/
theorem CutShort.read {d : Decoder β} {f : β → Decoder α} {r : β} (hd : Decodes b d l r)
    (hf : CutShort b (f r) n l' Q) : CutShort b (d >>= f) (l.length + n) (l ++ l') Q := by
  intro c hc hn
  have hsplit := hc.split
  rw [if_pos (by omega)] at hsplit
  obtain ⟨reads, hread⟩ := hd c hsplit.1
  rw [Ensures, bind_of_some hread]
  exact hf _ hsplit.2 (by show c.pos + l.length + n ≤ b.size; omega)

/-- The end lies in the second part, or in the first, and then the rest goes on with what that gives. -/
theorem CutShort.bind {d : Decoder β} {f : β → Decoder α} {r : β} {R : β → Cursor → Prop} (hcut : CutShort b d 0 l R)
    (hd : Decodes b d l r) (hR : ∀ r' c, R r' c → Ensures False (f r') c Q)
    (hf : CutShort b (f r) 0 l' Q) : CutShort b (d >>= f) 0 (l ++ l') Q := by
  intro c hc hn
  have hsplit := hc.split
  split at hsplit
  · obtain ⟨reads, hread⟩ := hd c hsplit.1
    rw [Ensures, bind_of_some hread]
    exact hf _ hsplit.2 hsplit.2.left
  · exact (hcut c hsplit hn).bind hR

/-- What is tested for may be missing. -/
theorem CutShort.fits {d : Bool → Decoder α} (htrue : CutShort b (d true) n l Q)
    (hfalse : ∀ c, b.size < c.pos + n → Ensures False (d false) c Q) :
    CutShort b (fits b n >>= d) 0 l Q := by
  intro c hc _
  rcases le_or_gt (c.pos + n) b.size with hn | hn
  · rw [Ensures, bind_of_some (fits_of_le hn)]
    exact htrue c hc hn
  · rw [Ensures, bind_of_some (fits_of_lt hn)]
    exact hfalse c hn

theorem CutShort.attempt {d : Decoder α} (h : CutShort b d n l Q) :
    CutShort b (attempt d) n l fun o c => ∀ a ∈ o, Q a c := by
  intro c hc hn
  show ∀ a ∈ (d c).1, Q a (d c).2
  intro a ha
  exact (h c hc hn).of_eq (Prod.ext ha rfl)

/-- Only the last element can be cut short without a failure, if none can be read from the few bytes left behind. -/
theorem cutShort_times {d : Decoder α} {encode : α → List UInt8} {k : ℕ}
    (hd : ∀ c, b.size < c.pos + k → (d c).1 = none) : ∀ {as : List α}, (∀ a ∈ as, Decodes b d (encode a) a) →
    (∀ a ∈ as, CutShort b d 0 (encode a) fun _ c => b.size < c.pos + k) →
    CutShort b (times as.length d) 0 (as.flatMap encode) fun _ c => b.size < c.pos + k
  | [], _, _ => cutShort_nil
  | a :: as, hdecodes, hcut => by
      have hrest := cutShort_times hd (fun x hx => hdecodes x (List.mem_cons_of_mem a hx))
        fun x hx => hcut x (List.mem_cons_of_mem a hx)
      rw [List.length_cons, times, List.flatMap_cons]
      refine (hcut a List.mem_cons_self).bind (hdecodes a List.mem_cons_self) (fun r c hc => ?_) fun c hc hn => ?_
      · cases as with
        | nil => exact hc
        | cons x xs =>
          refine ensures_of_none ?_
          have hnone : d c = (none, (d c).2) := Prod.ext (hd c hc) rfl
          have htimes : times (x :: xs).length d c = (none, (d c).2) := bind_of_none hnone
          rw [bind_of_none htimes]
      · exact (hrest c hc hn).bind fun as c h => h

end CutShort

end Wire
