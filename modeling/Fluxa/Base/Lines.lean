import Mathlib.Data.List.Basic
import Mathlib.Tactic.Common

/-! A text in lines, and reading it line by line into a buffer. The reader stops behind a line end, when the buffer is
full, or at the end of the text, so that a long line comes in several pieces. -/

namespace Lines

variable {α : Type} [DecidableEq α] (nl : α)

/-- The lines of a text, each with its line end if it has one. -/
def lines : List α → List (List α)
  | [] => []
  | c :: s =>
    if c = nl then [c] :: lines s
    else match lines s with
      | [] => [[c]]
      | l :: ls => (c :: l) :: ls

/-- One read with room for `n` characters: what was read, and the rest of the text. -/
def readLine : ℕ → List α → List α × List α
  | 0, s => ([], s)
  | _ + 1, [] => ([], [])
  | n + 1, c :: s =>
    if c = nl then ([c], s)
    else match readLine n s with
      | (l, rest) => (c :: l, rest)

/-- All that a reader gets with room for `n + 1` characters, if there is room for `room + 1` in the current piece. -/
def pieces (n : ℕ) : ℕ → List α → List (List α)
  | _, [] => []
  | room, c :: s =>
    if c = nl ∨ room = 0 then [c] :: pieces n n s
    else match pieces n (room - 1) s with
      | [] => [[c]]
      | p :: ps => (c :: p) :: ps

section Lines

variable {nl} {s : List α}

theorem lines_eq_nil : lines nl s = [] ↔ s = [] := by
  cases s with
  | nil => simp [lines]
  | cons c s =>
    rw [lines]
    split
    · simp
    · split <;> simp

/-- Only the last character of a line can be a line end. -/
theorem not_mem_dropLast_of_mem_lines {l : List α} (h : l ∈ lines nl s) : l ≠ [] ∧ nl ∉ l.dropLast := by
  induction s generalizing l with
  | nil => cases h
  | cons c s ih =>
    rw [lines] at h
    split at h
    · rcases List.mem_cons.mp h with rfl | h
      · simp
      · exact ih h
    · rename_i hc
      split at h
      · rw [List.mem_singleton.mp h]
        simp
      · rename_i l' ls heq
        rw [heq] at ih
        rcases List.mem_cons.mp h with rfl | h
        · obtain ⟨hne, hmem⟩ := ih List.mem_cons_self
          refine ⟨List.cons_ne_nil c l', ?_⟩
          rw [List.dropLast_cons_of_ne_nil hne, List.mem_cons, not_or]
          exact ⟨fun h => hc h.symm, hmem⟩
        · exact ih (List.mem_cons_of_mem l' h)

end Lines

section Reads

variable {nl} {n : ℕ} {s : List α}

theorem pieces_eq_nil {room : ℕ} : pieces nl n room s = [] ↔ s = [] := by
  cases s with
  | nil => simp [pieces]
  | cons c s =>
    rw [pieces]
    split
    · simp
    · split <;> simp

/-- A read takes the first piece. -/
theorem pieces_eq_cons {room : ℕ} (hs : s ≠ []) :
    pieces nl n room s = (readLine nl (room + 1) s).1 :: pieces nl n n (readLine nl (room + 1) s).2 := by
  induction s generalizing room with
  | nil => exact absurd rfl hs
  | cons c s ih =>
    rw [pieces, readLine]
    by_cases hc : c = nl
    · rw [if_pos (.inl hc), if_pos hc]
    · rw [if_neg hc]
      cases room with
      | zero => simp [readLine]
      | succ room =>
        rw [if_neg (not_or.mpr ⟨hc, Nat.succ_ne_zero room⟩)]
        by_cases hs' : s = []
        · subst hs'
          rfl
        · rw [Nat.add_sub_cancel, ih hs']

theorem length_readLine_lt (nl : α) (n : ℕ) (hs : s ≠ []) : (readLine nl (n + 1) s).2.length < s.length := by
  induction s generalizing n with
  | nil => exact absurd rfl hs
  | cons c s ih =>
    rw [readLine, List.length_cons]
    split
    · exact Nat.lt_succ_self _
    · cases n with
      | zero => exact Nat.lt_succ_self _
      | succ n =>
        by_cases hs' : s = []
        · subst hs'
          exact Nat.zero_lt_succ 0
        · exact Nat.lt_succ_of_lt (ih n hs')

end Reads

section Fitting

/-- The first line has room for `room + 1` characters and the others for `n + 1`. -/
def Fits (n room : ℕ) : List (List α) → Prop
  | [] => True
  | l :: ls => l.length ≤ room + 1 ∧ ∀ l' ∈ ls, l'.length ≤ n + 1

omit [DecidableEq α] in
theorem fits_self {n : ℕ} {ls : List (List α)} : Fits n n ls ↔ ∀ l ∈ ls, l.length ≤ n + 1 := by
  cases ls <;> simp [Fits]

/-- The pieces of a text are its lines if all of these fit; otherwise there are more of them. -/
theorem pieces_of_lines (n room : ℕ) (s : List α) :
    (Fits n room (lines nl s) → pieces nl n room s = lines nl s) ∧
      (¬ Fits n room (lines nl s) → (lines nl s).length < (pieces nl n room s).length) := by
  induction s generalizing room with
  | nil => exact ⟨fun _ => rfl, fun h => absurd trivial h⟩
  | cons c s ih =>
    rw [lines, pieces]
    by_cases hc : c = nl
    · rw [if_pos hc, if_pos (.inl hc)]
      obtain ⟨heq, hlt⟩ := ih n
      have hfits : Fits n room ([c] :: lines nl s) ↔ Fits n n (lines nl s) := by
        rw [fits_self]
        exact ⟨fun h => h.2, fun h => ⟨Nat.le_add_left 1 room, h⟩⟩
      rw [hfits]
      exact ⟨fun h => by rw [heq h], fun h => Nat.succ_lt_succ (hlt h)⟩
    · rw [if_neg hc]
      by_cases hs : s = []
      · subst hs
        have hpieces : (if c = nl ∨ room = 0 then [c] :: pieces nl n n []
            else match pieces nl n (room - 1) [] with
              | [] => [[c]]
              | p :: ps => (c :: p) :: ps) = [[c]] := by split <;> rfl
        rw [hpieces]
        exact ⟨fun _ => rfl, fun h => absurd ⟨Nat.le_add_left 1 room, nofun⟩ h⟩
      · obtain ⟨l, ls, hlines⟩ := List.exists_cons_of_ne_nil (lines_eq_nil.not.mpr hs : lines nl s ≠ [])
        obtain ⟨p, ps, hp⟩ := List.exists_cons_of_ne_nil
          (pieces_eq_nil.not.mpr hs : pieces nl n (room - 1) s ≠ [])
        have hmem : l ∈ lines nl s := by
          rw [hlines]
          exact List.mem_cons_self
        have hpos := List.length_pos_of_ne_nil (not_mem_dropLast_of_mem_lines hmem).1
        cases room with
        | zero =>
          -- the buffer is full behind this character, in the middle of the line
          have hle : (lines nl s).length ≤ (pieces nl n n s).length := by
            by_cases h : Fits n n (lines nl s)
            · exact Nat.le_of_eq (congrArg List.length ((ih n).1 h)).symm
            · exact Nat.le_of_lt ((ih n).2 h)
          rw [if_pos (.inr rfl), hlines]
          rw [hlines] at hle
          refine ⟨fun h => ?_, fun _ => Nat.lt_succ_of_le hle⟩
          have := h.1
          rw [List.length_cons] at this
          omega
        | succ room =>
          obtain ⟨heq, hlt⟩ := ih room
          rw [if_neg (not_or.mpr ⟨hc, Nat.succ_ne_zero room⟩), hp, hlines]
          rw [Nat.add_sub_cancel] at hp
          rw [hp, hlines] at heq hlt
          have hfits : Fits n (room + 1) ((c :: l) :: ls) ↔ Fits n room (l :: ls) :=
            and_congr_left fun _ => Nat.succ_le_succ_iff
          rw [hfits]
          refine ⟨fun h => ?_, hlt⟩
          obtain ⟨rfl, rfl⟩ := List.cons.inj (heq h)
          rfl

end Fitting

end Lines
