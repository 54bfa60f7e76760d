import Fluxa.Base.Prog

/-! The calls a program makes itself, with the states it makes them in: not those of the procedures it
calls, nor those inside its brackets. `Traced` is for runs that end; `Reaches` is for the point at which
an update is made or a bracket is entered, which need not come to an end. -/

namespace Prog

variable {σ υ ι ρ β : Type} {κ : β → Type} {inner : β → Bool} {m : Bool} {α γ : Type}

/-- An update, or the start of a loop. -/
inductive Act (υ : Type) {β : Type} (κ : β → Type) where
  | update (u : υ)
  | loop (b : β) (j : κ b)

variable (M : Machine σ υ ι ρ κ inner)

/-- The program makes the calls `l` and ends with a result. -/
def Traced : Prog σ υ ι ρ κ inner m α → σ → List (ι × σ) → α → σ → Prop
  | .pure a, s, l, b, t => l = [] ∧ b = a ∧ t = s
  | .get k, s, l, b, t => (k s).Traced s l b t
  | .update u k, s, l, b, t => k.Traced (M.apply u s) l b t
  | .call i k, s, l, b, t => ∃ r u l', M.Calls i s r u ∧ l = (i, s) :: l' ∧ (k r).Traced u l' b t
  | .loop b h j k, s, l, c, t =>
    ∃ r u, M.Runs (.bracket b h j : Prog σ υ ι ρ κ inner m ρ) s r u ∧ (k r).Traced u l c t
  | .cut k, s, l, b, t => ∃ r, (if m then none else M.halt s) = some r ∧ (k r).Traced s l b t

/-- The program makes the calls `l`, and maybe more. The last one need not return. -/
def Makes : Prog σ υ ι ρ κ inner m α → σ → List (ι × σ) → Prop
  | .pure _, _, l => l = []
  | .get k, s, l => (k s).Makes s l
  | .update u k, s, l => k.Makes (M.apply u s) l
  | .call i k, s, l => l = [] ∨ l = [(i, s)] ∨ ∃ r u l', M.Calls i s r u ∧ l = (i, s) :: l' ∧ (k r).Makes u l'
  | .loop b h j k, s, l => l = [] ∨
      ∃ r u, M.Runs (.bracket b h j : Prog σ υ ι ρ κ inner m ρ) s r u ∧ (k r).Makes u l
  | .cut k, s, l => l = [] ∨ ∃ r, (if m then none else M.halt s) = some r ∧ (k r).Makes s l

/-- The program makes the calls `l`, comes to the act `a` in the state `t`, and goes on with `l'`. -/
def Reaches (a : Act υ κ) (t : σ) (l' : List (ι × σ)) : Prog σ υ ι ρ κ inner m α → σ → List (ι × σ) → Prop
  | .pure _, _, _ => False
  | .get k, s, l => (k s).Reaches a t l' s l
  | .update u k, s, l => (l = [] ∧ a = .update u ∧ t = s ∧ k.Makes M (M.apply u s) l') ∨
      k.Reaches a t l' (M.apply u s) l
  | .call i k, s, l => ∃ r u l₁, M.Calls i s r u ∧ l = (i, s) :: l₁ ∧ (k r).Reaches a t l' u l₁
  | .loop b h j k, s, l =>
    (l = [] ∧ a = .loop b j ∧ t = s ∧ (l' = [] ∨
      ∃ r u, M.Runs (.bracket b h j : Prog σ υ ι ρ κ inner m ρ) s r u ∧ (k r).Makes M u l')) ∨
    ∃ r u, M.Runs (.bracket b h j : Prog σ υ ι ρ κ inner m ρ) s r u ∧ (k r).Reaches a t l' u l
  | .cut k, s, l => ∃ r, (if m then none else M.halt s) = some r ∧ (k r).Reaches a t l' s l

/-- The program has no such act. -/
def Free (P : Act υ κ → Prop) : Prog σ υ ι ρ κ inner m α → Prop
  | .pure _ => True
  | .get k => ∀ s, (k s).Free P
  | .update u k => ¬P (.update u) ∧ k.Free P
  | .call _ k => ∀ r, (k r).Free P
  | .loop b _ j k => ¬P (.loop b j) ∧ ∀ r, (k r).Free P
  | .cut k => ∀ r, (k r).Free P

variable {M} {P : Act υ κ → Prop} {p : Prog σ υ ι ρ κ inner m α} {f : α → Prog σ υ ι ρ κ inner m γ}

section Free

theorem free_pure (a : α) : (pure a : Prog σ υ ι ρ κ inner m α).Free P := trivial

theorem free_read : (read : Prog σ υ ι ρ κ inner m σ).Free P := fun _ => trivial

theorem free_modify {u : υ} (h : ¬P (.update u)) : (modify u : Prog σ υ ι ρ κ inner m Unit).Free P := ⟨h, trivial⟩

theorem free_invoke (i : ι) : (invoke i : Prog σ υ ι ρ κ inner m ρ).Free P := fun _ => trivial

theorem Free.bind (hp : p.Free P) (hf : ∀ a, (f a).Free P) : (p >>= f).Free P := by
  change (p.bind f).Free P
  induction p with
  | pure a => exact hf a
  | get k ih => exact fun s => ih s (hp s)
  | update u k ih => exact ⟨hp.1, ih hp.2⟩
  | call i k ih => exact fun r => ih r (hp r)
  | loop b h j k ih => exact ⟨hp.1, fun r => ih r (hp.2 r)⟩
  | cut k ih => exact fun r => ih r (hp r)

theorem Free.not_reaches {a : Act υ κ} (hp : p.Free P) (ha : P a) {s t : σ} {l l' : List (ι × σ)} :
    ¬p.Reaches M a t l' s l := by
  induction p generalizing s l with
  | pure b => exact id
  | get k ih => exact ih s (hp s)
  | update u k ih =>
    rintro (⟨-, rfl, -⟩ | h)
    · exact hp.1 ha
    · exact ih hp.2 h
  | call i k ih =>
    rintro ⟨r, u, l₁, -, -, h⟩
    exact ih r (hp r) h
  | loop b hb j k ih =>
    rintro (⟨-, rfl, -⟩ | ⟨r, u, -, h⟩)
    · exact hp.1 ha
    · exact ih r (hp.2 r) h
  | cut k ih =>
    rintro ⟨r, -, h⟩
    exact ih r (hp r) h

end Free

section Traced

variable {s t : σ} {l : List (ι × σ)}

theorem traced_read_bind {f : σ → Prog σ υ ι ρ κ inner m γ} {c : γ} :
    (read >>= f).Traced M s l c t ↔ (f s).Traced M s l c t := .rfl

theorem reaches_read_bind {f : σ → Prog σ υ ι ρ κ inner m γ} {a : Act υ κ} {l' : List (ι × σ)} :
    (read >>= f).Reaches M a t l' s l ↔ (f s).Reaches M a t l' s l := .rfl

theorem Traced.bind_inv {c : γ} (h : (p >>= f).Traced M s l c t) :
    ∃ b u l₁ l₂, p.Traced M s l₁ b u ∧ (f b).Traced M u l₂ c t ∧ l = l₁ ++ l₂ := by
  change (p.bind f).Traced M s l c t at h
  induction p generalizing s l with
  | pure b => exact ⟨b, s, [], l, ⟨rfl, rfl, rfl⟩, h, rfl⟩
  | get k ih => exact ih s h
  | update u k ih => exact ih h
  | call i k ih =>
    obtain ⟨r, u, l₁, hcall, rfl, h⟩ := h
    obtain ⟨b, u', l₂, l₃, htr, hre, rfl⟩ := ih r h
    exact ⟨b, u', (i, s) :: l₂, l₃, ⟨r, u, l₂, hcall, rfl, htr⟩, hre, rfl⟩
  | loop b hb j k ih =>
    obtain ⟨r, u, hrun, h⟩ := h
    obtain ⟨b', u', l₂, l₃, htr, hre, rfl⟩ := ih r h
    exact ⟨b', u', l₂, l₃, ⟨r, u, hrun, htr⟩, hre, rfl⟩
  | cut k ih =>
    obtain ⟨r, hr, h⟩ := h
    obtain ⟨b, u, l₁, l₂, htr, hre, rfl⟩ := ih r h
    exact ⟨b, u, l₁, l₂, ⟨r, hr, htr⟩, hre, rfl⟩

theorem Makes.bind_inv (h : (p >>= f).Makes M s l) :
    ∃ l₁ l₂, p.Makes M s l₁ ∧ l = l₁ ++ l₂ ∧ (l₂ = [] ∨ ∃ b u, (f b).Makes M u l₂) := by
  change (p.bind f).Makes M s l at h
  induction p generalizing s l with
  | pure b => exact ⟨[], l, rfl, rfl, .inr ⟨b, s, h⟩⟩
  | get k ih => exact ih s h
  | update u k ih => exact ih h
  | call i k ih =>
    rcases h with rfl | rfl | ⟨r, u, l', hcall, rfl, h⟩
    · exact ⟨[], [], .inl rfl, rfl, .inl rfl⟩
    · exact ⟨[(i, s)], [], .inr (.inl rfl), rfl, .inl rfl⟩
    · obtain ⟨l₁, l₂, h₁, rfl, h₂⟩ := ih r h
      exact ⟨(i, s) :: l₁, l₂, .inr (.inr ⟨r, u, l₁, hcall, rfl, h₁⟩), rfl, h₂⟩
  | loop b hb j k ih =>
    rcases h with rfl | ⟨r, u, hrun, h⟩
    · exact ⟨[], [], .inl rfl, rfl, .inl rfl⟩
    · obtain ⟨l₁, l₂, h₁, rfl, h₂⟩ := ih r h
      exact ⟨l₁, l₂, .inr ⟨r, u, hrun, h₁⟩, rfl, h₂⟩
  | cut k ih =>
    rcases h with rfl | ⟨r, hr, h⟩
    · exact ⟨[], [], .inl rfl, rfl, .inl rfl⟩
    · obtain ⟨l₁, l₂, h₁, rfl, h₂⟩ := ih r h
      exact ⟨l₁, l₂, .inr ⟨r, hr, h₁⟩, rfl, h₂⟩

/-- An act is one of the first part, or comes behind it. -/
theorem Reaches.bind_inv {a : Act υ κ} {l' : List (ι × σ)} (h : (p >>= f).Reaches M a t l' s l) :
    (∃ l₁ l₂, p.Reaches M a t l₁ s l ∧ l' = l₁ ++ l₂ ∧ (l₂ = [] ∨ ∃ b u, (f b).Makes M u l₂)) ∨
      ∃ b u l₁ l₂, p.Traced M s l₁ b u ∧ (f b).Reaches M a t l' u l₂ ∧ l = l₁ ++ l₂ := by
  change (p.bind f).Reaches M a t l' s l at h
  induction p generalizing s l with
  | pure b => exact .inr ⟨b, s, [], l, ⟨rfl, rfl, rfl⟩, h, rfl⟩
  | get k ih => exact ih s h
  | update u k ih =>
    rcases h with ⟨rfl, rfl, rfl, h⟩ | h
    · obtain ⟨l₁, l₂, h₁, rfl, h₂⟩ := Makes.bind_inv h
      exact .inl ⟨l₁, l₂, .inl ⟨rfl, rfl, rfl, h₁⟩, rfl, h₂⟩
    · rcases ih h with ⟨l₁, l₂, h₁, rfl, h₂⟩ | h
      · exact .inl ⟨l₁, l₂, .inr h₁, rfl, h₂⟩
      · exact .inr h
  | call i k ih =>
    obtain ⟨r, u, l₁, hcall, rfl, h⟩ := h
    rcases ih r h with ⟨l₂, l₃, h₁, rfl, h₂⟩ | ⟨b, u', l₂, l₃, htr, hre, rfl⟩
    · exact .inl ⟨l₂, l₃, ⟨r, u, l₁, hcall, rfl, h₁⟩, rfl, h₂⟩
    · exact .inr ⟨b, u', (i, s) :: l₂, l₃, ⟨r, u, l₂, hcall, rfl, htr⟩, hre, rfl⟩
  | loop b hb j k ih =>
    rcases h with ⟨rfl, rfl, rfl, h⟩ | ⟨r, u, hrun, h⟩
    · rcases h with rfl | ⟨r, u, hrun, h⟩
      · exact .inl ⟨[], [], .inl ⟨rfl, rfl, rfl, .inl rfl⟩, rfl, .inl rfl⟩
      · obtain ⟨l₁, l₂, h₁, rfl, h₂⟩ := Makes.bind_inv h
        exact .inl ⟨l₁, l₂, .inl ⟨rfl, rfl, rfl, .inr ⟨r, u, hrun, h₁⟩⟩, rfl, h₂⟩
    · rcases ih r h with ⟨l₁, l₂, h₁, rfl, h₂⟩ | ⟨b', u', l₂, l₃, htr, hre, rfl⟩
      · exact .inl ⟨l₁, l₂, .inr ⟨r, u, hrun, h₁⟩, rfl, h₂⟩
      · exact .inr ⟨b', u', l₂, l₃, ⟨r, u, hrun, htr⟩, hre, rfl⟩
  | cut k ih =>
    obtain ⟨r, hr, h⟩ := h
    rcases ih r h with ⟨l₁, l₂, h₁, rfl, h₂⟩ | ⟨b, u, l₁, l₂, htr, hre, rfl⟩
    · exact .inl ⟨l₁, l₂, ⟨r, hr, h₁⟩, rfl, h₂⟩
    · exact .inr ⟨b, u, l₁, l₂, ⟨r, hr, htr⟩, hre, rfl⟩

/-- An act that the first part does not have comes behind it. -/
theorem Free.reaches_bind {a : Act υ κ} (hp : p.Free P) (ha : P a) {l' : List (ι × σ)}
    (h : (p >>= f).Reaches M a t l' s l) :
    ∃ b u l₁ l₂, p.Traced M s l₁ b u ∧ (f b).Reaches M a t l' u l₂ ∧ l = l₁ ++ l₂ := by
  rcases h.bind_inv with ⟨l₁, l₂, h₁, -⟩ | h
  · exact (hp.not_reaches ha h₁).elim
  · exact h

end Traced

end Prog
