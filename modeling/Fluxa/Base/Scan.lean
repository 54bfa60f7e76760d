import Fluxa.Base.Wire

/-! Reading a buffer at positions of the reader's own choosing. A scan ends with a result or refuses, and
notes every range it read on the way, so that reading outside the buffer is a fact about the scan. -/

namespace Wire

/-- The ranges that were read, as start and length, and the result; `none` is a refusal. -/
structure Scan (α : Type) where
  reads : List (ℕ × ℕ)
  result : Option α

namespace Scan

variable {α β : Type}

protected def pure (a : α) : Scan α := ⟨[], some a⟩

protected def bind (d : Scan α) (f : α → Scan β) : Scan β :=
  match d.result with
  | some a => ⟨d.reads ++ (f a).reads, (f a).result⟩
  | none => ⟨d.reads, none⟩

instance : Monad Scan where
  pure := Scan.pure
  bind := Scan.bind

def refuse : Scan α := ⟨[], none⟩

def check (p : Prop) [Decidable p] : Scan Unit := ⟨[], if p then some () else none⟩

def load (b : Buffer) (pos n : ℕ) : Scan (List UInt8) := ⟨[(pos, n)], some (b.slice pos n)⟩

/-- Whether a scan ends with a result. -/
def succeeds (d : Scan α) : Scan Bool := ⟨d.reads, some d.result.isSome⟩

section Results

@[simp] theorem result_pure (a : α) : (pure a : Scan α).result = some a := rfl

@[simp] theorem result_bind (d : Scan α) (f : α → Scan β) : (d >>= f).result = d.result.bind fun a => (f a).result := by
  show (Scan.bind d f).result = _
  unfold Scan.bind
  cases d.result <;> rfl

@[simp] theorem result_refuse : (refuse : Scan α).result = none := rfl

@[simp] theorem result_check (p : Prop) [Decidable p] : (check p).result = if p then some () else none := rfl

@[simp] theorem result_load (b : Buffer) (pos n : ℕ) : (load b pos n).result = some (b.slice pos n) := rfl

@[simp] theorem result_succeeds (d : Scan α) : d.succeeds.result = some d.result.isSome := rfl

end Results

section Reads

variable {b : Buffer} {d : Scan α} {f : α → Scan β}

/-- All reads were inside the buffer. -/
def Safe (b : Buffer) (d : Scan α) : Prop := ∀ r ∈ d.reads, r.1 + r.2 ≤ b.size

theorem safe_pure (a : α) : Safe b (pure a) := nofun

theorem safe_refuse : Safe b (refuse : Scan α) := nofun

theorem safe_check (p : Prop) [Decidable p] : Safe b (check p) := nofun

theorem safe_load {pos n : ℕ} (h : pos + n ≤ b.size) : Safe b (load b pos n) := by
  intro r hr
  obtain rfl := List.mem_singleton.mp hr
  exact h

theorem Safe.bind (hd : d.Safe b) (hf : ∀ a, d.result = some a → (f a).Safe b) : (d >>= f).Safe b := by
  intro r hr
  change r ∈ (Scan.bind d f).reads at hr
  unfold Scan.bind at hr
  split at hr
  · rename_i a ha
    rcases List.mem_append.mp hr with hr | hr
    · exact hd r hr
    · exact hf a ha r hr
  · exact hd r hr

theorem Safe.succeeds (hd : d.Safe b) : d.succeeds.Safe b := hd

end Reads

section Meets

variable {b : Buffer} {d : Scan α} {f : α → Scan β} {P : α → Prop} {Q : β → Prop}

/-- Whatever the bytes are, nothing outside the buffer is read and a result is as it should be. -/
def Meets (b : Buffer) (d : Scan α) (Q : α → Prop) : Prop := d.Safe b ∧ ∀ a, d.result = some a → Q a

theorem meets_pure {a : α} (h : P a) : Meets b (pure a) P :=
  ⟨safe_pure a, fun _ h' => Option.some.inj h' ▸ h⟩

theorem meets_refuse : Meets b (refuse : Scan α) P := ⟨safe_refuse, nofun⟩

theorem meets_load {pos n : ℕ} (h : pos + n ≤ b.size) : Meets b (load b pos n) (b.slice pos n = ·) :=
  ⟨safe_load h, fun _ h => Option.some.inj h⟩

theorem Meets.bind (hd : d.Meets b P) (hf : ∀ a, P a → (f a).Meets b Q) : (d >>= f).Meets b Q := by
  refine ⟨hd.1.bind fun a ha => (hf a (hd.2 a ha)).1, fun r hr => ?_⟩
  rw [result_bind, Option.bind_eq_some_iff] at hr
  obtain ⟨a, ha, hr⟩ := hr
  exact (hf a (hd.2 a ha)).2 r hr

theorem Meets.mono {P' : α → Prop} (hd : d.Meets b P) (h : ∀ a, P a → P' a) : d.Meets b P' :=
  ⟨hd.1, fun a ha => h a (hd.2 a ha)⟩

theorem meets_check {p : Prop} [Decidable p] : Meets b (check p) fun _ => p := by
  refine ⟨safe_check p, fun _ h => ?_⟩
  by_contra hp
  simp [hp] at h

theorem meets_check_bind {p : Prop} [Decidable p] {f : Unit → Scan β} (hf : p → (f ()).Meets b Q) :
    (check p >>= f).Meets b Q :=
  meets_check.bind fun _ hp => hf hp

end Meets

section Ends

variable {b : Buffer} {d : Scan α} {f : α → Scan β} {r : Option β}

/-- The scan ends like this, and has read nothing outside the buffer. -/
def Ends (b : Buffer) (d : Scan α) (r : Option α) : Prop := d.result = r ∧ d.Safe b

theorem ends_pure (a : α) : Ends b (pure a) (some a) := ⟨rfl, safe_pure a⟩

theorem Ends.bind {a : α} (hd : d.Ends b (some a)) (hf : (f a).Ends b r) : (d >>= f).Ends b r := by
  refine ⟨by rw [result_bind, hd.1, Option.bind_some, hf.1], hd.2.bind fun a' ha' => ?_⟩
  obtain rfl : a = a' := Option.some.inj (hd.1.symm.trans ha')
  exact hf.2

theorem Ends.bind_none (hd : d.Ends b none) : (d >>= f).Ends b none := by
  refine ⟨by rw [result_bind, hd.1, Option.bind_none], hd.2.bind fun a ha => ?_⟩
  rw [hd.1] at ha
  exact absurd ha nofun

theorem ends_check_pos {p : Prop} [Decidable p] {f : Unit → Scan β} (hp : p) (hf : (f ()).Ends b r) :
    (check p >>= f).Ends b r :=
  Ends.bind ⟨if_pos hp, safe_check p⟩ hf

theorem ends_check_neg {p : Prop} [Decidable p] {f : Unit → Scan β} (hp : ¬p) : (check p >>= f).Ends b none :=
  Ends.bind_none ⟨if_neg hp, safe_check p⟩

theorem ends_load {pos : ℕ} {l : List UInt8} (h : b.At pos l) : (load b pos l.length).Ends b (some l) :=
  ⟨by rw [result_load, h.2], safe_load h.1⟩

end Ends

end Scan

end Wire
