import Fluxa.Collector
import Mathlib.Data.List.ReduceOption

/-! What the collector frees. A dyn that a live slot holds with a pin is not freed; a parameter or a register relies on
such a slot of its own frame or of a caller's. Under a condition on every step no sweep of a run frees a dyn that is in
use. Without it the pin of a variable is dropped by a store to the slot of a parameter, or to a slot in which a call has
left its parameter. -/

namespace Fluxa.Gc

open RefCount Along State Fluxa.Gc.Frame

section Goal

def Slot.Holds (x : Slot) (d : ℕ) : Prop := x.live = true ∧ x.counted = true ∧ x.dyn = some d

def Slot.Borrows (x : Slot) (d : ℕ) : Prop := x.live = true ∧ x.counted = false ∧ x.dyn = some d

instance (x : Slot) (d : ℕ) : Decidable (x.Holds d) := inferInstanceAs (Decidable (_ ∧ _))

instance (x : Slot) (d : ℕ) : Decidable (x.Borrows d) := inferInstanceAs (Decidable (_ ∧ _))

namespace Frame

variable (f : Frame) (d : ℕ)

def Holds : Prop := ∃ i, (f.slots i).Holds d

def Borrows : Prop := (∃ i, (f.slots i).Borrows d) ∨ ∃ regs ∈ f.files, some d ∈ regs

def HoldsElse (i : Fin fluxaStackSize) : Prop := ∃ j, j ≠ i ∧ (f.slots j).Holds d

def BorrowsElse (i : Fin fluxaStackSize) : Prop :=
  (∃ j, j ≠ i ∧ (f.slots j).Borrows d) ∨ ∃ regs ∈ f.files, some d ∈ regs

def Lacks : Prop := (∀ i, (f.slots i).dyn ≠ some d) ∧ ∀ regs ∈ f.files, some d ∉ regs

instance : Decidable (f.Holds d) := inferInstanceAs (Decidable (∃ _, _))

instance (i : Fin fluxaStackSize) : Decidable (f.HoldsElse d i) := inferInstanceAs (Decidable (∃ _, _))

instance (i : Fin fluxaStackSize) : Decidable (f.BorrowsElse d i) := inferInstanceAs (Decidable (_ ∨ _))

instance : Decidable (f.Lacks d) := inferInstanceAs (Decidable (_ ∧ _))

end Frame

namespace State

variable (s : State)

/-- A slot or a register of the call chain refers to the dyn. -/
def Refers (d : ℕ) : Prop := ∃ f ∈ s.current :: s.callers, f.Holds d ∨ f.Borrows d

/-- A sweep in this state frees no dyn that is referred to. -/
def SweepsGarbage : Prop := ∀ d, s.table d = some 0 → ¬s.Refers d

/-- **What a run must keep to.** -/
def CollectsGarbage (es : List Event) : Prop :=
  All step (fun s e => e = .sweep → s.SweepsGarbage) start es

def CallersHold (d : ℕ) : Prop := ∃ f ∈ s.callers, f.Holds d

/-- Another slot than `i` has pinned the dyn, in this frame or in one of the callers'. -/
def PinnedElse (i : Fin fluxaStackSize) (d : ℕ) : Prop := s.current.HoldsElse d i ∨ s.CallersHold d

instance (d : ℕ) : Decidable (s.CallersHold d) := inferInstanceAs (Decidable (∃ _ ∈ _, _))

instance (i : Fin fluxaStackSize) (d : ℕ) : Decidable (s.PinnedElse i d) := inferInstanceAs (Decidable (_ ∨ _))

def Tracked (d : ℕ) : Prop := (s.table d).isSome

instance (d : ℕ) : Decidable (s.Tracked d) := inferInstanceAs (Decidable (_ = true))

/-- The slot may lose what it holds: no parameter and no register relies on its pin alone. -/
def MayLose (i : Fin fluxaStackSize) : Prop :=
  ∀ d ∈ (s.current.slots i).dyn, s.Tracked d → s.current.BorrowsElse d i → s.PinnedElse i d

/-- What the slot holds now is pinned by it. -/
def Pinned (i : Fin fluxaStackSize) : Prop :=
  ∀ d ∈ (s.current.slots i).dyn, s.Tracked d → (s.current.slots i).counted = true

/-- The slot or register may borrow what it is given. -/
def MayBorrow (i : Fin fluxaStackSize) (v : Option ℕ) : Prop := ∀ d ∈ v, s.Tracked d → s.PinnedElse i d

instance (i : Fin fluxaStackSize) : Decidable (s.MayLose i) :=
  inferInstanceAs (Decidable (∀ d ∈ (s.current.slots i).dyn, _))

instance (i : Fin fluxaStackSize) : Decidable (s.Pinned i) :=
  inferInstanceAs (Decidable (∀ d ∈ (s.current.slots i).dyn, _))

instance (i : Fin fluxaStackSize) (v : Option ℕ) : Decidable (s.MayBorrow i v) :=
  inferInstanceAs (Decidable (∀ d ∈ v, _))

def Orderly : Event → Prop
  | .register d => s.Tracked d ∨ ∀ f ∈ s.current :: s.callers, f.Lacks d
  | .set i v => (s.current.slots i).dyn = v ∨ s.Pinned i ∧ s.MayLose i
  | .move i v =>
    if firstTemp ≤ i then s.MayBorrow i v ∧ s.MayLose i
    else if (s.current.slots i).dyn = v then (s.current.slots i).counted = true ∨ s.MayBorrow i v
    else s.Pinned i ∧ s.MayLose i
  | .load i v => s.MayBorrow i v ∧ s.MayLose i
  | .call args => ∀ d ∈ args.reduceOption, s.Tracked d → s.current.Holds d ∨ s.CallersHold d
  | .tailCall args => ∀ d ∈ args.reduceOption, s.Tracked d → s.CallersHold d
  | .enterVm nextReg _ => ∀ i : Fin fluxaStackSize, firstTemp ≤ i → i < nextReg →
      (s.current.slots i).live = true → (s.current.slots i).counted = true → (s.current.slots i).dyn = none
  | .enterFn args _ => ∀ d ∈ args.reduceOption, s.Tracked d → s.current.Holds d ∨ s.CallersHold d
  | .setFn _ v => ∀ d ∈ v, s.Tracked d → s.current.Holds d ∨ s.CallersHold d
  | _ => True

instance (e : Event) : Decidable (s.Orderly e) := by
  cases e <;> unfold Orderly <;> infer_instance

end State

end Goal

section Invariant

variable {T T' : ℕ → Prop} {f g : Frame} {fs : List Frame} {s : State} {d : ℕ} {i : Fin fluxaStackSize} {x : Slot}
  {v : Option ℕ}

def Slot.pin (x : Slot) : Option ℕ := if x.counted then x.dyn else none

def Frame.count (f : Frame) (d : ℕ) : ℕ := held (fun i => (f.slots i).pin) d

/-- The pins that the slots of the call chain account for. -/
def State.count (s : State) (d : ℕ) : ℕ := s.current.count d + (s.callers.map (·.count d)).sum

/-- What a frame borrows is pinned by it or by a caller. -/
def Covered (T : ℕ → Prop) : List Frame → Prop
  | [] => True
  | f :: fs => (∀ d, T d → f.Borrows d → f.Holds d ∨ ∃ g ∈ fs, g.Holds d) ∧ Covered T fs

structure State.Inv (s : State) : Prop where
  counts : ∀ d n, s.table d = some n → s.count d ≤ n
  covered : Covered s.Tracked (s.current :: s.callers)
  here : ∀ i, (s.current.slots i).live = true → i < s.current.size
  above : ∀ f ∈ s.callers, ∀ i, (f.slots i).live = true → i < f.size

theorem Covered.mono (h : Covered T fs) (himp : ∀ d, T' d → T d) : Covered T' fs := by
  induction fs with
  | nil => trivial
  | cons f fs ih => exact ⟨fun d hd => h.1 d (himp d hd), ih h.2⟩

theorem Covered.exists_holds (h : Covered T fs) (hd : T d) (hf : f ∈ fs) (hb : f.Borrows d) : ∃ g ∈ fs, g.Holds d := by
  induction fs with
  | nil => cases hf
  | cons f' fs ih =>
    rcases List.mem_cons.mp hf with rfl | hf
    · rcases h.1 d hd hb with hold | ⟨g, hg, hold⟩
      · exact ⟨_, List.mem_cons_self .., hold⟩
      · exact ⟨g, List.mem_cons_of_mem _ hg, hold⟩
    · obtain ⟨g, hg, hold⟩ := ih h.2 hf
      exact ⟨g, List.mem_cons_of_mem _ hg, hold⟩

theorem Slot.Holds.pin (h : x.Holds d) : x.pin = some d := by
  unfold Slot.pin
  rw [h.2.1]
  exact h.2.2

theorem Frame.Holds.count_pos (h : f.Holds d) : 0 < f.count d := by
  obtain ⟨i, hi⟩ := h
  rw [Nat.pos_iff_ne_zero]
  intro hzero
  exact held_eq_zero.mp hzero i hi.pin

theorem State.count_pos (hf : f ∈ s.current :: s.callers) (h : f.Holds d) : 0 < s.count d := by
  have hpos := h.count_pos
  unfold count
  rcases List.mem_cons.mp hf with rfl | hf
  · omega
  · have hle : f.count d ≤ (s.callers.map (·.count d)).sum :=
      List.single_le_sum (fun _ _ => Nat.zero_le _) _ (List.mem_map_of_mem hf)
    omega

theorem State.Inv.sweepsGarbage (h : s.Inv) : s.SweepsGarbage := by
  rintro d hzero ⟨f, hf, href⟩
  have hnone {g : Frame} (hg : g ∈ s.current :: s.callers) : ¬g.Holds d := by
    intro hold
    have hpos := count_pos hg hold
    have hle := h.counts d 0 hzero
    omega
  rcases href with hold | hborrow
  · exact hnone hf hold
  · obtain ⟨g, hg, hold⟩ := h.covered.exists_holds (by simp [Tracked, hzero]) hf hborrow
    exact hnone hg hold

theorem State.Inv.start : start.Inv where
  counts _ _ h := by cases h
  covered := ⟨fun _ hd => (by cases hd), trivial⟩
  here _ hi := by cases hi
  above _ hf := by cases hf

theorem State.Inv.counts_le (h : s.Inv) {n : ℕ} (hn : s.table d = some n) (hle : f.count d ≤ s.current.count d) :
    f.count d + (s.callers.map (·.count d)).sum ≤ n := by
  have hcount := h.counts d n hn
  unfold count at hcount
  omega

/-! A slot of the running frame is written. -/

theorem Frame.count_setSlot (f : Frame) (i : Fin fluxaStackSize) (x : Slot) (d : ℕ) :
    (f.setSlot i x).count d + (if (f.slots i).pin = some d then 1 else 0) =
      f.count d + (if x.pin = some d then 1 else 0) := by
  have hcomp : (fun j => ((f.setSlot i x).slots j).pin) = Function.update (fun j => (f.slots j).pin) i x.pin := by
    funext j
    by_cases hji : j = i
    · subst hji
      simp [setSlot]
    · simp [setSlot, hji]
  unfold count
  rw [hcomp]
  exact held_update

theorem Frame.count_setSlot_le (hx : x.pin = none ∨ x.pin = (f.slots i).pin) : (f.setSlot i x).count d ≤ f.count d := by
  have hset := f.count_setSlot i x d
  rcases hx with hx | hx
  · rw [hx, if_neg (Option.some_ne_none d).symm] at hset
    omega
  · rw [hx] at hset
    omega

theorem Frame.slots_setSlot_of_ne {j : Fin fluxaStackSize} (h : j ≠ i) : (f.setSlot i x).slots j = f.slots j :=
  Function.update_of_ne h ..

theorem Frame.slots_setSlot_self : (f.setSlot i x).slots i = x := Function.update_self ..

theorem Frame.HoldsElse.setSlot (h : f.HoldsElse d i) : (f.setSlot i x).Holds d := by
  obtain ⟨j, hji, hj⟩ := h
  refine ⟨j, ?_⟩
  rw [slots_setSlot_of_ne hji]
  exact hj

/-- Who borrows after the write has borrowed before, or is the slot itself. -/
theorem Frame.Borrows.of_setSlot (h : (f.setSlot i x).Borrows d) : x.Borrows d ∨ f.BorrowsElse d i := by
  rcases h with ⟨j, hj⟩ | hfile
  · by_cases hji : j = i
    · subst hji
      rw [slots_setSlot_self] at hj
      exact .inl hj
    · rw [slots_setSlot_of_ne hji] at hj
      exact .inr (.inl ⟨j, hji, hj⟩)
  · exact .inr (.inr hfile)

theorem Frame.BorrowsElse.borrows (h : f.BorrowsElse d i) : f.Borrows d :=
  h.imp_left fun ⟨j, _, hj⟩ => ⟨j, hj⟩

theorem Frame.Holds.cases (h : f.Holds d) (i : Fin fluxaStackSize) : (f.slots i).Holds d ∨ f.HoldsElse d i := by
  obtain ⟨j, hj⟩ := h
  by_cases hji : j = i
  · exact .inl (hji ▸ hj)
  · exact .inr ⟨j, hji, hj⟩

/-- **The rule for a write.** The counts are those of the caller of the rule; the new content of the slot, if borrowed,
is pinned elsewhere, and so is the old one, if it was pinned by the slot, is lost and is borrowed by someone. -/
theorem State.Inv.write (h : s.Inv) {table : GCTable} {size : ℕ} (htracked : ∀ d, (table d).isSome → s.Tracked d)
    (hcounts : ∀ d n, table d = some n → (s.current.setSlot i x).count d + (s.callers.map (·.count d)).sum ≤ n)
    (hlose : ∀ d, (table d).isSome → (s.current.slots i).Holds d → ¬x.Holds d → s.current.BorrowsElse d i →
      s.PinnedElse i d)
    (hborrow : ∀ d, (table d).isSome → x.Borrows d → s.PinnedElse i d) (hsize : s.current.size ≤ size) (hi : i < size) :
    Inv { s with table := table, current := { s.current.setSlot i x with size := size } } := by
  refine ⟨hcounts, ⟨fun d hd hb => ?_, h.covered.2.mono htracked⟩, fun j hj => ?_, h.above⟩
  · have hpinned {d : ℕ} (hp : s.PinnedElse i d) : (s.current.setSlot i x).Holds d ∨ ∃ g ∈ s.callers, g.Holds d :=
      hp.imp_left HoldsElse.setSlot
    rcases Borrows.of_setSlot hb with hx | helse
    · exact hpinned (hborrow d hd hx)
    · rcases h.covered.1 d (htracked d hd) helse.borrows with hold | hcaller
      · rcases hold.cases i with hself | hother
        · by_cases hx : x.Holds d
          · exact .inl ⟨i, by rw [slots_setSlot_self]; exact hx⟩
          · exact hpinned (hlose d hd hself hx helse)
        · exact hpinned (.inl hother)
      · exact hpinned (.inr hcaller)
  · change ((s.current.setSlot i x).slots j).live = true at hj
    change j.val < size
    by_cases hji : j = i
    · rw [hji]
      exact hi
    · rw [slots_setSlot_of_ne hji] at hj
      exact (h.here j hj).trans_le hsize

theorem table_store (table : GCTable) (old v : Option ℕ) (d : ℕ) :
    pinNew (unpinOld table old v) v d =
      if v = some d then (table d).map (· + 1) else if old = some d then (table d).map (· - 1) else table d := by
  have hunpin : unpinOld table old v d =
      if old = some d ∧ v ≠ some d then (table d).map (· - 1) else table d := by
    rcases old with _ | e
    · simp [unpinOld]
    · by_cases hv : v = some e
      · by_cases hed : e = d <;> simp [unpinOld, hv, hed]
      · by_cases hed : e = d
        · subst hed
          simp [unpinOld, hv, gcUnpin]
        · simp [unpinOld, hv, gcUnpin, hed, Ne.symm hed]
  rcases v with _ | e
  · simp [pinNew, hunpin]
  · by_cases hed : e = d
    · subst hed
      simp [pinNew, gcPin, hunpin]
    · simp [pinNew, gcPin, hunpin, hed, Ne.symm hed]

theorem isSome_table_store {table : GCTable} {old : Option ℕ} (h : (pinNew (unpinOld table old v) v d).isSome) :
    (table d).isSome := by
  rw [table_store] at h
  split at h
  · simpa using h
  · split at h
    · simpa using h
    · exact h

theorem State.Inv.counts_store (h : s.Inv) (hpinned : (s.current.slots i).dyn = v ∨ s.Pinned i) (n : ℕ)
    (hn : pinNew (unpinOld s.table (s.current.slots i).dyn v) v d = some n) :
    (s.current.setSlot i ⟨v, true, true⟩).count d + (s.callers.map (·.count d)).sum ≤ n := by
  have hset := s.current.count_setSlot i ⟨v, true, true⟩ d
  have hpin : (⟨v, true, true⟩ : Slot).pin = v := rfl
  rw [hpin] at hset
  rw [table_store] at hn
  by_cases hv : v = some d
  · rw [if_pos hv] at hn hset
    obtain ⟨m, hm, rfl⟩ := Option.map_eq_some_iff.mp hn
    have hle := h.counts d m hm
    unfold count at hle
    omega
  · rw [if_neg hv] at hn hset
    by_cases hold : (s.current.slots i).dyn = some d
    · rw [if_pos hold] at hn
      obtain ⟨m, hm, rfl⟩ := Option.map_eq_some_iff.mp hn
      have hcounted : (s.current.slots i).counted = true := by
        rcases hpinned with hsame | hpinned
        · exact absurd (hsame.symm.trans hold) hv
        · exact hpinned d hold (by simp [Tracked, hm])
      have hslot : (s.current.slots i).pin = some d := by rw [Slot.pin, hcounted, if_pos rfl, hold]
      rw [if_pos hslot] at hset
      have hle := h.counts d m hm
      unfold count at hle
      omega
    · rw [if_neg hold] at hn
      have hle := h.counts d n hn
      unfold count at hle
      omega

theorem State.MayLose.use (h : s.MayLose i) (hd : s.Tracked d) (hold : (s.current.slots i).Holds d)
    (hb : s.current.BorrowsElse d i) : s.PinnedElse i d := h d hold.2.2 hd hb

theorem State.Inv.store (h : s.Inv) {size : ℕ} (hok : (s.current.slots i).dyn = v ∨ s.Pinned i ∧ s.MayLose i)
    (hsize : s.current.size ≤ size) (hi : i < size) :
    Inv { s with
      table := pinNew (unpinOld s.table (s.current.slots i).dyn v) v
      current := { s.current.setSlot i ⟨v, true, true⟩ with size := size } } := by
  refine h.write (fun d hd => isSome_table_store hd) (fun d n hn => h.counts_store (hok.imp_right (·.1)) n hn)
    (fun d hd hold hlost hb => ?_) (fun d _ hb => ?_) hsize hi
  · rcases hok with hsame | ⟨-, hlose⟩
    · exact absurd ⟨rfl, rfl, hsame.symm.trans hold.2.2⟩ hlost
    · exact hlose.use (isSome_table_store hd) hold hb
  · cases hb.2.1

theorem State.Inv.load (h : s.Inv) (hi : i < s.current.size) (hborrow : s.MayBorrow i v) (hlose : s.MayLose i) :
    (s.loadReg i v).Inv := by
  exact h.write (fun d hd => hd) (fun d n hn => h.counts_le hn (count_setSlot_le (.inl rfl)))
    (fun d hd hold _ hb => hlose.use hd hold hb) (fun d hd hb => hborrow d hb.2.2 hd) le_rfl hi

theorem State.Inv.move (h : s.Inv) (hi : i < s.current.size) (hok : s.Orderly (.move i v)) : (s.opMove i v).Inv := by
  unfold opMove
  dsimp only [Orderly] at hok
  by_cases htemp : firstTemp ≤ i.val
  · rw [if_pos htemp] at hok ⊢
    exact h.load hi hok.1 hok.2
  · rw [if_neg htemp] at hok ⊢
    by_cases hsame : (s.current.slots i).dyn = v
    · rw [if_pos hsame] at hok ⊢
      refine h.write (fun d hd => hd) (fun d n hn => h.counts_le hn (count_setSlot_le (.inr rfl)))
        (fun d hd hold hlost _ => ?_) (fun d hd hb => ?_) le_rfl hi
      · exact absurd ⟨rfl, hold.2⟩ hlost
      · rcases hok with hcounted | hborrow
        · exact absurd (hcounted.symm.trans hb.2.1) nofun
        · exact hborrow d (hsame.symm.trans hb.2.2) hd
    · rw [if_neg hsame] at hok ⊢
      exact h.store (.inr hok) le_rfl hi

theorem State.Inv.free (h : s.Inv) (hi : i < s.current.size) : (s.freeSlot i).Inv := by
  unfold freeSlot
  split
  · next e he =>
    have hother {d : ℕ} (hd : (gcUnregister s.table e d).isSome) : d ≠ e ∧ s.Tracked d := by
      by_cases hde : d = e
      · subst hde
        simp [gcUnregister] at hd
      · exact ⟨hde, by simpa [gcUnregister, hde, Tracked] using hd⟩
    refine h.write (fun d hd => (hother hd).2) (fun d n hn => ?_) (fun d hd hold _ _ => ?_) (fun d _ hb => ?_) le_rfl hi
    · have hde : d ≠ e := (hother (by rw [hn]; rfl)).1
      exact h.counts_le (by simpa [gcUnregister, hde] using hn) (count_setSlot_le (.inl rfl))
    · -- the slot has lost only the dyn that is tracked no longer
      exact absurd (Option.some.inj (hold.2.2.symm.trans he)) (hother hd).1
    · cases hb.1
  · exact h

/-! Calls and returns. -/

section Calls

variable {slots : Slots} {args : List (Option ℕ)} {callerSize : ℕ}

theorem bindParams_live (h : (bindParams slots args callerSize i).live = true) :
    ∃ v, args[i.val]? = some v ∧ bindParams slots args callerSize i = .bare v := by
  unfold bindParams at h ⊢
  split at h
  · next v hv => exact ⟨v, hv, rfl⟩
  · split at h
    · cases h
    · cases h

theorem mem_of_borrows_bindParams {size : ℕ}
    (h : (⟨bindParams slots args callerSize, size, []⟩ : Frame).Borrows d) : d ∈ args.reduceOption := by
  rcases h with ⟨i, hlive, -, hdyn⟩ | ⟨regs, hregs, -⟩
  · obtain ⟨v, hget, hv⟩ := bindParams_live hlive
    dsimp only at hdyn
    rw [hv] at hdyn
    obtain rfl : v = some d := hdyn
    exact List.reduceOption_mem_iff.mpr (List.mem_of_getElem? hget)
  · cases hregs

/-- The pins left over in the new frame are those of slots that the call has not cleared. -/
theorem pin_bindParams (h : (bindParams slots args callerSize i).pin = some d) :
    callerSize < i ∧ (slots i).pin = some d := by
  unfold bindParams at h
  split at h
  · cases h
  · split at h
    · cases h
    · next hclear =>
      refine ⟨?_, h⟩
      unfold Runtime.zeroCount at hclear
      have hi := i.isLt
      omega

theorem lt_of_bindParams_live (h : (bindParams slots args callerSize i).live = true) : i < args.length := by
  obtain ⟨v, hv, -⟩ := bindParams_live h
  exact (List.getElem?_eq_some_iff.mp hv).1

def Frame.saved (f : Frame) : Frame := { f with slots := fun i => if i < f.size then f.slots i else .empty }

theorem Frame.saved_live {f : Frame} (h : (f.saved.slots i).live = true) : i < f.size ∧ f.saved.slots i = f.slots i := by
  unfold saved at h ⊢
  dsimp only at h ⊢
  split at h
  · next hi => exact ⟨hi, if_pos hi⟩
  · cases h

theorem Frame.Holds.saved (h : f.Holds d) (hwithin : ∀ i, (f.slots i).live = true → i < f.size) : f.saved.Holds d := by
  obtain ⟨i, hi⟩ := h
  have hslot : f.saved.slots i = f.slots i := if_pos (hwithin i hi.1)
  exact ⟨i, by rw [hslot]; exact hi⟩

theorem Frame.Borrows.of_saved (h : f.saved.Borrows d) : f.Borrows d := by
  rcases h with ⟨i, hi⟩ | hfile
  · rw [(saved_live hi.1).2] at hi
    exact .inl ⟨i, hi⟩
  · exact .inr hfile

theorem State.Inv.call (h : s.Inv) (hok : s.Orderly (.call args)) : (s.enterCall args).Inv := by
  have hholds {d : ℕ} (hd : s.current.Holds d ∨ s.CallersHold d) : ∃ g ∈ s.current.saved :: s.callers, g.Holds d := by
    rcases hd with hold | ⟨g, hg, hold⟩
    · exact ⟨_, List.mem_cons_self .., hold.saved h.here⟩
    · exact ⟨g, List.mem_cons_of_mem _ hg, hold⟩
  refine ⟨fun d n hn => ?_, ⟨fun d hd hb => .inr (hholds (hok d (mem_of_borrows_bindParams hb) hd)), fun d hd hb => ?_,
    h.covered.2⟩, fun i hi => lt_of_bindParams_live hi, List.forall_mem_cons.mpr ⟨fun i hi => (saved_live hi).1, h.above⟩⟩
  · have hsplit : s.current.saved.count d +
        (⟨bindParams s.current.slots args s.current.size, args.length, []⟩ : Frame).count d ≤ s.current.count d := by
      apply held_split
      · intro i hi
        unfold saved at hi
        dsimp only at hi
        split at hi
        · next hlt => exact ⟨hi, fun hnew => absurd (pin_bindParams hnew).1 (Nat.not_lt.mpr hlt.le)⟩
        · cases hi
      · intro i hi
        exact (pin_bindParams hi).2
    have hle := h.counts d n hn
    unfold count at hle
    change (⟨bindParams s.current.slots args s.current.size, args.length, []⟩ : Frame).count d +
      ((s.current.saved :: s.callers).map (·.count d)).sum ≤ n
    rw [List.map_cons, List.sum_cons]
    omega
  · rcases h.covered.1 d hd hb.of_saved with hold | hcaller
    · exact .inl (hold.saved h.here)
    · exact .inr hcaller

theorem State.Inv.tailCall (h : s.Inv) (hok : s.Orderly (.tailCall args)) : (s.reuse args).Inv := by
  unfold reuse
  split
  · exact h
  · next c callers hcallers =>
    exact ⟨fun d n hn => h.counts_le hn (held_mono fun i hi => (pin_bindParams hi).2),
      ⟨fun d hd hb => .inr (hok d (mem_of_borrows_bindParams hb) hd), h.covered.2⟩,
      fun i hi => lt_of_bindParams_live hi, h.above⟩

/-- The slots of the caller over those of the call. -/
def Frame.onto (c f : Frame) : Frame :=
  { c with slots := fun i => if i < c.size then c.slots i else (f.slots i).leftOver }

theorem Frame.onto_live {c : Frame} (h : ((c.onto f).slots i).live = true) :
    i < c.size ∧ (c.onto f).slots i = c.slots i := by
  unfold onto at h ⊢
  dsimp only at h ⊢
  split at h
  · next hi => exact ⟨hi, if_pos hi⟩
  · cases h

theorem State.Inv.ret (h : s.Inv) : s.leaveCall.Inv := by
  unfold leaveCall
  split
  · exact h
  · next c callers hcallers =>
    obtain ⟨hcounts, hcovered, -, habove⟩ := h
    unfold count at hcounts
    rw [hcallers] at hcovered habove hcounts
    obtain ⟨hc, habove⟩ := List.forall_mem_cons.mp habove
    refine ⟨fun d n hn => ?_, ⟨fun d hd hb => ?_, hcovered.2.2⟩, fun i hi => ?_, habove⟩
    · have hmerge : (c.onto s.current).count d ≤ c.count d + s.current.count d := by
        apply held_merge
        intro i hi
        unfold onto at hi
        dsimp only at hi
        split at hi
        · exact .inl hi
        · exact .inr hi
      have hle := hcounts d n hn
      rw [List.map_cons, List.sum_cons] at hle
      change (c.onto s.current).count d + (callers.map (·.count d)).sum ≤ n
      omega
    · have hborrows : c.Borrows d := by
        rcases hb with ⟨i, hi⟩ | hfile
        · have hslot : (c.onto s.current).slots i = c.slots i := (onto_live hi.1).2
          exact .inl ⟨i, by rw [← hslot]; exact hi⟩
        · exact .inr hfile
      rcases hcovered.2.1 d hd hborrows with ⟨i, hi⟩ | hcaller
      · have hslot : (c.onto s.current).slots i = c.slots i := if_pos (hc i hi.1)
        exact .inl ⟨i, show ((c.onto s.current).slots i).Holds d by rw [hslot]; exact hi⟩
      · exact .inr hcaller
    · exact (onto_live (show ((c.onto s.current).slots i).live = true from hi)).1

end Calls

/-! The rest. -/

theorem State.Inv.enterVm (h : s.Inv) {nextReg maxSlot : ℕ} (hok : s.Orderly (.enterVm nextReg maxSlot)) :
    (s.claimRegs nextReg maxSlot).Inv := by
  have hslot (i : Fin fluxaStackSize) : ((s.claimRegs nextReg maxSlot).current.slots i) = .empty ∨
      ((s.claimRegs nextReg maxSlot).current.slots i) = s.current.slots i := by
    change (if _ then _ else _) = _ ∨ (if _ then _ else _) = _
    split
    · exact .inl rfl
    · exact .inr rfl
  refine ⟨fun d n hn => h.counts_le hn (held_mono fun i hi => ?_), ⟨fun d hd hb => ?_, h.covered.2⟩, fun i hi => ?_, h.above⟩
  · rcases hslot i with hempty | hold
    · rw [hempty] at hi
      cases hi
    · rwa [hold] at hi
  · have hborrows : s.current.Borrows d := by
      rcases hb with ⟨i, hi⟩ | hfile
      · rcases hslot i with hempty | hold
        · rw [hempty] at hi
          cases hi.1
        · rw [hold] at hi
          exact .inl ⟨i, hi⟩
      · exact .inr hfile
    rcases h.covered.1 d hd hborrows with ⟨i, hi⟩ | hcaller
    · refine .inl ⟨i, ?_⟩
      -- a slot that has pinned a dyn is not among those that are cleared
      have hkept : ¬(firstTemp ≤ i.val ∧ i < nextReg) := by
        rintro ⟨htemp, hlt⟩
        have hnone := hok i htemp hlt hi.1 hi.2.1
        rw [hi.2.2] at hnone
        cases hnone
      have hslot : (s.claimRegs nextReg maxSlot).current.slots i = s.current.slots i := if_neg hkept
      rw [hslot]
      exact hi
    · exact .inr hcaller
  · rcases hslot i with hempty | hold
    · rw [hempty] at hi
      cases hi
    · rw [hold] at hi
      have hlt := h.here i hi
      change i.val < max (max s.current.size nextReg) maxSlot
      omega

theorem State.Inv.setFiles (h : s.Inv) {files : List (List (Option ℕ))}
    (hfiles : ∀ regs ∈ files, ∀ d, some d ∈ regs → s.Tracked d →
      (∃ regs ∈ s.current.files, some d ∈ regs) ∨ s.current.Holds d ∨ s.CallersHold d) : (s.setFiles files).Inv := by
  refine ⟨h.counts, ⟨fun d hd hb => ?_, h.covered.2⟩, h.here, h.above⟩
  rcases hb with hslot | ⟨regs, hregs, hmem⟩
  · exact h.covered.1 d hd (.inl hslot)
  · rcases hfiles regs hregs d hmem hd with hfile | hpinned
    · exact h.covered.1 d hd (.inr hfile)
    · exact hpinned

theorem State.Inv.untrack (h : s.Inv) {table : GCTable} (ht : ∀ d n, table d = some n → s.table d = some n) :
    Inv { s with table := table } := by
  refine ⟨fun d n hn => h.counts d n (ht d n hn), h.covered.mono fun d hd => ?_, h.here, h.above⟩
  obtain ⟨n, hn⟩ := Option.isSome_iff_exists.mp hd
  exact Option.isSome_iff_exists.mpr ⟨n, ht d n hn⟩

theorem Frame.Lacks.count (h : f.Lacks d) : f.count d = 0 := by
  apply held_eq_zero.mpr
  intro i hi
  unfold Slot.pin at hi
  split at hi
  · exact h.1 i hi
  · cases hi

theorem Frame.Lacks.not_borrows (h : f.Lacks d) : ¬f.Borrows d := by
  rintro (⟨i, hi⟩ | ⟨regs, hregs, hmem⟩)
  · exact h.1 i hi.2.2
  · exact h.2 regs hregs hmem

theorem Covered.track (h : Covered T fs) (hnew : ∀ f ∈ fs, f.Lacks d) (himp : ∀ e, T' e → e = d ∨ T e) : Covered T' fs := by
  induction fs with
  | nil => trivial
  | cons f fs ih =>
    refine ⟨fun e he hb => ?_, ih h.2 fun g hg => hnew g (List.mem_cons_of_mem _ hg)⟩
    rcases himp e he with rfl | he
    · exact absurd hb (hnew f (List.mem_cons_self ..)).not_borrows
    · exact h.1 e he hb

theorem State.Inv.register (h : s.Inv) (hok : s.Orderly (.register d)) :
    Inv { s with table := gcRegister s.table d } := by
  unfold gcRegister
  split
  · exact h
  · next hnew =>
    have hlacks : ∀ f ∈ s.current :: s.callers, f.Lacks d := hok.resolve_left hnew
    refine ⟨fun e n hn => ?_, h.covered.track hlacks fun e he => ?_, h.here, h.above⟩
    · by_cases hed : e = d
      · subst hed
        have hcurrent := (hlacks _ (List.mem_cons_self ..)).count
        have hcallers : (s.callers.map (·.count e)).sum = 0 := by
          apply List.sum_eq_zero
          intro m hm
          obtain ⟨f, hf, rfl⟩ := List.mem_map.mp hm
          exact (hlacks f (List.mem_cons_of_mem _ hf)).count
        change s.current.count e + (s.callers.map (·.count e)).sum ≤ n
        omega
      · exact h.counts e n (by simpa [hed] using hn)
    · by_cases hed : e = d
      · exact .inl hed
      · exact .inr (by simpa [Tracked, hed] using he)

theorem State.Inv.step (h : s.Inv) {e : Event} (hok : s.Orderly e) : (s.step e).Inv := by
  cases e with
  | register d => exact h.register hok
  | unregister d =>
    refine h.untrack fun e n hn => ?_
    by_cases hed : e = d
    · subst hed
      simp [gcUnregister] at hn
    · simpa [gcUnregister, hed] using hn
  | set i v => exact h.store hok (le_max_left ..) (Nat.lt_of_lt_of_le (Nat.lt_succ_self _) (le_max_right ..))
  | move i v =>
    dsimp only [State.step]
    split
    · next hi => exact h.move hi hok
    · exact h
  | load i v =>
    dsimp only [State.step]
    split
    · next hi => exact h.load hi hok.1 hok.2
    · exact h
  | free i =>
    dsimp only [State.step]
    split
    · next hi => exact h.free hi
    · exact h
  | call args => exact h.call hok
  | tailCall args => exact h.tailCall hok
  | ret => exact h.ret
  | enterVm nextReg maxSlot => exact h.enterVm hok
  | enterFn args regCount =>
    refine h.setFiles fun regs hregs d hmem hd => ?_
    rcases List.mem_cons.mp hregs with rfl | hregs
    · have hargs : some d ∈ args := by
        rcases List.mem_append.mp hmem with hargs | hfill
        · exact hargs
        · cases List.eq_of_mem_replicate hfill
      exact .inr (hok d (List.reduceOption_mem_iff.mpr hargs) hd)
    · exact .inl ⟨regs, hregs, hmem⟩
  | setFn a v =>
    dsimp only [State.step]
    split
    · exact h
    · next regs files hfiles =>
      refine h.setFiles fun regs' hregs d hmem hd => ?_
      rcases List.mem_cons.mp hregs with rfl | hregs
      · rcases List.mem_or_eq_of_mem_set hmem with hold | hnew
        · exact .inl ⟨regs, by simp [hfiles], hold⟩
        · exact .inr (hok d hnew.symm hd)
      · exact .inl ⟨regs', by simp [hfiles, hregs], hmem⟩
  | leaveFn => exact h.setFiles fun regs hregs d hmem _ => .inl ⟨regs, List.mem_of_mem_tail hregs, hmem⟩
  | sweep =>
    refine h.untrack fun d n hn => ?_
    unfold gcSweep at hn
    split at hn
    · cases hn
    · exact hn

end Invariant

/-- **In a run of orderly steps no sweep frees a dyn that is in use.** -/
theorem collects_only_garbage (es : List Event) (h : All step Orderly start es) :
    CollectsGarbage es := by
  refine All.imp (I := Inv) ?_ ?_ Inv.start h
  · intro s e hs hok
    exact hs.step hok
  · intro s e hs _ _
    exact hs.sweepsGarbage

/-- A dyn variable is passed to a function that keeps it in a variable of its own, and both frames see a sweep. -/
def passedDyn : List Event :=
  [.register 0, .set 0 (some 0), .call [some 0], .set 1 (some 0), .sweep, .set 1 none, .sweep, .ret, .sweep]

theorem passedDyn_collects : CollectsGarbage passedDyn := collects_only_garbage passedDyn (by decide +kernel)

/-- The lines `dyn a = [1]`, `fn f(int x, int y, dyn d) int { return x }`, `int r = f(1, 2, a)` and `danger { }` free
the dyn of `a`: the name of `f` takes slot 1, so the store of `r` finds in slot 2 what the call has left there. And
`g(fs.listdir("."))` frees its parameter in a `danger` block of `g`: nothing has pinned the result. -/
theorem live_dyn_freed :
    let stolen : List Event := [.register 0, .set 0 (some 0), .call [none, none, some 0], .ret, .set 2 none]
    let literal : List Event := [.register 0, .call [some 0]]
    ¬CollectsGarbage (stolen ++ [.sweep]) ∧ ¬CollectsGarbage (literal ++ [.sweep]) := by
  constructor
  · rintro ⟨-, -, -, -, -, h, -⟩
    exact h rfl 0 (by decide +kernel) ⟨_, List.mem_cons_self .., .inl ⟨0, by decide +kernel⟩⟩
  · rintro ⟨-, -, h, -⟩
    exact h rfl 0 (by decide +kernel) ⟨_, List.mem_cons_self .., .inr (.inl ⟨0, by decide +kernel⟩)⟩

end Fluxa.Gc
