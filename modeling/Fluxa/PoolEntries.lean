import Fluxa.Heap

/-! What an update does to an entry of the pool: most do nothing, an assignment and the end of a compiled
loop give it another value of its type, and only declarations change more than that. -/

namespace Fluxa

namespace Runtime

variable (rt : Runtime) (ref : Ref) (x y : Ident) (v : Value)

section Entries

variable {rt} {x} {y}

theorem poolFind_poolSet_of_ne (h : x ≠ y) : (rt.poolSet y v).1.poolFind x = rt.poolFind x :=
  (rt.keeps_poolSet y v).others x h

theorem poolFind_poolSet {e : PrstEntry} (h : rt.poolFind x = some e) : (rt.poolSet x v).1.poolFind x =
    some (if e.declaredType = v.type then { e with value := (rt.cloneValue v).1 } else e) := by
  unfold poolSet
  simp only [h]
  by_cases htype : e.declaredType = v.type
  · rw [if_neg (not_not.mpr htype), if_pos htype]
    refine (poolFind_poolUpdate (by intro e; rfl)).trans ?_
    rw [if_pos rfl, poolFind_congr (prstPool_cloneValue _ _) x, h]
    rfl
  · rw [if_pos htype, if_neg htype]
    exact h

theorem poolFind_poolSet_none (h : rt.poolFind x = none) : (rt.poolSet x v).1.poolFind x =
    some ⟨x, v.type, (rt.cloneValue v).1, ((rt.cloneValue v).2.cloneValue v).1, none⟩ := by
  unfold poolSet
  simp only [h]
  have hnone : (rt.prstPool.find? fun e => e.name == x) = none := h
  simp [poolFind, List.find?_append, hnone]

theorem poolFind_poolSetOffset (off : Option ℕ) : (rt.poolSetOffset y off).poolFind x =
    if x = y then (rt.poolFind x).map fun e => { e with stackOffset := off } else rt.poolFind x :=
  poolFind_poolUpdate fun _ => rfl

@[simp] theorem poolFind_globalSet (x y : Ident) : (rt.globalSet y v).poolFind x = rt.poolFind x := rfl

theorem poolFind_poolStore_of_ne (h : x ≠ y) : (rt.poolStore y v).poolFind x = rt.poolFind x :=
  poolFind_poolSet_of_ne v h

/-- An entry that is still there, with a value of its type; one that is not there is not made. -/
def KeepsEntry (x : Ident) (rt rt' : Runtime) : Prop :=
  (rt.poolFind x = none → rt'.poolFind x = none) ∧ ∀ e, rt.poolFind x = some e →
    ∃ v, rt'.poolFind x = some { e with value := v } ∧ (v = e.value ∨ v.type = e.declaredType)

theorem KeepsEntry.of_eq {rt' : Runtime} (h : rt'.poolFind x = rt.poolFind x) : KeepsEntry x rt rt' :=
  ⟨fun hnone => h.trans hnone, fun e he => ⟨e.value, h.trans he, .inl rfl⟩⟩

theorem KeepsEntry.refl (x : Ident) (rt : Runtime) : KeepsEntry x rt rt := .of_eq rfl

theorem KeepsEntry.trans {s t u : Runtime} (h : KeepsEntry x s t) (h' : KeepsEntry x t u) : KeepsEntry x s u := by
  refine ⟨h'.1 ∘ h.1, fun e he => ?_⟩
  obtain ⟨v, hv, htype⟩ := h.2 e he
  obtain ⟨w, hw, htype'⟩ := h'.2 _ hv
  refine ⟨w, hw, ?_⟩
  rcases htype' with rfl | htype'
  · exact htype
  · exact .inr htype'

theorem type_cloneValue : (rt.cloneValue v).1.type = v.type := by
  unfold cloneValue
  split
  · split
    · split <;> rfl
    · rfl
  · rfl

theorem keepsEntry_poolStore (hy : rt.poolHas y = true) : KeepsEntry x rt (rt.poolStore y v) := by
  by_cases hxy : x = y
  · subst hxy
    obtain ⟨e, he⟩ := Option.isSome_iff_exists.mp hy
    refine ⟨fun hnone => absurd he (by simp [hnone]), fun e' he' => ?_⟩
    obtain rfl : e = e' := Option.some.inj (he.symm.trans he')
    have hstore : (rt.poolStore x v).poolFind x = _ := poolFind_poolSet v he
    by_cases htype : e.declaredType = v.type
    · exact ⟨_, by rw [hstore, if_pos htype], .inr ((type_cloneValue v).trans htype.symm)⟩
    · exact ⟨e.value, by rw [hstore, if_neg htype], .inl rfl⟩
  · exact .of_eq (poolFind_poolStore_of_ne v hxy)

theorem keepsEntry_syncPool (x : Ident) (rt : Runtime) : KeepsEntry x rt rt.syncPool :=
  rt.syncPool_induct (.refl x rt) fun _ _ _ hs _ _ _ _ _ hhas => hs.trans (keepsEntry_poolStore _ hhas)

end Entries

section Assign

variable {rt} {x} {y}

theorem keepsEntry_storeAssign (x : Ident) : KeepsEntry x rt (rt.storeAssign y ref v) := by
  unfold storeAssign
  split
  · exact .of_eq rfl
  · split
    · exact .of_eq (poolFind_congr (prstPool_raise _ _) x)
    · have hset : KeepsEntry x rt (rt.set ref y v) := .of_eq (poolFind_congr (prstPool_set _ _ _ _) x)
      dsimp only
      split
      · next hp => exact hset.trans (keepsEntry_poolStore v hp.2.2)
      · exact hset

theorem keepsEntry_assignVar (x : Ident) (n : ℕ) : KeepsEntry x rt (rt.assignVar y ref v n) := by
  have hraise (e : RtError) : KeepsEntry x rt (rt.raise e) := .of_eq (poolFind_congr (prstPool_raise _ _) x)
  unfold assignVar
  split
  · split
    · exact (hraise _).trans (keepsEntry_storeAssign _ _ x)
    · split
      · exact hraise _
      · exact keepsEntry_storeAssign _ _ x
  · exact keepsEntry_storeAssign _ _ x

end Assign

end Runtime

namespace Update

open Fluxa.Runtime

variable {rt : Runtime} {x : Ident} {u : Update}

def declares (x : Ident) : Update → Bool
  | declarePrst _ _ y _ | rebuildPrst _ _ y _ | restorePrst _ y _ _ | persistArr y _ => y == x
  | _ => false

theorem poolFind_declares_of_ne (hu : u.declares x = false) (hassign : ∀ y ref v n, u ≠ assignVar y ref v n)
    (hsync : u ≠ syncPool) : (u.apply rt).poolFind x = rt.poolFind x := by
  refine (kept_apply u rt).2.2.2 x fun hx => ?_
  cases u with
  | declarePrst | rebuildPrst | restorePrst | persistArr => simp [declares, Set.mem_singleton_iff.mp hx] at hu
  | assignVar y ref v n => exact hassign y ref v n rfl
  | syncPool => exact hsync rfl
  | _ => exact hx

theorem keepsEntry_apply (hu : u.declares x = false) : KeepsEntry x rt (u.apply rt) := by
  by_cases hassign : ∃ y ref v n, u = assignVar y ref v n
  · obtain ⟨y, ref, v, n, rfl⟩ := hassign
    exact keepsEntry_assignVar ref v x n
  · by_cases hsync : u = syncPool
    · subst hsync
      exact keepsEntry_syncPool x rt
    · push Not at hassign
      exact .of_eq (poolFind_declares_of_ne hu hassign hsync)

end Update

section Quiet

def Value.sameScalar : Value → Value → Bool
  | .int a, .int b => a == b
  | .float a, .float b => decide (a = b)
  | .bool a, .bool b => a == b
  | .str a, .str b => a == b
  | _, _ => false

theorem Value.eq_of_sameScalar {v w : Value} (h : v.sameScalar w = true) :
    v = w ∧ ∀ rt : Runtime, rt.cloneValue v = (v, rt) := by
  cases v <;> cases w <;> simp_all [Value.sameScalar, Runtime.cloneValue]

namespace Runtime

variable {rt : Runtime} {x y : Ident} {v : Value}

/-- A store of the value to the entry of `x` is refused or changes nothing. -/
def storeQuiet (rt : Runtime) (x : Ident) (v : Value) : Bool :=
  (rt.poolFind x).all fun e => e.declaredType != v.type || v.sameScalar e.value

/-- No entry of `x` is read back from a slot that holds another value of its type. -/
def syncQuiet (rt : Runtime) (x : Ident) : Bool :=
  rt.prstPool.all fun e => e.name != x || match e.stackOffset with
    | some off => rt.stackSize ≤ off || rt.storeQuiet x (rt.stack off)
    | none => true

theorem poolFind_poolStore_of_quiet (h : rt.storeQuiet x v = true) (hx : rt.poolHas x = true) :
    (rt.poolStore x v).poolFind x = rt.poolFind x := by
  obtain ⟨e, he⟩ := Option.isSome_iff_exists.mp hx
  have hstore : (rt.poolStore x v).poolFind x = _ := poolFind_poolSet v he
  rw [hstore, he]
  by_cases htype : e.declaredType = v.type
  · have hsame : v.sameScalar e.value = true := by simpa [storeQuiet, he, htype] using h
    obtain ⟨rfl, hclone⟩ := Value.eq_of_sameScalar hsame
    rw [if_pos htype, hclone]
  · rw [if_neg htype]

theorem storeQuiet_congr {rt' : Runtime} (h : rt'.poolFind x = rt.poolFind x) :
    rt'.storeQuiet x v = rt.storeQuiet x v := by
  unfold storeQuiet
  rw [h]

theorem poolFind_syncPool_of_quiet (h : rt.syncQuiet x = true) : rt.syncPool.poolFind x = rt.poolFind x := by
  refine rt.syncPool_induct (P := fun s => s.poolFind x = rt.poolFind x) rfl ?_
  intro s e off hs he _ hoff hlt _ hhas
  by_cases hname : e.name = x
  · have hquiet : rt.storeQuiet x (rt.stack off) = true := by
      have hentry := List.all_eq_true.mp h e he
      simpa [hname, hoff, Nat.not_le.mpr hlt] using hentry
    rw [hname] at hhas ⊢
    rw [poolFind_poolStore_of_quiet ((storeQuiet_congr hs).trans hquiet) hhas, hs]
  · rw [poolFind_poolStore_of_ne _ (Ne.symm hname), hs]

/-- An assignment to another variable, to a field, or of what the entry holds. -/
def assignQuiet (rt : Runtime) (x y : Ident) (v : Value) : Bool :=
  y != x || (rt.fieldOwner x).isSome || rt.storeQuiet x v

theorem poolFind_storeAssign_of_quiet (ref : Ref) (h : rt.assignQuiet x y v = true) :
    (rt.storeAssign y ref v).poolFind x = rt.poolFind x := by
  unfold storeAssign
  split
  · rfl
  · next hfield =>
    have hset : (rt.set ref y v).poolFind x = rt.poolFind x := poolFind_congr (prstPool_set _ _ _ _) x
    split
    · exact poolFind_congr (prstPool_raise _ _) x
    · dsimp only
      split
      · next hp =>
        by_cases hxy : y = x
        · subst hxy
          have hquiet : rt.storeQuiet y v = true := by simpa [assignQuiet, hfield] using h
          rw [poolFind_poolStore_of_quiet ((storeQuiet_congr hset).trans hquiet) hp.2.2, hset]
        · rw [poolFind_poolStore_of_ne _ (Ne.symm hxy), hset]
      · exact hset

theorem poolFind_assignVar_of_quiet (ref : Ref) (n : ℕ) (h : rt.assignQuiet x y v = true) :
    (rt.assignVar y ref v n).poolFind x = rt.poolFind x := by
  have hraise (e : RtError) : (rt.raise e).poolFind x = rt.poolFind x := poolFind_congr (prstPool_raise _ _) x
  unfold assignVar
  split
  · split
    · have hquiet (e : RtError) : (rt.raise e).assignQuiet x y v = rt.assignQuiet x y v := by
        have hfield : (rt.raise e).fieldOwner x = rt.fieldOwner x := by
          unfold raise
          split <;> rfl
        rw [assignQuiet, hfield, storeQuiet_congr (hraise e)]
        rfl
      exact (poolFind_storeAssign_of_quiet ref ((hquiet _).trans h)).trans (hraise _)
    · split
      · exact hraise _
      · exact poolFind_storeAssign_of_quiet ref h
  · exact poolFind_storeAssign_of_quiet ref h

end Runtime

namespace Update

open Fluxa.Runtime

variable {rt : Runtime} {x : Ident} {u : Update}

/-- The update cannot change the entry of `x`. -/
def quiet (x : Ident) : Update → Runtime → Bool
  | assignVar y _ v _, rt => rt.assignQuiet x y v
  | syncPool, rt => rt.syncQuiet x
  | u, _ => !u.declares x

theorem poolFind_apply_of_quiet (h : u.quiet x rt = true) : (u.apply rt).poolFind x = rt.poolFind x := by
  by_cases hassign : ∃ y ref v n, u = assignVar y ref v n
  · obtain ⟨y, ref, v, n, rfl⟩ := hassign
    exact poolFind_assignVar_of_quiet ref n h
  · by_cases hsync : u = syncPool
    · subst hsync
      exact poolFind_syncPool_of_quiet h
    · push Not at hassign
      refine poolFind_declares_of_ne ?_ hassign hsync
      cases u with
      | assignVar y ref v n => exact absurd rfl (hassign y ref v n)
      | syncPool => exact absurd rfl hsync
      | _ => exact (Bool.not_eq_true' _).mp h

end Update

end Quiet

end Fluxa
