import Fluxa.Base.Journal
import Fluxa.Eval
import Fluxa.Heap

/-! The fields of instances along a run. Every update stores to one field or to none, and says which from
the state it is made in; no field goes away. What the declarations of a method call do to the fields, and
whether an instance has the same fields after the call, is then read off the journal of the call. -/

namespace Fluxa

open Update

namespace Runtime

section Fields

variable (rt : Runtime)

/-- The field `rt_set` stores to. -/
def setTarget (ref : Ref) (x : Ident) (v : Value) : Option (ℕ × Ident × Value) :=
  if ref.off.isSome then none else (rt.fieldOwner x).map (·, x, v)

/-- The check in front of the store of `NODE_ASSIGN`. -/
def assignPasses (ref : Ref) (x : Ident) (v : Value) (errBefore : ℕ) : Prop :=
  rt.errStack.length = errBefore → ∀ cur ∈ rt.lookup ref x, cur.type = .nil ∨ cur.type = v.type

instance (ref : Ref) (x : Ident) (v : Value) (errBefore : ℕ) : Decidable (rt.assignPasses ref x v errBefore) :=
  inferInstanceAs (Decidable (_ → _))

def fieldTables : List Table := rt.instances.map (·.fields)

/-- A store to one field, or instances added behind those there are. -/
def Stores (target : Option (ℕ × Ident × Value)) (rt' : Runtime) : Prop :=
  match target with
  | none => ∃ more, rt'.fieldTables = rt.fieldTables ++ more
  | some (i, x, v) => rt'.fieldTables = (rt.setInstanceField i x v).fieldTables

variable {rt} {rt' rt'' : Runtime} {i j : ℕ} {x y : Ident} {v : Value}

theorem instanceField_eq (rt : Runtime) (i : ℕ) (x : Ident) :
    rt.instanceField i x = (rt.fieldTables[i]?).bind (·.get? x) := by
  simp only [instanceField, instance?, fieldTables, List.getElem?_map, Option.bind_map]
  rfl

theorem length_fieldTables (rt : Runtime) : rt.fieldTables.length = rt.instances.length := List.length_map ..

theorem instanceField_setInstanceField (rt : Runtime) (i : ℕ) (x : Ident) (v : Value) (j : ℕ) (y : Ident) :
    (rt.setInstanceField i x v).instanceField j y =
      if j = i ∧ y = x ∧ i < rt.instances.length then some v else rt.instanceField j y := by
  unfold instanceField instance? setInstanceField
  rw [List.getElem?_modify]
  by_cases hj : i = j
  · subst hj
    rcases hi : rt.instances[i]? with _ | b
    · have hlen := List.getElem?_eq_none_iff.mp hi
      rw [if_neg fun h => absurd h.2.2 (Nat.not_lt.mpr hlen)]
      rfl
    · have hlen : i < rt.instances.length := (List.getElem?_eq_some_iff.mp hi).1
      by_cases hy : y = x
      · subst hy
        rw [if_pos ⟨rfl, rfl, hlen⟩]
        simp
      · rw [if_neg fun h => hy h.2.1]
        simpa using Table.get?_set_of_ne b.fields v hy
  · rw [if_neg fun h => hj h.1.symm]
    simp [hj]

theorem Stores.of_eq (h : rt'.fieldTables = rt.fieldTables) : rt.Stores none rt' := ⟨[], by rw [h, List.append_nil]⟩

theorem Stores.length_le {target : Option (ℕ × Ident × Value)} (h : rt.Stores target rt') :
    rt.instances.length ≤ rt'.instances.length := by
  rw [← length_fieldTables, ← length_fieldTables]
  rcases target with _ | ⟨i, x, v⟩
  · obtain ⟨more, h⟩ := h
    rw [h, List.length_append]
    exact Nat.le_add_right ..
  · have h : rt'.fieldTables = (rt.setInstanceField i x v).fieldTables := h
    rw [h, length_fieldTables, length_fieldTables, length_setInstanceField]

theorem Stores.kept (h : rt.Stores none rt') (hj : j < rt.instances.length) (y : Ident) :
    rt'.instanceField j y = rt.instanceField j y := by
  obtain ⟨more, h⟩ := h
  rw [instanceField_eq, h, List.getElem?_append_left (by rwa [length_fieldTables]), ← instanceField_eq]

theorem Stores.stored (h : rt.Stores (some (i, x, v)) rt') (hj : j < rt.instances.length) (y : Ident) :
    rt'.instanceField j y = if j = i ∧ y = x then some v else rt.instanceField j y := by
  have h : rt'.fieldTables = (rt.setInstanceField i x v).fieldTables := h
  rw [instanceField_eq, h, ← instanceField_eq, instanceField_setInstanceField]
  by_cases hji : j = i
  · subst hji
    simp [hj]
  · simp [hji]

structure FieldsGrow (rt rt' : Runtime) : Prop where
  instances : rt.instances.length ≤ rt'.instances.length
  fields : ∀ i x, (rt.instanceField i x).isSome → (rt'.instanceField i x).isSome

theorem lt_of_instanceField (h : (rt.instanceField i x).isSome) : i < rt.instances.length := by
  by_contra hi
  rw [instanceField, instance?, List.getElem?_eq_none (Nat.not_lt.mp hi)] at h
  exact absurd h (by simp)

theorem Stores.fieldsGrow {target : Option (ℕ × Ident × Value)} (h : rt.Stores target rt') : FieldsGrow rt rt' where
  instances := h.length_le
  fields i x hx := by
    rcases target with _ | ⟨j, y, v⟩
    · rwa [h.kept (lt_of_instanceField hx)]
    · rw [h.stored (lt_of_instanceField hx)]
      split
      · rfl
      · exact hx

theorem FieldsGrow.trans (h : FieldsGrow rt rt') (h' : FieldsGrow rt' rt'') : FieldsGrow rt rt'' where
  instances := h.instances.trans h'.instances
  fields i x hx := h'.fields i x (h.fields i x hx)

theorem FieldsGrow.of_eq (h : rt'.instances = rt.instances) : FieldsGrow rt rt' where
  instances := h ▸ le_rfl
  fields i x hx := by rwa [instanceField, instance?, h]

theorem fieldOwner_eq_some (h : rt.fieldOwner x = some i) : (rt.instanceField i x).isSome :=
  (Option.filter_eq_some_iff.mp h).2

end Fields

section Effects

variable (rt : Runtime) (ref : Ref) (x : Ident) (v : Value)

theorem instances_raise (e : RtError) : (rt.raise e).instances = rt.instances ∧
    (rt.raise e).currentInstance = rt.currentInstance := by
  unfold raise
  split <;> exact ⟨rfl, rfl⟩

theorem fieldTables_raise (e : RtError) : (rt.raise e).fieldTables = rt.fieldTables :=
  congrArg (List.map _) (rt.instances_raise e).1

theorem instances_poolSet : (rt.poolSet x v).1.instances = rt.instances ∧
    (rt.poolSet x v).1.currentInstance = rt.currentInstance := by
  have hclone (s : Runtime) : (s.cloneValue v).2.instances = s.instances ∧
      (s.cloneValue v).2.currentInstance = s.currentInstance := by
    obtain ⟨more, hmore⟩ := s.cloneValue_arrs v
    rw [hmore]
    exact ⟨rfl, rfl⟩
  unfold poolSet
  split
  · split
    · exact ⟨rfl, rfl⟩
    · exact hclone rt
  · obtain ⟨hinst, hrun⟩ := hclone (rt.cloneValue v).2
    exact ⟨hinst.trans (hclone rt).1, hrun.trans (hclone rt).2⟩

theorem fieldTables_poolStore : (rt.poolStore x v).fieldTables = rt.fieldTables :=
  congrArg (List.map _) (rt.instances_poolSet x v).1

variable {rt s : Runtime}

theorem fieldOwner_congr (hinst : s.instances = rt.instances)
    (hrun : s.currentInstance = rt.currentInstance) : s.fieldOwner x = rt.fieldOwner x := by
  simp only [fieldOwner, hrun, instanceField, instance?, hinst]

theorem fieldTables_setInstanceField_congr (i : ℕ) (hinst : s.instances = rt.instances) :
    (s.setInstanceField i x v).fieldTables = (rt.setInstanceField i x v).fieldTables := by
  simp only [fieldTables, setInstanceField, hinst]

theorem stores_set (hinst : s.instances = rt.instances)
    (hrun : s.currentInstance = rt.currentInstance) : rt.Stores (rt.setTarget ref x v) (s.set ref x v) := by
  have hsame : s.fieldTables = rt.fieldTables := congrArg (List.map _) hinst
  unfold set setTarget
  rcases ref.off with _ | off
  · rw [fieldOwner_congr x hinst hrun, if_neg (by simp)]
    rcases rt.fieldOwner x with _ | i
    · exact .of_eq hsame
    · exact fieldTables_setInstanceField_congr x v i hinst
  · exact .of_eq hsame

theorem stores_storeAssign (hinst : s.instances = rt.instances)
    (hrun : s.currentInstance = rt.currentInstance) :
    rt.Stores ((rt.fieldOwner x).map (·, x, v)) (s.storeAssign x ref v) := by
  have hset := stores_set ref x v hinst hrun
  unfold storeAssign
  rw [fieldOwner_congr x hinst hrun]
  rcases howner : rt.fieldOwner x with _ | i
  · rw [setTarget, howner, Option.map_none, ite_self] at hset
    obtain ⟨more, hset⟩ := hset
    dsimp only [Option.map_none]
    split
    · exact .of_eq ((fieldTables_raise s _).trans (congrArg (List.map _) hinst))
    · split
      · exact ⟨more, (fieldTables_poolStore _ x v).trans hset⟩
      · exact ⟨more, hset⟩
  · exact fieldTables_setInstanceField_congr x v i hinst

end Effects

end Runtime

namespace Update

open Fluxa.Runtime

/-- The field an update stores to, and the value. -/
def target : Update → Runtime → Option (ℕ × Ident × Value)
  | declareVar t ref x v n, rt => if n < rt.errStack.length ∨ typeOk t v then rt.setTarget ref x v else none
  | declarePrst t ref x v, rt => if typeOk t v ∧ (rt.poolSet x v).2 then rt.setTarget ref x v else none
  | rebuildPrst t ref x v, rt => if typeOk t v then rt.setTarget ref x v else none
  | restorePrst ref x e src, rt =>
    rt.setTarget ref x ((src.filter (initChanged · e.initValue)).getD e.value.arrRef)
  | bindVar ref x v, rt => rt.setTarget ref x v
  | assignVar x ref v n, rt => if rt.assignPasses ref x v n then (rt.fieldOwner x).map (·, x, v) else none
  | freeVar ref x, rt => if (ref.off.bind rt.slotValue).isSome then none else (rt.fieldOwner x).map (·, x, .nil)
  | declareArr x _, rt => rt.currentInstance.map (·, x, .arr rt.nextArr true)
  | setField i x v, _ => some (i, x, v)
  | _, _ => none

/-- The updates a declaration is made of. -/
def isDeclaration : Update → Bool
  | declareVar .. | declarePrst .. | rebuildPrst .. | restorePrst .. | declareArr .. | persistArr ..
  | declareFunc _ => true
  | _ => false

section Effects

variable (rt : Runtime)

theorem stores_declareVar (t : TypeName) (ref : Ref) (x : Ident) (v : Value) (n : ℕ) :
    rt.Stores ((declareVar t ref x v n).target rt) (rt.declareVar t ref x v n) := by
  unfold target Runtime.declareVar
  dsimp only
  by_cases hn : n < rt.errStack.length
  · rw [if_pos (Or.inl hn), if_pos hn]
    exact stores_set ref x v rfl rfl
  · by_cases ht : typeOk t v
    · rw [if_pos (Or.inr ht), if_neg hn, if_pos ht]
      exact stores_set ref x v rfl rfl
    · rw [if_neg (by simp [hn, ht]), if_neg hn, if_neg ht]
      exact .of_eq (fieldTables_raise rt _)

theorem stores_declarePrst (t : TypeName) (ref : Ref) (x : Ident) (v : Value) :
    rt.Stores ((declarePrst t ref x v).target rt) (rt.declarePrst t ref x v) := by
  obtain ⟨hinst, hrun⟩ := rt.instances_poolSet x v
  unfold target Runtime.declarePrst
  dsimp only
  by_cases ht : typeOk t v
  · rw [if_pos ht]
    by_cases hset : (rt.poolSet x v).2
    · rw [if_pos ⟨ht, hset⟩, if_pos hset]
      exact stores_set ref x v hinst hrun
    · rw [if_neg fun h => hset h.2, if_neg hset]
      exact .of_eq (congrArg (List.map _) hinst)
  · rw [if_neg fun h => ht h.1, if_neg ht]
    exact .of_eq (fieldTables_raise rt _)

theorem stores_rebuildPrst (t : TypeName) (ref : Ref) (x : Ident) (v : Value) :
    rt.Stores ((rebuildPrst t ref x v).target rt) (rt.rebuildPrst t ref x v) := by
  unfold target Runtime.rebuildPrst
  dsimp only
  by_cases ht : typeOk t v
  · rw [if_pos ht, if_pos ht]
    obtain ⟨hinst, hrun⟩ := (rt.poolUpdate x fun e => { e with declaredType := v.type }).instances_poolSet x v
    exact stores_set (s := ((rt.poolUpdate x _).poolSet x v).1.poolSetOffset x ref.off) ref x v hinst hrun
  · rw [if_neg ht, if_neg ht]
    exact .of_eq (fieldTables_raise rt _)

theorem stores_restorePrst (ref : Ref) (x : Ident) (e : PrstEntry) (src : Option Value) :
    rt.Stores ((restorePrst ref x e src).target rt) (rt.restorePrst ref x e src) := by
  unfold target
  dsimp only
  by_cases hkept : ∀ v ∈ src, initChanged v e.initValue = false
  · rw [restorePrst_kept _ _ _ hkept, Option.filter_eq_none_iff.mpr fun v hv => by simp [hkept v hv]]
    obtain ⟨hinst, hrun⟩ := rt.instances_poolSet x e.value.arrRef
    exact stores_set (s := (rt.poolSet x _).1.poolSetOffset x ref.off) ref x _ hinst hrun
  · push Not at hkept
    obtain ⟨w, rfl, hw⟩ := hkept
    have hw : initChanged w e.initValue = true := by simpa using hw
    rw [restorePrst_edited _ _ _ hw, Option.filter_some_pos (by exact hw)]
    obtain ⟨hinst, hrun⟩ := rt.instances_poolSet x w
    exact stores_set (s := ((rt.poolSet x w).1.poolSetOffset x ref.off).poolUpdate x _) ref x w hinst hrun

theorem stores_assignVar (x : Ident) (ref : Ref) (v : Value) (n : ℕ) :
    rt.Stores ((assignVar x ref v n).target rt) (rt.assignVar x ref v n) := by
  have hstore : rt.Stores _ (rt.storeAssign x ref v) := stores_storeAssign ref x v rfl rfl
  unfold target Runtime.assignVar
  dsimp only
  by_cases hn : rt.errStack.length = n
  · rw [if_pos hn]
    rcases hcur : rt.lookup ref x with _ | cur
    · have hpass : rt.assignPasses ref x v n := fun _ cur h => absurd (hcur.symm.trans h) nofun
      rw [if_pos hpass]
      obtain ⟨hinst, hrun⟩ := rt.instances_raise (.undefinedVariable x)
      exact stores_storeAssign ref x v hinst hrun
    · by_cases hty : cur.type ≠ .nil ∧ cur.type ≠ v.type
      · have hfail : ¬rt.assignPasses ref x v n := fun h => (h hn cur hcur).elim hty.1 hty.2
        rw [if_neg hfail]
        dsimp only
        rw [if_pos hty]
        exact .of_eq (fieldTables_raise rt _)
      · have hpass : rt.assignPasses ref x v n := by
          intro _ c hc
          obtain rfl : cur = c := Option.some.inj (hcur.symm.trans hc)
          exact or_iff_not_and_not.mpr hty
        rw [if_pos hpass]
        dsimp only
        rw [if_neg hty]
        exact hstore
  · have hpass : rt.assignPasses ref x v n := fun h => absurd h hn
    rw [if_neg hn, if_pos hpass]
    exact hstore

theorem stores_freeVar (ref : Ref) (x : Ident) : rt.Stores ((freeVar ref x).target rt) (rt.freeVar ref x) := by
  have hslot : (ref.off.bind fun off => (rt.slotValue off).map fun _ => off).isSome =
      (ref.off.bind rt.slotValue).isSome := by
    cases ref.off with
    | none => rfl
    | some off => exact Option.isSome_map
  unfold target Runtime.freeVar
  dsimp only
  rw [← hslot]
  rcases ref.off.bind fun off => (rt.slotValue off).map fun _ => off with _ | off
  · rw [if_neg (by simp)]
    rcases rt.fieldOwner x with _ | i
    · dsimp only
      split
      · exact .of_eq rfl
      · split
        · exact .of_eq rfl
        · exact .of_eq (fieldTables_raise rt _)
    · rfl
  · exact .of_eq rfl

theorem stores_declareArr (x : Ident) (data : List Value) :
    rt.Stores ((declareArr x data).target rt) (rt.declareArr x data) := by
  have halloc : (rt.allocArr (.ofList data)).currentInstance = rt.currentInstance := rfl
  cases hi : rt.currentInstance with
  | none =>
    simp only [target, Runtime.declareArr, halloc, hi]
    exact .of_eq rfl
  | some i =>
    simp only [target, Runtime.declareArr, halloc, hi]
    rfl

theorem stores_persistArr (x : Ident) (a : ℕ) : rt.Stores none (rt.persistArr x a) := by
  unfold Runtime.persistArr
  split
  · split
    · exact .of_eq (congrArg (List.map _) (rt.instances_poolSet x _).1)
    · exact .of_eq rfl
    · exact .of_eq rfl
  · exact .of_eq rfl

theorem stores_adopt (v : Value) : rt.Stores none (rt.adopt v).2 := by
  unfold Runtime.adopt
  split
  · split <;> exact .of_eq rfl
  · split
    · rcases rt.cloneInstance_spec _ with h | ⟨b, copies, fields, -, h, -, -⟩
      · exact .of_eq (by rw [h])
      · exact ⟨[fields], by rw [h]; exact List.map_append⟩
    · exact .of_eq rfl
  · exact .of_eq rfl

theorem stores_storeDyn (d idx : ℕ) (v : Value) : rt.Stores none (rt.storeDyn d idx v) := by
  unfold Runtime.storeDyn
  dsimp only
  split
  · exact .of_eq (fieldTables_raise _ _)
  · exact stores_adopt { rt with dyns := _ } v

theorem stores_addMethod (i : ℕ) (fn : FuncDecl) : rt.Stores none (rt.addMethod i fn) := by
  refine .of_eq ?_
  simp only [fieldTables, Runtime.addMethod]
  apply List.ext_getElem?
  intro j
  simp only [List.getElem?_map, List.getElem?_modify]
  rcases rt.instances[j]? with _ | b
  · rfl
  · by_cases hij : i = j <;> simp [hij]

/-- **What an update does to the fields.** -/
theorem stores_apply (u : Update) : rt.Stores (u.target rt) (u.apply rt) := by
  cases u with
  | raise e => exact .of_eq (fieldTables_raise rt e)
  | declareVar t ref name v n => exact stores_declareVar rt t ref name v n
  | declarePrst t ref name v => exact stores_declarePrst rt t ref name v
  | rebuildPrst t ref name v => exact stores_rebuildPrst rt t ref name v
  | restorePrst ref name e src => exact stores_restorePrst rt ref name e src
  | assignVar name ref v n => exact stores_assignVar rt name ref v n
  | bindVar ref name v => exact stores_set ref name v rfl rfl
  | declareFunc fn =>
    refine .of_eq ?_
    simp only [apply, Runtime.declareFunc]
    split <;> rfl
  | declareArr name data => exact stores_declareArr rt name data
  | persistArr name a => exact stores_persistArr rt name a
  | storeElem name a idx v =>
    refine .of_eq ?_
    simp only [apply, Runtime.storeElem]
    split
    · split <;> rfl
    · rfl
  | adopt v => exact stores_adopt rt v
  | storeDyn d idx v => exact stores_storeDyn rt d idx v
  | setField i name v => rfl
  | addMethod i fn => exact stores_addMethod rt i fn
  | freeVar ref name => exact stores_freeVar rt ref name
  | newInstance name defName isRoot => exact ⟨[[]], List.map_append⟩
  | syncPool =>
    refine rt.syncPool_induct (P := fun s => rt.Stores none s) (.of_eq rfl) fun s e off hs _ _ _ _ _ _ => ?_
    obtain ⟨more, hs⟩ := hs
    exact ⟨more, (fieldTables_poolStore s _ _).trans hs⟩
  | libReport r =>
    refine .of_eq ?_
    simp only [apply, Runtime.libReport]
    split <;> rfl
  | _ => exact .of_eq rfl

end Effects

/-- Only a declaration of an array and a store to a named field may reach a field that is not there. -/
theorem target_exists {u : Update} {rt : Runtime} {i : ℕ} {x : Ident} {v : Value}
    (hu : ∀ y data, u ≠ declareArr y data) (hu' : ∀ w, u ≠ setField i x w) (h : u.target rt = some (i, x, v)) :
    (rt.instanceField i x).isSome := by
  have howner {y : Ident} {w : Value} (h : (rt.fieldOwner y).map (·, y, w) = some (i, x, v)) :
      (rt.instanceField i x).isSome := by
    obtain ⟨j, hj, he⟩ := Option.map_eq_some_iff.mp h
    cases he
    exact fieldOwner_eq_some hj
  have hset {ref : Ref} {y : Ident} {w : Value} (h : rt.setTarget ref y w = some (i, x, v)) :
      (rt.instanceField i x).isSome := howner (Option.ite_none_left_eq_some.mp h).2
  cases u with
  | declareVar t ref name w n => exact hset (Option.ite_none_right_eq_some.mp h).2
  | declarePrst t ref name w | rebuildPrst t ref name w => exact hset (Option.ite_none_right_eq_some.mp h).2
  | restorePrst ref name _ _ | bindVar ref name _ => exact hset h
  | assignVar name ref w n => exact howner (Option.ite_none_right_eq_some.mp h).2
  | freeVar ref name => exact howner (Option.ite_none_left_eq_some.mp h).2
  | declareArr y data => exact absurd rfl (hu y data)
  | setField j y w =>
    cases h
    exact absurd rfl (hu' v)
  | _ => cases h

def KeepsFields (u : Update) (rt : Runtime) : Prop :=
  ∀ i < rt.instances.length, ∀ x, (u.apply rt).instanceField i x = rt.instanceField i x

/-- Whatever field it stores to holds the value already. -/
def StoresNothingNew (u : Update) (rt : Runtime) : Prop :=
  ∀ i x v, u.target rt = some (i, x, v) → i < rt.instances.length → rt.instanceField i x = some v

theorem keepsFields_iff (u : Update) (rt : Runtime) : u.KeepsFields rt ↔ u.StoresNothingNew rt := by
  have hstores := stores_apply rt u
  constructor
  · intro hkeeps i x v htarget hi
    rw [htarget] at hstores
    rw [← hkeeps i hi x, hstores.stored hi, if_pos ⟨rfl, rfl⟩]
  · intro hnew j hj y
    rcases htarget : u.target rt with _ | ⟨i, x, v⟩ <;> rw [htarget] at hstores
    · exact hstores.kept hj y
    · rw [hstores.stored hj]
      split
      · next h =>
        obtain ⟨rfl, rfl⟩ := h
        exact (hnew j y v htarget hj).symm
      · rfl

/-- A variable without a slot that `rt_set` is to store to `x` has the name of no field of the running instance, or of
one that holds the value. -/
def MissesFields (rt : Runtime) (ref : Ref) (x : Ident) (v : Value) : Prop :=
  ref.off = none → ∀ i, rt.fieldOwner x = some i → rt.instanceField i x = some v

/-- The condition on a declaration. An array is not declared while a method is running; another declaration that comes to
its store, past the checks of the types, misses the fields. -/
def StaysLocal : Update → Runtime → Prop
  | declareVar t ref x v n, rt => n < rt.errStack.length ∨ typeOk t v → MissesFields rt ref x v
  | declarePrst t ref x v, rt => typeOk t v → (rt.poolSet x v).2 → MissesFields rt ref x v
  | rebuildPrst t ref x v, rt => typeOk t v → MissesFields rt ref x v
  | restorePrst ref x e src, rt =>
    MissesFields rt ref x ((src.filter (initChanged · e.initValue)).getD e.value.arrRef)
  | declareArr x _, rt => ∀ i < rt.instances.length, rt.currentInstance = some i →
    rt.instanceField i x = some (.arr rt.nextArr true)
  | _, _ => True

theorem missesFields_iff {rt : Runtime} {ref : Ref} {x : Ident} {v : Value} : MissesFields rt ref x v ↔
    ∀ i y w, rt.setTarget ref x v = some (i, y, w) → i < rt.instances.length → rt.instanceField i y = some w := by
  unfold setTarget
  constructor
  · intro h i y w htarget _
    obtain ⟨hoff, howner⟩ := Option.ite_none_left_eq_some.mp htarget
    obtain ⟨j, hj, he⟩ := Option.map_eq_some_iff.mp howner
    cases he
    exact h (by simpa using hoff) i hj
  · intro h hoff i howner
    exact h i x v (by simp [hoff, howner]) (lt_of_instanceField (fieldOwner_eq_some howner))

theorem storesNothingNew_iff {u : Update} {rt : Runtime} (hu : u.isDeclaration) :
    u.StoresNothingNew rt ↔ u.StaysLocal rt := by
  have hnone : (none : Option (ℕ × Ident × Value)) = target u rt → u.StoresNothingNew rt := by
    intro h i x v htarget
    rw [← h] at htarget
    cases htarget
  cases u with
  | declareVar t ref x v n =>
    rw [StaysLocal, missesFields_iff]
    simp only [StoresNothingNew, target]
    split <;> simp_all
  | declarePrst t ref x v =>
    rw [StaysLocal, missesFields_iff]
    simp only [StoresNothingNew, target]
    split <;> simp_all
  | rebuildPrst t ref x v =>
    rw [StaysLocal, missesFields_iff]
    simp only [StoresNothingNew, target]
    split <;> simp_all
  | restorePrst ref x e src => exact missesFields_iff.symm
  | declareArr x data =>
    constructor
    · intro h i hi hrun
      exact h i x _ (by rw [target, hrun]; rfl) hi
    · intro h i y v htarget hi
      obtain ⟨j, hj, he⟩ := Option.map_eq_some_iff.mp htarget
      cases he
      exact h i hi hj
  | persistArr x a | declareFunc fn => exact iff_of_true (hnone rfl) trivial
  | _ => cases hu

end Update

section Calls

open Machine Prog

/-- A call of a method: by the evaluator, and by compiled code, which may inline the body, or run it on the
evaluator for a function that it found in the running method's Block. -/
inductive MethodCall where
  | walked (fn : FuncDecl) (args : List Expr) (i : ℕ)
  | compiled (owner method : Ident) (isKey : Bool) (args : List Value)
  | fallback (fn : FuncDecl) (i : ℕ) (args : List Value)

namespace MethodCall

variable (env : Env) (n : ℕ) (c : MethodCall) (rt : Runtime)

/-- The state the call leaves, or in which it was cut off. -/
def finish : Runtime :=
  match c with
  | walked fn args i => ((interp env).runs n (callFunction fn args (some i)) rt).2
  | compiled owner method isKey args => ((interp env).runs n (vmCallMethod env owner method isKey args) rt).2
  | fallback fn i args => ((interp env).runs n (vmEvalFallback fn (some i) args) rt).2

def journal : List (Update × Runtime) :=
  match c with
  | walked fn args i => (interp env).journal n (callFunction fn args (some i)) rt
  | compiled owner method isKey args => (interp env).journal n (vmCallMethod env owner method isKey args) rt
  | fallback fn i args => (interp env).journal n (vmEvalFallback fn (some i) args) rt

/-- The instances there are have the same field names after the call. -/
def SameNames : Prop := ∀ i < rt.instances.length, ∀ x,
  ((c.finish env n rt).instanceField i x).isSome = (rt.instanceField i x).isSome

/-- **Method locals are local.** -/
def LocalsStayLocal : Prop :=
  (∀ e ∈ c.journal env n rt, e.1.isDeclaration → e.1.KeepsFields e.2) ∧ c.SameNames env n rt

/-- The condition on the steps of the call: a declaration stays local, and a store to a named field of an instance from
before the call finds that field. -/
structure StoresNoLocal : Prop where
  declarations : ∀ e ∈ c.journal env n rt, e.1.isDeclaration → e.1.StaysLocal e.2
  fields : ∀ e ∈ c.journal env n rt, ∀ i x v, e.1 = .setField i x v → i < rt.instances.length →
    (e.2.instanceField i x).isSome

theorem journaled {P : Runtime → List (Update × Runtime) → Runtime → Prop} (h : (interp env).Journaled P) :
    P rt (c.journal env n rt) (c.finish env n rt) := by
  cases c with
  | walked fn args i => exact h.runs n _ rt
  | compiled owner method isKey args => exact h.runs n _ rt
  | fallback fn i args => exact h.runs n _ rt

end MethodCall

theorem instances_enter (b : Bracket) (rt : Runtime) : (b.enter rt).instances = rt.instances := by
  cases b <;> rfl

theorem instances_leave (b : Bracket) (rt rt' : Runtime) : (b.leave rt rt').instances = rt'.instances := by
  cases b <;> rfl

theorem advances_fieldsGrow (env : Env) : (interp env).Advances Runtime.FieldsGrow where
  refl _ := .of_eq rfl
  trans := .trans
  apply u rt := (stores_apply rt u).fieldsGrow
  note _ := .of_eq rfl
  exhaust _ := .of_eq rfl
  enter b rt := .of_eq (instances_enter b rt)
  leave b rt rt' := .of_eq (instances_leave b rt rt')

/-- The condition on one update, for the instances below `k`. -/
def Update.KeepsNames (k : ℕ) (u : Update) (rt : Runtime) : Prop :=
  (u.isDeclaration → u.StoresNothingNew rt) ∧
    ∀ i x v, u = .setField i x v → i < k → (rt.instanceField i x).isSome

theorem Update.KeepsNames.apply {k : ℕ} {u : Update} {rt : Runtime} (h : u.KeepsNames k rt)
    (hk : k ≤ rt.instances.length) {i : ℕ} (hi : i < k) (x : Ident) :
    ((u.apply rt).instanceField i x).isSome = (rt.instanceField i x).isSome := by
  have hlen : i < rt.instances.length := hi.trans_le hk
  have hstores := stores_apply rt u
  rcases htarget : u.target rt with _ | ⟨j, y, v⟩ <;> rw [htarget] at hstores
  · rw [hstores.kept hlen]
  · rw [hstores.stored hlen]
    split
    · next he =>
      obtain ⟨rfl, rfl⟩ := he
      have hthere : (rt.instanceField i x).isSome := by
        by_cases harr : ∃ y data, u = .declareArr y data
        · obtain ⟨y, data, rfl⟩ := harr
          rw [h.1 rfl i x v htarget hlen]
          rfl
        · by_cases hfield : ∃ w, u = .setField i x w
          · obtain ⟨w, rfl⟩ := hfield
            exact h.2 i x w rfl hi
          · push Not at harr hfield
            exact target_exists harr hfield htarget
      rw [hthere]
      rfl
    · rfl

theorem journaled_keepsNames (env : Env) (k : ℕ) : (interp env).Journaled fun s l t =>
    s.instances.length ≤ t.instances.length ∧ (k ≤ s.instances.length → (∀ e ∈ l, e.1.KeepsNames k e.2) →
      ∀ i < k, ∀ x, (t.instanceField i x).isSome = (s.instanceField i x).isSome) where
  nil s := ⟨le_rfl, fun _ _ _ _ _ => rfl⟩
  append {s t u l l'} h₁ h₂ := by
    refine ⟨h₁.1.trans h₂.1, fun hk hall i hi x => ?_⟩
    have hfirst := h₁.2 hk (fun e he => hall e (List.mem_append_right _ he)) i hi x
    have hsecond := h₂.2 (hk.trans h₁.1) (fun e he => hall e (List.mem_append_left _ he)) i hi x
    exact hsecond.trans hfirst
  apply u s := by
    refine ⟨(stores_apply s u).length_le, fun hk hall i hi x => ?_⟩
    exact (hall (u, s) (List.mem_singleton_self _)).apply hk hi x
  note s := ⟨le_rfl, fun _ _ _ _ _ => rfl⟩
  exhaust s := ⟨le_rfl, fun _ _ _ _ _ => rfl⟩
  bracket {b s t l} h := by
    have henter : ((interp env).enter b s).instances = s.instances := instances_enter b s
    have hleave : ((interp env).leave b s t).instances = t.instances := instances_leave b s t
    simp only [Runtime.instanceField, Runtime.instance?, henter, hleave] at h ⊢
    exact h
  inside {b s t l} h := by
    have henter : ((interp env).enter b s).instances = s.instances := instances_enter b s
    simp only [Runtime.instanceField, Runtime.instance?, henter] at h ⊢
    exact h

namespace MethodCall

variable {env : Env} {n : ℕ} {c : MethodCall} {rt : Runtime}

theorem StoresNoLocal.sameNames (h : c.StoresNoLocal env n rt) : c.SameNames env n rt := by
  have hrun := c.journaled env n rt (journaled_keepsNames env rt.instances.length)
  exact hrun.2 le_rfl fun e he => ⟨fun hd => (storesNothingNew_iff hd).mpr (h.declarations e he hd), h.fields e he⟩

theorem SameNames.fields (h : c.SameNames env n rt) {i : ℕ} {x : Ident} {v : Value} {s : Runtime}
    (he : (setField i x v, s) ∈ c.journal env n rt) (hi : i < rt.instances.length) :
    (s.instanceField i x).isSome := by
  obtain ⟨hbefore, hafter⟩ := (c.journaled env n rt (advances_fieldsGrow env).journaled).2 _ he
  have hmade : ((setField i x v).apply s).instanceField i x = some v := by
    rw [(stores_apply s (.setField i x v)).stored (hi.trans_le hbefore.instances), if_pos ⟨rfl, rfl⟩]
  have hend : ((c.finish env n rt).instanceField i x).isSome := hafter.fields i x (by
    change (((setField i x v).apply s).instanceField i x).isSome
    rw [hmade]
    rfl)
  rw [h i hi x] at hend
  exact hbefore.fields i x hend

/-- **When the locals of a method are local.** The fuel is arbitrary, so that the statement is also one
about calls that do not end. -/
theorem locals_stay_local_iff (env : Env) (n : ℕ) (c : MethodCall) (rt : Runtime) :
    c.LocalsStayLocal env n rt ↔ c.StoresNoLocal env n rt := by
  constructor
  · rintro ⟨hdecl, hnames⟩
    refine ⟨fun e he hd => (storesNothingNew_iff hd).mp ((keepsFields_iff e.1 e.2).mp (hdecl e he hd)), ?_⟩
    intro e he i x v hset hi
    obtain ⟨u, s⟩ := e
    obtain rfl : u = .setField i x v := hset
    exact hnames.fields he hi
  · intro h
    refine ⟨fun e he hd => (keepsFields_iff e.1 e.2).mpr ?_, h.sameNames⟩
    exact (storesNothingNew_iff hd).mpr (h.declarations e he hd)

end MethodCall

/-- `Block C { int n = 1  fn f() nil { int n = 5  int arr t[2] = [1, 2] }  fn g() nil { int arr n[1] = 7 } }` -/
def arrayLocals : List Stmt :=
  [.blockDecl "C" [.varDecl .int "n" (.intLit 1) false {},
    .funcDecl 0 "f" [] .nil
      [.varDecl .int "n" (.intLit 5) false {}, .arrDecl .int "t" 2 (.elements [.intLit 1, .intLit 2]) false],
    .funcDecl 1 "g" [] .nil [.arrDecl .int "n" 1 (.default (.intLit 7)) false]]]

def arrayLocalsState : Runtime := (runtimeExec .plain 20 ((resolverRun 16 arrayLocals).getD []) []).2

def arrayLocalsCall (method : Ident) : MethodCall :=
  .walked ((arrayLocalsState.instanceMethod 0 method).getD ⟨0, method, [], .nil, []⟩) [] 0

/-- The scalar stays local, but the array of `f` becomes a field of the instance and that of `g` takes the
place of the field it has the name of. -/
theorem array_local_becomes_field :
    ¬(arrayLocalsCall "f").LocalsStayLocal .plain 20 arrayLocalsState ∧
    (let field (rt : Runtime) (x : Ident) := (rt.instanceField 0 x).map Value.type
     let after (method : Ident) := (arrayLocalsCall method).finish .plain 20 arrayLocalsState
     field arrayLocalsState "n" = some .int ∧ field arrayLocalsState "t" = none ∧
       field (after "f") "n" = some .int ∧ field (after "f") "t" = some .arr ∧
       field (after "g") "n" = some .arr) := by
  refine ⟨?_, by decide +kernel⟩
  rintro ⟨-, hnames⟩
  have ht := hnames 0 (by decide +kernel) "t"
  revert ht
  decide +kernel

end Calls

end Fluxa
