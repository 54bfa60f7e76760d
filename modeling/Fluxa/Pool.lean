import Fluxa.Update

/-! What the operations on the pool and the heap leave alone, and what becomes of an entry. -/

namespace Fluxa

namespace Runtime

section Heap

/-- A clone of an instance: the arrays among its fields are copied, the other fields are shared. -/
theorem cloneInstance_spec (rt : Runtime) (i : ℕ) : rt.cloneInstance i = rt ∨
    ∃ b copies fields, rt.instance? i = some b ∧
      rt.cloneInstance i = { rt with
        arrs := rt.arrs ++ copies
        instances := rt.instances ++
          [{ b with name := s!"{b.name}_dyn{rt.cloneCounter}", isRoot := false, fields := fields }]
        cloneCounter := rt.cloneCounter + 1 } ∧
      (∀ f ∈ fields, f ∈ b.fields ∨ f.2.type = .arr) ∧
      ∀ c ∈ copies, ∀ v ∈ c.data, ∃ a ∈ rt.arrs, v ∈ a.data := by
  unfold cloneInstance
  split
  · exact .inl rfl
  next b hb =>
  right
  dsimp only
  -- The arrays copied so far stand behind those that were there.
  let Copied (acc : Runtime × Table) : Prop := ∃ copies, acc.1 = { rt with arrs := rt.arrs ++ copies } ∧
    (∀ f ∈ acc.2, f ∈ b.fields ∨ f.2.type = .arr) ∧ ∀ c ∈ copies, ∀ v ∈ c.data, ∃ a ∈ rt.arrs, v ∈ a.data
  have hstart : Copied (rt, []) := ⟨[], by simp⟩
  have hfinish (acc : Runtime × Table) (hacc : Copied acc) : ∃ c copies fields, rt.instance? i = some c ∧
      { acc.1 with
        instances := acc.1.instances ++
          [{ b with name := s!"{b.name}_dyn{acc.1.cloneCounter}", isRoot := false, fields := acc.2 }]
        cloneCounter := acc.1.cloneCounter + 1 } = { rt with
        arrs := rt.arrs ++ copies
        instances := rt.instances ++
          [{ c with name := s!"{c.name}_dyn{rt.cloneCounter}", isRoot := false, fields := fields }]
        cloneCounter := rt.cloneCounter + 1 } ∧
      (∀ f ∈ fields, f ∈ c.fields ∨ f.2.type = .arr) ∧
      ∀ copy ∈ copies, ∀ v ∈ copy.data, ∃ a ∈ rt.arrs, v ∈ a.data := by
    obtain ⟨_, fields⟩ := acc
    obtain ⟨copies, rfl, hfields, hcopies⟩ := hacc
    exact ⟨b, copies, fields, hb, rfl, hfields, hcopies⟩
  refine hfinish _ (List.foldlRecOn b.fields _ hstart ?_)
  rintro ⟨_, done⟩ ⟨copies, rfl, hdone, hcopies⟩ f hf
  have hkeep : ∀ g ∈ done ++ [f], g ∈ b.fields ∨ g.2.type = .arr :=
    List.forall_mem_append.mpr ⟨hdone, by simpa using .inl hf⟩
  dsimp only
  split
  next a own ha =>
    split
    · exact ⟨copies, rfl, hkeep, hcopies⟩
    · refine ⟨copies ++ [.ofList ((rt.arrs ++ copies)[a]?.map (·.data) |>.getD [])], ?_, ?_, ?_⟩
      · rw [← List.append_assoc]
        rfl
      · exact List.forall_mem_append.mpr ⟨hdone, by simp [Value.type]⟩
      · refine List.forall_mem_append.mpr ⟨hcopies, ?_⟩
        simp only [List.mem_singleton, forall_eq, Arr.ofList]
        intro v hv
        cases hget : (rt.arrs ++ copies)[a]? with
        | none => simp [hget] at hv
        | some c =>
          simp only [hget, Option.map_some, Option.getD_some] at hv
          rcases List.mem_append.mp (List.mem_of_getElem? hget) with hc | hc
          · exact ⟨c, hc, hv⟩
          · exact hcopies c hc v hv
  · exact ⟨copies, rfl, hkeep, hcopies⟩

end Heap

section Fields

variable {rt : Runtime} {name : Ident} {v : Value}

theorem currentField_eq_some {i : ℕ} (h : rt.fieldOwner name = some i) :
    rt.currentInstance = some i ∧ (rt.instanceField i name).isSome := by
  simpa [fieldOwner, Option.filter_eq_some_iff] using h

theorem currentField_setInstanceField {i : ℕ} (h : rt.fieldOwner name = some i) :
    (rt.setInstanceField i name v).currentField name = some v := by
  obtain ⟨hinst, hfield⟩ := currentField_eq_some h
  obtain ⟨b, hb⟩ : ∃ b, rt.instances[i]? = some b := by
    rw [instanceField, instance?] at hfield
    rcases hb : rt.instances[i]? with _ | b
    · simp [hb] at hfield
    · exact ⟨b, rfl⟩
  simp [currentField, setInstanceField, hinst, instanceField, instance?, List.getElem?_modify, hb]

theorem currentField_eq_none (h : rt.fieldOwner name = none) : rt.currentField name = none := by
  rcases hinst : rt.currentInstance with _ | i
  · simp [currentField, hinst]
  · simpa [currentField, fieldOwner, hinst, Option.filter] using h

end Fields

section Pool

variable (rt : Runtime) (x : Ident) (v : Value)

theorem cloneValue_arrs : ∃ more, (rt.cloneValue v).2 = { rt with arrs := rt.arrs ++ more } := by
  unfold cloneValue
  split
  · split
    · split
      · exact ⟨[], by simp⟩
      · exact ⟨_, rfl⟩
    · exact ⟨[], by simp⟩
  · exact ⟨[], by simp⟩

theorem poolHas_iff {y : Ident} : rt.poolHas y = true ↔ y ∈ rt.prstPool.map (·.name) := by
  simp [poolHas, poolFind]

theorem poolHas_congr {rt rt' : Runtime} (h : rt'.prstPool.map (·.name) = rt.prstPool.map (·.name))
    (y : Ident) : rt'.poolHas y = rt.poolHas y := by
  rw [Bool.eq_iff_iff, poolHas_iff, poolHas_iff, h]

/-- A store to a pooled variable touches the pool and the global table, and may copy an array. -/
theorem poolStore_spec (hx : rt.poolHas x = true) : ∃ pool more errs,
    rt.poolStore x v = { rt with
      prstPool := pool
      globalTable := rt.globalTable.set x v
      arrs := rt.arrs ++ more
      errStack := errs } ∧ pool.map (·.name) = rt.prstPool.map (·.name) := by
  obtain ⟨e, he⟩ := Option.isSome_iff_exists.mp hx
  obtain ⟨more, hmore⟩ := rt.cloneValue_arrs v
  simp only [poolStore, poolSet, he]
  split
  · exact ⟨rt.prstPool, [], (rt.pushErr _).errStack, by rw [List.append_nil]; rfl, rfl⟩
  · refine ⟨rt.prstPool.map fun e => if e.name == x then { e with value := (rt.cloneValue v).1 } else e,
      more, rt.errStack, by simp only [hmore]; rfl, ?_⟩
    rw [List.map_map]
    refine List.map_congr_left fun e _ => ?_
    simp only [Function.comp_apply]
    split <;> rfl

/-- A declaration whose initialiser was edited stores the new value and remembers it. -/
theorem restorePrst_edited (rt : Runtime) (ref : Ref) (x : Ident) {e : PrstEntry} {v : Value}
    (h : initChanged v e.initValue = true) :
    rt.restorePrst ref x e (some v) =
      ((((rt.poolSet x v).1.poolSetOffset x ref.off).poolUpdate x fun e => { e with initValue := v }).set ref x v
        ).globalSet x v := by
  unfold restorePrst
  simp only [Option.map_some, Option.getD_some, h]

theorem restorePrst_kept (rt : Runtime) (ref : Ref) (x : Ident) {e : PrstEntry} {src : Option Value}
    (h : ∀ v ∈ src, initChanged v e.initValue = false) :
    rt.restorePrst ref x e src =
      (((rt.poolSet x e.value.arrRef).1.poolSetOffset x ref.off).set ref x e.value.arrRef).globalSet x e.value.arrRef := by
  cases src with
  | none => rfl
  | some v =>
    have hv : initChanged v e.initValue = false := h v rfl
    unfold restorePrst
    simp only [Option.map_some, Option.getD_some, hv]
    rfl

end Pool

end Runtime

end Fluxa
