import Fluxa.BigStep
import Fluxa.Fixed
import Fluxa.Heap

/-! Array elements in the two tiers. The compiled code splits an element store into `OP_PREP_INDEX`, the code
of the value and `OP_SET_INDEX`, finds the array by a search of its own and keeps the slot it found in a
cache. It does what the evaluator does as long as the name has one meaning; the searches differ in their
order, and inside `danger` the evaluator goes on where compiled code stops. -/

namespace Fluxa.ArrayTiers

open Machine Fluxa.Runtime

section Callback

/-- What owns the value that a compiled access has found. -/
inductive Slot where
  | register (off : ℕ)
  | field
  | scope
  | global
deriving DecidableEq

/-- `VMIndexCache`. The position in the pool is looked for at the first store; it is `none` before. -/
structure Cache where
  slot : Option Slot := none
  prstIndex : Option (Option ℕ) := none

variable (rt : Runtime) (regs : ℕ → Value) (count : ℕ) (name : Ident) (off : Option ℕ)

def Slot.value : Slot → Option Value
  | .register o => some (regs o)
  | .field => rt.currentField name
  | .scope => rt.scope.get? name
  | .global => rt.globalTable.get? name

def namedSlot : Option Slot :=
  if (rt.currentField name).isSome then some .field
  else if (rt.scope.get? name).isSome then some .scope
  else if 0 < rt.callDepth ∧ (rt.globalTable.get? name).isSome then some .global
  else none

/-- `vm_index_slot`. -/
def vmIndexSlot (cache : Cache) : Option Slot :=
  match cache.slot with
  | some slot => some slot
  | none =>
    match off.filter fun o => o < count ∧ (regs o).arr?.isSome with
    | some o => some (.register o)
    | none => (namedSlot rt name).filter fun slot => ((slot.value rt regs name).bind Value.arr?).isSome

/-- The array behind the slot, which is looked at again at every access. -/
def indexArr (cache : Cache) : Option ℕ :=
  (vmIndexSlot rt regs count name off cache).bind fun slot => (slot.value rt regs name).bind Value.arr?

/-- `prst_pool_find`. -/
def prstPoolFind : Option ℕ := rt.prstPool.findIdx? (·.name == name)

/-- The store into the pool's copy, at a position of the pool. -/
def storePooled (entry : Option ℕ) (idx : ℕ) (v : Value) : Runtime :=
  match entry.bind (rt.prstPool[·]?) with
  | some ⟨_, _, .arr p _, _, _⟩ => rt.setElem p idx v
  | _ => rt

/-- `VM_INDEX_PREP`, `VM_INDEX_GET` and `VM_INDEX_SET`. -/
inductive Action where
  | prep
  | get
  | set (incoming : Value)

/-- What the callback leaves behind; `failed` makes the dispatch loop return. -/
structure Answer where
  value : Value
  state : Runtime
  cache : Cache
  failed : Bool

/-- The part of the callback behind the checks of target and index. -/
def vmIndexElement (cache : Cache) (a idx : ℕ) : Action → Answer
  | .prep => ⟨.bool true, rt, cache, false⟩
  | .get =>
    let elem := (rt.arrData a).getD idx .nil
    if elem.type.isPlain then ⟨elem, rt, cache, false⟩
    else ⟨.nil, rt.raise (.elementReadVm name idx elem.type), cache, true⟩
  | .set incoming =>
    let old := (rt.arrData a).getD idx .nil
    if old.type ≠ .nil ∧ old.type ≠ incoming.type then
      ⟨.nil, rt.raise (.elementType name idx old.type incoming.type), cache, true⟩
    else if !old.type.isPlain || !incoming.type.isPlain then
      ⟨.nil, rt.raise (.elementStoreVm name idx), cache, true⟩
    else
      let stored := rt.setElem a idx incoming
      if !rt.dryRun ∧ rt.mode = .project then
        let entry := cache.prstIndex.getD (prstPoolFind rt name)
        ⟨.nil, storePooled stored entry idx incoming, { cache with prstIndex := some entry }, false⟩
      else ⟨.nil, stored, cache, false⟩

/-- The checks that all three actions begin with: an array, an integer, and a position in the array. -/
def checkIndex (arr : Option ℕ) (index : Value) : Except RtError (ℕ × ℕ) :=
  match arr with
  | none => .error (.notAnArray name)
  | some a =>
    match index with
    | .int i =>
      if 0 ≤ i.toInt ∧ i.toInt < (rt.arrData a).length then .ok (a, i.toInt.toNat)
      else .error (.arrayIndexBounds name i.toInt (rt.arrData a).length)
    | _ => .error .arrayIndexType

/-- `vm_index_callback`. -/
def vmIndexCallback (cache : Cache) (index : Value) (action : Action) : Answer :=
  let cache' := { cache with slot := vmIndexSlot rt regs count name off cache }
  match checkIndex rt name (indexArr rt regs count name off cache) index with
  | .error e => ⟨match action with | .prep => .bool false | _ => .nil, rt.raise e, cache', true⟩
  | .ok (a, idx) => vmIndexElement rt name cache' a idx action

end Callback

section Uncached

variable {env : Env} {rt : Runtime} {regs : ℕ → Value} {count : ℕ} {name : Ident} {off : Option ℕ}

theorem find?_eq_findIdx? {α : Type} (p : α → Bool) (l : List α) : (l.findIdx? p).bind (l[·]?) = l.find? p := by
  induction l with
  | nil => rfl
  | cons x l ih =>
    rw [List.findIdx?_cons, List.find?_cons]
    cases p x with
    | true => rfl
    | false =>
      rw [← ih]
      cases l.findIdx? p <;> rfl

/-- At the position the search finds, the store is the one of the evaluator. -/
theorem storePooled_prstPoolFind (name : Ident) (a idx : ℕ) (v : Value) (hsync : !rt.dryRun ∧ rt.mode = .project) :
    storePooled (rt.setElem a idx v) (prstPoolFind rt name) idx v = rt.storeElem name a idx v := by
  have hsync' : !(rt.setElem a idx v).dryRun ∧ (rt.setElem a idx v).mode = .project := hsync
  have hfind : (prstPoolFind rt name).bind ((rt.setElem a idx v).prstPool[·]?) =
      (rt.setElem a idx v).poolFind name := find?_eq_findIdx? _ _
  unfold storePooled storeElem
  rw [hfind]
  exact (if_pos hsync').symm

theorem namedSlot_arr : ((namedSlot rt name).filter fun slot => ((slot.value rt regs name).bind Value.arr?).isSome).bind
    (fun slot => (slot.value rt regs name).bind Value.arr?) = match rt.currentField name with
      | some v => v.arr?
      | none =>
        match rt.scope.get? name with
        | some v => v.arr?
        | none => if 0 < rt.callDepth then (rt.globalTable.get? name).bind Value.arr? else none := by
  rw [namedSlot]
  cases hfield : rt.currentField name with
  | some v =>
    simp only [Option.isSome_some, if_true]
    cases hv : v.arr? <;> simp [Option.filter, Slot.value, hfield, hv]
  | none =>
    cases hscope : rt.scope.get? name with
    | some v =>
      simp only [Option.isSome_some, Option.isSome_none, if_true, Bool.false_eq_true, if_false]
      cases hv : v.arr? <;> simp [Option.filter, Slot.value, hscope, hv]
    | none =>
      simp only [Option.isSome_none, Bool.false_eq_true, if_false]
      by_cases hdepth : 0 < rt.callDepth
      · cases hglobal : rt.globalTable.get? name with
        | none => simp
        | some v => cases hv : v.arr? <;> simp [Option.filter, Slot.value, hglobal, hv, hdepth]
      · simp [hdepth]

theorem indexArr_fresh : indexArr rt regs count name off {} = rt.vmIndexArr regs count name off := by
  unfold indexArr vmIndexSlot vmIndexArr
  cases off with
  | none => exact namedSlot_arr
  | some o =>
    cases hreg : if o < count then (regs o).arr? else none with
    | none =>
      have hfilter : ((some o).filter fun o => o < count ∧ (regs o).arr?.isSome) = none := by
        by_cases ho : o < count
        · rw [if_pos ho] at hreg
          simp [hreg]
        · simp [ho]
      have hbind : ((some o).bind fun o => if o < count then (regs o).arr? else none) = none := hreg
      rw [hfilter, hbind]
      exact namedSlot_arr
    | some a =>
      have ho : o < count := by
        by_contra h
        rw [if_neg h] at hreg
        cases hreg
      rw [if_pos ho] at hreg
      simp [Option.filter, ho, hreg, Slot.value]

theorem runs_vmIndexPrep {index : Value} {o : Option (ℕ × ℕ)} {t : Runtime} :
    (interp env).Runs (vmIndexPrep regs count name off index) rt o t ↔
      match checkIndex rt name (rt.vmIndexArr regs count name off) index with
      | .error e => o = none ∧ t = rt.raise e
      | .ok p => o = some p ∧ t = rt := by
  rw [vmIndexPrep, runs_read_bind]
  unfold checkIndex
  cases rt.vmIndexArr regs count name off with
  | none =>
    simp only [runs_modify_bind, runs_pure, interp_apply]
    rfl
  | some a =>
    cases index with
    | int i =>
      simp only
      split
      · simp
      · simp only [runs_modify_bind, runs_pure, interp_apply]
        rfl
    | _ =>
      simp only [runs_modify_bind, runs_pure, interp_apply]
      rfl

/-- `OP_GET_INDEX` in the model of the VM is the callback with a fresh cache. -/
theorem runs_vmIndexGet {index : Value} {o : Option Value} {t : Runtime} :
    (interp env).Runs (vmIndexGet regs count name off index) rt o t ↔
      let r := vmIndexCallback rt regs count name off {} index .get
      t = r.state ∧ o = if r.failed then none else some r.value := by
  simp only [vmIndexGet, runs_bind, runs_vmIndexPrep, vmIndexCallback, indexArr_fresh]
  cases checkIndex rt name (rt.vmIndexArr regs count name off) index with
  | error e => simp [and_comm]
  | ok p =>
    obtain ⟨a, idx⟩ := p
    simp only [and_assoc, exists_and_left, exists_eq_left, runs_read_bind, vmIndexElement]
    split
    · simp [and_comm]
    · simp only [runs_modify_bind, runs_pure, interp_apply, if_true]
      exact and_comm

theorem runs_vmIndexSet {index incoming : Value} {done : Bool} {t : Runtime} :
    (interp env).Runs (vmIndexSet regs count name off index incoming) rt done t ↔
      let r := vmIndexCallback rt regs count name off {} index (.set incoming)
      t = r.state ∧ done = !r.failed := by
  simp only [vmIndexSet, runs_bind, runs_vmIndexPrep, vmIndexCallback, indexArr_fresh]
  cases checkIndex rt name (rt.vmIndexArr regs count name off) index with
  | error e => simp [and_comm]
  | ok p =>
    obtain ⟨a, idx⟩ := p
    simp only [and_assoc, exists_and_left, exists_eq_left, runs_read_bind, vmIndexElement]
    split
    · simp only [runs_modify_bind, runs_pure, interp_apply]
      exact and_comm
    · split
      · simp only [runs_modify_bind, runs_pure, interp_apply]
        exact and_comm
      · have hstore : (if !rt.dryRun ∧ rt.mode = .project then
            storePooled (rt.setElem a idx incoming) (prstPoolFind rt name) idx incoming
            else rt.setElem a idx incoming) = rt.storeElem name a idx incoming := by
          split
          · next hsync => exact storePooled_prstPoolFind name a idx incoming hsync
          · next hsync => exact (if_neg hsync).symm
        simp only [runs_modify_bind, runs_pure, interp_apply]
        rw [show (Update.storeElem name a idx incoming).apply rt = rt.storeElem name a idx incoming from rfl,
          ← hstore, and_comm]
        split <;> rfl

end Uncached

section Accesses

variable (env : Env) (name : Ident) (ref : Ref) (index value : Expr)

/-- `OP_GET_INDEX` behind the code of its index: the value, the state, and whether the loop is left. -/
def CompiledRead (cache : Cache) (s : Runtime) (v : Value) (t : Runtime) (stops : Bool) : Prop :=
  ∃ k u, (interp env).Calls (.expr index) s k u ∧
    let r := vmIndexCallback u u.stack u.stackSize name ref.off cache k .get
    v = r.value ∧ t = r.state ∧ stops = r.failed

/-- `OP_PREP_INDEX` behind the code of the index, and `OP_SET_INDEX` behind the code of the value. -/
def CompiledWrite (cache : Cache) (s t : Runtime) (stops : Bool) : Prop :=
  ∃ k u, (interp env).Calls (.expr index) s k u ∧
    let r := vmIndexCallback u u.stack u.stackSize name ref.off cache k .prep
    if r.failed then t = r.state ∧ stops = true
    else ∃ x w, (interp env).Calls (.expr value) u x w ∧
      let r' := vmIndexCallback w w.stack w.stackSize name ref.off r.cache k (.set x)
      t = r'.state ∧ stops = r'.failed

/-- `NODE_ARR_ACCESS`; the evaluator leaves a loop when an error has been reported. -/
def WalkedRead (s : Runtime) (v : Value) (t : Runtime) (stops : Bool) : Prop :=
  (interp env).Runs (evalArrAccess name ref index) s v t ∧ stops = t.hadError

/-- `NODE_ARR_ASSIGN`. -/
def WalkedWrite (s t : Runtime) (stops : Bool) : Prop :=
  (∃ v, (interp env).Runs (execArrAssign name ref index value) s v t) ∧ stops = t.hadError

/-- The name means one array: the one in its slot, or, if that is empty, the one bound to it either in the
frame table or in the running instance, but not in both. -/
inductive Binds (s : Runtime) (ref : Ref) (name : Ident) : Slot → ℕ → Prop
  | register {off a : ℕ} {o : Bool} (hoff : ref.off = some off) (hlt : off < s.stackSize)
      (harr : s.stack off = .arr a o) : Binds s ref name (.register off) a
  | scope {a : ℕ} {o : Bool} (hempty : ref.off.bind s.slotValue = none) (hfield : s.currentField name = none)
      (harr : s.scope.get? name = some (.arr a o)) : Binds s ref name .scope a
  | field {a : ℕ} {o : Bool} (hempty : ref.off.bind s.slotValue = none)
      (harr : s.currentField name = some (.arr a o)) (hscope : s.scope.get? name = none) :
      Binds s ref name .field a

/-- A state in which an access to the array is made: no error so far, with plain elements and with a cache
that is empty or holds what a search would find. -/
structure Ready (s : Runtime) (ref : Ref) (name : Ident) (slot : Slot) (a : ℕ) (cache : Cache) : Prop where
  binds : Binds s ref name slot a
  plain : ∀ v ∈ s.arrData a, v.type.isPlain
  quiet : s.hadError = false
  cached : cache.slot = none ∨ cache.slot = some slot
  pooled : cache.prstIndex = none ∨ cache.prstIndex = some (prstPoolFind s name)

/-- The element takes the value, or it is refused by both tiers: outside `danger`, and if no error was reported
since `u`. -/
def Fits (u w : Runtime) (old x : Value) : Prop :=
  x.type.isPlain ∧ (old.type = .nil ∨ old.type = x.type) ∨
    old.type ≠ .nil ∧ old.type ≠ x.type ∧ w.dangerDepth = 0 ∧ w.errStack.length = u.errStack.length

variable (cache : Cache) (slot : Slot) (a : ℕ) (s : Runtime)

/-- The index finds the array ready, and inside `danger`, where the evaluator goes on behind an error, it is valid. -/
def IndexAlike : Prop := ∀ k u, (interp env).Calls (.expr index) s k u →
  Ready u ref name slot a cache ∧ (u.dangerDepth = 0 ∨ ∃ p, checkIndex u name (some a) k = .ok p)

structure ReadAlike : Prop where
  notErr : name ≠ "err"
  binds : Binds s ref name slot a
  indexed : IndexAlike env name ref index cache slot a s

structure WriteAlike : Prop where
  quiet : s.hadError = false
  notDyn : ∀ d, s.lookup ref name ≠ some (.dyn d)
  known : s.dangerDepth = 0 ∨ (s.lookup ref name).isSome
  indexed : IndexAlike env name ref index cache slot a s
  taken : ∀ i u x w, (interp env).Calls (.expr index) s (.int i) u → (interp env).Calls (.expr value) u x w →
    Ready w ref name slot a cache ∧ Fits u w ((w.arrData a).getD i.toInt.toNat .nil) x

end Accesses

section Sizes

def KeepsSizes (s t : Runtime) : Prop :=
  ∀ a b, s.arr? a = some b → ∃ c, t.arr? a = some c ∧ c.data.length = b.data.length

theorem KeepsSizes.refl (s : Runtime) : KeepsSizes s s := fun _ b h => ⟨b, h, rfl⟩

theorem KeepsSizes.trans {s t u : Runtime} (h : KeepsSizes s t) (h' : KeepsSizes t u) : KeepsSizes s u := by
  intro a b hb
  obtain ⟨c, hc, hlen⟩ := h a b hb
  obtain ⟨d, hd, hlen'⟩ := h' a c hc
  exact ⟨d, hd, hlen'.trans hlen⟩

theorem keepsSizes_setElem (s : Runtime) (a idx : ℕ) (v : Value) : KeepsSizes s (s.setElem a idx v) := by
  intro b c hc
  have hget : (s.setElem a idx v).arr? b =
      (s.arr? b).map fun c => if a = b then { c with data := c.data.set idx v } else c := by
    simp only [arr?, setElem, List.getElem?_modify]
    cases s.arrs[b]? with
    | none => rfl
    | some d => by_cases hab : a = b <;> simp [hab]
  refine ⟨_, hget.trans (congrArg _ hc), ?_⟩
  split
  · exact List.length_set ..
  · rfl

theorem keepsSizes_apply (u : Update) (s : Runtime) : KeepsSizes s (u.apply s) := by
  by_cases hstore : ∃ y a idx v, u = .storeElem y a idx v
  · obtain ⟨y, a, idx, v, rfl⟩ := hstore
    simp only [Update.apply, storeElem]
    split
    · split
      · exact (keepsSizes_setElem s a idx v).trans (keepsSizes_setElem _ _ idx v)
      · exact keepsSizes_setElem s a idx v
    · exact keepsSizes_setElem s a idx v
  · push Not at hstore
    intro a b hb
    exact ⟨b, (Update.heapGrows_apply hstore s).arr? hb, rfl⟩

theorem closed_keepsSizes (env : Env) : (interp env).Closed KeepsSizes (fun _ _ => True) (fun _ => True) where
  refl := .refl
  trans := .trans
  deep _ _ := trivial
  apply := keepsSizes_apply
  note _ := .refl _
  bracket {b s t} _ _ h := by
    cases b with
    | danger | call | fallback => exact h
    | loop | vm | vmFn => exact h
  opens _ _ _ := trivial
  exhaust _ := trivial
  later _ _ := trivial
  inside _ _ _ := trivial

/-- The evaluation of an expression leaves an array with an element as long as it is. -/
theorem length_arrData_of_calls {env : Env} {e : Expr} {s t : Runtime} {v : Value} {a : ℕ}
    (h : (interp env).Calls (.expr e) s v t) (ha : 0 < (s.arrData a).length) :
    (t.arrData a).length = (s.arrData a).length := by
  obtain ⟨n, hn⟩ := (runs_invoke (M := interp env) (m := false) _ _ _ _).mpr h
  have hkept := (closed_keepsSizes env).runs n (m := false) (Prog.invoke (.expr e)) s fun _ => trivial
  rw [hn] at hkept
  cases hb : s.arr? a with
  | none => simp [arrData, hb] at ha
  | some b =>
    obtain ⟨c, hc, hlen⟩ := hkept a b hb
    simp [arrData, hb, hc, hlen]

end Sizes

section Agreement

variable {env : Env} {s t u w : Runtime} {ref : Ref} {name : Ident} {slot : Slot} {a : ℕ} {cache : Cache}

theorem slotValue_arr {off : ℕ} {o : Bool} (hlt : off < s.stackSize) (harr : s.stack off = .arr a o) :
    s.slotValue off = some (.arr a o) := by
  simp [slotValue, hlt, harr, Value.isNil]

theorem arr?_of_empty {off : ℕ} (h : s.slotValue off = none) (hlt : off < s.stackSize) : (s.stack off).arr? = none := by
  have hnil : s.stack off = .nil := by
    simpa [slotValue, hlt] using h
  rw [hnil]
  rfl

theorem filter_of_empty (h : ref.off.bind s.slotValue = none) :
    (ref.off.filter fun o => o < s.stackSize ∧ (s.stack o).arr?.isSome) = none := by
  rw [Option.filter_eq_none_iff]
  intro off hoff
  rw [hoff] at h
  simp only [decide_eq_true_eq, not_and]
  intro hlt
  simp [arr?_of_empty h hlt]

theorem arrSlot_of_empty (h : ref.off.bind s.slotValue = none) :
    (ref.off.bind fun off => (s.slotValue off).bind Value.arr?) = none := by
  cases hoff : ref.off with
  | none => rfl
  | some off =>
    rw [hoff] at h
    have hslot : s.slotValue off = none := h
    simp [hslot]

theorem Binds.arrAccessValue (h : Binds s ref name slot a) : ∃ o, s.arrAccessValue ref name = .arr a o := by
  cases h with
  | @register off a o hoff hlt harr =>
    exact ⟨o, by simp [arrAccessValue, hoff, slotValue_arr hlt harr]⟩
  | @scope a o hempty hfield harr => exact ⟨o, by simp [arrAccessValue, hempty, harr]⟩
  | @field a o hempty harr hscope => exact ⟨o, by simp [arrAccessValue, hempty, hscope, harr]⟩

theorem Binds.arrTarget (h : Binds s ref name slot a) : s.arrTarget ref name = some a := by
  cases h with
  | register hoff hlt harr => simp [arrTarget, hoff, slotValue_arr hlt harr, Value.arr?]
  | scope hempty hfield harr => simp [arrTarget, arrSlot_of_empty hempty, hfield, harr, Value.arr?]
  | field hempty harr hscope => simp [arrTarget, arrSlot_of_empty hempty, harr, Value.arr?]

theorem Binds.value (h : Binds s ref name slot a) : (slot.value s s.stack name).bind Value.arr? = some a := by
  cases h with
  | register _ _ harr | scope _ _ harr => simp [Slot.value, harr, Value.arr?]
  | field hempty harr hscope => simp [Slot.value, harr, Value.arr?]

theorem Ready.vmIndexSlot_eq (h : Ready s ref name slot a cache) :
    vmIndexSlot s s.stack s.stackSize name ref.off cache = some slot := by
  unfold vmIndexSlot
  rcases h.cached with hnone | hsome
  · rw [hnone]
    cases h.binds with
    | register hoff hlt harr => simp [hoff, Option.filter, hlt, harr, Value.arr?]
    | scope hempty hfield harr =>
      simp only [filter_of_empty hempty, namedSlot, hfield, harr]
      simp [Option.filter, Slot.value, harr, Value.arr?]
    | field hempty harr hscope =>
      simp only [filter_of_empty hempty, namedSlot, harr]
      simp [Option.filter, Slot.value, harr, Value.arr?]
  · rw [hsome]

theorem Ready.indexArr_eq (h : Ready s ref name slot a cache) :
    indexArr s s.stack s.stackSize name ref.off cache = some a := by
  rw [indexArr, h.vmIndexSlot_eq]
  exact h.binds.value

theorem Ready.callback (h : Ready s ref name slot a cache) (index : Value) (action : Action) :
    vmIndexCallback s s.stack s.stackSize name ref.off cache index action =
      match checkIndex s name (some a) index with
      | .error e => ⟨match action with | .prep => .bool false | _ => .nil, s.raise e,
          { cache with slot := some slot }, true⟩
      | .ok (a, idx) => vmIndexElement s name { cache with slot := some slot } a idx action := by
  unfold vmIndexCallback
  rw [h.indexArr_eq, h.vmIndexSlot_eq]

theorem Ready.pooled_eq (h : Ready s ref name slot a cache) :
    cache.prstIndex.getD (prstPoolFind s name) = prstPoolFind s name := by
  rcases h.pooled with hnone | hsome
  · rw [hnone]
    rfl
  · rw [hsome]
    rfl

theorem Ready.plain_getD (h : Ready s ref name slot a cache) (idx : ℕ) :
    ((s.arrData a).getD idx .nil).type.isPlain = true := by
  rw [List.getD_eq_getElem?_getD]
  cases hget : (s.arrData a)[idx]? with
  | none => rfl
  | some v => exact h.plain v (List.mem_of_getElem? hget)

/-- What the cache holds does not show in what the callback does. -/
theorem Ready.callback_fresh (h : Ready s ref name slot a cache) (index : Value) (action : Action) :
    let r := vmIndexCallback s s.stack s.stackSize name ref.off cache index action
    let r' := vmIndexCallback s s.stack s.stackSize name ref.off {} index action
    r'.value = r.value ∧ r'.state = r.state ∧ r'.failed = r.failed := by
  have hfresh : Ready s ref name slot a {} := { h with cached := .inl rfl, pooled := .inl rfl }
  simp only [h.callback, hfresh.callback]
  cases checkIndex s name (some a) index with
  | error e => exact ⟨rfl, rfl, rfl⟩
  | ok p =>
    cases action with
    | prep => exact ⟨rfl, rfl, rfl⟩
    | get =>
      simp only [vmIndexElement]
      split <;> exact ⟨rfl, rfl, rfl⟩
    | set incoming =>
      simp only [vmIndexElement, h.pooled_eq, hfresh.pooled_eq]
      split
      · exact ⟨rfl, rfl, rfl⟩
      split
      · exact ⟨rfl, rfl, rfl⟩
      split <;> exact ⟨rfl, rfl, rfl⟩

/-- The instructions of the VM are the callback with the cache that the loop has. -/
theorem Ready.runs_vmIndex (h : Ready s ref name slot a cache) (index : Value) :
    (∀ o t, (interp env).Runs (vmIndexGet s.stack s.stackSize name ref.off index) s o t ↔
      let r := vmIndexCallback s s.stack s.stackSize name ref.off cache index .get
      t = r.state ∧ o = if r.failed then none else some r.value) ∧
    ∀ incoming done t, (interp env).Runs (vmIndexSet s.stack s.stackSize name ref.off index incoming) s done t ↔
      let r := vmIndexCallback s s.stack s.stackSize name ref.off cache index (.set incoming)
      t = r.state ∧ done = !r.failed := by
  refine ⟨fun o t => ?_, fun incoming done t => ?_⟩
  · obtain ⟨hvalue, hstate, hfailed⟩ := h.callback_fresh index .get
    rw [runs_vmIndexGet]
    simp only [hvalue, hstate, hfailed]
  · obtain ⟨-, hstate, hfailed⟩ := h.callback_fresh index (.set incoming)
    rw [runs_vmIndexSet]
    simp only [hstate, hfailed]

theorem hadError_raise (h : s.dangerDepth = 0) (e : RtError) : (s.raise e).hadError = true := by
  simp [raise, h]

variable {index value : Expr}

/-- `NODE_ARR_ACCESS` and `OP_GET_INDEX` make the same checks and read the same element. -/
theorem ReadAlike.walkedRead_iff (h : ReadAlike env name ref index cache slot a s) (v : Value) (t : Runtime)
    (stops : Bool) :
    WalkedRead env name ref index s v t stops ↔ CompiledRead env name ref index cache s v t stops := by
  obtain ⟨o, ho⟩ := h.binds.arrAccessValue
  unfold WalkedRead CompiledRead
  rw [runs_evalArrAccess h.notErr ho, ← exists_and_right]
  refine exists_congr fun k => ?_
  rw [← exists_and_right]
  refine exists_congr fun u => ?_
  rw [and_assoc]
  refine and_congr_right fun hcall => ?_
  obtain ⟨hu, hpass⟩ := h.indexed k u hcall
  simp only [hu.callback]
  have hrefused (e : RtError) (hcheck : checkIndex u name (some a) k = .error e) :
      ((v = .nil ∧ t = u.raise e) ∧ stops = t.hadError) ↔ v = .nil ∧ t = u.raise e ∧ stops = true := by
    have houtside : u.dangerDepth = 0 := hpass.resolve_right (by simp [hcheck])
    rw [and_assoc]
    refine and_congr_right fun _ => and_congr_right fun ht => ?_
    rw [ht, hadError_raise houtside]
  cases k with
  | int i =>
    by_cases hi : 0 ≤ i.toInt ∧ i.toInt < (u.arrData a).length
    · simp only [checkIndex, hi, and_self, if_true, vmIndexElement, hu.plain_getD, and_assoc]
      refine and_congr_right fun _ => and_congr_right fun ht => ?_
      rw [ht, hu.quiet]
    · simp only [checkIndex, hi, if_false]
      exact hrefused _ (if_neg hi)
  | _ => exact hrefused _ rfl

theorem hadError_storeElem (s : Runtime) (name : Ident) (a idx : ℕ) (v : Value) :
    (s.storeElem name a idx v).hadError = s.hadError := by
  unfold storeElem
  dsimp only
  split
  · split <;> rfl
  · rfl

/-- The store behind the checks, as the evaluator makes it. -/
theorem Ready.set_eq (h : Ready s ref name slot a cache) {x : Value} {idx : ℕ}
    (hfits : Fits u s ((s.arrData a).getD idx .nil) x) :
    let r := vmIndexElement s name cache a idx (.set x)
    let old := (s.arrData a).getD idx .nil
    r.state = (if s.errStack.length = u.errStack.length ∧ old.type ≠ .nil ∧ old.type ≠ x.type then
        s.raise (.elementType name idx old.type x.type)
      else s.storeElem name a idx x) ∧ r.failed = r.state.hadError := by
  simp only [vmIndexElement, h.plain_getD, h.pooled_eq]
  rcases hfits with ⟨hx, hfits⟩ | ⟨hnil, hne, houtside, herrs⟩
  · have htypes : ¬(((s.arrData a).getD idx .nil).type ≠ .nil ∧ ((s.arrData a).getD idx .nil).type ≠ x.type) := by
      rintro ⟨hnil, hne⟩
      exact hfits.elim hnil hne
    simp only [htypes, hx, and_false, if_false, Bool.not_true, Bool.or_self, Bool.false_eq_true]
    have hquiet := (hadError_storeElem s name a idx x).trans h.quiet
    split
    · next hsync =>
      have hstate := storePooled_prstPoolFind name a idx x hsync
      exact ⟨hstate, (hstate ▸ hquiet).symm⟩
    · next hsync =>
      have hstate : s.setElem a idx x = s.storeElem name a idx x := (if_neg hsync).symm
      exact ⟨hstate, (hstate ▸ hquiet).symm⟩
  · rw [if_pos ⟨hnil, hne⟩, if_pos ⟨herrs, hnil, hne⟩]
    exact ⟨rfl, (hadError_raise houtside _).symm⟩

theorem Ready.prepared (h : Ready s ref name slot a cache) : Ready s ref name slot a { cache with slot := some slot } :=
  { h with cached := .inr rfl }

theorem elemStore_iff {i : Int64} (hi : 0 ≤ i.toInt ∧ i.toInt < (u.arrData a).length)
    (hvalue : ∀ x w, (interp env).Calls (.expr value) u x w →
      Ready w ref name slot a cache ∧ Fits u w ((w.arrData a).getD i.toInt.toNat .nil) x)
    (t : Runtime) (stops : Bool) :
    (∃ v, (interp env).Runs (execElemStore name a i.toInt.toNat value) u v t) ∧ stops = t.hadError ↔
      ∃ x w, (interp env).Calls (.expr value) u x w ∧
        let r := vmIndexCallback w w.stack w.stackSize name ref.off { cache with slot := some slot } (.int i) (.set x)
        t = r.state ∧ stops = r.failed := by
  have hstore (x : Value) (w : Runtime) (hcall : (interp env).Calls (.expr value) u x w) :
      (∃ v, Continues w v t (
        let old := (w.arrData a).getD i.toInt.toNat .nil
        if w.errStack.length = u.errStack.length ∧ old.type ≠ .nil ∧ old.type ≠ x.type then
          v = .nil ∧ t = w.raise (.elementType name i.toInt.toNat old.type x.type)
        else v = .nil ∧ t = w.storeElem name a i.toInt.toNat x)) ∧ stops = t.hadError ↔
      let r := vmIndexCallback w w.stack w.stackSize name ref.off { cache with slot := some slot } (.int i) (.set x)
      t = r.state ∧ stops = r.failed := by
    obtain ⟨hw, hfits⟩ := hvalue x w hcall
    have hlen := length_arrData_of_calls (a := a) hcall (by omega)
    obtain ⟨hstate, hfailed⟩ := hw.prepared.set_eq hfits
    simp only [hw.prepared.callback, checkIndex, hlen, hi, and_self, if_true, Continues, hw.quiet,
      Bool.false_eq_true, if_false]
    rw [hfailed, hstate]
    split
    · simp only [exists_eq_left]
      refine and_congr_right fun ht => ?_
      rw [ht]
    · simp only [exists_eq_left]
      refine and_congr_right fun ht => ?_
      rw [ht]
  simp only [runs_execElemStore]
  constructor
  · rintro ⟨⟨v, x, w, hcall, hrest⟩, hstops⟩
    exact ⟨x, w, hcall, (hstore x w hcall).mp ⟨⟨v, hrest⟩, hstops⟩⟩
  · rintro ⟨x, w, hcall, hrest⟩
    obtain ⟨⟨v, hv⟩, hstops⟩ := (hstore x w hcall).mpr hrest
    exact ⟨⟨v, x, w, hcall, hv⟩, hstops⟩

/-- `NODE_ARR_ASSIGN` and the two instructions of a compiled store make the same checks, before and behind
the value, and store the same element. -/
theorem WriteAlike.walkedWrite_iff (h : WriteAlike env name ref index value cache slot a s) (t : Runtime)
    (stops : Bool) :
    WalkedWrite env name ref index value s t stops ↔ CompiledWrite env name ref index value cache s t stops := by
  have hrest (k : Value) (u : Runtime) : (interp env).Calls (.expr index) s k u →
      ((∃ v, Continues u v t (
        match k with
        | .int i =>
          match u.arrTarget ref name with
          | none => v = .nil ∧ t = u.raise (.notAnArray name)
          | some a =>
            if 0 ≤ i.toInt ∧ i.toInt < (u.arrData a).length then
              (interp env).Runs (execElemStore name a i.toInt.toNat value) u v t
            else v = .nil ∧ t = u.raise (.arrayIndexBounds name i.toInt (u.arrData a).length)
        | _ => v = .nil ∧ t = u.raise .arrayIndexType)) ∧ stops = t.hadError ↔
      let r := vmIndexCallback u u.stack u.stackSize name ref.off cache k .prep
      if r.failed then t = r.state ∧ stops = true
      else ∃ x w, (interp env).Calls (.expr value) u x w ∧
        let r' := vmIndexCallback w w.stack w.stackSize name ref.off r.cache k (.set x)
        t = r'.state ∧ stops = r'.failed) := by
    intro hcall
    obtain ⟨hu, hpass⟩ := h.indexed k u hcall
    have hrefused (e : RtError) (hcheck : checkIndex u name (some a) k = .error e) :
        (∃ v : Value, v = .nil ∧ t = u.raise e) ∧ stops = t.hadError ↔ t = u.raise e ∧ stops = true := by
      have houtside : u.dangerDepth = 0 := hpass.resolve_right (by simp [hcheck])
      rw [exists_eq_left]
      refine and_congr_right fun ht => ?_
      rw [ht, hadError_raise houtside]
    simp only [hu.callback, Continues, hu.quiet, Bool.false_eq_true, if_false, hu.binds.arrTarget]
    cases k with
    | int i =>
      by_cases hi : 0 ≤ i.toInt ∧ i.toInt < (u.arrData a).length
      · simp only [checkIndex, hi, and_self, if_true, vmIndexElement, Bool.false_eq_true, if_false]
        exact elemStore_iff hi (fun x w => h.taken i u x w hcall) t stops
      · simp only [checkIndex, hi, if_false, if_true]
        exact hrefused _ (if_neg hi)
    | _ => exact hrefused _ rfl
  unfold WalkedWrite CompiledWrite
  simp only [runs_execArrAssign h.quiet h.known h.notDyn, runs_execArrStore]
  constructor
  · rintro ⟨⟨v, k, u, hcall, h⟩, hstops⟩
    exact ⟨k, u, hcall, (hrest k u hcall).mp ⟨⟨v, h⟩, hstops⟩⟩
  · rintro ⟨k, u, hcall, h⟩
    obtain ⟨⟨v, hv⟩, hstops⟩ := (hrest k u hcall).mpr h
    exact ⟨⟨v, k, u, hcall, hv⟩, hstops⟩

/-- The array in the pool that a store is mirrored in. -/
def pooledArr (rt : Runtime) (name : Ident) : Option ℕ :=
  if !rt.dryRun ∧ rt.mode = .project then (rt.poolFind name).bind (·.value.arr?) else none

theorem arrData_setElem (s : Runtime) (a idx : ℕ) (v : Value) (b : ℕ) :
    (s.setElem a idx v).arrData b = if b = a then (s.arrData b).set idx v else s.arrData b := by
  simp only [arrData, arr?, setElem, List.getElem?_modify]
  cases s.arrs[b]? with
  | none => simp
  | some c =>
    by_cases hab : b = a
    · simp [hab]
    · simp [hab, Ne.symm hab]

theorem arrData_storeElem (s : Runtime) (name : Ident) (a idx : ℕ) (v : Value) (b : ℕ) :
    (s.storeElem name a idx v).arrData b =
      if b = a ∨ pooledArr s name = some b then (s.arrData b).set idx v else s.arrData b := by
  have hplain (h : pooledArr s name = none) : (s.setElem a idx v).arrData b =
      if b = a ∨ pooledArr s name = some b then (s.arrData b).set idx v else s.arrData b := by
    rw [arrData_setElem, h]
    simp
  unfold storeElem
  dsimp only
  split
  · next hsync =>
    have hsync' : !s.dryRun ∧ s.mode = .project := hsync
    split
    · next p o _ _ hfind =>
      have hfind' : s.poolFind name = _ := hfind
      have hpool : pooledArr s name = some p := by
        rw [pooledArr, if_pos hsync', hfind']
        rfl
      rw [arrData_setElem, arrData_setElem, hpool]
      by_cases hbp : b = p
      · subst hbp
        by_cases hba : b = a <;> simp [hba]
      · simp [hbp, Ne.symm hbp]
    · next hfind =>
      apply hplain
      rw [pooledArr, if_pos hsync']
      cases hentry : s.poolFind name with
      | none => rfl
      | some e =>
        obtain ⟨x, t, value, init, off⟩ := e
        cases value with
        | arr p o => exact absurd hentry (hfind x t p o init off)
        | _ => rfl
  · next hsync =>
    apply hplain
    exact if_neg hsync

theorem checkIndex_eq_ok {arr : Option ℕ} {k : Value} {p : ℕ × ℕ} (h : checkIndex s name arr k = .ok p) :
    ∃ i, k = .int i ∧ arr = some p.1 ∧ p.2 = i.toInt.toNat ∧ 0 ≤ i.toInt ∧ i.toInt < (s.arrData p.1).length := by
  unfold checkIndex at h
  cases arr with
  | none => exact nomatch h
  | some a =>
    cases k with
    | int i =>
      simp only at h
      split at h
      · next hi =>
        obtain rfl := Except.ok.inj h
        exact ⟨i, rfl, rfl, rfl, hi⟩
      · exact nomatch h
    | _ => exact nomatch h

theorem WriteAlike.stored (h : WriteAlike env name ref index value cache slot a s)
    (hrun : CompiledWrite env name ref index value cache s t false) :
    ∃ i u x w, (interp env).Calls (.expr index) s (.int i) u ∧ (interp env).Calls (.expr value) u x w ∧
      0 ≤ i.toInt ∧ i.toInt < (w.arrData a).length ∧ t = w.storeElem name a i.toInt.toNat x := by
  obtain ⟨k, u, hcall, hrest⟩ := hrun
  have hu := (h.indexed k u hcall).1
  simp only [hu.callback] at hrest
  cases hcheck : checkIndex u name (some a) k with
  | error e => simp [hcheck] at hrest
  | ok p =>
    obtain ⟨b, idx⟩ := p
    obtain ⟨i, rfl, ha, -, h0, hlt⟩ := checkIndex_eq_ok hcheck
    obtain rfl : a = b := Option.some.inj ha
    have hlt : i.toInt < (u.arrData a).length := hlt
    simp only [hcheck, vmIndexElement, Bool.false_eq_true, if_false] at hrest
    obtain ⟨x, w, hcall', ht, hdone⟩ := hrest
    obtain ⟨hw, hfits⟩ := h.taken i u x w hcall hcall'
    have hlen := length_arrData_of_calls (a := a) hcall' (by omega)
    have hlt' : i.toInt < (w.arrData a).length := by omega
    obtain ⟨hstate, hfailed⟩ := hw.prepared.set_eq hfits
    simp only [hw.prepared.callback, checkIndex, h0, hlt', and_self, if_true] at ht hdone
    refine ⟨i, u, x, w, hcall, hcall', h0, hlt', ?_⟩
    rw [← hdone] at hfailed
    split at hstate
    · next hrefused =>
      have houtside : w.dangerDepth = 0 := by
        rcases hfits with ⟨-, hfits⟩ | hfits
        · exact (hfits.elim hrefused.2.1 hrefused.2.2).elim
        · exact hfits.2.2.1
      rw [hstate, hadError_raise houtside] at hfailed
      exact nomatch hfailed
    · rw [ht, hstate]

/-- An array `a` of one element, in `-dev` mode. -/
def arrayState : Runtime where
  __ := Runtime.start .script []
  scope := [("a", .arr 0 true)]
  arrs := [.ofList [.int 4]]
  dangerDepth := 1

/-- `int x = 1`, `int arr x[1] = 5`, `int s = 0` and `while s < 1 { s = x[0] }`. -/
def shadowedArray : List Stmt :=
  [.varDecl .int "x" (.intLit 1) false {},
   .arrDecl .int "x" 1 (.default (.intLit 5)) false,
   .varDecl .int "s" (.intLit 0) false {},
   .whileStmt (.binary .lt (.identifier "s" {}) (.intLit 1))
    [.assign "s" (.arrAccess "x" {} (.intLit 0)) {}]]

end Agreement

end Fluxa.ArrayTiers
