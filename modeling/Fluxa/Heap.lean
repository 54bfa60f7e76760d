import Fluxa.Pool
import Fluxa.Vm

/-! What an update leaves alone. None touches the mode of the run and the depths of calls and of `danger`, none takes
an array, an instance or an entry of the pool away, and all updates but the store of an element leave the arrays that
are there alone: so an array of the pool keeps its elements until one of them is stored. An update of the pool
touches the entry of one name. -/

namespace Fluxa

open Fluxa.Runtime

namespace Runtime

/-- What only brackets change. -/
structure Fixed where
  mode : Mode
  dryRun : Bool
  callDepth : ℕ
  dangerDepth : ℕ

def fixed (rt : Runtime) : Fixed := ⟨rt.mode, rt.dryRun, rt.callDepth, rt.dangerDepth⟩

/-- The arrays, and the number of instances. -/
def shape (rt : Runtime) : List Arr × ℕ := (rt.arrs, rt.instances.length)

/-- Arrays are added at the end and none is changed; no instance goes away. -/
def HeapGrows (rt rt' : Runtime) : Prop :=
  (∃ more, rt'.arrs = rt.arrs ++ more) ∧ rt.instances.length ≤ rt'.instances.length

section Frame

variable {rt rt' rt'' : Runtime} {x y : Ident} {w : Set Ident}

theorem HeapGrows.of_eq (h : rt'.shape = rt.shape) : HeapGrows rt rt' := by
  obtain ⟨harrs, hinst⟩ := Prod.ext_iff.mp h
  exact ⟨⟨[], harrs.trans (List.append_nil _).symm⟩, hinst.ge⟩

theorem HeapGrows.trans (h : HeapGrows rt rt') (h' : HeapGrows rt' rt'') : HeapGrows rt rt'' := by
  obtain ⟨⟨more, h⟩, hinst⟩ := h
  obtain ⟨⟨more', h'⟩, hinst'⟩ := h'
  exact ⟨⟨more ++ more', by rw [h', h, List.append_assoc]⟩, hinst.trans hinst'⟩

theorem HeapGrows.arr? (h : HeapGrows rt rt') {a : ℕ} {c : Arr} (ha : rt.arr? a = some c) : rt'.arr? a = some c := by
  obtain ⟨more, h⟩ := h.1
  unfold Runtime.arr? at ha ⊢
  rw [h, List.getElem?_append_left (List.getElem?_eq_some_iff.mp ha).1]
  exact ha

theorem poolFind_congr {rt' : Runtime} (h : rt'.prstPool = rt.prstPool) (x : Ident) :
    rt'.poolFind x = rt.poolFind x := by
  unfold poolFind
  rw [h]

theorem name_of_poolFind {e : PrstEntry} (h : rt.poolFind x = some e) : e.name = x := by
  simpa using List.find?_some h

theorem poolFind_poolUpdate {f : PrstEntry → PrstEntry} (hf : ∀ e, (f e).name = e.name) :
    (rt.poolUpdate y f).poolFind x = if x = y then (rt.poolFind x).map f else rt.poolFind x := by
  have hname (e : PrstEntry) : (if e.name == y then f e else e).name = e.name := by
    split
    · exact hf e
    · rfl
  simp only [poolFind, poolUpdate, List.find?_map]
  have hcomp : ((fun e : PrstEntry => e.name == x) ∘ fun e => if e.name == y then f e else e) =
      fun e => e.name == x := by
    funext e
    simp only [Function.comp_apply, hname]
  rw [hcomp]
  cases he : rt.prstPool.find? fun e => e.name == x with
  | none => simp
  | some e =>
    have hx : e.name = x := name_of_poolFind he
    by_cases hxy : x = y
    · simp [hx, hxy]
    · simp [hx, hxy]

theorem names_poolUpdate {f : PrstEntry → PrstEntry} (hf : ∀ e, (f e).name = e.name) :
    (rt.poolUpdate y f).prstPool.map (·.name) = rt.prstPool.map (·.name) := by
  simp only [poolUpdate, List.map_map]
  refine List.map_congr_left fun e _ => ?_
  simp only [Function.comp_apply]
  split
  · exact hf e
  · rfl

/-- What most operations do not touch. -/
def frame (rt : Runtime) : Fixed × (List Arr × ℕ) × List PrstEntry := (rt.fixed, rt.shape, rt.prstPool)

/-- What an operation keeps that may store to the entries of the names of `w`. -/
structure Keeps (w : Set Ident) (rt rt' : Runtime) : Prop where
  fixed : rt'.fixed = rt.fixed
  heap : HeapGrows rt rt'
  names : rt.prstPool.map (·.name) <+: rt'.prstPool.map (·.name)
  others : ∀ x ∉ w, rt'.poolFind x = rt.poolFind x

theorem Keeps.of_eq (h : rt'.frame = rt.frame) : Keeps w rt rt' := by
  simp only [frame, Prod.mk.injEq] at h
  exact ⟨h.1, .of_eq h.2.1, by rw [h.2.2], fun x _ => poolFind_congr h.2.2 x⟩

theorem Keeps.trans (h : Keeps w rt rt') (h' : Keeps w rt' rt'') : Keeps w rt rt'' :=
  ⟨h'.fixed.trans h.fixed, h.heap.trans h'.heap, h.names.trans h'.names,
    fun x hx => (h'.others x hx).trans (h.others x hx)⟩

theorem keeps_arrs (rt : Runtime) (more : List Arr) : Keeps w rt { rt with arrs := rt.arrs ++ more } :=
  ⟨rfl, ⟨⟨more, rfl⟩, le_rfl⟩, List.prefix_rfl, fun _ _ => rfl⟩

theorem keeps_poolUpdate (rt : Runtime) (x : Ident) {f : PrstEntry → PrstEntry} (hf : ∀ e, (f e).name = e.name) :
    Keeps {x} rt (rt.poolUpdate x f) where
  fixed := rfl
  heap := .of_eq rfl
  names := by rw [names_poolUpdate hf]
  others y hy := (poolFind_poolUpdate hf).trans (if_neg hy)

theorem keeps_poolSetOffset (rt : Runtime) (x : Ident) (off : Option ℕ) : Keeps {x} rt (rt.poolSetOffset x off) :=
  rt.keeps_poolUpdate x fun _ => rfl

section Operations

variable (rt) (x) (ref : Ref) (v : Value)

theorem length_setInstanceField (i : ℕ) : (rt.setInstanceField i x v).instances.length = rt.instances.length :=
  List.length_modify ..

@[simp] theorem frame_setInstanceField (i : ℕ) : (rt.setInstanceField i x v).frame = rt.frame := by
  simp only [frame, shape, length_setInstanceField]
  rfl

@[simp] theorem frame_raise (e : RtError) : (rt.raise e).frame = rt.frame := by
  unfold raise
  split <;> rfl

@[simp] theorem frame_set : (rt.set ref x v).frame = rt.frame := by
  unfold set
  split
  · rfl
  · split
    · exact frame_setInstanceField rt x v _
    · rfl

theorem frame_declareVar (t : TypeName) (n : ℕ) : (rt.declareVar t ref x v n).frame = rt.frame := by
  unfold declareVar
  split
  · simp
  · split <;> simp

theorem frame_declareFunc (fn : FuncDecl) : (rt.declareFunc fn).frame = rt.frame := by
  unfold declareFunc
  dsimp only
  split <;> rfl

theorem frame_freeVar : (rt.freeVar ref x).frame = rt.frame := by
  unfold freeVar
  split
  · rfl
  · split
    · exact frame_setInstanceField rt x _ _
    · split
      · rfl
      · split
        · rfl
        · exact frame_raise _ _

theorem frame_libReport (r : LibResult) : (rt.libReport r).frame = rt.frame := by
  unfold libReport
  dsimp only
  split <;> rfl

@[simp] theorem prstPool_raise (e : RtError) : (rt.raise e).prstPool = rt.prstPool := congrArg (·.2.2) (rt.frame_raise e)

@[simp] theorem prstPool_set : (rt.set ref x v).prstPool = rt.prstPool := congrArg (·.2.2) (rt.frame_set x ref v)

@[simp] theorem prstPool_cloneValue : (rt.cloneValue v).2.prstPool = rt.prstPool := by
  obtain ⟨more, h⟩ := rt.cloneValue_arrs v
  rw [h]

theorem keeps_cloneValue : Keeps w rt (rt.cloneValue v).2 := by
  obtain ⟨more, h⟩ := rt.cloneValue_arrs v
  rw [h]
  exact rt.keeps_arrs more

theorem keeps_adopt : Keeps w rt (rt.adopt v).2 := by
  unfold adopt
  split
  · split
    · exact .of_eq rfl
    · exact rt.keeps_arrs _
  · split
    · rcases rt.cloneInstance_spec _ with h | ⟨_, copies, fields, -, h, -, -⟩
      · exact .of_eq (by rw [h])
      · rw [h]
        exact ⟨rfl, ⟨⟨copies, rfl⟩, by simp⟩, List.prefix_rfl, fun _ _ => rfl⟩
    · exact .of_eq rfl
  · exact .of_eq rfl

theorem keeps_storeDyn (d idx : ℕ) : Keeps w rt (rt.storeDyn d idx v) := by
  have hgrow (dyns : List (List Value)) : Keeps w rt { rt with dyns } := .of_eq rfl
  unfold storeDyn
  dsimp only
  split
  · exact (hgrow _).trans (.of_eq (frame_raise _ _))
  · exact ((hgrow _).trans (keeps_adopt _ _)).trans (.of_eq rfl)

theorem keeps_declareArr (data : List Value) : Keeps w rt (rt.declareArr x data) := by
  unfold declareArr
  dsimp only
  split
  · exact (rt.keeps_arrs _).trans (.of_eq (frame_setInstanceField _ _ _ _))
  · exact (rt.keeps_arrs _).trans (.of_eq rfl)

theorem keeps_poolSet : Keeps {x} rt (rt.poolSet x v).1 := by
  unfold poolSet
  split
  · split
    · exact .of_eq rfl
    · exact (rt.keeps_cloneValue v).trans (keeps_poolUpdate _ x fun _ => rfl)
  · refine ((rt.keeps_cloneValue v).trans (keeps_cloneValue _ v)).trans ⟨rfl, .of_eq rfl, ?_, fun y hy => ?_⟩
    · simp
    · have hxy : (x == y) = false := by simpa using fun h : x = y => hy h.symm
      simp [poolFind, List.find?_append, hxy]

theorem keeps_poolStore : Keeps {x} rt (rt.poolStore x v) := (rt.keeps_poolSet x v).trans (.of_eq rfl)

theorem keeps_declarePrst (t : TypeName) : Keeps {x} rt (rt.declarePrst t ref x v) := by
  unfold declarePrst
  split
  · have hset := (rt.keeps_poolSet x v).trans (.of_eq (frame_set _ x ref v))
    dsimp only
    split
    · exact (hset.trans (keeps_poolSetOffset _ x _)).trans (.of_eq rfl)
    · exact rt.keeps_poolSet x v
  · exact .of_eq (frame_raise _ _)

theorem Keeps.restore {rt s : Runtime} {x : Ident} {ref : Ref} {v : Value} (h : Keeps {x} rt s) :
    Keeps {x} rt ((s.set ref x v).globalSet x v) := (h.trans (.of_eq (frame_set _ x ref v))).trans (.of_eq rfl)

theorem keeps_rebuildPrst (t : TypeName) : Keeps {x} rt (rt.rebuildPrst t ref x v) := by
  unfold rebuildPrst
  split
  · refine (((keeps_poolUpdate _ x ?_).trans (keeps_poolSet _ x v)).trans (keeps_poolSetOffset _ x _)).restore
    exact fun _ => rfl
  · exact .of_eq (frame_raise _ _)

theorem keeps_restorePrst (e : PrstEntry) (src : Option Value) : Keeps {x} rt (rt.restorePrst ref x e src) := by
  have hset (v : Value) := (rt.keeps_poolSet x v).trans (keeps_poolSetOffset _ x ref.off)
  by_cases hkept : ∀ v ∈ src, initChanged v e.initValue = false
  · rw [restorePrst_kept _ _ _ hkept]
    exact (hset _).restore
  · push Not at hkept
    obtain ⟨w, rfl, hw⟩ := hkept
    rw [restorePrst_edited _ _ _ (by simpa using hw)]
    refine ((hset _).trans (keeps_poolUpdate _ x ?_)).restore
    exact fun _ => rfl

theorem keeps_storeAssign : Keeps {x} rt (rt.storeAssign x ref v) := by
  have hset : Keeps {x} rt (rt.set ref x v) := .of_eq (frame_set _ x ref v)
  unfold storeAssign
  split
  · exact .of_eq (frame_setInstanceField _ _ _ _)
  · split
    · exact .of_eq (frame_raise _ _)
    · dsimp only
      split
      · exact hset.trans (keeps_poolStore _ x v)
      · exact hset

theorem keeps_assignVar (n : ℕ) : Keeps {x} rt (rt.assignVar x ref v n) := by
  have hraise (e : RtError) : Keeps {x} rt (rt.raise e) := .of_eq (frame_raise _ _)
  unfold assignVar
  split
  · split
    · exact (hraise _).trans (keeps_storeAssign _ x ref v)
    · split
      · exact hraise _
      · exact rt.keeps_storeAssign x ref v
  · exact rt.keeps_storeAssign x ref v

theorem keeps_persistArr (a : ℕ) : Keeps {x} rt (rt.persistArr x a) := by
  unfold persistArr
  split
  · split
    · exact rt.keeps_poolSet x _
    · exact (rt.keeps_arrs _).trans (.of_eq rfl)
    · exact .of_eq rfl
  · exact .of_eq rfl

end Operations

/-- Induction over the stores of `syncPool`: they go to entries that are there, and take what the slots
held before the first of them. -/
theorem syncPool_induct {P : Runtime → Prop} (rt : Runtime) (start : P rt)
    (store : ∀ s e off, P s → e ∈ rt.prstPool → rt.mode = .project → e.stackOffset = some off →
      off < rt.stackSize → (rt.stack off).type = e.declaredType → s.poolHas e.name = true →
      P (s.poolStore e.name (rt.stack off))) : P rt.syncPool := by
  unfold syncPool
  split
  · next hmode =>
    let Q (s : Runtime) : Prop := P s ∧ s.stack = rt.stack ∧ s.stackSize = rt.stackSize ∧
      s.prstPool.map (·.name) = rt.prstPool.map (·.name)
    refine (List.foldlRecOn (motive := Q) rt.prstPool _ ⟨start, rfl, rfl, rfl⟩ ?_).1
    rintro s ⟨hs, hstack, hsize, hnames⟩ e he
    split
    · next off hoff =>
      split
      · next hslot =>
        have hhas : s.poolHas e.name = true := by
          rw [poolHas_iff, hnames]
          exact List.mem_map_of_mem he
        obtain ⟨pool, more, errs, heq, hpool⟩ := s.poolStore_spec e.name (s.stack off) hhas
        rw [hstack, hsize] at hslot
        refine ⟨?_, ?_, ?_, ?_⟩
        · rw [hstack]
          exact store s e off hs he hmode hoff hslot.1 hslot.2 hhas
        · rw [heq]
          exact hstack
        · rw [heq]
          exact hsize
        · rw [heq]
          exact hpool.trans hnames
      · exact ⟨hs, hstack, hsize, hnames⟩
    · exact ⟨hs, hstack, hsize, hnames⟩
  · exact start

end Frame

end Runtime

namespace Update

open Fluxa.Runtime

/-- The names whose entries an update may store to. -/
def pooled : Update → Set Ident
  | declarePrst _ _ y _ | rebuildPrst _ _ y _ | restorePrst _ y _ _ | persistArr y _ | assignVar y _ _ _ => {y}
  | syncPool => Set.univ
  | _ => ∅

theorem keeps_apply {u : Update} (h : ∀ y a idx v, u ≠ storeElem y a idx v) (rt : Runtime) :
    Runtime.Keeps u.pooled rt (u.apply rt) := by
  cases u with
  | storeElem y a idx v => exact absurd rfl (h y a idx v)
  | raise e => exact .of_eq (frame_raise _ _)
  | declareVar t ref name v n => exact .of_eq (frame_declareVar _ _ _ _ _ _)
  | declarePrst t ref name v => exact rt.keeps_declarePrst name ref v t
  | rebuildPrst t ref name v => exact rt.keeps_rebuildPrst name ref v t
  | restorePrst ref name e src => exact rt.keeps_restorePrst name ref e src
  | assignVar name ref v n => exact rt.keeps_assignVar name ref v n
  | bindVar ref name v => exact .of_eq (frame_set _ _ _ _)
  | declareFunc fn => exact .of_eq (frame_declareFunc _ _)
  | declareArr name data => exact rt.keeps_declareArr name data
  | persistArr name a => exact rt.keeps_persistArr name a
  | allocArr a => exact rt.keeps_arrs [a]
  | adopt v => exact rt.keeps_adopt v
  | storeDyn d idx v => exact rt.keeps_storeDyn v d idx
  | setField i name v => exact .of_eq (frame_setInstanceField _ _ _ _)
  | addMethod i fn =>
    exact ⟨rfl, .of_eq (Prod.ext rfl (List.length_modify ..)), List.prefix_rfl, fun _ _ => rfl⟩
  | newInstance name defName isRoot =>
    exact ⟨rfl, ⟨⟨[], (List.append_nil _).symm⟩, by simp [Update.apply, Runtime.newInstance]⟩, List.prefix_rfl,
      fun _ _ => rfl⟩
  | freeVar ref name => exact .of_eq (frame_freeVar _ _ _)
  | syncPool =>
    refine rt.syncPool_induct (.of_eq rfl) fun s e off hs _ _ _ _ _ _ => ?_
    have hstore := s.keeps_poolStore e.name (rt.stack off)
    exact hs.trans ⟨hstore.fixed, hstore.heap, hstore.names, fun x hx => absurd trivial hx⟩
  | libReport r => exact .of_eq (frame_libReport _ _)
  | _ => exact .of_eq rfl

section StoreElem

variable (rt : Runtime) (y : Ident) (a idx : ℕ) (v : Value)

theorem storeElem_arrs : ∃ arrs, rt.storeElem y a idx v = { rt with arrs } := by
  simp only [Runtime.storeElem]
  split
  · split <;> exact ⟨_, rfl⟩
  · exact ⟨_, rfl⟩

end StoreElem

theorem heapGrows_apply {u : Update} (h : ∀ y a idx v, u ≠ storeElem y a idx v) (rt : Runtime) :
    HeapGrows rt (u.apply rt) := (keeps_apply h rt).heap

variable (u : Update) (rt : Runtime)

theorem kept_apply : (u.apply rt).fixed = rt.fixed ∧ rt.instances.length ≤ (u.apply rt).instances.length ∧
    rt.prstPool.map (·.name) <+: (u.apply rt).prstPool.map (·.name) ∧
    ∀ x ∉ u.pooled, (u.apply rt).poolFind x = rt.poolFind x := by
  by_cases hstore : ∃ y a idx v, u = storeElem y a idx v
  · obtain ⟨y, a, idx, v, rfl⟩ := hstore
    obtain ⟨arrs, h⟩ := storeElem_arrs rt y a idx v
    simp only [Update.apply, h]
    exact ⟨rfl, le_rfl, List.prefix_rfl, fun _ _ => rfl⟩
  · push Not at hstore
    have h := keeps_apply hstore rt
    exact ⟨h.fixed, h.heap.2, h.names, h.others⟩

theorem fixed_apply : (u.apply rt).fixed = rt.fixed := (kept_apply u rt).1

variable {u rt}

theorem poolHas_apply {x : Ident} (h : rt.poolHas x = true) : (u.apply rt).poolHas x = true := by
  rw [poolHas_iff] at h ⊢
  exact (kept_apply u rt).2.2.1.subset h

end Update

end Fluxa
