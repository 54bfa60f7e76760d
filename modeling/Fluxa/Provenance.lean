import Fluxa.Pool
import Fluxa.Registers

/-! Where the code of a run comes from. Functions are values, and values go anywhere; but every function
that is in the state came from the program, or was there at the start. So did the names in the pool. -/

namespace Fluxa

section Names

mutual

/-- The persistent variables a statement declares, also in the bodies in it. Fields of a Block are not
put in the pool and do not count. -/
def prstDeclsOf : Stmt → List Ident
  | .varDecl _ name _ persistent _ => if persistent then [name] else []
  | .arrDecl _ name _ _ persistent => if persistent then [name] else []
  | .ifStmt _ thn none => prstDecls thn
  | .ifStmt _ thn (some els) => prstDecls thn ++ prstDecls els
  | .whileStmt _ body => prstDecls body
  | .forStmt _ _ _ _ body => prstDecls body
  | .funcDecl _ _ _ _ body => prstDecls body
  | .danger body => prstDecls body
  | .blockDecl _ members => methodPrstDecls members
  | .assign _ _ _ | .arrAssign _ _ _ _ | .returnStmt _ | .typeofInst _ _ | .memberAssign _ _ _ | .free _ _
  | .importStd _ | .exprStmt _ => []

def prstDecls : List Stmt → List Ident
  | [] => []
  | st :: rest => prstDeclsOf st ++ prstDecls rest

/-- Those in the methods of a Block. -/
def methodPrstDecls : List Stmt → List Ident
  | [] => []
  | .funcDecl _ _ _ _ body :: rest => prstDecls body ++ methodPrstDecls rest
  | _ :: rest => methodPrstDecls rest

end

end Names

/-- The persistent variables the function declares are among these. -/
def FuncDecl.In (D : Set Ident) (fn : FuncDecl) : Prop := ∀ x ∈ prstDecls fn.body, x ∈ D

/-- A function has such a body. -/
def Value.In (D : Set Ident) (v : Value) : Prop := ∀ fn, v = .func fn → fn.In D

/-- A function that is loaded as a constant has such a body. -/
def Instr.In (D : Set Ident) : Instr → Prop
  | .loadk _ v => v.In D
  | _ => True

def Chunk.In (D : Set Ident) (c : Chunk) : Prop := ∀ i ∈ c.code, i.In D

section Values

variable {D : Set Ident} {v : Value}

theorem Value.in_of_plain (h : v.type ≠ .func) : v.In D := by
  rintro fn rfl
  exact absurd rfl h

@[simp] theorem Value.in_nil : Value.nil.In D := nofun
@[simp] theorem Value.in_int (i : Int64) : (Value.int i).In D := nofun
@[simp] theorem Value.in_float (d : Binary64.Double) : (Value.float d).In D := nofun
@[simp] theorem Value.in_bool (b : Bool) : (Value.bool b).In D := nofun
@[simp] theorem Value.in_str (s : String) : (Value.str s).In D := nofun
@[simp] theorem Value.in_inst (i : ℕ) : (Value.inst i).In D := nofun
@[simp] theorem Value.in_arr (a : ℕ) (own : Bool) : (Value.arr a own).In D := nofun
@[simp] theorem Value.in_errStack : Value.errStack.In D := nofun
@[simp] theorem Value.in_dyn (d : ℕ) : (Value.dyn d).In D := nofun
@[simp] theorem Value.in_func {fn : FuncDecl} : (Value.func fn).In D ↔ fn.In D := by simp [Value.In]

theorem Value.In.arrRef (h : v.In D) : v.arrRef.In D := by
  cases v <;> first | exact h | simp [Value.arrRef]

theorem Value.in_getD {l : List Value} (h : ∀ v ∈ l, v.In D) (i : ℕ) : (l.getD i .nil).In D := by
  rw [List.getD_eq_getElem?_getD]
  cases hi : l[i]? with
  | none => simp
  | some v => exact h v (List.mem_of_getElem? hi)

theorem Instr.Literal.in {i : Instr} (h : i.Literal) : i.In D := by
  cases i with
  | loadk a v =>
    refine Value.in_of_plain fun htype => ?_
    simp [Instr.Literal, htype, ValType.isPlain] at h
  | _ => trivial

theorem Chunk.Literal.in {c : Chunk} (h : c.Literal) : c.In D := fun i hi => (h i hi).in

end Values

namespace Runtime

/-- All functions in the state and all names in the pool, in a method of the instance `g`. -/
structure In (D : Set Ident) (g : Option ℕ) (rt : Runtime) : Prop where
  running : rt.currentInstance = g
  scope : ∀ p ∈ rt.scope, p.2.In D
  globalTable : ∀ p ∈ rt.globalTable, p.2.In D
  stack : ∀ k, (rt.stack k).In D
  retValue : rt.ret.value.In D
  tailCall : ∀ p ∈ rt.ret.tailCall, p.1.In D ∧ ∀ v ∈ p.2, v.In D
  pool : ∀ e ∈ rt.prstPool, e.name ∈ D ∧ e.value.In D ∧ e.initValue.In D
  instances : ∀ b ∈ rt.instances, (∀ p ∈ b.fields, p.2.In D) ∧ ∀ p ∈ b.methods, p.2.In D
  blockDefs : ∀ p ∈ rt.blockDefs, ∀ x ∈ methodPrstDecls p.2, x ∈ D
  arrs : ∀ a ∈ rt.arrs, ∀ v ∈ a.data, v.In D
  dyns : ∀ d ∈ rt.dyns, ∀ v ∈ d, v.In D
  chunks : ∀ p ∈ rt.fnChunks, ∀ c ∈ p.2, c.In D

variable {D : Set Ident} {g : Option ℕ} {rt : Runtime} {ref : Ref} {name : Ident} {v : Value}

theorem mem_of_get? {t : Table} (h : t.get? name = some v) : (name, v) ∈ t := by
  obtain ⟨l, r, heq, -⟩ := List.lookup_eq_some_iff.mp h
  simp [heq]

section Reads

theorem In.of_scope (h : rt.In D g) (hv : rt.scope.get? name = some v) : v.In D := h.scope _ (mem_of_get? hv)

theorem In.of_global (h : rt.In D g) (hv : rt.globalTable.get? name = some v) : v.In D :=
  h.globalTable _ (mem_of_get? hv)

theorem In.instanceField (h : rt.In D g) {i : ℕ} (hv : rt.instanceField i name = some v) : v.In D := by
  obtain ⟨b, hb, hv⟩ := Option.bind_eq_some_iff.mp hv
  exact (h.instances b (List.mem_of_getElem? hb)).1 _ (mem_of_get? hv)

theorem In.instanceMethod (h : rt.In D g) {i : ℕ} {fn : FuncDecl} (hfn : rt.instanceMethod i name = some fn) :
    fn.In D := by
  obtain ⟨b, hb, hfn⟩ := Option.bind_eq_some_iff.mp hfn
  obtain ⟨l, r, heq, -⟩ := List.lookup_eq_some_iff.mp hfn
  exact (h.instances b (List.mem_of_getElem? hb)).2 (name, fn) (by simp [heq])

theorem In.currentField (h : rt.In D g) (hv : rt.currentField name = some v) : v.In D := by
  obtain ⟨i, -, hv⟩ := Option.bind_eq_some_iff.mp hv
  exact h.instanceField hv

theorem In.currentMethod (h : rt.In D g) {fn : FuncDecl} (hfn : rt.currentMethod name = some fn) : fn.In D := by
  obtain ⟨i, -, hfn⟩ := Option.bind_eq_some_iff.mp hfn
  exact h.instanceMethod hfn

theorem In.slot (h : rt.In D g) {off : Option ℕ} (hv : off.bind rt.slotValue = some v) : v.In D := by
  obtain ⟨k, -, hv⟩ := Option.bind_eq_some_iff.mp hv
  unfold Runtime.slotValue at hv
  split at hv
  · cases hv
    exact h.stack k
  · cases hv

theorem In.globalGetD (h : rt.In D g) : ((rt.globalTable.get? name).getD .nil).In D := by
  cases hget : rt.globalTable.get? name with
  | none => simp
  | some v => exact h.of_global hget

theorem In.lookup (h : rt.In D g) (hv : rt.lookup ref name = some v) : v.In D := by
  unfold Runtime.lookup at hv
  split at hv
  · split at hv
    · next w hw =>
      cases hv
      exact h.slot hw
    · exact h.of_scope hv
  · split at hv
    · split at hv
      · next w hw =>
        split at hv <;> cases hv
        · exact h.globalGetD
        · exact h.of_scope hw
      · cases hv
        exact h.globalGetD
    · split at hv
      · next w hw =>
        cases hv
        exact h.slot hw
      · split at hv
        · next w hw =>
          cases hv
          exact h.currentField hw
        · split at hv
          · next w hw =>
            cases hv
            exact h.of_scope hw
          · split at hv
            · exact h.of_global hv
            · cases hv

end Reads

theorem In.pushErr (h : rt.In D g) (e : ErrEntry) : (rt.pushErr e).In D g := { h with }

theorem In.raise (h : rt.In D g) (e : RtError) : (rt.raise e).In D g := by
  unfold Runtime.raise
  split
  · exact h.pushErr _
  · exact { h with }

theorem In.scopeSet (h : rt.In D g) (hv : v.In D) : ({ rt with scope := rt.scope.set name v } : Runtime).In D g :=
  { h with scope := List.forall_mem_cons.mpr ⟨hv, h.scope⟩ }

theorem In.globalSet (h : rt.In D g) (hv : v.In D) : (rt.globalSet name v).In D g :=
  { h with globalTable := List.forall_mem_cons.mpr ⟨hv, h.globalTable⟩ }

theorem In.stackSet (h : rt.In D g) (hv : v.In D) (off size : ℕ) :
    ({ rt with stack := Function.update rt.stack off v, stackSize := size } : Runtime).In D g :=
  { h with
    stack := fun k => by
      by_cases hk : k = off
      · simpa [hk] using hv
      · simpa [hk] using h.stack k }

theorem In.setInstanceField (h : rt.In D g) (hv : v.In D) (i : ℕ) : (rt.setInstanceField i name v).In D g :=
  { h with
    instances := fun b hb => by
      rcases mem_modify hb with hb | ⟨x, hx, rfl⟩
      · exact h.instances b hb
      · obtain ⟨hfields, hmethods⟩ := h.instances x (List.mem_of_getElem? hx)
        exact ⟨List.forall_mem_cons.mpr ⟨hv, hfields⟩, hmethods⟩ }

theorem In.addMethod (h : rt.In D g) {fn : FuncDecl} (hfn : fn.In D) (i : ℕ) : (rt.addMethod i fn).In D g :=
  { h with
    instances := fun b hb => by
      rcases mem_modify hb with hb | ⟨x, hx, rfl⟩
      · exact h.instances b hb
      · obtain ⟨hfields, hmethods⟩ := h.instances x (List.mem_of_getElem? hx)
        exact ⟨hfields, List.forall_mem_cons.mpr ⟨hfn, hmethods⟩⟩ }

theorem In.set (h : rt.In D g) (hv : v.In D) : (rt.set ref name v).In D g := by
  unfold Runtime.set
  split
  · exact h.stackSet hv _ _
  · split
    · exact h.setInstanceField hv _
    · exact h.scopeSet hv

section Heap

theorem In.arrData (h : rt.In D g) (a : ℕ) : ∀ v ∈ rt.arrData a, v.In D := by
  unfold Runtime.arrData Runtime.arr?
  cases ha : rt.arrs[a]? with
  | none => simp
  | some b => exact h.arrs b (List.mem_of_getElem? ha)

theorem In.dynItems (h : rt.In D g) (d : ℕ) : ∀ v ∈ rt.dynItems d, v.In D := by
  unfold Runtime.dynItems
  cases hd : rt.dyns[d]? with
  | none => simp
  | some l => exact h.dyns l (List.mem_of_getElem? hd)

theorem In.allocArr (h : rt.In D g) {a : Arr} (ha : ∀ v ∈ a.data, v.In D) : (rt.allocArr a).In D g :=
  { h with arrs := List.forall_mem_append.mpr ⟨h.arrs, by simpa using ha⟩ }

theorem In.allocDyn (h : rt.In D g) {items : List Value} (hi : ∀ v ∈ items, v.In D) : (rt.allocDyn items).In D g :=
  { h with dyns := List.forall_mem_append.mpr ⟨h.dyns, by simpa using hi⟩ }

theorem In.setElem (h : rt.In D g) (hv : v.In D) (a idx : ℕ) : (rt.setElem a idx v).In D g :=
  { h with
    arrs := fun b hb => by
      rcases mem_modify hb with hb | ⟨x, hx, rfl⟩
      · exact h.arrs b hb
      · intro w hw
        rcases List.mem_or_eq_of_mem_set hw with hw | rfl
        · exact h.arrs x (List.mem_of_getElem? hx) w hw
        · exact hv }

theorem In.cloneValue (h : rt.In D g) (hv : v.In D) : (rt.cloneValue v).1.In D ∧ (rt.cloneValue v).2.In D g := by
  unfold Runtime.cloneValue
  split
  · split
    next b hb =>
      split
      · exact ⟨hv, h⟩
      · exact ⟨by simp, h.allocArr (h.arrs b (List.mem_of_getElem? hb))⟩
    next => exact ⟨hv, h⟩
  · exact ⟨hv, h⟩

theorem In.cloneInstance (h : rt.In D g) (i : ℕ) : (rt.cloneInstance i).In D g := by
  rcases rt.cloneInstance_spec i with heq | ⟨b, copies, fields, hb, heq, hfields, hcopies⟩
  · rwa [heq]
  · have hb := h.instances b (List.mem_of_getElem? hb)
    rw [heq]
    exact
      { h with
        arrs := List.forall_mem_append.mpr ⟨h.arrs, fun c hc v hv => by
          obtain ⟨a, ha, hv⟩ := hcopies c hc v hv
          exact h.arrs a ha v hv⟩
        instances := List.forall_mem_append.mpr ⟨h.instances, by
          refine List.forall_mem_singleton.mpr ⟨fun f hf => ?_, hb.2⟩
          rcases hfields f hf with hf | hf
          · exact hb.1 f hf
          · exact Value.in_of_plain (by simp [hf])⟩ }

theorem In.adopt (h : rt.In D g) (hv : v.In D) : (rt.adopt v).1.In D ∧ (rt.adopt v).2.In D g := by
  unfold Runtime.adopt
  split
  · split
    · exact ⟨hv, h⟩
    · exact ⟨by simp, h.allocArr (h.arrData _)⟩
  · split
    · exact ⟨by simp, h.cloneInstance _⟩
    · exact ⟨hv, h⟩
  · exact ⟨hv, h⟩

theorem In.dynSet (h : rt.In D g) {items : List Value} (hi : ∀ v ∈ items, v.In D) (d : ℕ) :
    ({ rt with dyns := rt.dyns.set d items } : Runtime).In D g :=
  { h with
    dyns := fun l hl => by
      rcases List.mem_or_eq_of_mem_set hl with hl | rfl
      · exact h.dyns l hl
      · exact hi }

theorem In.dynModify (h : rt.In D g) (hv : v.In D) (d idx : ℕ) :
    ({ rt with dyns := rt.dyns.modify d fun items => items.set idx v } : Runtime).In D g :=
  { h with
    dyns := fun l hl => by
      rcases mem_modify hl with hl | ⟨x, hx, rfl⟩
      · exact h.dyns l hl
      · intro w hw
        rcases List.mem_or_eq_of_mem_set hw with hw | rfl
        · exact h.dyns x (List.mem_of_getElem? hx) w hw
        · exact hv }

theorem In.storeDyn (h : rt.In D g) (hv : v.In D) (d idx : ℕ) : (rt.storeDyn d idx v).In D g := by
  unfold Runtime.storeDyn
  dsimp only
  have hgrow : ∀ v ∈ rt.dynItems d ++ List.replicate (idx + 1 - (rt.dynItems d).length) Value.nil, v.In D :=
    List.forall_mem_append.mpr ⟨h.dynItems d, fun v hv => by simp [List.eq_of_mem_replicate hv]⟩
  have hset := h.dynSet hgrow d
  split
  · exact hset.raise _
  · exact ((hset.adopt hv).2).dynModify (hset.adopt hv).1 d idx

end Heap

section Pool

theorem In.poolUpdate (h : rt.In D g) (x : Ident) {f : PrstEntry → PrstEntry}
    (hf : ∀ e, e.name ∈ D ∧ e.value.In D ∧ e.initValue.In D →
      (f e).name ∈ D ∧ (f e).value.In D ∧ (f e).initValue.In D) : (rt.poolUpdate x f).In D g :=
  { h with
    pool := fun e he => by
      obtain ⟨x, hx, rfl⟩ := List.mem_map.mp he
      split
      · exact hf x (h.pool x hx)
      · exact h.pool x hx }

theorem In.poolSet (h : rt.In D g) (hname : name ∈ D) (hv : v.In D) : (rt.poolSet name v).1.In D g := by
  unfold Runtime.poolSet
  split
  · split
    · exact h.pushErr _
    · exact (h.cloneValue hv).2.poolUpdate name fun e he => ⟨he.1, (h.cloneValue hv).1, he.2.2⟩
  · have h₁ := h.cloneValue hv
    have h₂ := h₁.2.cloneValue hv
    exact { h₂.2 with pool := List.forall_mem_append.mpr ⟨h₂.2.pool, by simpa using ⟨hname, h₁.1, h₂.1⟩⟩ }

theorem In.poolSetOffset (h : rt.In D g) (x : Ident) (off : Option ℕ) : (rt.poolSetOffset x off).In D g :=
  h.poolUpdate x fun _ he => he

theorem In.poolStore (h : rt.In D g) (hname : name ∈ D) (hv : v.In D) : (rt.poolStore name v).In D g :=
  (h.poolSet hname hv).globalSet hv

theorem In.poolFind (h : rt.In D g) {e : PrstEntry} (he : rt.poolFind name = some e) :
    e.name = name ∧ e.name ∈ D ∧ e.value.In D ∧ e.initValue.In D :=
  ⟨by simpa using List.find?_some he, h.pool e (List.mem_of_find?_eq_some he)⟩

theorem In.of_poolHas (h : rt.In D g) (hp : rt.poolHas name = true) : name ∈ D := by
  obtain ⟨e, he⟩ := Option.isSome_iff_exists.mp hp
  obtain ⟨rfl, hmem, -⟩ := h.poolFind he
  exact hmem

theorem In.syncPool (h : rt.In D g) : rt.syncPool.In D g := by
  unfold Runtime.syncPool
  split
  · refine List.foldlRecOn _ _ h fun rt' h' e he => ?_
    split
    · split
      · exact h'.poolStore (h.pool e he).1 (h'.stack _)
      · exact h'
    · exact h'
  · exact h

theorem In.storeElem (h : rt.In D g) (hv : v.In D) (a idx : ℕ) : (rt.storeElem name a idx v).In D g := by
  unfold Runtime.storeElem
  dsimp only
  split
  · split
    · exact (h.setElem hv a idx).setElem hv _ idx
    · exact h.setElem hv a idx
  · exact h.setElem hv a idx

end Pool

section Declarations

theorem In.declareVar (h : rt.In D g) (hv : v.In D) (t : TypeName) (n : ℕ) : (rt.declareVar t ref name v n).In D g := by
  unfold Runtime.declareVar
  split
  · exact h.set hv
  · split
    · exact h.set hv
    · exact h.raise _

theorem In.declarePrst (h : rt.In D g) (hname : name ∈ D) (hv : v.In D) (t : TypeName) :
    (rt.declarePrst t ref name v).In D g := by
  unfold Runtime.declarePrst
  split
  · have hset := h.poolSet hname hv
    dsimp only
    split
    · exact ((hset.set hv).poolSetOffset _ _).globalSet hv
    · exact hset
  · exact h.raise _

theorem In.rebuildPrst (h : rt.In D g) (hname : name ∈ D) (hv : v.In D) (t : TypeName) :
    (rt.rebuildPrst t ref name v).In D g := by
  unfold Runtime.rebuildPrst
  split
  · have htype : (rt.poolUpdate name fun e => { e with declaredType := v.type }).In D g :=
      h.poolUpdate name fun _ he => he
    exact (((htype.poolSet hname hv).poolSetOffset _ _).set hv).globalSet hv
  · exact h.raise _

theorem In.restorePrst (h : rt.In D g) (hname : name ∈ D) {e : PrstEntry} (he : e.value.In D)
    {src : Option Value} (hsrc : ∀ v ∈ src, v.In D) : (rt.restorePrst ref name e src).In D g := by
  by_cases hkept : ∀ v ∈ src, initChanged v e.initValue = false
  · rw [restorePrst_kept _ _ _ hkept]
    exact (((h.poolSet hname he.arrRef).poolSetOffset _ _).set he.arrRef).globalSet he.arrRef
  · push Not at hkept
    obtain ⟨w, rfl, hw⟩ := hkept
    have hin : w.In D := hsrc w rfl
    rw [restorePrst_edited _ _ _ (by simpa using hw)]
    have hpool := (h.poolSet hname hin).poolSetOffset name ref.off
    have hinit := hpool.poolUpdate name (f := fun e => { e with initValue := w })
      fun e he => ⟨he.1, he.2.1, hin⟩
    exact (hinit.set hin).globalSet hin

theorem In.storeAssign (h : rt.In D g) (hv : v.In D) : (rt.storeAssign name ref v).In D g := by
  unfold Runtime.storeAssign
  split
  · exact h.setInstanceField hv _
  · split
    · exact h.raise _
    · dsimp only
      split
      · next hp => exact (h.set hv).poolStore ((h.set hv).of_poolHas hp.2.2) hv
      · exact h.set hv

theorem In.assignVar (h : rt.In D g) (hv : v.In D) (n : ℕ) : (rt.assignVar name ref v n).In D g := by
  unfold Runtime.assignVar
  split
  · split
    · exact (h.raise _).storeAssign hv
    · split
      · exact h.raise _
      · exact h.storeAssign hv
  · exact h.storeAssign hv

theorem In.declareFunc (h : rt.In D g) {fn : FuncDecl} (hfn : fn.In D) : (rt.declareFunc fn).In D g := by
  unfold Runtime.declareFunc
  dsimp only
  split
  · exact (h.scopeSet (Value.in_func.mpr hfn)).globalSet (Value.in_func.mpr hfn)
  · exact h.scopeSet (Value.in_func.mpr hfn)

theorem In.declareArr (h : rt.In D g) {data : List Value} (hd : ∀ v ∈ data, v.In D) :
    (rt.declareArr name data).In D g := by
  have harr : (rt.allocArr (.ofList data)).In D g := h.allocArr hd
  unfold Runtime.declareArr
  dsimp only
  split
  · exact harr.setInstanceField (by simp) _
  · exact harr.scopeSet (by simp)

theorem In.persistArr (h : rt.In D g) (hname : name ∈ D) (a : ℕ) : (rt.persistArr name a).In D g := by
  unfold Runtime.persistArr
  split
  · split
    · exact h.poolSet hname (by simp)
    · exact (h.allocArr (h.arrData _)).scopeSet (by simp)
    · exact h
  · exact h

theorem In.freeVar (h : rt.In D g) : (rt.freeVar ref name).In D g := by
  unfold Runtime.freeVar
  split
  · exact h.stackSet (by simp) _ rt.stackSize
  · split
    · exact h.setInstanceField (by simp) _
    · split
      · exact h.scopeSet (by simp)
      · split
        · exact h.globalSet (by simp)
        · exact h.raise _

end Declarations

section Frames

theorem In.prstScope (h : rt.In D g) : ∀ p ∈ rt.prstScope, p.2.In D := by
  unfold Runtime.prstScope
  refine List.foldlRecOn (motive := fun t : Table => ∀ p ∈ t, p.2.In D) _ _ (List.forall_mem_nil _)
    fun t ht e he => ?_
  split
  all_goals first | exact ht | exact List.forall_mem_cons.mpr ⟨(h.pool e he).2.1, ht⟩

theorem In.enterFrame (h : rt.In D g) (inst : Option ℕ) (withPrst : Bool) : (rt.enterFrame inst withPrst).In D inst :=
  { h with
    running := rfl
    scope := by
      unfold Runtime.enterFrame
      dsimp only
      split
      · exact h.prstScope
      · exact List.forall_mem_nil _ }

theorem In.leaveFrame (h : rt.In D g) {g' : Option ℕ} {caller : Runtime} (hc : caller.In D g') :
    (rt.leaveFrame caller).In D g' :=
  { h with
    running := hc.running
    scope := hc.scope
    stack := fun k => by
      unfold Runtime.leaveFrame
      dsimp only
      split
      · exact hc.stack k
      · exact h.stack k }

theorem In.startBody (h : rt.In D g) {fn : FuncDecl} (hfn : fn.In D) {args : List Value} (ha : ∀ v ∈ args, v.In D)
    (callerSize : ℕ) : (rt.startBody fn args callerSize).In D g :=
  { h with
    scope := List.forall_mem_cons.mpr ⟨Value.in_func.mpr hfn, h.scope⟩
    stack := fun k => by
      unfold Runtime.startBody
      dsimp only
      split
      · next v hv => exact ha v (List.mem_of_getElem? hv)
      · split
        · simp
        · exact h.stack k
    retValue := by simp [Runtime.startBody, ReturnSignal.clear]
    tailCall := by simp [Runtime.startBody, ReturnSignal.clear] }

theorem In.releaseSlots (h : rt.In D g) (start : ℕ) : (rt.releaseSlots start).In D g :=
  { h with
    stack := fun k => by
      unfold Runtime.releaseSlots
      dsimp only
      split
      · simp
      · exact h.stack k }

theorem In.enterVm (h : rt.In D g) (nextReg maxSlot : ℕ) : (rt.enterVm nextReg maxSlot).In D g :=
  { h with
    stack := fun k => by
      unfold Runtime.enterVm
      dsimp only
      split
      · simp
      · exact h.stack k }

theorem In.libReport (h : rt.In D g) (r : LibResult) : (rt.libReport r).In D g := by
  unfold Runtime.libReport
  dsimp only
  split <;> exact { h with }

end Frames

end Runtime

/-- The values, functions and names an update brings into the state; the running instance stays. -/
def Update.In (D : Set Ident) : Update → Prop
  | declareVar _ _ _ v _ | assignVar _ _ v _ | bindVar _ _ v | setReturn v | storeElem _ _ _ v | adopt v
  | storeDyn _ _ v | setField _ _ v | setReg _ v => v.In D
  | declarePrst _ _ name v | rebuildPrst _ _ name v => name ∈ D ∧ v.In D
  | restorePrst _ name e src => name ∈ D ∧ e.value.In D ∧ ∀ v ∈ src, v.In D
  | declareFunc fn | addMethod _ fn => fn.In D
  | setTailCall fn args | startBody fn args _ => fn.In D ∧ ∀ v ∈ args, v.In D
  | declareArr _ data => ∀ v ∈ data, v.In D
  | persistArr name _ => name ∈ D
  | allocArr a => ∀ v ∈ a.data, v.In D
  | allocDyn items => ∀ v ∈ items, v.In D
  | registerDef _ members => ∀ x ∈ methodPrstDecls members, x ∈ D
  | cacheChunk _ chunk => ∀ c ∈ chunk, c.In D
  | raise _ | raiseHard _ | clearError | takeReturn | freeVar _ _ | newInstance _ _ _
  | registerInstance _ _ | releaseSlots _ | reuseFrame _ | enterVm _ _ | syncPool | readLine | libReport _ => True
  | setInstance _ => False

variable {D : Set Ident} {g : Option ℕ} {rt : Runtime}

theorem Update.in_apply {u : Update} (hu : u.In D) (h : rt.In D g) : (u.apply rt).In D g := by
  cases u with
  | raise e => exact h.raise e
  | raiseHard e => exact { h with }
  | clearError | takeReturn | readLine => exact { h with }
  | declareVar t ref name v n => exact h.declareVar hu t n
  | declarePrst t ref name v => exact h.declarePrst hu.1 hu.2 t
  | rebuildPrst t ref name v => exact h.rebuildPrst hu.1 hu.2 t
  | restorePrst ref name e src => exact h.restorePrst hu.1 hu.2.1 hu.2.2
  | assignVar name ref v n => exact h.assignVar hu n
  | bindVar ref name v => exact h.set hu
  | declareFunc fn => exact h.declareFunc hu
  | setReturn v => exact { h with retValue := hu }
  | setTailCall fn args => exact { h with tailCall := by rintro _ ⟨⟩; exact hu }
  | declareArr name data => exact h.declareArr hu
  | persistArr name a => exact h.persistArr hu a
  | storeElem name a idx v => exact h.storeElem hu a idx
  | allocArr a => exact h.allocArr hu
  | allocDyn items => exact h.allocDyn hu
  | adopt v => exact (h.adopt hu).2
  | storeDyn d idx v => exact h.storeDyn hu d idx
  | setInstance inst => exact hu.elim
  | setField i field v => exact h.setInstanceField hu i
  | addMethod i fn => exact h.addMethod hu i
  | freeVar ref name => exact h.freeVar
  | registerDef name members => exact { h with blockDefs := List.forall_mem_cons.mpr ⟨hu, h.blockDefs⟩ }
  | newInstance name defName isRoot =>
    exact { h with instances := List.forall_mem_append.mpr ⟨h.instances, by simp⟩ }
  | registerInstance name i => exact { h with scope := List.forall_mem_cons.mpr ⟨Value.in_inst i, h.scope⟩ }
  | startBody fn args callerSize => exact h.startBody hu.1 hu.2 callerSize
  | releaseSlots start => exact h.releaseSlots start
  | reuseFrame start =>
    exact { h.releaseSlots start with scope := List.forall_mem_nil _, tailCall := nofun }
  | enterVm nextReg maxSlot => exact h.enterVm nextReg maxSlot
  | setReg a v => exact h.stackSet hu a rt.stackSize
  | syncPool => exact h.syncPool
  | cacheChunk id chunk => exact { h with chunks := List.forall_mem_cons.mpr ⟨hu, h.chunks⟩ }
  | libReport r => exact h.libReport r

/-- The instance whose method runs in a bracket. -/
def Bracket.running (g : Option ℕ) : Bracket → Option ℕ
  | call inst | fallback inst => inst
  | _ => g

theorem Bracket.in_enter (h : rt.In D g) (b : Bracket) : (b.enter rt).In D (b.running g) := by
  cases b with
  | danger => exact { h with }
  | call inst => exact h.enterFrame inst true
  | fallback inst => exact h.enterFrame inst false
  | loop | vm | vmFn => exact h

theorem Bracket.in_leave {rt' : Runtime} (h : rt.In D g) {b : Bracket}
    (h' : rt'.In D (b.running g)) : (b.leave rt rt').In D g := by
  cases b with
  | danger => exact { h' with }
  | call inst | fallback inst => exact h'.leaveFrame h
  | loop | vm | vmFn => exact h'

end Fluxa
