import Fluxa.Eval

/-! Slots of a function body. A body numbers its own parameters and locals from zero, and a name it does
not declare keeps the number an enclosing table gave it. Two variables a body can see are kept apart
exactly when no enclosing `prst` variable has a number that the body gives out again, and no assignment makes
the frame grow over what an earlier call has left in the other's slot. -/

namespace Fluxa

open Fluxa.Runtime

/-- The tables around a body: those of the functions it stands in, innermost first, and the top
level's. The resolver cuts a method off from the top level. -/
structure Nest where
  between : List SymTable
  top : Option SymTable

namespace Nest

def parents (n : Nest) : List SymTable := n.between ++ n.top.toList

/-- The tables around a function that is declared where the current table is `t`. -/
def enter (n : Option Nest) (t : SymTable) : Nest :=
  match n with
  | none => ⟨[], some t⟩
  | some n => ⟨t :: n.between, n.top⟩

end Nest

structure Body where
  own : SymTable
  nest : Nest

section Bodies

variable (cap : ℕ)

mutual

/-- The bodies the resolver meets, with the tables it has for them in the end. A node it drops from a
full work stack gets no slots and is left out. -/
def stmtBodies (nest : Option Nest) (inFunc top : ℕ) : Stmt → ResolveState → List Body
  | .ifStmt _ thn none, s => stmtsBodies nest inFunc top thn s
  | .ifStmt _ thn (some els), s =>
    if top + 1 < workStackCap then
      stmtsBodies nest inFunc (top + 1) thn s ++
        match resolveStmts cap (nest.elim [] Nest.parents) inFunc (top + 1) thn s with
        | none => []
        | some (_, s) => stmtsBodies nest inFunc top els s
    else stmtsBodies nest inFunc top els s
  | .whileStmt _ body, s => stmtsBodies nest inFunc top body s
  | .forStmt var _ _ _ body, s => stmtsBodies nest inFunc top body (s.declare var)
  | .danger body, s => stmtsBodies nest inFunc top body s
  | .funcDecl _ name params _ body, s =>
    match (s.declare name).allocScope cap with
    | none => []
    | some s =>
      let inside := Nest.enter nest s.syms
      match resolveStmts cap inside.parents (inFunc + 1) top body ⟨paramTable params, s.used⟩ with
      | none => []
      | some (_, s') => ⟨s'.syms, inside⟩ ::
          stmtsBodies (some inside) (inFunc + 1) top body ⟨paramTable params, s.used⟩
  | .blockDecl name members, s =>
    match (s.declare name).allocScope cap with
    | none => []
    | some s => memberBodies top members .empty s.used
  | _, _ => []

def stmtsBodies (nest : Option Nest) (inFunc top : ℕ) : List Stmt → ResolveState → List Body
  | [], _ => []
  | st :: rest, s =>
    if top + rest.length < workStackCap then
      stmtBodies nest inFunc (top + rest.length) st s ++
        match resolveStmt cap (nest.elim [] Nest.parents) inFunc (top + rest.length) st s with
        | none => []
        | some (_, s) => stmtsBodies nest inFunc top rest s
    else stmtsBodies nest inFunc top rest s

def memberBodies (top : ℕ) : List Stmt → SymTable → ℕ → List Body
  | [], _, _ => []
  | .varDecl _ name _ _ _ :: rest, fields, used => memberBodies top rest (symtableDeclare fields name).1 used
  | .funcDecl _ name params _ body :: rest, fields, used =>
    match ResolveState.allocScope cap ⟨(symtableDeclare fields name).1, used⟩ with
    | none => []
    | some s =>
      if top < workStackCap then
        match resolveStmts cap [] 1 top body ⟨paramTable params, s.used⟩ with
        | none => []
        | some (_, s') => ⟨s'.syms, [], none⟩ ::
            stmtsBodies (some ⟨[], none⟩) 1 top body ⟨paramTable params, s.used⟩ ++
              memberBodies (top + 1) rest s.syms s'.used
      else memberBodies (top + 1) rest s.syms s.used
  | _ :: rest, fields, used => memberBodies top rest fields used

end

def bodies (program : List Stmt) : List Body := stmtsBodies cap none 0 0 program ⟨.empty, 0⟩

end Bodies

mutual

/-- The `prst` variables declared at the top level, not in a function or a Block. -/
def prstNamesStmt : Stmt → List Ident
  | .varDecl _ name _ true _ => [name]
  | .ifStmt _ thn none => prstNames thn
  | .ifStmt _ thn (some els) => prstNames thn ++ prstNames els
  | .whileStmt _ body => prstNames body
  | .forStmt _ _ _ _ body => prstNames body
  | .danger body => prstNames body
  | _ => []

def prstNames : List Stmt → List Ident
  | [] => []
  | st :: rest => prstNamesStmt st ++ prstNames rest

end

namespace Body

variable (b : Body)

def scopes : List SymTable := b.own :: b.nest.parents

/-- The slot the resolver writes on the nodes that name `x`. -/
def slot (x : Ident) : Option ℕ := symtableFind b.scopes x

def identRef (x : Ident) : Ref := ResolveCtx.identRef ⟨b.scopes, 1⟩ x

def assignRef (x : Ident) : Ref := ResolveCtx.nameRef ⟨b.scopes, 1⟩ x {}

/-- Neither the body nor a function around it declares the name. -/
def Unshadowed (x : Ident) : Prop := ∀ t ∈ b.own :: b.nest.between, x ∉ t.names

instance (x : Ident) : Decidable (b.Unshadowed x) := inferInstanceAs (Decidable (∀ t ∈ _, _))

/-- The parameters and locals of the body and the top-level `prst` variables around it. -/
def Visible (prst : List Ident) (x : Ident) : Prop := x ∈ b.own.names ∨ (x ∈ prst ∧ b.Unshadowed x)

end Body

/-- Two variables are kept apart in a state: they have no slot in common, what one of them holds plays no part
in reading the other, and an assignment to one leaves what the other reads. -/
structure Body.Apart (b : Body) (rt : Runtime) (x y : Ident) : Prop where
  slots : ∀ o, b.slot x = some o → b.slot y ≠ some o
  reads : ∀ o v, b.slot x = some o → (rt.setReg o v).lookup (b.identRef y) y = rt.lookup (b.identRef y) y
  assigns : ∀ v n, (rt.assignVar x (b.assignRef x) v n).lookup (b.identRef y) y = rt.lookup (b.identRef y) y

/-- An assignment at slot `a` does not make the frame grow over a value left at slot `o` that is read as `y` then and
is not what `y` means now. -/
def Runtime.Covers (rt : Runtime) (y : Ident) (a o : ℕ) : Prop :=
  o < rt.stackSize ∨ a < o ∨ rt.stack o = .nil ∨ rt.scope.get? y = some (rt.stack o)

def Body.Covered (b : Body) (prst : List Ident) (rt : Runtime) : Prop :=
  ∀ x y, b.Visible prst x → b.Visible prst y → x ≠ y → rt.fieldOwner x = none →
    ∀ a o, b.slot x = some a → b.slot y = some o → rt.Covers y a o

section Agreement

/-- Two states in which reading `y`, with its slot, gives the same. -/
structure Runtime.AgreeOn (y : Ident) (o : Option ℕ) (rt rt' : Runtime) : Prop where
  value : (o.bind rt'.slotValue).or (rt'.scope.get? y) = (o.bind rt.slotValue).or (rt.scope.get? y)
  field : rt'.currentField y = rt.currentField y
  scope : rt'.scope.get? y = rt.scope.get? y
  global : rt'.globalTable.get? y = rt.globalTable.get? y
  depth : rt'.callDepth = rt.callDepth

theorem Body.identRef_eq {b : Body} {y : Ident} : b.identRef y = ⟨b.slot y, (b.slot y).isSome⟩ := by
  simp [Body.identRef, ResolveCtx.identRef, Body.slot]

theorem Body.lookup_of_slot {b : Body} {y : Ident} {o : ℕ} {rt : Runtime} (ho : b.slot y = some o) :
    rt.lookup (b.identRef y) y = (rt.slotValue o).or (rt.scope.get? y) := by
  rw [identRef_eq, ho, Runtime.lookup]
  simp only [Option.isSome_some, and_self, if_true, Option.bind_some]
  cases rt.slotValue o <;> rfl

namespace Runtime.AgreeOn

open Body

variable {x y : Ident} {o : Option ℕ}

variable {rt rt' : Runtime}

theorem trans {rt'' : Runtime} (h : rt.AgreeOn y o rt') (h' : rt'.AgreeOn y o rt'') : rt.AgreeOn y o rt'' :=
  ⟨h'.value.trans h.value, h'.field.trans h.field, h'.scope.trans h.scope, h'.global.trans h.global,
    h'.depth.trans h.depth⟩

theorem lookup {b : Body} (h : rt.AgreeOn y (b.slot y) rt') :
    rt'.lookup (b.identRef y) y = rt.lookup (b.identRef y) y := by
  cases ho : b.slot y with
  | none =>
    have href : b.identRef y = ⟨none, false⟩ := by simp [identRef_eq, ho]
    rw [href, Runtime.lookup, Runtime.lookup, h.field, h.scope, h.global, h.depth]
    simp
  | some o =>
    have hvalue := h.value
    rw [ho] at hvalue
    rw [lookup_of_slot ho, lookup_of_slot ho]
    exact hvalue

theorem raise (rt : Runtime) (e : RtError) : rt.AgreeOn y o (rt.raise e) := by
  unfold Runtime.raise
  split <;> exact ⟨rfl, rfl, rfl, rfl, rfl⟩

theorem setReg (rt : Runtime) {a : ℕ} (v : Value) (h : o ≠ some a) : rt.AgreeOn y o (rt.setReg a v) := by
  refine ⟨congrArg (Option.or · _) ?_, rfl, rfl, rfl, rfl⟩
  cases o with
  | none => rfl
  | some o =>
    have ho : o ≠ a := fun e => h (by rw [e])
    simp only [Option.bind_some, slotValue, Runtime.setReg, Function.update_of_ne ho]

theorem setInstanceField (rt : Runtime) (i : ℕ) (v : Value) (h : y ≠ x) :
    rt.AgreeOn y o (rt.setInstanceField i x v) := by
  refine ⟨rfl, ?_, rfl, rfl, rfl⟩
  unfold currentField
  change rt.currentInstance.bind _ = _
  congr 1
  funext k
  unfold Runtime.instanceField Runtime.instance? Runtime.setInstanceField
  rw [List.getElem?_modify]
  rcases rt.instances[k]? with _ | inst
  · rfl
  · by_cases hk : i = k <;> simp [hk, Table.get?_set_of_ne _ _ h]

theorem scopeSet (rt : Runtime) (v : Value) (h : y ≠ x) : rt.AgreeOn y o { rt with scope := rt.scope.set x v } :=
  ⟨congrArg (Option.or _) (Table.get?_set_of_ne _ v h), rfl, Table.get?_set_of_ne _ v h, rfl, rfl⟩

theorem globalSet (rt : Runtime) (v : Value) (h : y ≠ x) : rt.AgreeOn y o (rt.globalSet x v) :=
  ⟨rfl, rfl, rfl, Table.get?_set_of_ne _ v h, rfl⟩

theorem cloneValue (rt : Runtime) (v : Value) : rt.AgreeOn y o (rt.cloneValue v).2 := by
  unfold Runtime.cloneValue
  repeat' split
  all_goals exact ⟨rfl, rfl, rfl, rfl, rfl⟩

theorem poolSet (rt : Runtime) (name : Ident) (v : Value) : rt.AgreeOn y o (rt.poolSet name v).1 := by
  unfold Runtime.poolSet
  split
  · split
    · exact ⟨rfl, rfl, rfl, rfl, rfl⟩
    · exact (cloneValue rt v).trans ⟨rfl, rfl, rfl, rfl, rfl⟩
  · exact ((cloneValue rt v).trans (cloneValue _ v)).trans ⟨rfl, rfl, rfl, rfl, rfl⟩

theorem poolStore (rt : Runtime) (v : Value) (h : y ≠ x) : rt.AgreeOn y o (rt.poolStore x v) :=
  (poolSet rt x v).trans (globalSet _ v h)

theorem slotValue_set {a o : ℕ} (hne : o ≠ a) (warm : Bool) (v : Value) :
    (rt.set ⟨some a, warm⟩ x v).slotValue o =
      if o < max rt.stackSize (a + 1) ∧ !(rt.stack o).isNil then some (rt.stack o) else none := by
  simp only [slotValue, Runtime.set, Function.update_of_ne hne]

/-- A store in a slot may make the frame longer, but what comes into it makes no difference. -/
theorem set (rt : Runtime) (ref : Ref) (v : Value) (hx : y ≠ x)
    (ho : ∀ a, ref.off = some a → o ≠ some a ∧ ∀ o', o = some o' → rt.Covers y a o') :
    rt.AgreeOn y o (rt.set ref x v) := by
  obtain ⟨off, warm⟩ := ref
  cases off with
  | some a =>
    refine ⟨?_, rfl, rfl, rfl, rfl⟩
    cases o with
    | none => rfl
    | some o =>
      obtain ⟨hne, hcovers⟩ := ho a rfl
      have hscope : (rt.set ⟨some a, warm⟩ x v).scope = rt.scope := rfl
      rw [Option.bind_some, Option.bind_some, slotValue_set fun h : o = a => hne (congrArg some h), hscope, slotValue]
      rcases hcovers o rfl with hlt | hlt | hnil | hscope
      · exact congrArg (Option.or · _) (if_congr (and_congr_left fun _ => by omega) rfl rfl)
      · exact congrArg (Option.or · _) (if_congr (and_congr_left fun _ => by omega) rfl rfl)
      · simp [hnil]
      · rw [hscope]
        split <;> split <;> rfl
  | none =>
    simp only [Runtime.set]
    split
    · exact setInstanceField rt _ v hx
    · exact scopeSet rt v hx

theorem storeAssign (ref : Ref) (v : Value) (hx : y ≠ x)
    (ho : rt.fieldOwner x = none → ∀ a, ref.off = some a → o ≠ some a ∧ ∀ o', o = some o' → rt.Covers y a o') :
    rt.AgreeOn y o (rt.storeAssign x ref v) := by
  unfold Runtime.storeAssign
  split
  · exact setInstanceField rt _ v hx
  · next howner =>
    split
    · exact raise rt _
    · have hset := set rt ref v hx (ho howner)
      dsimp only
      split
      · exact hset.trans (poolStore _ v hx)
      · exact hset

theorem assignVar (ref : Ref) (v : Value) (n : ℕ) (hx : y ≠ x)
    (ho : rt.fieldOwner x = none → ∀ a, ref.off = some a → o ≠ some a ∧ ∀ o', o = some o' → rt.Covers y a o') :
    rt.AgreeOn y o (rt.assignVar x ref v n) := by
  unfold Runtime.assignVar
  split
  · split
    · refine (raise rt _).trans (storeAssign ref v hx ?_)
      -- the report changes neither the frame nor the tables
      unfold Runtime.raise
      split <;> exact ho
    · split
      · exact raise rt _
      · exact storeAssign ref v hx ho
  · exact storeAssign ref v hx ho

end Runtime.AgreeOn

end Agreement

namespace Body

variable {b : Body} {prst : List Ident} {x y : Ident}

theorem slot_of_mem (h : x ∈ b.own.names) : b.slot x = b.own.names.idxOf? x := symtableFind_of_mem h _

theorem slot_of_unshadowed (h : b.Unshadowed x) : b.slot x = b.nest.top.bind (·.names.idxOf? x) := by
  have hs : b.scopes = (b.own :: b.nest.between) ++ b.nest.top.toList := rfl
  rw [slot, hs, symtableFind_append h]
  cases b.nest.top with
  | none => rfl
  | some t =>
    simp only [Option.toList_some, symtableFind, Option.bind_some]
    cases t.names.idxOf? x <;> rfl

theorem slot_inj_of_idxOf? {l : List Ident} {o : ℕ} (hx : l.idxOf? x = some o) (hy : l.idxOf? y = some o) : x = y := by
  have h := SymTable.getElem?_of_idxOf? hx
  rw [SymTable.getElem?_of_idxOf? hy] at h
  simpa using h.symm

/-- The condition: the slots of the enclosing `prst` variables begin behind those of the body. -/
def PrstAbove (b : Body) (prst : List Ident) : Prop :=
  ∀ x ∈ prst, b.Unshadowed x → ∀ o, b.slot x = some o → b.own.names.length ≤ o

theorem slot_ne_of_prstAbove (h : b.PrstAbove prst) (hx : b.Visible prst x) (hy : b.Visible prst y)
    (hxy : x ≠ y) (o : ℕ) (hxo : b.slot x = some o) : b.slot y ≠ some o := by
  intro hyo
  rcases hx with hx | ⟨hxp, hxu⟩ <;> rcases hy with hy | ⟨hyp, hyu⟩
  · rw [slot_of_mem hx] at hxo
    rw [slot_of_mem hy] at hyo
    exact hxy (slot_inj_of_idxOf? hxo hyo)
  · rw [slot_of_mem hx] at hxo
    have hlt := b.own.idxOf?_lt hxo
    have hle := h y hyp hyu o hyo
    omega
  · rw [slot_of_mem hy] at hyo
    have hlt := b.own.idxOf?_lt hyo
    have hle := h x hxp hxu o hxo
    omega
  · rw [slot_of_unshadowed hxu] at hxo
    rw [slot_of_unshadowed hyu] at hyo
    obtain ⟨t, ht, hxt⟩ := Option.bind_eq_some_iff.mp hxo
    rw [ht] at hyo
    exact hxy (slot_inj_of_idxOf? hxt hyo)

theorem apart_of_slot_ne {rt : Runtime} (hxy : x ≠ y) (h : ∀ o, b.slot x = some o → b.slot y ≠ some o)
    (hcovers : rt.fieldOwner x = none → ∀ a o, b.slot x = some a → b.slot y = some o → rt.Covers y a o) :
    b.Apart rt x y where
  slots := h
  reads o v ho := (AgreeOn.setReg _ v (h o ho)).lookup
  assigns v n := (AgreeOn.assignVar _ v n hxy.symm fun howner a ha => ⟨h a ha, fun o => hcovers howner a o ha⟩).lookup

theorem prstAbove_of_slot_ne
    (h : ∀ x y, b.Visible prst x → b.Visible prst y → x ≠ y → ∀ o, b.slot x = some o → b.slot y ≠ some o) :
    b.PrstAbove prst := by
  intro x hxp hxu o hxo
  by_contra hlt
  -- the body's own variable at that slot
  obtain ⟨y, hy⟩ := Option.ne_none_iff_exists'.mp
    (fun hn => hlt (List.getElem?_eq_none_iff.mp hn) : b.own.names[o]? ≠ none)
  have hmem : y ∈ b.own.names := List.mem_of_getElem? hy
  have hyo : b.slot y = some o := by rw [slot_of_mem hmem, b.own.idxOf?_of_getElem? hy]
  have hne : x ≠ y := fun e => hxu b.own (by simp) (e ▸ hmem)
  exact h x y (.inr ⟨hxp, hxu⟩) (.inl hmem) hne o hxo hyo

/-- An assignment that is not checked shows what the frame grows over. -/
theorem Apart.covers {rt : Runtime} (h : b.Apart rt x y) (hxy : x ≠ y) (howner : rt.fieldOwner x = none) {a o : ℕ}
    (ha : b.slot x = some a) (ho : b.slot y = some o) : rt.Covers y a o := by
  have hne : o ≠ a := fun e => h.slots a ha (e ▸ ho)
  have href : b.assignRef x = ⟨some a, false⟩ := congrArg (Ref.mk · false) ha
  have hassign := h.assigns .nil (rt.errStack.length + 1)
  rw [href, lookup_of_slot ho, lookup_of_slot ho] at hassign
  have hstored : (rt.set ⟨some a, false⟩ x .nil).AgreeOn y (some o)
      (rt.assignVar x ⟨some a, false⟩ .nil (rt.errStack.length + 1)) := by
    rw [Runtime.assignVar, if_neg (Nat.succ_ne_self _).symm, Runtime.storeAssign, howner]
    simp only [Option.isNone_some, Bool.false_eq_true, false_and, if_false]
    split
    · exact .poolStore _ .nil hxy.symm
    · exact ⟨rfl, rfl, rfl, rfl, rfl⟩
  have hvalue := hassign.symm.trans hstored.value
  by_contra hcovers
  simp only [Runtime.Covers, not_or] at hcovers
  obtain ⟨hsize, hle, hnil, hscope⟩ := hcovers
  have hnil : (rt.stack o).isNil = false := by cases hv : rt.stack o <;> simp_all [Value.isNil]
  have hgrown : o < max rt.stackSize (a + 1) := by omega
  rw [Option.bind_some, AgreeOn.slotValue_set hne, slotValue, if_neg (fun h => hsize h.1),
    if_pos ⟨hgrown, by simp [hnil]⟩] at hvalue
  exact hscope hvalue

end Body

/-- `int k = 0`, `prst int a = 1` and `fn f(int n) int { return a }`. -/
def prstBehindParameter : List Stmt :=
  [.varDecl .int "k" (.intLit 0) false {},
   .varDecl .int "a" (.intLit 1) true {},
   .funcDecl 0 "f" [("n", ⟨.int, false⟩)] .int [.returnStmt (some (.identifier "a" {}))]]

/-- `prst int a = 1`, `fn f(int n) int { return a }` and `int r = f(7)`. -/
def prstUnderParameter : List Stmt :=
  [.varDecl .int "a" (.intLit 1) true {},
   .funcDecl 0 "f" [("n", ⟨.int, false⟩)] .int [.returnStmt (some (.identifier "a" {}))],
   .varDecl .int "r" (.funcCall "f" [.intLit 7]) false {}]

end Fluxa
