import Fluxa.BigStep
import Fluxa.Pool

/-! Reading a variable that was just assigned. A read and an assignment of one name in one scope have the
same slot, but they look for the variable in different orders: the read begins with the slot, the
assignment with the fields of the instance whose method is running. -/

namespace Fluxa

open Machine Fluxa.Runtime

namespace ResolveCtx

/-- The name is a parameter or a local of the function the code belongs to. -/
def IsLocal (c : ResolveCtx) (name : Ident) : Prop :=
  0 < c.inFunc ∧ ∃ t parents, c.scopes = t :: parents ∧ name ∈ t.names

/-- The node of an assignment, as the parser leaves it and the resolver numbers it. -/
def assignRef (c : ResolveCtx) (name : Ident) : Ref := c.nameRef name {}

variable {c : ResolveCtx} {name : Ident}

theorem assignRef_off : (c.assignRef name).off = (c.identRef name).off := rfl

theorem IsLocal.warm (h : c.IsLocal name) : (c.identRef name).warm = true := by
  obtain ⟨hfunc, t, parents, hscopes, hmem⟩ := h
  have hfound : (symtableFind c.scopes name).isSome := by
    rw [hscopes, symtableFind_of_mem hmem]
    simpa [Option.isSome_iff_ne_none] using hmem
  simp [identRef, hfunc, hfound]

end ResolveCtx

namespace Runtime

variable {rt rt' : Runtime} {c : ResolveCtx} {name : Ident} {v : Value}

/-- `NODE_ASSIGN` makes the store and reports nothing: the variable is found, is not initialised or has
the type of the value, and is declared. -/
structure Accepts (rt : Runtime) (ref : Ref) (name : Ident) (v : Value) : Prop where
  typed : ∃ cur, rt.lookup ref name = some cur ∧ (cur.type = .nil ∨ cur.type = v.type)
  declared : (rt.fieldOwner name).isSome ∨ ref.off.isSome ∨ rt.scope.has name

theorem assignVar_of_accepts {ref : Ref} (h : rt.Accepts ref name v) :
    rt.assignVar name ref v rt.errStack.length = rt.storeAssign name ref v := by
  obtain ⟨cur, hcur, htype⟩ := h.typed
  have hsame : ¬(cur.type ≠ .nil ∧ cur.type ≠ v.type) := by
    rintro ⟨hnil, hne⟩
    exact htype.elim hnil hne
  simp only [assignVar, if_true, hcur, if_neg hsame]

/-- A read of the name in the frame: a warm node asks the slot and the frame table only. Code that runs in
a call is code of a function, so that no node that is not warm names a pooled variable there. -/
theorem lookup_identRef (hctx : 0 < rt.callDepth → 0 < c.inFunc) :
    rt.lookup (c.identRef name) name =
      ((c.identRef name).off.bind rt.slotValue).or
        (if (c.identRef name).warm then rt.scope.get? name
        else (rt.currentField name).or
          ((rt.scope.get? name).or (if 0 < rt.callDepth then rt.globalTable.get? name else none))) := by
  have hwarm : (c.identRef name).warm = (decide (0 < c.inFunc) && (c.identRef name).off.isSome) := rfl
  rw [lookup, hwarm]
  rcases (c.identRef name).off with _ | k
  · rcases hf : rt.currentField name with _ | u <;> rcases hs : rt.scope.get? name with _ | w <;> simp
  · by_cases hfunc : 0 < c.inFunc
    · rcases hk : rt.slotValue k with _ | u <;> simp [hfunc, hk]
    · have hdepth : ¬0 < rt.callDepth := fun h => hfunc (hctx h)
      rcases hk : rt.slotValue k with _ | u <;> rcases hf : rt.currentField name with _ | u <;>
        rcases hs : rt.scope.get? name with _ | w <;> simp [hfunc, hdepth, hk]

/-- The read comes to the fields of the running method's instance. -/
def ReadsField (rt : Runtime) (ref : Ref) : Prop := ref.warm = false ∧ ref.off.bind rt.slotValue = none

/-- The field is assigned: reads that do not come to it find what they found before. -/
theorem lookup_after_field {i : ℕ} (hctx : 0 < rt.callDepth → 0 < c.inFunc) (hfield : rt.fieldOwner name = some i) :
    (rt.setInstanceField i name v).lookup (c.identRef name) name = some v ↔
      rt.ReadsField (c.identRef name) ∨ rt.lookup (c.identRef name) name = some v := by
  have hctx' : 0 < (rt.setInstanceField i name v).callDepth → 0 < c.inFunc := hctx
  rw [lookup_identRef hctx, lookup_identRef hctx', currentField_setInstanceField hfield, ReadsField]
  change (((c.identRef name).off.bind rt.slotValue).or (if (c.identRef name).warm then rt.scope.get? name else _)) = _ ↔ _
  rcases (c.identRef name).off.bind rt.slotValue with _ | u
  · cases (c.identRef name).warm <;> simp
  · simp

theorem lookup_poolStore (hctx : 0 < rt.callDepth → 0 < c.inFunc) (hpool : rt.poolHas name = true)
    (h : rt.lookup (c.identRef name) name = some v) :
    (rt.poolStore name v).lookup (c.identRef name) name = some v := by
  obtain ⟨pool, more, errs, heq, -⟩ := rt.poolStore_spec name v hpool
  rw [heq]
  rw [lookup_identRef hctx] at h
  have hctx' : 0 < ({ rt with
      prstPool := pool, globalTable := rt.globalTable.set name v, arrs := rt.arrs ++ more, errStack := errs } :
      Runtime).callDepth → 0 < c.inFunc := hctx
  refine (lookup_identRef hctx').trans ?_
  change (((c.identRef name).off.bind rt.slotValue).or (if (c.identRef name).warm then rt.scope.get? name
    else (rt.currentField name).or ((rt.scope.get? name).or
      (if 0 < rt.callDepth then (rt.globalTable.set name v).get? name else none)))) = some v
  rw [Table.get?_set_self]
  revert h
  rcases (c.identRef name).off.bind rt.slotValue with _ | u
  · rcases rt.currentField name with _ | u <;> rcases rt.scope.get? name with _ | w <;>
      cases (c.identRef name).warm <;> simp
    exact fun h _ => Nat.ne_of_gt h
  · exact id

theorem lookup_set (hctx : 0 < rt.callDepth → 0 < c.inFunc) (hv : v ≠ .nil) (hfield : rt.fieldOwner name = none) :
    (rt.set (c.assignRef name) name v).lookup (c.identRef name) name = some v ∧
      (rt.set (c.assignRef name) name v).instances = rt.instances ∧
      (rt.set (c.assignRef name) name v).hadError = rt.hadError := by
  rcases hoff : (c.identRef name).off with _ | k
  · have hset : rt.set (c.assignRef name) name v = { rt with scope := rt.scope.set name v } := by
      simp [set, ResolveCtx.assignRef_off, hoff, hfield]
    have hnone : ({ rt with scope := rt.scope.set name v } : Runtime).currentField name = none :=
      currentField_eq_none hfield
    have hcold : (c.identRef name).warm = false := by
      change (decide (0 < c.inFunc) && (c.identRef name).off.isSome) = false
      simp [hoff]
    have hctx' : 0 < ({ rt with scope := rt.scope.set name v } : Runtime).callDepth → 0 < c.inFunc := hctx
    rw [hset]
    refine ⟨?_, rfl, rfl⟩
    rw [lookup_identRef hctx', hnone, hcold, hoff]
    simp
  · have hset : rt.set (c.assignRef name) name v =
        { rt with stack := Function.update rt.stack k v, stackSize := max rt.stackSize (k + 1) } := by
      simp [set, ResolveCtx.assignRef_off, hoff]
    have hctx' : 0 < ({ rt with stack := Function.update rt.stack k v, stackSize := max rt.stackSize (k + 1) } :
        Runtime).callDepth → 0 < c.inFunc := hctx
    rw [hset]
    refine ⟨?_, rfl, rfl⟩
    rw [lookup_identRef hctx', hoff]
    simp [slotValue, hv]

/-- A value other than nil that is not stored in a field is found by the next read. -/
theorem lookup_after_store (hctx : 0 < rt.callDepth → 0 < c.inFunc) (hv : v ≠ .nil)
    (hfield : rt.fieldOwner name = none) (hacc : rt.Accepts (c.assignRef name) name v) :
    (rt.storeAssign name (c.assignRef name) v).lookup (c.identRef name) name = some v ∧
      (rt.storeAssign name (c.assignRef name) v).instances = rt.instances ∧
      (rt.storeAssign name (c.assignRef name) v).hadError = rt.hadError := by
  have hdecl : ¬((c.assignRef name).off.isNone ∧ !rt.scope.has name) := by
    rcases hacc.declared with h | h | h
    · simp [hfield] at h
    · simp [Option.isSome_iff_ne_none.mp h]
    · simp [h]
  obtain ⟨hread, hinst, herr⟩ := lookup_set hctx hv hfield
  have hdepth : 0 < (rt.set (c.assignRef name) name v).callDepth → 0 < c.inFunc := by
    have hkeep : (rt.set (c.assignRef name) name v).callDepth = rt.callDepth := by
      unfold set
      split
      · rfl
      · split <;> rfl
    rwa [hkeep]
  simp only [storeAssign, hfield, if_neg hdecl]
  split
  next hp =>
    obtain ⟨pool, more, errs, heq, -⟩ := (rt.set (c.assignRef name) name v).poolStore_spec name v hp.2.2
    exact ⟨lookup_poolStore hdepth hp.2.2 hread, by rw [heq]; exact hinst, by rw [heq]; exact herr⟩
  next => exact ⟨hread, hinst, herr⟩

theorem instanceField_setInstanceField_iff {i : ℕ} (h : rt.fieldOwner name = some i) :
    (∀ j field, (rt.setInstanceField i name v).instanceField j field = rt.instanceField j field) ↔
      rt.currentField name = some v := by
  have hinst := (currentField_eq_some h).1
  have hset : (rt.setInstanceField i name v).instanceField i name = some v := by
    have hnow := currentField_setInstanceField (v := v) h
    rwa [currentField, show (rt.setInstanceField i name v).currentInstance = some i from hinst] at hnow
  rw [currentField, hinst]
  constructor
  · intro hsame
    exact (hsame i name).symm.trans hset
  · intro hheld j field
    by_cases hj : i = j
    · subst hj
      by_cases hf : field = name
      · rw [hf, hset]
        exact hheld.symm
      · simp only [instanceField, instance?, setInstanceField, List.getElem?_modify, if_true]
        rcases rt.instances[i]? with _ | b
        · rfl
        · exact Table.get?_set_of_ne b.fields v hf
    · simp [instanceField, instance?, setInstanceField, hj]

end Runtime

section Law

variable {env : Env}

theorem calls_identifier {s : Runtime} {ref : Ref} {name : Ident} {v : Value} (hnil : name ≠ "nil")
    (herr : name ≠ "err") (hs : s.hadError = false) (hv : v ≠ .nil) :
    (interp env).Calls (.expr (.identifier name ref)) s v s ↔ s.lookup ref name = some v := by
  refine (calls_ok hs).trans ((runs_evalIdentifier hnil herr).trans (runs_getVar.trans ?_))
  cases s.lookup ref name with
  | none => simp [hv]
  | some w => simp [eq_comm]

/-- An assignment of `e`, which gave `v` in the state `rt₁`, is followed by a read of the variable: it gives
`v`, and if the variable is a local no field of a Block has changed. -/
def ObeysLaw (env : Env) (c : ResolveCtx) (name : Ident) (e : Expr) (rt rt₁ : Runtime) (v : Value) : Prop :=
  ∀ rt', (interp env).Calls (.stmt (.assign name e (c.assignRef name))) rt .nil rt' →
    (interp env).Calls (.expr (.identifier name (c.identRef name))) rt' v rt' ∧
      (c.IsLocal name → ∀ i field, rt'.instanceField i field = rt₁.instanceField i field)

/-- The assignment and the read meet: no field has the name, or the read comes to the field, or both the
variable and, for a local, the field hold the value already. -/
def Meet (c : ResolveCtx) (name : Ident) (rt : Runtime) (v : Value) : Prop :=
  rt.fieldOwner name = none ∨ rt.ReadsField (c.identRef name) ∨
    (rt.lookup (c.identRef name) name = some v ∧ (c.IsLocal name → rt.currentField name = some v))

/-- The top level of a program that declares `x`. -/
def topCtx : ResolveCtx := ⟨[(symtableDeclare .empty "x").1], 0⟩

/-- The top level behind `int x = 1`. -/
def topState : Runtime := (start .script []).set (topCtx.assignRef "x") "x" (.int 1)

/-- `Block C { int x = 1  fn put(int x) int { x = 7  return x } }` and `int r = C.put(3)`. -/
def shadowedField : List Stmt :=
  [.blockDecl "C" [.varDecl .int "x" (.intLit 1) false {},
    .funcDecl 0 "put" [("x", ⟨.int, false⟩)] .int
      [.assign "x" (.intLit 7) {}, .returnStmt (some (.identifier "x" {}))]],
   .varDecl .int "r" (.memberCall "C" "put" [.intLit 3]) false {}]

end Law

end Fluxa
