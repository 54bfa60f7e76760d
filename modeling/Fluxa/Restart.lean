import Fluxa.Base.DoubleBits
import Fluxa.Reload
import Fluxa.Snapshot

/-! A restart: the program runs on the pool that was read from a snapshot (`runtime_exec_persist`). If the reader
fails, the entries it read before stay in the pool, and the run starts from them. -/

namespace Fluxa

open Wire Machine Fluxa.Runtime Stored
open Binary64 (Double)

section Load

/-- The bytes of a name or a text are taken as its characters. -/
def CString.text (s : CString) : String := String.ofList (s.bytes.map fun b => Char.ofNat b.toNat)

/-- The type of a number; a number that is none is like `VAL_PTR`, a type no value of a program has. -/
def ValType.ofTag (tag : Int32) : ValType :=
  ([nil, int, float, bool, string, func, blockInst, arr, errStack, dyn].find? (·.tag = tag)).getD ptr

mutual

/-- A value of a snapshot in the heap of a runtime. A snapshot has no references. -/
def Stored.load : Stored → Runtime → Value × Runtime
  | .nil, rt | .ref _ _, rt => (.nil, rt)
  | .int i, rt => (.int i, rt)
  | .float bits, rt => (.float (.ofBits bits), rt)
  | .bool b, rt => (.bool (b != 0), rt)
  | .str s, rt => (.str s.text, rt)
  | .arr es, rt =>
    let (vs, rt) := loadAll es rt
    (.arr rt.nextArr true, rt.allocArr (.ofList vs))

def Stored.loadAll : List Stored → Runtime → List Value × Runtime
  | [], rt => ([], rt)
  | e :: es, rt =>
    let (v, rt) := e.load rt
    let (vs, rt) := loadAll es rt
    (v :: vs, rt)

end

def Runtime.loadEntry (rt : Runtime) (e : PoolEntry) : Runtime :=
  let (value, rt) := e.value.load rt
  let (initValue, rt) := e.initValue.load rt
  { rt with prstPool := rt.prstPool ++ [⟨e.name.text, .ofTag e.declaredType, value, initValue,
      if e.stackOffset < 0 then none else some e.stackOffset.toNatClampNeg⟩] }

/-- A runtime that has nothing but a pool. -/
def Runtime.ofPool (p : PrstPool) : Runtime := p.foldl loadEntry (.start .project [])

/-- What the reader leaves in the empty pool of a new runtime, whether it fails or not. -/
def snapshotPool (b : Buffer) : PrstPool := ((prstPoolDeserialize b [] .start).1.map (·.2)).getD []

/-- The runtime before the first statement: only a program with `prst` declarations has a pool. -/
def restartState (b : Buffer) (program : List Stmt) (stdin : List String) : Runtime :=
  if resolverHasPrst program then (ofPool (snapshotPool b)).reload stdin else startState program stdin

/-- `runtime_exec_persist` with a restart snapshot. -/
def restartExec (env : Env) (n : ℕ) (b : Buffer) (program : List Stmt) (stdin : List String) : Option Unit × Runtime :=
  (interp env).runs n (runProgram program) (restartState b program stdin)

end Load

section Leftovers

variable {b : Buffer}

/-- The first entry of a snapshot, if the reader comes to it and it is complete. -/
def firstEntry? (b : Buffer) : Option PoolEntry :=
  match acceptedCount b with
  | some (_ + 1) => (prstDeserEntry b (b.size + 1) afterCount).1
  | _ => none

theorem Restored.ne_nil {p p' : PrstPool} {e : PoolEntry} (h : Restored p e p') (hp : p ≠ []) : p' ≠ [] := by
  cases h with
  | refused => exact hp
  | added => simp
  | replaced i hi => simpa using hp

theorem prstDeserEntries_ne_nil {fuel : ℕ} : ∀ (n : ℕ) {p : PrstPool} (c : Cursor), p ≠ [] →
    ∃ ok p' c', prstDeserEntries b fuel n p c = (some (ok, p'), c') ∧ p' ≠ []
  | 0, p, c, hp => ⟨true, p, c, rfl, hp⟩
  | n + 1, p, c, hp => by
      rw [prstDeserEntries_succ]
      rcases prstDeserEntry b fuel c with ⟨_ | e, c'⟩
      · exact ⟨false, p, c', rfl, hp⟩
      · exact prstDeserEntries_ne_nil n c' ((restored p e).ne_nil hp)

theorem snapshotPool_eq_nil : snapshotPool b = [] ↔ firstEntry? b = none := by
  obtain ⟨hcount, c, -, hrun⟩ | ⟨n, hcount, -, hrun⟩ := prstPoolDeserialize_cases b []
  · simp [snapshotPool, firstEntry?, hcount, hrun]
  · rw [snapshotPool, firstEntry?, hcount, hrun]
    cases n with
    | zero => simp [prstDeserEntries]
    | succ n =>
      rw [prstDeserEntries_succ]
      rcases prstDeserEntry b (b.size + 1) afterCount with ⟨_ | e, c⟩
      · exact ⟨fun _ => rfl, fun _ => rfl⟩
      · have hadded : prstRestoreEntry [] e ≠ [] := by
          simp [prstRestoreEntry_of_new (p := []) (e := e) List.not_mem_nil]
        obtain ⟨ok, p', c', hrest, hne⟩ := @prstDeserEntries_ne_nil b (b.size + 1) n _ c hadded
        simp [hrest, hne]

mutual

theorem Stored.prstPool_load : ∀ (v : Stored) (rt : Runtime), (v.load rt).2.prstPool = rt.prstPool
  | .nil, _ | .ref _ _, _ | .int _, _ | .float _, _ | .bool _, _ | .str _, _ => rfl
  | .arr es, rt => prstPool_loadAll es rt

theorem Stored.prstPool_loadAll : ∀ (vs : List Stored) (rt : Runtime), (loadAll vs rt).2.prstPool = rt.prstPool
  | [], _ => rfl
  | v :: vs, rt => (prstPool_loadAll vs (v.load rt).2).trans (prstPool_load v rt)

end

theorem names_loadEntry (rt : Runtime) (e : PoolEntry) :
    (rt.loadEntry e).prstPool.map (·.name) = rt.prstPool.map (·.name) ++ [e.name.text] := by
  have hpool : (e.initValue.load (e.value.load rt).2).2.prstPool = rt.prstPool := by
    rw [prstPool_load, prstPool_load]
  rw [loadEntry, List.map_append, hpool]
  rfl

theorem names_foldl_loadEntry : ∀ (p : PrstPool) (rt : Runtime),
    (p.foldl loadEntry rt).prstPool.map (·.name) = rt.prstPool.map (·.name) ++ p.map (·.name.text)
  | [], rt => by simp
  | e :: p, rt => by
      rw [List.foldl_cons, names_foldl_loadEntry p, names_loadEntry, List.append_assoc]
      rfl

/-- The run after a restart is that of a first start, and every `prst` variable starts from its initialiser. -/
structure StartsClean (b : Buffer) : Prop where
  sameRun : ∀ (env : Env) (n : ℕ) (program : List Stmt) (stdin : List String),
    restartExec env n b program stdin = runtimeExec env n program stdin
  fresh : ∀ (env : Env), env.Sealed → ∀ x, StartsFresh env x (ofPool (snapshotPool b))

theorem startsClean_of_empty (h : snapshotPool b = []) : StartsClean b where
  sameRun env n program stdin := by
    rw [restartExec, runtimeExec, restartState, h]
    split
    · next hprst =>
      rw [startState, if_pos hprst]
      rfl
    · rfl
  fresh env henv x := by
    rw [h]
    exact startsFresh henv rfl

theorem leftover_stays (hne : snapshotPool b ≠ []) : ¬StartsClean b := by
  intro hclean
  obtain ⟨e, p, hp⟩ := List.exists_cons_of_ne_nil hne
  have hhas : (ofPool (snapshotPool b)).poolHas e.name.text = true := by
    rw [poolHas_iff, ofPool, names_foldl_loadEntry, hp]
    simp
  -- of the two programs, one does not declare the variable
  have hghost (q : Ident) (hq : e.name.text ≠ q)
      (hfirst : (runtimeExec .plain 10 [.varDecl .int q (.intLit 0) true ⟨some 0, false⟩] []).2.NoGhost
        [.varDecl .int q (.intLit 0) true ⟨some 0, false⟩]) : False := by
    rw [← hclean.sameRun] at hfirst
    have hbefore := (noGhost_runtimeApply_iff Env.plain_sealed 10 [.varDecl .int q (.intLit 0) true ⟨some 0, false⟩]
      (ofPool (snapshotPool b)) []).mp hfirst
    exact hq (List.mem_singleton.mp (noGhost_iff_poolHas.mp hbefore _ hhas))
  by_cases hname : e.name.text = "a"
  · exact hghost "b" (by rw [hname]; decide) (by decide +kernel)
  · exact hghost "a" hname (by decide +kernel)

/-- **A restart starts clean exactly if no entry of the snapshot can be read.** -/
theorem startsClean_iff (b : Buffer) : StartsClean b ↔ firstEntry? b = none := by
  rw [← snapshotPool_eq_nil]
  exact ⟨fun h => by_contra fun hne => leftover_stays hne h, startsClean_of_empty⟩

/-- `prst int x = 5` with the value 7, and `prst int y = 1`. -/
def countedPool : PrstPool :=
  (prstPoolSet (prstPoolSet (prstPoolSet [] ⟨[120], by decide⟩ (.int 5)).1 ⟨[120], by decide⟩ (.int 7)).1
    ⟨[121], by decide⟩ (.int 1)).1

/-- The snapshot of the pool, cut off behind the first entry. -/
def cutSnapshot : Buffer := .ofList ((prstPoolSerialize (fun _ _ => 0) countedPool).take 324)

/-- The reader reports a failure, and `x` starts with the value 7 it had before the restart. -/
theorem failed_load_restores :
    (prstPoolDeserialize cutSnapshot [] .start).1.map (·.1) = some false ∧
    let program : List Stmt := [.varDecl .int "x" (.intLit 5) true ⟨some 0, false⟩]
    ((restartExec .plain 10 cutSnapshot program []).2.lookup ⟨some 0, false⟩ "x").bind Value.int? = some 7 ∧
      ((runtimeExec .plain 10 program []).2.lookup ⟨some 0, false⟩ "x").bind Value.int? = some 5 := by
  decide +kernel

end Leftovers

end Fluxa
