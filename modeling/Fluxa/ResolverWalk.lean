import Fluxa.Resolver
import Fluxa.Base.WorkStack

/-! The order in which the resolver processes a program (`resolve_stmts`). Statements are taken from a work stack of 4096
items; an item that finds the stack full is not pushed, without an error. The bodies of a Block's methods are pushed first
to last, so they are processed last to first. A statement is named by its path in the program, and a symbol table by the
path of the body it was allocated for. What is written into a node is `resolveExpr` at the tables recorded for it. -/

namespace Fluxa.ResolverWalk

open Traversal Stmt

abbrev Path := List ℕ

section Model

/-- A node the work stack can hold: a list of statements (`NODE_PROGRAM`, `NODE_BLOCK_STMT`) or one statement. -/
inductive Node where
  | body (stmts : List Stmt)
  | stmt (s : Stmt)

/-- `scope` is the table of the item followed by its parents. -/
structure WorkItem where
  path : Path
  node : Node
  scope : List Path
  inFunc : ℕ

namespace WorkItem

def child (i : WorkItem) (s : Stmt) (k : ℕ) : WorkItem := { i with path := i.path ++ [k], node := .stmt s }

/-- A body that shares the table of its statement. -/
def inner (i : WorkItem) (k : ℕ) (body : List Stmt) : WorkItem := { i with path := i.path ++ [k], node := .body body }

/-- A function body: the tables around the declaration are its parents. -/
def funcBody (i : WorkItem) (body : List Stmt) : WorkItem :=
  ⟨i.path ++ [0], .body body, (i.path ++ [0]) :: i.scope, i.inFunc + 1⟩

/-- A method body: it has no parent. -/
def methodBody (i : WorkItem) (k : ℕ) (body : List Stmt) : WorkItem := ⟨i.path ++ [k], .body body, [i.path ++ [k]], 1⟩

/-- The bodies of a Block's methods, in source order. -/
def methods (i : WorkItem) : List Stmt → ℕ → List WorkItem
  | [], _ => []
  | .funcDecl _ _ _ _ body :: members, k => i.methodBody k body :: methods i members (k + 1)
  | _ :: members, k => methods i members (k + 1)

/-- What stands inside an item, apart from a Block. -/
def parts (i : WorkItem) : List WorkItem :=
  match i.node with
  | .body stmts => stmts.zipIdx.map fun s => i.child s.1 s.2
  | .stmt (.ifStmt _ thn none) => [i.inner 0 thn]
  | .stmt (.ifStmt _ thn (some els)) => [i.inner 0 thn, i.inner 1 els]
  | .stmt (.whileStmt _ body) => [i.inner 0 body]
  | .stmt (.forStmt _ _ _ _ body) => [i.inner 0 body]
  | .stmt (.danger body) => [i.inner 0 body]
  | .stmt (.funcDecl _ _ _ _ body) => [i.funcBody body]
  | .stmt (.blockDecl _ members) => i.methods members 0
  | _ => []

/-- The items that are pushed for an item, in the order in which they are popped. -/
def pushed (i : WorkItem) : List WorkItem :=
  match i.node with
  | .stmt (.blockDecl _ members) => (i.methods members 0).reverse
  | _ => i.parts

noncomputable def size (i : WorkItem) : ℕ :=
  match i.node with
  | .body stmts => sizeOf stmts
  | .stmt s => sizeOf s

theorem sum_size_child (i : WorkItem) (stmts : List Stmt) (k : ℕ) :
    (((stmts.zipIdx k).map fun s => i.child s.1 s.2).map size).sum < sizeOf stmts := by
  induction stmts generalizing k with
  | nil => exact Nat.zero_lt_one
  | cons s stmts ih =>
    have hrest := ih (k + 1)
    rw [List.zipIdx_cons, List.map_cons, List.map_cons, List.sum_cons, List.cons.sizeOf_spec]
    change sizeOf s + _ < _
    omega

theorem sum_size_methods (i : WorkItem) (members : List Stmt) (k : ℕ) :
    ((i.methods members k).map size).sum < sizeOf members := by
  fun_induction methods i members k with
  | case1 => exact Nat.zero_lt_one
  | case2 id name params returnType body members k ih =>
    rw [List.map_cons, List.sum_cons, List.cons.sizeOf_spec, funcDecl.sizeOf_spec]
    change sizeOf body + _ < _
    omega
  | case3 member members k hmethod ih =>
    rw [List.cons.sizeOf_spec]
    omega

theorem sum_size_parts (i : WorkItem) : (i.parts.map size).sum < i.size := by
  obtain ⟨path, node, scope, inFunc⟩ := i
  cases node with
  | body stmts => exact sum_size_child _ stmts 0
  | stmt s =>
    cases s with
    | ifStmt condition thn els =>
      cases els with
      | none =>
        change sizeOf thn + 0 < sizeOf (ifStmt condition thn none)
        rw [ifStmt.sizeOf_spec]
        omega
      | some els =>
        change sizeOf thn + (sizeOf els + 0) < sizeOf (ifStmt condition thn (some els))
        rw [ifStmt.sizeOf_spec, Option.some.sizeOf_spec]
        omega
    | whileStmt _ body | forStmt _ _ _ _ body | danger body | funcDecl _ _ _ _ body =>
      change sizeOf body + 0 < sizeOf _
      simp
    | blockDecl name members =>
      refine (sum_size_methods _ members 0).trans ?_
      change sizeOf members < sizeOf (blockDecl name members)
      rw [blockDecl.sizeOf_spec]
      omega
    | _ => simp [parts, size]

theorem pushed_perm (i : WorkItem) : i.pushed.Perm i.parts := by
  obtain ⟨path, node, scope, inFunc⟩ := i
  cases node with
  | body stmts => exact List.Perm.refl _
  | stmt s =>
    cases s with
    | blockDecl name members => exact List.reverse_perm _
    | _ => exact List.Perm.refl _

end WorkItem

def leftToRight : Traversal WorkItem := ⟨WorkItem.parts, WorkItem.size, WorkItem.sum_size_parts⟩

def workStack : Traversal WorkItem where
  children := WorkItem.pushed
  exists_size := by
    refine ⟨WorkItem.size, fun i => ?_⟩
    rw [((WorkItem.pushed_perm i).map WorkItem.size).sum_eq]
    exact WorkItem.sum_size_parts i

/-- A processed item and the tables it was processed with. -/
structure Visit where
  item : WorkItem
  ctx : ResolveCtx

structure State where
  tables : Path → SymTable
  used : ℕ
  visited : List Visit

namespace State

/-- `symtable_declare` on the table of an item. -/
def declare (s : State) (table : Path) (name : Ident) : State :=
  { s with tables := Function.update s.tables table (symtableDeclare (s.tables table) name).1 }

/-- `ALLOC_SCOPE`, followed by the declaration of the parameters. -/
def allocScope (cap : ℕ) (s : State) (table : Path) (params : List (Ident × ParamType)) : Option State :=
  if s.used < cap then
    some { s with tables := Function.update s.tables table (paramTable params), used := s.used + 1 }
  else none

/-- The members of a Block: their names go into the Block's own table, and every method gets a table. -/
def members (cap : ℕ) (block : Path) : List Stmt → ℕ → State → Option State
  | [], _, s => some s
  | .varDecl _ name _ _ _ :: rest, k, s => members cap block rest (k + 1) (s.declare block name)
  | .funcDecl _ name params _ _ :: rest, k, s =>
    ((s.declare block name).allocScope cap (block ++ [k]) params).bind (members cap block rest (k + 1))
  | _ :: rest, k, s => members cap block rest (k + 1) s

end State

/-- One item is processed, apart from the items it pushes. -/
def process (cap : ℕ) (i : WorkItem) (s : State) : Option State :=
  let own := i.scope.headD []
  let s := { s with visited := s.visited ++ [⟨i, ⟨i.scope.map s.tables, i.inFunc⟩⟩] }
  match i.node with
  | .stmt (.varDecl _ name _ _ _) => some (s.declare own name)
  | .stmt (.forStmt var _ _ _ _) => some (s.declare own var)
  | .stmt (.funcDecl _ name params _ _) => (s.declare own name).allocScope cap (i.path ++ [0]) params
  | .stmt (.blockDecl name members) =>
    ((s.declare own name).allocScope cap i.path []).bind (State.members cap i.path members 0)
  | .stmt (.typeofInst inst _) => some (s.declare own inst)
  | _ => some s

/-- The program with the global table, which is named by the path of the program. -/
def root (program : List Stmt) : WorkItem := ⟨[], .body program, [[]], 0⟩

def start : State := ⟨fun _ => .empty, 0, []⟩

/-- `resolve_stmts` as `resolver_run` calls it. -/
def resolveStmts (cap : ℕ) (program : List Stmt) : Option State :=
  workStack.run workStackCap (process cap) [root program] start

end Model

section Conditions

mutual

/-- The work stack has room for everything in a statement when `top` items are pending behind it. -/
def RoomStmt (top : ℕ) : Stmt → Prop
  | .ifStmt _ thn none => RoomBody top thn
  | .ifStmt _ thn (some els) => top + 1 < workStackCap ∧ RoomBody (top + 1) thn ∧ RoomBody top els
  | .whileStmt _ body => RoomBody top body
  | .forStmt _ _ _ _ body => RoomBody top body
  | .danger body => RoomBody top body
  | .funcDecl _ _ _ _ body => RoomBody top body
  | .blockDecl _ members => RoomMembers top members
  | _ => True

/-- A statement of a list waits for the ones before it. -/
def RoomBody (top : ℕ) : List Stmt → Prop
  | [] => True
  | s :: rest => top + rest.length < workStackCap ∧ RoomStmt (top + rest.length) s ∧ RoomBody top rest

/-- A method waits for the ones behind it. -/
def RoomMembers (top : ℕ) : List Stmt → Prop
  | [] => True
  | .funcDecl _ _ _ _ body :: rest => top < workStackCap ∧ RoomBody top body ∧ RoomMembers (top + 1) rest
  | _ :: rest => RoomMembers top rest

end

def RoomItem (top : ℕ) (i : WorkItem) : Prop :=
  match i.node with
  | .body stmts => RoomBody top stmts
  | .stmt s => RoomStmt top s

/-- The number of methods among the members of a Block. -/
def methodCount (members : List Stmt) : ℕ := members.countP fun m => m matches .funcDecl ..

mutual

def OneMethodStmt : Stmt → Prop
  | .ifStmt _ thn none => OneMethodBody thn
  | .ifStmt _ thn (some els) => OneMethodBody thn ∧ OneMethodBody els
  | .whileStmt _ body => OneMethodBody body
  | .forStmt _ _ _ _ body => OneMethodBody body
  | .danger body => OneMethodBody body
  | .funcDecl _ _ _ _ body => OneMethodBody body
  | .blockDecl _ members => methodCount members ≤ 1 ∧ OneMethodMembers members
  | _ => True

def OneMethodBody : List Stmt → Prop
  | [] => True
  | s :: rest => OneMethodStmt s ∧ OneMethodBody rest

def OneMethodMembers : List Stmt → Prop
  | [] => True
  | .funcDecl _ _ _ _ body :: rest => OneMethodBody body ∧ OneMethodMembers rest
  | _ :: rest => OneMethodMembers rest

end

def OneMethodItem (i : WorkItem) : Prop :=
  match i.node with
  | .body stmts => OneMethodBody stmts
  | .stmt s => OneMethodStmt s

end Conditions

section Room

variable {top : ℕ} {i : WorkItem}

/-- Below the item nothing is dropped exactly when there is room. -/
def RoomFor (i : WorkItem) : Prop :=
  ∀ top, top < workStackCap → (workStack.Complete workStackCap top i ↔ RoomItem top i)

theorem completeAll_child_iff (i : WorkItem) (stmts : List Stmt) (k : ℕ)
    (ih : ∀ c ∈ (stmts.zipIdx k).map fun s => i.child s.1 s.2, RoomFor c) :
    workStack.CompleteAll workStackCap top ((stmts.zipIdx k).map fun s => i.child s.1 s.2) ↔ RoomBody top stmts := by
  induction stmts generalizing k with
  | nil =>
    rw [RoomBody]
    exact iff_true_intro workStack.completeAll_nil
  | cons s stmts ihs =>
    rw [List.zipIdx_cons, List.map_cons] at ih ⊢
    have hrest := ihs (k + 1) fun c hc => ih c (List.mem_cons_of_mem _ hc)
    rw [completeAll_cons, hrest, List.length_map, List.length_zipIdx, RoomBody]
    refine and_congr_right fun hroom => ?_
    rw [ih (i.child s k) List.mem_cons_self _ hroom]
    rfl

theorem completeAll_methods_iff (i : WorkItem) (members : List Stmt) (k : ℕ)
    (ih : ∀ c ∈ i.methods members k, RoomFor c) :
    workStack.CompleteAll workStackCap top (i.methods members k).reverse ↔ RoomMembers top members := by
  fun_induction WorkItem.methods i members k generalizing top with
  | case1 k =>
    rw [RoomMembers, List.reverse_nil]
    exact iff_true_intro workStack.completeAll_nil
  | case2 id name params returnType body members k ihm =>
    have hrest : workStack.CompleteAll workStackCap (top + 1) (i.methods members (k + 1)).reverse ↔
        RoomMembers (top + 1) members := ihm fun c hc => ih c (List.mem_cons_of_mem _ hc)
    rw [List.reverse_cons, completeAll_append, completeAll_singleton, List.length_singleton, hrest,
      RoomMembers, and_comm, and_assoc]
    refine and_congr_right fun hroom => and_congr_left fun _ => ?_
    exact ih (i.methodBody k body) List.mem_cons_self _ hroom
  | case3 member members k hmethod ihm =>
    rw [RoomMembers.eq_3 _ _ _ hmethod]
    exact ihm ih

theorem roomFor_single {c : WorkItem} (hpushed : i.pushed = [c]) (hc : RoomFor c)
    (hroom : ∀ top, RoomItem top c = RoomItem top i) : RoomFor i := by
  intro top htop
  rw [complete_iff]
  change workStack.CompleteAll workStackCap top i.pushed ↔ _
  rw [hpushed, completeAll_singleton, hc top htop, hroom]
  exact and_iff_right htop

theorem roomFor_leaf (hpushed : i.pushed = []) (hroom : ∀ top, RoomItem top i) : RoomFor i := by
  intro top _
  rw [complete_iff]
  change workStack.CompleteAll workStackCap top i.pushed ↔ _
  rw [hpushed]
  exact iff_of_true workStack.completeAll_nil (hroom top)

theorem roomFor (i : WorkItem) : RoomFor i := by
  induction i using workStack.induct with
  | h i ih =>
    obtain ⟨path, node, scope, inFunc⟩ := i
    cases node with
    | body stmts =>
      intro top htop
      rw [complete_iff]
      exact completeAll_child_iff _ stmts 0 ih
    | stmt s =>
      cases s with
      | ifStmt condition thn els =>
        cases els with
        | none => exact roomFor_single rfl (ih _ (List.mem_singleton.mpr rfl)) fun _ => rfl
        | some els =>
          -- the else branch lies below the then branch
          intro top htop
          have hthn := ih _ List.mem_cons_self
          have hels := ih _ (List.mem_cons_of_mem _ List.mem_cons_self) top htop
          rw [complete_iff]
          refine (completeAll_cons _ _ _).trans (and_congr_right fun hroom => and_congr ?_ ?_)
          · exact hthn (top + 1) hroom
          · rw [completeAll_singleton, hels]
            exact and_iff_right htop
      | whileStmt | forStmt | danger | funcDecl =>
        exact roomFor_single rfl (ih _ (List.mem_singleton.mpr rfl)) fun _ => rfl
      | blockDecl name members =>
        intro top htop
        rw [complete_iff]
        exact completeAll_methods_iff _ members 0 fun c hc => ih c (List.mem_reverse.mpr hc)
      | _ => exact roomFor_leaf rfl fun _ => trivial

end Room

section SourceOrder

variable {i : WorkItem}

/-- Below the item the work stack keeps the order of the source. -/
def SameOrder (i : WorkItem) : Prop := workStack.preorder i = leftToRight.preorder i

theorem sameOrder_iff (hpushed : i.pushed = i.parts) : SameOrder i ↔ ∀ c ∈ i.parts, SameOrder c := by
  rw [SameOrder, preorder_eq, preorder_eq, List.cons_inj_right]
  change i.pushed.flatMap _ = i.parts.flatMap _ ↔ _
  rw [hpushed]
  exact flatMap_preorder_eq_iff fun c _ => preorder_perm WorkItem.pushed_perm c

theorem methods_path (i : WorkItem) (members : List Stmt) (k : ℕ) :
    ∃ ks : List ℕ, ks.Nodup ∧ (∀ n ∈ ks, k ≤ n) ∧
      (i.methods members k).map WorkItem.path = ks.map fun n => i.path ++ [n] := by
  fun_induction WorkItem.methods i members k with
  | case1 k => exact ⟨[], List.nodup_nil, fun n hn => absurd hn List.not_mem_nil, rfl⟩
  | case2 id name params returnType body members k ih =>
    obtain ⟨ks, hnodup, hge, hks⟩ := ih
    refine ⟨k :: ks, List.nodup_cons.mpr ⟨fun hk => ?_, hnodup⟩, ?_, ?_⟩
    · exact absurd (hge k hk) (Nat.not_succ_le_self k)
    · intro n hn
      rcases List.mem_cons.mp hn with rfl | hn
      · exact Nat.le_refl n
      · exact (Nat.le_succ k).trans (hge n hn)
    · rw [List.map_cons, hks]
      rfl
  | case3 member members k hmethod ih =>
    obtain ⟨ks, hnodup, hge, hks⟩ := ih
    exact ⟨ks, hnodup, fun n hn => (Nat.le_succ k).trans (hge n hn), hks⟩

theorem length_methods (i : WorkItem) (members : List Stmt) (k : ℕ) :
    (i.methods members k).length = methodCount members := by
  fun_induction WorkItem.methods i members k with
  | case1 k => rfl
  | case2 id name params returnType body members k ih =>
    rw [List.length_cons, ih]
    exact (List.countP_cons_of_pos rfl).symm
  | case3 member members k hmethod ih =>
    rw [ih]
    refine (List.countP_cons_of_neg ?_).symm
    cases member with
    | funcDecl id name params returnType body => exact absurd rfl (hmethod id name params returnType body)
    | _ => exact Bool.false_ne_true

theorem reverse_eq_of_length_le_one {α : Type} {l : List α} (h : l.length ≤ 1) : l.reverse = l := by
  match l, h with
  | [], _ => rfl
  | [a], _ => rfl

theorem sameOrder_block_iff {name : Ident} {members : List Stmt} (hnode : i.node = .stmt (.blockDecl name members)) :
    SameOrder i ↔ methodCount members ≤ 1 ∧ ∀ c ∈ i.methods members 0, SameOrder c := by
  have hpushed : i.pushed = (i.methods members 0).reverse := by rw [WorkItem.pushed, hnode]
  have hparts : i.parts = i.methods members 0 := by rw [WorkItem.parts, hnode]
  constructor
  · intro hsame
    have hnodup : (i.methods members 0).Nodup := by
      obtain ⟨ks, hnodup, _, hks⟩ := methods_path i members 0
      refine List.Nodup.of_map WorkItem.path ?_
      rw [hks]
      exact hnodup.map fun n m hnm => List.singleton_inj.mp (List.append_cancel_left hnm)
    have horder := hsame
    rw [SameOrder, preorder_eq, preorder_eq, List.cons_inj_right] at horder
    change i.pushed.flatMap _ = i.parts.flatMap _ at horder
    rw [hpushed, hparts] at horder
    have hlength := length_le_one_of_reverse hnodup horder
    refine ⟨(length_methods i members 0).symm.trans_le hlength, ?_⟩
    rw [← hparts, ← sameOrder_iff (by rw [hpushed, hparts, reverse_eq_of_length_le_one hlength])]
    exact hsame
  · rintro ⟨hcount, hmethods⟩
    have hlength : (i.methods members 0).length ≤ 1 := (length_methods i members 0).trans_le hcount
    rw [sameOrder_iff (by rw [hpushed, hparts, reverse_eq_of_length_le_one hlength]), hparts]
    exact hmethods

theorem oneMethodBody_iff (i : WorkItem) (stmts : List Stmt) (k : ℕ)
    (ih : ∀ c ∈ (stmts.zipIdx k).map fun s => i.child s.1 s.2, SameOrder c ↔ OneMethodItem c) :
    (∀ c ∈ (stmts.zipIdx k).map fun s => i.child s.1 s.2, SameOrder c) ↔ OneMethodBody stmts := by
  induction stmts generalizing k with
  | nil =>
    rw [OneMethodBody]
    exact iff_true_intro fun c hc => absurd hc List.not_mem_nil
  | cons s stmts ihs =>
    rw [List.zipIdx_cons, List.map_cons] at ih ⊢
    rw [List.forall_mem_cons, OneMethodBody, ihs (k + 1) fun c hc => ih c (List.mem_cons_of_mem _ hc),
      ih _ List.mem_cons_self]
    rfl

theorem oneMethodMembers_iff (i : WorkItem) (members : List Stmt) (k : ℕ)
    (ih : ∀ c ∈ i.methods members k, SameOrder c ↔ OneMethodItem c) :
    (∀ c ∈ i.methods members k, SameOrder c) ↔ OneMethodMembers members := by
  fun_induction WorkItem.methods i members k with
  | case1 k =>
    rw [OneMethodMembers]
    exact iff_true_intro fun c hc => absurd hc List.not_mem_nil
  | case2 id name params returnType body members k ihm =>
    rw [List.forall_mem_cons, OneMethodMembers, ihm fun c hc => ih c (List.mem_cons_of_mem _ hc), ih _ List.mem_cons_self]
    rfl
  | case3 member members k hmethod ihm =>
    rw [OneMethodMembers.eq_3 _ _ hmethod]
    exact ihm ih

theorem sameOrder_iff_oneMethod (i : WorkItem) : SameOrder i ↔ OneMethodItem i := by
  induction i using leftToRight.induct with
  | h i ih =>
    obtain ⟨path, node, scope, inFunc⟩ := i
    cases node with
    | body stmts => exact (sameOrder_iff rfl).trans (oneMethodBody_iff _ stmts 0 ih)
    | stmt s =>
      cases s with
      | ifStmt condition thn els =>
        cases els with
        | none => exact (sameOrder_iff rfl).trans ((List.forall_mem_singleton).trans (ih _ List.mem_cons_self))
        | some els =>
          refine (sameOrder_iff rfl).trans (List.forall_mem_cons.trans (and_congr ?_ ?_))
          · exact ih _ List.mem_cons_self
          · exact List.forall_mem_singleton.trans (ih _ (List.mem_cons_of_mem _ List.mem_cons_self))
      | whileStmt | forStmt | danger | funcDecl =>
        exact (sameOrder_iff rfl).trans ((List.forall_mem_singleton).trans (ih _ List.mem_cons_self))
      | blockDecl name members =>
        exact (sameOrder_block_iff rfl).trans (and_congr_right fun _ => oneMethodMembers_iff _ members 0 ih)
      | _ => exact (sameOrder_iff rfl).trans (iff_of_true (fun c hc => absurd hc List.not_mem_nil) trivial)

end SourceOrder

section Result

variable {cap : ℕ} {s s' : State} {i : WorkItem}

theorem visited_allocScope {table : Path} {params : List (Ident × ParamType)} (h : s.allocScope cap table params = some s') :
    s'.visited = s.visited := by
  rw [State.allocScope] at h
  split at h
  · cases h
    rfl
  · cases h

theorem visited_members {block : Path} {members : List Stmt} {k : ℕ} (h : State.members cap block members k s = some s') :
    s'.visited = s.visited := by
  induction members generalizing k s with
  | nil =>
    cases h
    rfl
  | cons member rest ih =>
    cases member with
    | varDecl type name init persistent ref => exact ih (s := s.declare block name) h
    | funcDecl id name params returnType body =>
      obtain ⟨s₁, halloc, hrest⟩ := Option.bind_eq_some_iff.mp h
      exact (ih hrest).trans (visited_allocScope (s := s.declare block name) halloc)
    | _ => exact ih h

theorem visited_process (h : process cap i s = some s') :
    s'.visited.map Visit.item = s.visited.map Visit.item ++ [i] := by
  suffices hvisited : s'.visited = s.visited ++ [⟨i, ⟨i.scope.map s.tables, i.inFunc⟩⟩] by
    rw [hvisited, List.map_append]
    rfl
  rw [process] at h
  split at h
  · cases h
    rfl
  · cases h
    rfl
  · exact visited_allocScope h
  · obtain ⟨s₁, halloc, hmembers⟩ := Option.bind_eq_some_iff.mp h
    exact (visited_members hmembers).trans (visited_allocScope halloc)
  · cases h
    rfl
  · cases h
    rfl

theorem visited_foldlM {items : List WorkItem} (h : items.foldlM (fun s i => process cap i s) s = some s') :
    s'.visited.map Visit.item = s.visited.map Visit.item ++ items := by
  induction items generalizing s with
  | nil =>
    cases h
    exact (List.append_nil _).symm
  | cons i items ih =>
    rw [List.foldlM_cons] at h
    obtain ⟨s₁, hfirst, hrest⟩ := Option.bind_eq_some_iff.mp h
    rw [ih hrest, visited_process hfirst, List.append_assoc]
    rfl

/-- Every statement has been processed once, in the order of the recursive walk and with the tables it has there. -/
structure VisitsWhole (cap : ℕ) (program : List Stmt) (s : State) : Prop where
  inOrder : (leftToRight.preorder (root program)).foldlM (fun s i => process cap i s) start = some s
  once : (s.visited.map fun v => v.item.path).Nodup

theorem nodup_leftToRight (i : WorkItem) : ((leftToRight.preorder i).map WorkItem.path).Nodup := by
  refine leftToRight.nodup_preorder (fun i => ?_) i
  obtain ⟨path, node, scope, inFunc⟩ := i
  cases node with
  | body stmts =>
    refine ⟨List.range' 0 stmts.length, List.nodup_range', ?_⟩
    rw [← List.zipIdx_map_snd, List.map_map]
    exact List.map_map
  | stmt s =>
    cases s with
    | ifStmt condition thn els =>
      cases els with
      | none => exact ⟨[0], List.nodup_singleton 0, rfl⟩
      | some els => exact ⟨[0, 1], by decide, rfl⟩
    | whileStmt | forStmt | danger | funcDecl => exact ⟨[0], List.nodup_singleton 0, rfl⟩
    | blockDecl name members =>
      obtain ⟨ks, hnodup, _, hks⟩ := methods_path ⟨path, .stmt (.blockDecl name members), scope, inFunc⟩ members 0
      exact ⟨ks, hnodup, hks⟩
    | _ => exact ⟨[], List.nodup_nil, rfl⟩

theorem resolveStmts_eq (cap : ℕ) (program : List Stmt) :
    resolveStmts cap program =
      (workStack.reach workStackCap 0 (root program)).foldlM (fun s i => process cap i s) start := by
  rw [resolveStmts, run_eq_foldlM, visits_singleton _ _ (by decide)]

theorem complete_and_sameOrder {program : List Stmt} (h : resolveStmts cap program = some s)
    (hwhole : VisitsWhole cap program s) :
    workStack.Complete workStackCap 0 (root program) ∧ SameOrder (root program) := by
  rw [resolveStmts_eq] at h
  have hitems : workStack.reach workStackCap 0 (root program) = leftToRight.preorder (root program) :=
    (visited_foldlM h).symm.trans (visited_foldlM hwhole.inOrder)
  have hcomplete : workStack.reach workStackCap 0 (root program) = workStack.preorder (root program) := by
    refine (workStack.reach_sublist 0 (root program)).eq_of_length ?_
    rw [hitems]
    exact (preorder_perm WorkItem.pushed_perm (root program)).length_eq.symm
  exact ⟨hcomplete, hcomplete.symm.trans hitems⟩

theorem visitsWhole_of_complete {program : List Stmt} (h : resolveStmts cap program = some s)
    (hcomplete : workStack.Complete workStackCap 0 (root program)) (horder : SameOrder (root program)) :
    VisitsWhole cap program s := by
  rw [resolveStmts_eq, hcomplete.trans horder] at h
  refine ⟨h, ?_⟩
  have hvisited : s.visited.map Visit.item = leftToRight.preorder (root program) := visited_foldlM h
  have hpaths := nodup_leftToRight (root program)
  rw [← hvisited, List.map_map] at hpaths
  exact hpaths

/-- The whole program is visited if and only if the work stack has room for it and no Block has two methods. -/
theorem visits_whole_program_iff {program : List Stmt} (h : resolveStmts cap program = some s) :
    VisitsWhole cap program s ↔ RoomBody 0 program ∧ OneMethodBody program := by
  have hroom : workStack.Complete workStackCap 0 (root program) ↔ RoomBody 0 program := roomFor (root program) 0 (by decide)
  have horder : SameOrder (root program) ↔ OneMethodBody program := sameOrder_iff_oneMethod (root program)
  rw [← hroom, ← horder]
  constructor
  · exact complete_and_sameOrder h
  · rintro ⟨hcomplete, hsame⟩
    exact visitsWhole_of_complete h hcomplete hsame

def functionThenCall : List Stmt :=
  [.funcDecl 0 "f" [] .nil [.importStd "math"], .exprStmt (.funcCall "f" [])]

theorem function_and_call_are_visited :
    ∃ s, resolveStmts 256 functionThenCall = some s ∧ VisitsWhole 256 functionThenCall s := by
  have hresolved : (resolveStmts 256 functionThenCall).isSome := by
    rw [resolveStmts_eq]
    simp only [functionThenCall, root, reach, workStack, WorkItem.pushed, WorkItem.parts, List.zipIdx_cons,
      List.zipIdx_nil, List.map_cons, List.map_nil, reachAll, WorkItem.child, WorkItem.funcBody,
      List.length_cons, List.length_nil, workStackCap]
    rfl
  obtain ⟨s, hs⟩ := Option.isSome_iff_exists.mp hresolved
  refine ⟨s, hs, (visits_whole_program_iff hs).mpr ?_⟩
  simp [functionThenCall, RoomBody, RoomStmt, OneMethodBody, OneMethodStmt, workStackCap]

theorem exists_foldlM_process {items : List WorkItem} (h : ∀ i ∈ items, ∀ s, ∃ s', process cap i s = some s') (s : State) :
    ∃ s', items.foldlM (fun s i => process cap i s) s = some s' := by
  induction items generalizing s with
  | nil => exact ⟨s, rfl⟩
  | cons i items ih =>
    obtain ⟨s₁, hfirst⟩ := h i List.mem_cons_self s
    obtain ⟨s', hrest⟩ := ih (fun i hi => h i (List.mem_cons_of_mem _ hi)) s₁
    refine ⟨s', ?_⟩
    rw [List.foldlM_cons, hfirst]
    exact hrest

/-- One statement more than the work stack holds. -/
def manyImports : List Stmt := List.replicate 4097 (.importStd "math")

theorem exists_resolveStmts_manyImports : ∃ s, resolveStmts 256 manyImports = some s := by
  rw [resolveStmts_eq]
  refine exists_foldlM_process (fun i hi s => ?_) start
  have hmem := (workStack.reach_sublist 0 (root manyImports)).subset hi
  rw [preorder_eq, List.mem_cons, List.mem_flatMap] at hmem
  rcases hmem with rfl | ⟨c, hc, hic⟩
  · exact ⟨_, rfl⟩
  · obtain ⟨⟨st, k⟩, hk, rfl⟩ := List.mem_map.mp hc
    have himport : st = .importStd "math" := List.eq_of_mem_replicate (List.fst_mem_of_mem_zipIdx hk)
    subst himport
    rw [preorder_eq] at hic
    obtain rfl := List.mem_singleton.mp hic
    exact ⟨_, rfl⟩

theorem first_of_many_is_dropped : ∃ s, resolveStmts 256 manyImports = some s ∧ ¬ VisitsWhole 256 manyImports s := by
  obtain ⟨s, hs⟩ := exists_resolveStmts_manyImports
  refine ⟨s, hs, fun hwhole => ?_⟩
  have hroom : RoomBody 0 manyImports := (roomFor (root manyImports) 0 (by decide)).mp (complete_and_sameOrder hs hwhole).1
  rw [manyImports, List.replicate_succ, RoomBody, List.length_replicate] at hroom
  exact absurd hroom.1 (by decide)

end Result

end Fluxa.ResolverWalk
