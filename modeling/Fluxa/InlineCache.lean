import Fluxa.Base.Along
import Mathlib.Tactic.Common

/-! The inline caches of compiled code. An instruction on a Block field or method names its owner by a constant
of the chunk, and the first access replaces the name in the constant by the instance it stands for. Chunks of
function bodies are kept on the tree for as long as it exists, chunks of loops until the loop ends. A run is a
sequence of events, in any order: instances are created in two steps, since the old one is removed before the
initialisers of the new one run and the new one is registered after them. An instance is the number of its
allocation. -/

namespace Fluxa.InlineCache

abbrev Name := String

/-- `inst->name` has 64 bytes, one of them for the terminator. -/
def storedName (n : Name) : Name := String.ofList (n.toList.take 63)

/-- An owner constant: the name that was compiled in, or the instance that replaced it. `origin` is for the
statements only, the source has no record of the name any more. -/
inductive Const where
  | name (n : Name)
  | ptr (origin : Name) (inst : ℕ)
deriving DecidableEq

namespace Const

/-- The name that an instance was cached for. -/
def origin? : Const → Option Name
  | .ptr origin _ => some origin
  | .name _ => none

def name? : Const → Option Name
  | .ptr _ _ => none
  | .name n => some n

end Const

/-- `registry` is `g_block_instances` with the latest entry in front, which is the one that is found, and
`scope` has the instances among the values of `rt->scope`. -/
structure State where
  registry : List (Name × ℕ)
  nextInst : ℕ
  scope : List (Name × ℕ)
  chunks : List (List Const)
deriving DecidableEq

def State.init : State := ⟨[], 0, [], []⟩

/-- Fields are accessed by `OP_GET_FIELD` and `OP_SET_FIELD`, methods by `OP_CALL_METHOD`, which first looks for
a library of that name. -/
inductive Access where
  | field | method
deriving DecidableEq

inductive Event where
  /-- The first half of `block_inst_create`, for a Block or a typeof declaration. -/
  | createBegin (n : Name)
  /-- The second half, and the value in the scope. -/
  | createEnd (n : Name)
  /-- `block_registry_free`: a run ends, or the dry run of a handover. -/
  | registryFree
  /-- A loop or a function body is compiled, with these owners. -/
  | compile (owners : List Name)
  /-- `chunk_free` at the end of a loop. -/
  | chunkFree (k : ℕ)
  /-- A call or a return changes the scope, or a variable is set. -/
  | rescope (scope : List (Name × ℕ))
  /-- An access with the constant `i` of the chunk `k`. -/
  | access (kind : Access) (k i : ℕ)
deriving DecidableEq

namespace State

def blockInstFind (s : State) (n : Name) : Option ℕ := s.registry.lookup n

def resolveInstance (s : State) (n : Name) : Option ℕ :=
  match s.blockInstFind n with
  | some i => some i
  | none => s.scope.lookup n

def const? (s : State) (k i : ℕ) : Option Const := s.chunks[k]?.bind (·[i]?)

def setConst (s : State) (k i : ℕ) (x : Const) : State :=
  { s with chunks := s.chunks.set k ((s.chunks[k]?.getD []).set i x) }

/-- `resolve_inst_cached`. -/
def resolveInstCached (s : State) (k i : ℕ) : Option ℕ × State :=
  match s.const? k i with
  | some (.ptr _ inst) => (some inst, s)
  | some (.name n) =>
    match s.resolveInstance n with
    | some inst => (some inst, s.setConst k i (.ptr n inst))
    | none => (none, s)
  | none => (none, s)

/-- The owner part of `vm_get_field_callback`, `vm_set_field_callback` and `vm_call_callback`. -/
def accessOwner (isLib : Name → Bool) (s : State) (kind : Access) (k i : ℕ) : Option ℕ × State :=
  match kind, s.const? k i with
  | .method, some (.name n) => if isLib n then (none, s) else s.resolveInstCached k i
  | _, _ => s.resolveInstCached k i

def createBegin (s : State) (n : Name) : State :=
  { s with registry := s.registry.eraseP fun e => e.1 == n }

def createEnd (s : State) (n : Name) : State :=
  { s with
    registry := (storedName n, s.nextInst) :: s.registry
    nextInst := s.nextInst + 1
    scope := (n, s.nextInst) :: s.scope }

end State

section Runs

variable (isLib : Name → Bool)

def step (s : State) : Event → State
  | .createBegin n => s.createBegin n
  | .createEnd n => s.createEnd n
  | .registryFree => { s with registry := [] }
  | .compile owners => { s with chunks := s.chunks ++ [owners.map .name] }
  | .chunkFree k => { s with chunks := s.chunks.set k [] }
  | .rescope scope => { s with scope := scope }
  | .access kind k i => (s.accessOwner isLib kind k i).2

/-- An access through a cached instance is an access to the instance that is registered under the name. -/
def AccessCurrent (s : State) : Event → Prop
  | .access _ k i => ∀ origin inst, s.const? k i = some (.ptr origin inst) → s.blockInstFind origin = some inst
  | _ => True

/-- No chunk has an instance for the name. -/
def Uncached (s : State) (n : Name) : Prop :=
  ∀ chunk ∈ s.chunks, ∀ x ∈ chunk, x.origin? ≠ some n

instance (s : State) (n : Name) : Decidable (Uncached s n) :=
  inferInstanceAs (Decidable (∀ chunk ∈ s.chunks, ∀ x ∈ chunk, x.origin? ≠ some n))

/-- A name that a chunk resolves for the first time is registered, or stands for nothing. -/
def ResolvesRegistered (s : State) (k i : ℕ) : Prop :=
  ∀ n ∈ (s.const? k i).bind Const.name?, s.blockInstFind n = none → s.scope.lookup n = none

/-- What keeps the caches coherent: instances are created and removed only under names that no chunk has
resolved. -/
def Keeps (s : State) : Event → Prop
  | .createBegin n => Uncached s n
  | .createEnd n => Uncached s (storedName n)
  | .registryFree => ∀ chunk ∈ s.chunks, ∀ x ∈ chunk, x.origin? = none
  | .access _ k i => ResolvesRegistered s k i
  | .compile _ | .chunkFree _ | .rescope _ => True

instance (s : State) : DecidablePred (Keeps s)
  | .createBegin n => inferInstanceAs (Decidable (Uncached s n))
  | .createEnd n => inferInstanceAs (Decidable (Uncached s (storedName n)))
  | .registryFree => inferInstanceAs (Decidable (∀ chunk ∈ s.chunks, ∀ x ∈ chunk, x.origin? = none))
  | .access _ k i =>
    inferInstanceAs (Decidable (∀ n ∈ (s.const? k i).bind Const.name?,
      s.blockInstFind n = none → s.scope.lookup n = none))
  | .compile _ | .chunkFree _ | .rescope _ => inferInstanceAs (Decidable True)

/-- Every cached instance is the registered one. -/
def Coherent (s : State) : Prop :=
  ∀ chunk ∈ s.chunks, ∀ origin inst, Const.ptr origin inst ∈ chunk → s.blockInstFind origin = some inst

variable {isLib}

variable {s : State} {n : Name} {k i : ℕ}

theorem lookup_eraseP_of_ne {m : Name} (h : m ≠ n) (l : List (Name × ℕ)) :
    (l.eraseP fun e => e.1 == n).lookup m = l.lookup m := by
  induction l with
  | nil => rfl
  | cons e l ih =>
    obtain ⟨x, i⟩ := e
    by_cases hx : x = n
    · subst hx
      simp [List.lookup_cons, beq_false_of_ne h]
    · simp [List.lookup_cons, hx, ih]

theorem Coherent.of_const (h : Coherent s) {origin : Name} {inst : ℕ}
    (hx : s.const? k i = some (.ptr origin inst)) : s.blockInstFind origin = some inst := by
  obtain ⟨chunk, hchunk, hx⟩ := Option.bind_eq_some_iff.mp hx
  exact h chunk (List.mem_of_getElem? hchunk) origin inst (List.mem_of_getElem? hx)

/-- A registry that is the same for the names in use keeps the caches coherent. -/
theorem Coherent.of_registry {t : State} (h : Coherent s) (hchunks : t.chunks = s.chunks)
    (hfind : ∀ chunk ∈ s.chunks, ∀ origin inst, Const.ptr origin inst ∈ chunk →
      t.blockInstFind origin = s.blockInstFind origin) : Coherent t := by
  intro chunk hchunk origin inst hx
  rw [hchunks] at hchunk
  rw [hfind chunk hchunk origin inst hx]
  exact h chunk hchunk origin inst hx

theorem Coherent.createBegin (h : Coherent s) (hn : Uncached s n) : Coherent (s.createBegin n) := by
  refine h.of_registry rfl ?_
  intro chunk hchunk origin inst hx
  have hne : origin ≠ n := by
    rintro rfl
    exact hn chunk hchunk _ hx rfl
  exact lookup_eraseP_of_ne hne s.registry

theorem Coherent.createEnd (h : Coherent s) (hn : Uncached s (storedName n)) : Coherent (s.createEnd n) := by
  refine h.of_registry rfl ?_
  intro chunk hchunk origin inst hx
  have hne : origin ≠ storedName n := by
    rintro rfl
    exact hn chunk hchunk _ hx rfl
  simp [State.blockInstFind, State.createEnd, List.lookup_cons, beq_false_of_ne hne]

theorem Coherent.registryFree (hn : ∀ chunk ∈ s.chunks, ∀ x ∈ chunk, x.origin? = none) :
    Coherent { s with registry := [] } := by
  intro chunk hchunk origin inst hx
  exact nomatch hn chunk hchunk _ hx

theorem Coherent.compile (h : Coherent s) (owners : List Name) :
    Coherent { s with chunks := s.chunks ++ [owners.map .name] } := by
  intro chunk hchunk origin inst hx
  rcases List.mem_append.mp hchunk with hchunk | hchunk
  · exact h chunk hchunk origin inst hx
  · rw [List.mem_singleton.mp hchunk] at hx
    simp at hx

theorem Coherent.chunkFree (h : Coherent s) (k : ℕ) : Coherent { s with chunks := s.chunks.set k [] } := by
  intro chunk hchunk origin inst hx
  rcases List.mem_or_eq_of_mem_set hchunk with hchunk | rfl
  · exact h chunk hchunk origin inst hx
  · exact absurd hx List.not_mem_nil

theorem Coherent.setConst (h : Coherent s) {inst : ℕ}
    (hk : s.const? k i = some (.name n)) (hfind : s.blockInstFind n = some inst) :
    Coherent (s.setConst k i (.ptr n inst)) := by
  obtain ⟨old, hold, -⟩ := Option.bind_eq_some_iff.mp hk
  intro chunk hchunk origin inst' hx
  rcases List.mem_or_eq_of_mem_set hchunk with hchunk | rfl
  · exact h chunk hchunk origin inst' hx
  · rw [hold, Option.getD_some] at hx
    rcases List.mem_or_eq_of_mem_set hx with hx | hx
    · exact h old (List.mem_of_getElem? hold) origin inst' hx
    · obtain ⟨rfl, rfl⟩ := Const.ptr.inj hx
      exact hfind

theorem Coherent.resolveInstCached (h : Coherent s) (hk : ResolvesRegistered s k i) :
    Coherent (s.resolveInstCached k i).2 := by
  unfold State.resolveInstCached
  cases hx : s.const? k i with
  | none => exact h
  | some x =>
    cases x with
    | ptr origin inst => exact h
    | name n =>
      dsimp only
      cases hr : s.resolveInstance n with
      | none => exact h
      | some inst =>
        -- the instance comes from the registry, since a value of the scope would not do
        refine h.setConst hx ?_
        cases hfind : s.blockInstFind n with
        | some i' =>
          rw [State.resolveInstance, hfind] at hr
          exact hr
        | none =>
          rw [State.resolveInstance, hfind] at hr
          dsimp only at hr
          rw [hk n (by rw [hx]; rfl) hfind] at hr
          exact nomatch hr

theorem Coherent.access (h : Coherent s) {kind : Access} (hk : ResolvesRegistered s k i) :
    Coherent (s.accessOwner isLib kind k i).2 := by
  unfold State.accessOwner
  split
  · split
    · exact h
    · exact h.resolveInstCached hk
  · exact h.resolveInstCached hk

theorem Coherent.step {e : Event} (h : Coherent s) (he : Keeps s e) : Coherent (step isLib s e) := by
  cases e with
  | createBegin n => exact h.createBegin he
  | createEnd n => exact h.createEnd he
  | registryFree => exact Coherent.registryFree he
  | compile owners => exact h.compile owners
  | chunkFree k => exact h.chunkFree k
  | rescope scope => exact h
  | access kind k i => exact h.access he

/-- **A run all of whose events keep the caches coherent accesses only registered instances.** -/
theorem cached_access_current (isLib : Name → Bool) (es : List Event)
    (h : Along.All (step isLib) Keeps State.init es) : Along.All (step isLib) AccessCurrent State.init es := by
  refine Along.All.imp (I := Coherent) (fun hs he => hs.step he) ?_ ?_ h
  · intro s e hs _
    cases e with
    | access kind k i => exact fun origin inst hx => hs.of_const hx
    | _ => trivial
  · intro chunk hchunk
    exact absurd hchunk List.not_mem_nil

/-- `Block A {…}  Block b typeof A`. -/
def twoBlocks : List Event := [.createBegin "A", .createEnd "A", .createBegin "b", .createEnd "b"]

/-- A loop on the field `b.x`, then `b` is declared again, and a second loop. -/
def loopsApart : List Event :=
  twoBlocks ++ [.compile ["b"], .access .field 0 0, .access .field 0 0, .chunkFree 0, .createBegin "b",
    .createEnd "b", .compile ["b"], .access .field 1 0, .access .field 1 0]

theorem loops_apart_current : Along.All (step fun _ => false) AccessCurrent State.init loopsApart :=
  cached_access_current (fun _ => false) loopsApart (by decide +kernel)

/-- `fn get() int { return b.x }` is called, then `b` is declared again, and `get` is called once more. -/
def calledAgain : List Event :=
  twoBlocks ++ [.compile ["b"], .access .field 0 0, .createBegin "b", .createEnd "b", .access .field 0 0]

/-- The dry run of a handover calls `get`; then the same tree is run from the start. -/
def runAgain : List Event :=
  twoBlocks ++ [.compile ["b"], .access .field 0 0, .registryFree] ++ twoBlocks ++ [.access .field 0 0]

/-- In both runs the last access is to the instance 1, which has been freed. -/
theorem stale_instance_is_accessed :
    ¬ Along.All (step fun _ => false) AccessCurrent State.init calledAgain ∧
      ¬ Along.All (step fun _ => false) AccessCurrent State.init runAgain := by
  constructor
  · rintro ⟨-, -, -, -, -, -, -, -, h, -⟩
    exact absurd (h "b" 1 (by decide)) (by decide)
  · rintro ⟨-, -, -, -, -, -, -, -, -, -, -, h, -⟩
    exact absurd (h "b" 1 (by decide)) (by decide)

end Runs

end Fluxa.InlineCache
