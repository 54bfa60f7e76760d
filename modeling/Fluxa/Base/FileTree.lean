import Mathlib.Data.List.Basic
import Mathlib.Data.List.DropRight

/-! Directory trees with symbolic links and the canonical names of their files. A canonical name is a list of names
that leads from the root through directories only, to something that is not a link. -/

namespace FileTree

abbrev Bytes := List UInt8

/-- The byte `/`. -/
def slash : UInt8 := 47

def dot : Bytes := [46]

def dotdot : Bytes := [46, 46]

/-- The name of a directory entry. -/
@[ext] structure Name where
  bytes : Bytes
  ne_nil : bytes ≠ []
  slash_not_mem : slash ∉ bytes
  null_not_mem : 0 ∉ bytes
  ne_dot : bytes ≠ dot
  ne_dotdot : bytes ≠ dotdot
  deriving DecidableEq

/-- What a tree is made of; `other` is for devices, pipes and sockets. -/
inductive Node where
  | file (contents : Bytes) (readable : Bool)
  | dir (entries : List (Name × Node))
  | link (target : Bytes)
  | other

namespace Node

def isDir : Node → Bool
  | .dir _ => true
  | _ => false

def isLink : Node → Bool
  | .link _ => true
  | _ => false

def child : Node → Bytes → Option (Name × Node)
  | .dir entries, c => entries.find? fun e => e.1.bytes == c
  | _, _ => none

/-- What lies below a node under a list of names. No link is followed. -/
def descend : Node → List Name → Option Node
  | n, [] => some n
  | n, c :: cs => (n.child c.bytes).bind fun e => descend e.2 cs

variable {n m : Node}

variable {c : Bytes} {e : Name × Node}

theorem child_name (h : n.child c = some e) : e.1.bytes = c := by
  cases n with
  | dir entries => simpa using List.find?_some h
  | file | link | other => cases h

theorem isDir_of_child (h : n.child c = some e) : n.isDir := by
  cases n with
  | dir entries => rfl
  | file | link | other => cases h

theorem descend_append (n : Node) (cs ds : List Name) : n.descend (cs ++ ds) = (n.descend cs).bind fun m => m.descend ds := by
  induction cs generalizing n with
  | nil => rfl
  | cons c cs ih =>
    simp only [List.cons_append, descend]
    cases n.child c.bytes with
    | none => rfl
    | some e => exact ih e.2

theorem descend_cons {c : Name} {cs : List Name} (h : n.descend (c :: cs) = some m) :
    ∃ e, n.child c.bytes = some e ∧ e.1 = c ∧ e.2.descend cs = some m := by
  obtain ⟨e, he, hm⟩ := Option.bind_eq_some_iff.mp h
  exact ⟨e, he, Name.ext (child_name he), hm⟩

theorem descend_snoc {here : List Name} (hn : n.descend here = some m)
    (he : m.child c = some e) : n.descend (here ++ [e.1]) = some e.2 := by
  have h : m.child e.1.bytes = some e := (child_name he).symm ▸ he
  simp only [descend_append, hn, descend, h, Option.bind_some]

/-- What lies above a directory is a directory. -/
theorem descend_dropLast {here : List Name} (hd : n.isDir) (h : n.descend here = some m) :
    ∃ d, n.descend here.dropLast = some d ∧ d.isDir := by
  rcases List.eq_nil_or_concat here with rfl | ⟨init, c, rfl⟩
  · exact ⟨n, rfl, hd⟩
  · rw [List.concat_eq_append] at h ⊢
    rw [List.dropLast_concat]
    rw [descend_append] at h
    obtain ⟨d, hi, hc⟩ := Option.bind_eq_some_iff.mp h
    obtain ⟨e, he, -⟩ := descend_cons hc
    exact ⟨d, hi, isDir_of_child he⟩

end Node

/-- What lies between the separators. -/
def components (path : Bytes) : List Bytes := path.splitOn slash

/-- Where a path that starts in `here` begins. -/
def start (here : List Name) (path : Bytes) : List Name := if path.head? = some slash then [] else here

section Walk

variable (root : Node) (follow : List Name → List Bytes → Option (List Name))

/-- A walk along components from the directory `here`. At a link, `follow` goes on with the components of its target
before the rest. -/
def walk : List Name → List Bytes → Option (List Name)
  | here, [] => some here
  | here, c :: rest =>
    if c = [] ∨ c = dot then walk here rest
    else if c = dotdot then walk here.dropLast rest
    else match (root.descend here).bind fun d => d.child c with
      | none => none
      | some (_, .link target) =>
        if target = [] then none else follow (start here target) (components target ++ rest)
      | some (name, .dir _) => walk (here ++ [name]) rest
      | some (name, _) => if rest = [] then some (here ++ [name]) else none

/-- A walk that gives up after a number of links. -/
def resolve : ℕ → List Name → List Bytes → Option (List Name)
  | 0 => walk root fun _ _ => none
  | links + 1 => walk root (resolve links)

end Walk

/-- Names through directories, to something that is not a link. -/
def Canonical (root : Node) (names : List Name) : Prop := ∃ n, root.descend names = some n ∧ n.isLink = false

def IsDirAt (root : Node) (names : List Name) : Prop := ∃ d, root.descend names = some d ∧ d.isDir

section Resolve

variable {root : Node} {names : List Name}

theorem IsDirAt.canonical (h : IsDirAt root names) : Canonical root names := by
  obtain ⟨d, hd, hdir⟩ := h
  refine ⟨d, hd, ?_⟩
  cases d with
  | dir | file | other => rfl
  | link => cases hdir

theorem start_isDir {here : List Name} (hroot : root.isDir) (h : IsDirAt root here) (path : Bytes) :
    IsDirAt root (start here path) := by
  unfold start
  split
  · exact ⟨root, rfl, hroot⟩
  · exact h

theorem walk_canonical {follow : List Name → List Bytes → Option (List Name)} (hroot : root.isDir)
    (hfollow : ∀ here cs names, IsDirAt root here → follow here cs = some names → Canonical root names) :
    ∀ cs here, IsDirAt root here → walk root follow here cs = some names → Canonical root names := by
  intro cs
  induction cs with
  | nil =>
    intro here hdir h
    cases h
    exact hdir.canonical
  | cons c rest ih =>
    intro here hdir h
    rw [walk] at h
    obtain ⟨d, hd, hdd⟩ := hdir
    by_cases hskip : c = [] ∨ c = dot
    · rw [if_pos hskip] at h
      exact ih here ⟨d, hd, hdd⟩ h
    rw [if_neg hskip] at h
    by_cases hup : c = dotdot
    · rw [if_pos hup] at h
      exact ih here.dropLast (Node.descend_dropLast hroot hd) h
    rw [if_neg hup, hd, Option.bind_some] at h
    split at h
    · cases h
    · obtain ⟨-, h⟩ := Option.ite_none_left_eq_some.mp h
      exact hfollow _ _ names (start_isDir hroot ⟨d, hd, hdd⟩ _) h
    · rename_i name entries hc
      exact ih _ ⟨_, Node.descend_snoc hd hc, rfl⟩ h
    · rename_i name node hlink hndir hc
      obtain ⟨-, h⟩ := Option.ite_none_right_eq_some.mp h
      cases h
      refine ⟨_, Node.descend_snoc hd hc, ?_⟩
      cases node with
      | link target => exact (hlink target rfl).elim
      | dir | file | other => rfl

theorem resolve_canonical (hroot : root.isDir) (links : ℕ) :
    ∀ here cs names, IsDirAt root here → resolve root links here cs = some names → Canonical root names := by
  induction links with
  | zero =>
    intro here cs names hdir h
    exact walk_canonical hroot (fun _ _ _ _ h => (Option.some_ne_none _ h.symm).elim) cs here hdir h
  | succ links ih =>
    intro here cs names hdir h
    exact walk_canonical hroot ih cs here hdir h

end Resolve

/-! Spelling of canonical names. -/

/-- The bytes of names from the root on, with a separator before each. -/
def spellAll (names : List Name) : Bytes := names.flatMap fun c => slash :: c.bytes

/-- A canonical name as a string. -/
def spell (names : List Name) : Bytes := if names = [] then [slash] else spellAll names

theorem components_spellAll (c : Name) (cs : List Name) :
    components (c.bytes ++ spellAll cs) = c.bytes :: cs.map Name.bytes := by
  induction cs generalizing c with
  | nil =>
    rw [spellAll, List.flatMap_nil, List.append_nil]
    exact List.splitOn_eq_singleton c.slash_not_mem
  | cons d ds ih =>
    have h : c.bytes ++ spellAll (d :: ds) = c.bytes ++ slash :: (d.bytes ++ spellAll ds) := rfl
    rw [h, components, List.splitOn_append_cons_self_of_not_mem c.slash_not_mem, ← components, ih]
    rfl

/-- A walk along a canonical name stays on it. -/
theorem walk_canonical_name {root n m : Node} {follow : List Name → List Bytes → Option (List Name)}
    {here names : List Name} (hn : root.descend here = some n) (hm : n.descend names = some m) (hl : m.isLink = false) :
    walk root follow here (names.map Name.bytes) = some (here ++ names) := by
  induction names generalizing here n with
  | nil => simp [walk]
  | cons c cs ih =>
    obtain ⟨e, he, rfl, hcs⟩ := Node.descend_cons hm
    rw [List.map_cons, walk, if_neg (not_or.mpr ⟨e.1.ne_nil, e.1.ne_dot⟩), if_neg e.1.ne_dotdot, hn, Option.bind_some, he]
    have hnext := Node.descend_snoc hn he
    obtain ⟨name, node⟩ := e
    cases node with
    | dir entries =>
      have h := ih hnext hcs
      rw [List.append_assoc] at h
      exact h
    | link target =>
      cases cs with
      | nil =>
        cases hcs
        cases hl
      | cons d ds => cases hcs
    | file | other =>
      cases cs with
      | nil => rfl
      | cons d ds => cases hcs

theorem resolve_spell {root : Node} {names : List Name} (h : Canonical root names) (links : ℕ) :
    resolve root links [] (components (spell names)) = some names := by
  obtain ⟨n, hn, hl⟩ := h
  have hwalk (follow : List Name → List Bytes → Option (List Name)) :
      walk root follow [] (components (spell names)) = some names := by
    cases names with
    | nil => rfl
    | cons c cs =>
      have hc : components (spell (c :: cs)) = [] :: (c :: cs).map Name.bytes := by
        have h : spell (c :: cs) = [] ++ slash :: (c.bytes ++ spellAll cs) := rfl
        rw [h, components, List.splitOn_append_cons_self_of_not_mem (List.not_mem_nil), ← components,
          components_spellAll, List.map_cons]
      rw [hc, walk, if_pos (.inl rfl)]
      exact walk_canonical_name rfl hn hl
  cases links with
  | zero => exact hwalk _
  | succ links => exact hwalk _

theorem spellAll_head (cs : List Name) : spellAll cs = [] ∨ (spellAll cs).head? = some slash := by
  cases cs with
  | nil => exact .inl rfl
  | cons c cs => exact .inr rfl

/-- A name ends where the next separator is. -/
theorem takeWhile_name (c : Name) {tail : Bytes} (ht : tail = [] ∨ tail.head? = some slash) :
    (c.bytes ++ tail).takeWhile (· != slash) = c.bytes := by
  have hc : ∀ b ∈ c.bytes, (b != slash) = true := by
    intro b hb
    exact bne_iff_ne.mpr fun h => c.slash_not_mem (h ▸ hb)
  rw [List.takeWhile_append_of_pos hc]
  rcases ht with rfl | ht
  · simp
  · obtain ⟨t, rfl⟩ := List.head?_eq_some_iff.mp ht
    simp

theorem prefix_of_spellAll {cs rs : List Name} (tail : Bytes) (h : spellAll rs = spellAll cs ++ tail)
    (ht : tail = [] ∨ tail.head? = some slash) : cs <+: rs := by
  induction cs generalizing rs with
  | nil => exact List.nil_prefix
  | cons c cs ih =>
    cases rs with
    | nil => cases h
    | cons r rs =>
      have h : r.bytes ++ spellAll rs = c.bytes ++ (spellAll cs ++ tail) := by
        simpa [spellAll] using h
      have hboundary : spellAll cs ++ tail = [] ∨ (spellAll cs ++ tail).head? = some slash := by
        cases cs with
        | nil => exact ht
        | cons d ds => exact .inr rfl
      have hname : r = c := by
        apply Name.ext
        rw [← takeWhile_name r (spellAll_head rs), h, takeWhile_name c hboundary]
      subst hname
      exact List.cons_prefix_cons.mpr ⟨rfl, ih (List.append_cancel_left h)⟩

/-- A tree with a working directory, and how many links a resolution follows. -/
structure Disk where
  root : Node
  root_isDir : root.isDir
  cwd : List Name
  maxLinks : ℕ

namespace Disk

variable (disk : Disk)

def isDirAt (names : List Name) : Bool := ((disk.root.descend names).map Node.isDir).getD false

/-- The canonical name of a path. -/
def realPath (path : Bytes) : Option (List Name) :=
  let here := start disk.cwd path
  if path = [] ∨ disk.isDirAt here = false then none
  else resolve disk.root disk.maxLinks here (components path)

/-- What a path leads to. -/
def stat (path : Bytes) : Option Node := (disk.realPath path).bind disk.root.descend

variable {disk} {path : Bytes} {names : List Name}

theorem isDirAt_iff : disk.isDirAt names = true ↔ IsDirAt disk.root names := by
  unfold isDirAt IsDirAt
  cases disk.root.descend names <;> simp

theorem realPath_canonical (h : disk.realPath path = some names) : Canonical disk.root names := by
  obtain ⟨hstart, h⟩ := Option.ite_none_left_eq_some.mp h
  obtain ⟨-, hdir⟩ := not_or.mp hstart
  exact resolve_canonical disk.root_isDir _ _ _ _ (isDirAt_iff.mp (Bool.not_eq_false _ ▸ hdir)) h

theorem realPath_spell (h : Canonical disk.root names) : disk.realPath (spell names) = some names := by
  have hhead : (spell names).head? = some slash := by
    cases names <;> rfl
  have hstart : start disk.cwd (spell names) = [] := if_pos hhead
  have hroot : disk.isDirAt [] = true := isDirAt_iff.mpr ⟨disk.root, rfl, disk.root_isDir⟩
  unfold realPath
  rw [hstart]
  refine (if_neg ?_).trans (resolve_spell h _)
  rintro (h | h)
  · rw [h] at hhead
    cases hhead
  · rw [hroot] at h
    cases h

theorem stat_spell (h : Canonical disk.root names) : disk.stat (spell names) = disk.root.descend names := by
  rw [stat, realPath_spell h, Option.bind_some]

/-- The working directory. -/
theorem realPath_dot (h : disk.realPath dot = some names) : IsDirAt disk.root names := by
  obtain ⟨hstart, h⟩ := Option.ite_none_left_eq_some.mp h
  obtain ⟨-, hdir⟩ := not_or.mp hstart
  have hcwd : IsDirAt disk.root disk.cwd := isDirAt_iff.mp (Bool.not_eq_false _ ▸ hdir)
  have hnames : resolve disk.root disk.maxLinks disk.cwd (components dot) = some disk.cwd := by
    cases disk.maxLinks <;> rfl
  have h : resolve disk.root disk.maxLinks disk.cwd (components dot) = some names := h
  rw [hnames] at h
  cases h
  exact hcwd

end Disk

end FileTree
