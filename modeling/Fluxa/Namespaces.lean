import Fluxa.Parser
import Fluxa.Vm

/-! Modules under a namespace. A module is parsed with a prefix for the names it declares, and the prefix is put on while
the names are read: on a reference if its name is in the list of declarations at that point. What should come out is the
module with its top-level declarations renamed and every reference bound to what it was bound to. -/

namespace Fluxa

open Parse

/-- What a name stands for at a place: a declaration of the function or Block around it, a builtin or a library, a
top-level declaration of the module, or something that the module does not declare. -/
inductive Binding where
  | near (x : Ident)
  | reserved (x : Ident)
  | top (x : Ident)
  | outside (x : Ident)
  deriving DecidableEq, Repr

def Binding.renamed (ns : Ident) : Binding → Binding
  | .top x => .top (mangle ns x)
  | b => b

def Use.isReference : Use → Bool
  | .identifier | .call | .target | .freed | .owner | .receiver | .element | .indexed | .source | .origin => true
  | .qualified | .varDecl | .arrDecl | .funcDecl | .blockDecl | .instDecl | .field => false

namespace Occ

section Binding

variable (libs tops : List Ident) (o : Occ)

/-- A declaration outside of the functions; the fields of a Block belong to the Block. -/
def declaresTop : Bool :=
  match o.use with
  | .varDecl | .arrDecl | .funcDecl | .blockDecl | .instDecl => !o.inFn
  | _ => false

/-- A call looks for a builtin first, and a method's owner may be a library that is switched on. -/
def reserved (x : Ident) : Bool :=
  match o.use with
  | .call => builtinIs x
  | .receiver => x ∈ libs
  | _ => false

/-- What the name `x` stands for at this place if `tops` are the module's declarations. -/
def binds (x : Ident) : Binding :=
  if o.reserved libs x then .reserved x
  else if o.scope.hides o.use x then .near x
  else if x ∈ tops then .top x
  else .outside x

def denotesTop : Bool := o.use.isReference && (o.binds libs tops o.name == .top o.name)

/-- The name with exactly the declarations of the module, and the references to them, renamed. -/
def proper (ns : Ident) : Ident :=
  if o.declaresTop || o.denotesTop libs tops then mangle ns o.name else o.name

/-- A place where the parser puts the prefix exactly if it belongs there. -/
def Consistent : Prop :=
  match o.use with
  | .identifier | .call | .target | .freed | .owner | .receiver =>
    isModuleDecl o.declared o.name ↔ o.binds libs tops o.name = .top o.name
  | .element | .indexed | .source | .origin => o.binds libs tops o.name ≠ .top o.name
  | .qualified => ¬ isModuleDecl o.declared o.name
  | .varDecl => True
  | .arrDecl | .instDecl | .field => o.inFn
  | .funcDecl | .blockDecl => ¬ o.inFn

instance : Decidable (o.Consistent libs tops) := by
  unfold Consistent
  split <;> infer_instance

theorem mangles_eq_iff : (o.mangles = (o.declaresTop || o.denotesTop libs tops)) ↔ o.Consistent libs tops := by
  rw [Bool.eq_iff_iff]
  obtain ⟨use, x, declared, inFn, sc⟩ := o
  cases use <;> simp [mangles, declaresTop, denotesTop, Consistent, Use.isReference]

/-- The name is spelled as it should be if the prefix is where it belongs, or if it changes nothing. -/
theorem spelled_eq_proper_iff {ns : Ident} (hns : ns ≠ "") :
    o.spelled ns = o.proper libs tops ns ↔ o.Consistent libs tops ∨ mangle ns o.name = o.name := by
  rw [← o.mangles_eq_iff libs tops]
  unfold spelled proper
  generalize (o.declaresTop || o.denotesTop libs tops) = renamed
  cases o.mangles <;> cases renamed <;> simp [hns, eq_comm]

/-- Under its proper name a reference is bound as before, unless the prefixed name of what it refers to is taken at
that place, or it refers to nothing in the module and has the name that one of the declarations gets. -/
theorem binds_proper_iff (ns : Ident) (href : o.use.isReference) :
    o.binds libs (tops.map (mangle ns)) (o.proper libs tops ns) = (o.binds libs tops o.name).renamed ns ↔
      (o.binds libs tops o.name = .top o.name →
        o.reserved libs (mangle ns o.name) = false ∧ o.scope.hides o.use (mangle ns o.name) = false) ∧
      (o.binds libs tops o.name = .outside o.name → ∀ x ∈ tops, mangle ns x ≠ o.name) := by
  have hdecl : o.declaresTop = false := by
    obtain ⟨use, x, declared, inFn, sc⟩ := o
    cases use <;> simp_all [declaresTop, Use.isReference]
  have hproper : o.proper libs tops ns =
      if o.binds libs tops o.name = .top o.name then mangle ns o.name else o.name := by
    simp [proper, hdecl, denotesTop, href]
  rw [hproper]
  by_cases hres : o.reserved libs o.name
  · simp [binds, hres, Binding.renamed]
  by_cases hnear : o.scope.hides o.use o.name
  · simp [binds, hres, hnear, Binding.renamed]
  by_cases htop : o.name ∈ tops
  · have hmem : ∃ x ∈ tops, mangle ns x = mangle ns o.name := ⟨_, htop, rfl⟩
    by_cases hr : o.reserved libs (mangle ns o.name) <;> by_cases hh : o.scope.hides o.use (mangle ns o.name) <;>
      simp [binds, hres, hnear, htop, Binding.renamed, hr, hh, hmem]
  · simp [binds, hres, hnear, htop, Binding.renamed]

end Binding

end Occ

section Modules

def topNames {α : Type} (m : Code α) : List Ident := (m.names.filter Occ.declaresTop).map Occ.name

variable (libs : List Ident) (ns : Ident) (m : Code (List Stmt))

/-- The tree that is parsed under the namespace is the module with its top-level declarations renamed: the names stay
apart, and every reference is bound to what it was bound to. -/
structure Renamed : Prop where
  tree : m.text (Occ.spelled ns) = m.text fun o => o.proper libs (topNames m) ns
  apart : ∀ x ∈ topNames m, ∀ y ∈ topNames m, mangle ns x = mangle ns y → x = y
  bound : ∀ o ∈ m.names, o.use.isReference →
    o.binds libs ((topNames m).map (mangle ns)) (o.proper libs (topNames m) ns) =
      (o.binds libs (topNames m) o.name).renamed ns

/-- What a module has to keep to. -/
structure Regular : Prop where
  consistent : ∀ o ∈ m.names, o.Consistent libs (topNames m) ∨ mangle ns o.name = o.name
  apart : ∀ x ∈ topNames m, ∀ y ∈ topNames m, cutName 158 x = cutName 158 y → x = y
  untaken : ∀ o ∈ m.names, o.use.isReference → o.binds libs (topNames m) o.name = .top o.name →
    o.reserved libs (mangle ns o.name) = false ∧ o.scope.hides o.use (mangle ns o.name) = false
  unclaimed : ∀ o ∈ m.names, o.use.isReference → o.binds libs (topNames m) o.name = .outside o.name →
    ∀ x ∈ topNames m, mangle ns x ≠ o.name

end Modules

theorem mangle_eq_iff {ns x y : Ident} : mangle ns x = mangle ns y ↔ cutName 158 x = cutName 158 y := by
  simp [mangle]

theorem cutName_eq_empty {n : ℕ} {x : Ident} : cutName (n + 1) x = "" ↔ x = "" := by
  simp [cutName]

section Own

variable (fuel cap : ℕ) (imported registry : List Ident) (ns : Ident) (source : List Token)

/-- The module does not put its own namespace in front of a dot, unless others have made it known, and there is room for
the namespaces that it imports. -/
def SparesOwn : Prop :=
  (imported.take cap).length < cap →
    (parseSource fuel registry source).Spares cap (cutName 63 ns) (imported.take cap)

instance : Decidable (SparesOwn fuel cap imported registry ns source) := by
  unfold SparesOwn
  infer_instance

variable {fuel cap imported registry ns source}

/-- Then it is read as it is without a namespace. -/
theorem parseModule_eq (h : SparesOwn fuel cap imported registry ns source) :
    parseModule fuel cap imported registry ns source = parseProgram fuel cap imported registry source := by
  rw [parseModule, parseProgram]
  split
  · next hroom =>
    rw [Asking.answer_of_spares (h hroom) (fun x => by simp [or_comm]) (by simp)]
  · rfl

end Own

/-- **A module under a namespace.** A module that spares its own namespace is the program that it is without a namespace,
and it comes out with its top-level declarations renamed exactly if it is regular. -/
theorem namespacing_renames {fuel cap : ℕ} {imported registry : List Ident} {ns : Ident} {source : List Token}
    {m : Code (List Stmt)} (h : parseModule fuel cap imported registry ns source = .ok m) (hns : ns ≠ "")
    (hown : SparesOwn fuel cap imported registry ns source) (libs : List Ident) :
    parseProgram fuel cap imported registry source = .ok m ∧
      (Renamed libs (cutName 63 ns) m ↔ Regular libs (cutName 63 ns) m) := by
  refine ⟨(parseModule_eq hown).symm.trans h, ?_⟩
  have htree : m.text (Occ.spelled (cutName 63 ns)) = m.text (fun o => o.proper libs (topNames m) (cutName 63 ns)) ↔
      ∀ o ∈ m.names, o.Consistent libs (topNames m) ∨ mangle (cutName 63 ns) o.name = o.name := by
    rw [m.faithful]
    exact forall₂_congr fun o _ => o.spelled_eq_proper_iff libs (topNames m) (mt cutName_eq_empty.mp hns)
  have hbound (o : Occ) (ho : o.use.isReference) := o.binds_proper_iff libs (topNames m) (cutName 63 ns) ho
  constructor
  · intro h
    refine ⟨htree.mp h.tree, fun x hx y hy hxy => h.apart x hx y hy (mangle_eq_iff.mpr hxy), ?_, ?_⟩
    · exact fun o ho href => ((hbound o href).mp (h.bound o ho href)).1
    · exact fun o ho href => ((hbound o href).mp (h.bound o ho href)).2
  · intro h
    refine ⟨htree.mpr h.consistent, fun x hx y hy hxy => h.apart x hx y hy (mangle_eq_iff.mp hxy), ?_⟩
    exact fun o ho href => (hbound o href).mpr ⟨h.untaken o ho href, h.unclaimed o ho href⟩

section Modules

open Token

set_option maxRecDepth 10000

/-- `int step = 2`, `fn next(int n) int { return n + step }`, `fn twice(int n) int { return next(next(n)) }` -/
def stepModule : List Token :=
  [type .int, ident "step", punct .eq, int 2,
    keyword .fn, ident "next", punct .lparen, type .int, ident "n", punct .rparen, type .int, punct .lbrace,
    keyword .return, ident "n", op .add, ident "step", punct .rbrace,
    keyword .fn, ident "twice", punct .lparen, type .int, ident "n", punct .rparen, type .int, punct .lbrace,
    keyword .return, ident "next", punct .lparen, ident "next", punct .lparen, ident "n", punct .rparen, punct .rparen,
    punct .rbrace]

theorem stepModule_renamed : ∃ m, parseModule 40 32 [] [] "m" stepModule = .ok m ∧
    "m" ≠ "" ∧ SparesOwn 40 32 [] [] "m" stepModule ∧ Renamed ["math"] (cutName 63 "m") m := by
  have hm : parseModule 40 32 [] [] "m" stepModule = .ok _ := rfl
  have hown : SparesOwn 40 32 [] [] "m" stepModule := by decide +kernel
  refine ⟨_, hm, by decide, hown, (namespacing_renames hm (by decide) hown ["math"]).2.mpr ⟨?_, ?_, ?_, ?_⟩⟩
  all_goals decide +kernel

/-- `fn f(int n) int { return f(n) }` -/
def recursiveModule : List Token :=
  [keyword .fn, ident "f", punct .lparen, type .int, ident "n", punct .rparen, type .int, punct .lbrace,
    keyword .return, ident "f", punct .lparen, ident "n", punct .rparen, punct .rbrace]

/-- The function is renamed and its call of itself is not. -/
theorem recursiveModule_not_renamed : ∃ m, parseModule 20 32 [] [] "m" recursiveModule = .ok m ∧
    m.text (Occ.spelled "m") = [.funcDecl 0 "m__f" [("n", ⟨.int, false⟩)] .int
      [.returnStmt (some (.funcCall "f" [.identifier "n" {}]))]] ∧
    ∀ libs, ¬ Renamed libs "m" m := by
  refine ⟨_, rfl, rfl, fun libs h => ?_⟩
  have htree : [Stmt.funcDecl 0 "m__f" [("n", ⟨.int, false⟩)] .int
      [.returnStmt (some (.funcCall "f" [.identifier "n" {}]))]] =
    [.funcDecl 0 "m__f" [("n", ⟨.int, false⟩)] .int
      [.returnStmt (some (.funcCall "m__f" [.identifier "n" {}]))]] := h.tree
  simp at htree

end Modules

end Fluxa
