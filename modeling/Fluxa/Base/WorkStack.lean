import Mathlib.Data.List.Basic
import Mathlib.Data.List.Nodup
import Mathlib.Algebra.Order.BigOperators.Group.List
import Mathlib.Data.List.Flatten
import Mathlib.Algebra.Order.Group.Nat
import Mathlib.Algebra.GroupWithZero.Nat

/-! Walking a tree with an explicit stack. The recursive walk visits an item and then its children from left to right. A
stack that takes the children of a visited item, last one first, visits the items in the same order as long as it has room;
a stack of bounded height drops the children it has no room for, with everything below them. -/

/-- The items below an item, in the order in which they are to be visited. -/
structure Traversal (ι : Type) where
  children : ι → List ι
  exists_size : ∃ size : ι → ℕ, ∀ i, ((children i).map size).sum < size i

namespace Traversal

variable {ι σ : Type} (T : Traversal ι) (cap : ℕ)

noncomputable def size : ι → ℕ := T.exists_size.choose

theorem size_children (i : ι) : ((T.children i).map T.size).sum < T.size i := T.exists_size.choose_spec i

section Definitions

/-- The recursive walk. -/
def preorder (i : ι) : List ι := i :: (T.children i).attach.flatMap fun c => preorder c.1
termination_by T.size i
decreasing_by
  exact (List.single_le_sum (fun _ _ => Nat.zero_le _) _ (List.mem_map_of_mem c.2)).trans_lt (T.size_children i)

/-- The last child goes onto the stack first. -/
def pushAll (cs stack : List ι) : List ι :=
  cs.foldr (fun c stack => if stack.length < cap then c :: stack else stack) stack

variable {cap} in
theorem pushAll_sublist (cs stack : List ι) : (pushAll cap cs stack).Sublist (cs ++ stack) := by
  induction cs with
  | nil => exact List.Sublist.refl stack
  | cons c cs ih =>
    rw [pushAll, List.foldr_cons]
    split
    · exact ih.cons_cons c
    · exact ih.cons c

variable {cap} in
theorem sum_size_pushAll (i : ι) (stack : List ι) :
    ((pushAll cap (T.children i) stack).map T.size).sum < T.size i + (stack.map T.size).sum := by
  calc ((pushAll cap (T.children i) stack).map T.size).sum
      ≤ ((T.children i ++ stack).map T.size).sum :=
        ((pushAll_sublist _ _).map T.size).sum_le_sum fun _ _ => Nat.zero_le _
    _ = ((T.children i).map T.size).sum + (stack.map T.size).sum := by rw [List.map_append, List.sum_append]
    _ < T.size i + (stack.map T.size).sum := Nat.add_lt_add_right (T.size_children i) _

/-- The loop over the stack: the top item is visited and replaced by its children. -/
def run (visit : ι → σ → Option σ) : List ι → σ → Option σ
  | [], s => some s
  | i :: stack, s => (visit i s).bind (run visit (pushAll cap (T.children i) stack))
termination_by stack => (stack.map T.size).sum
decreasing_by
  rw [List.map_cons, List.sum_cons]
  exact T.sum_size_pushAll i stack

/-- The items the loop visits if no visit fails. -/
def visits : List ι → List ι
  | [] => []
  | i :: stack => i :: visits (pushAll cap (T.children i) stack)
termination_by stack => (stack.map T.size).sum
decreasing_by
  rw [List.map_cons, List.sum_cons]
  exact T.sum_size_pushAll i stack

mutual

/-- What the loop visits from an item on, with `h` items below it on the stack. -/
def reach (h : ℕ) (i : ι) : List ι := i :: reachAll h (T.children i)
termination_by 2 * T.size i
decreasing_by
  have := T.size_children i
  omega

def reachAll (h : ℕ) : List ι → List ι
  | [] => []
  | c :: cs => (if h + cs.length < cap then reach (h + cs.length) c else []) ++ reachAll h cs
termination_by cs => 2 * (cs.map T.size).sum + 1
decreasing_by
  · rw [List.map_cons, List.sum_cons]
    omega
  · have := T.size_children c
    rw [List.map_cons, List.sum_cons]
    omega

end

end Definitions

section Order

theorem preorder_eq (i : ι) : T.preorder i = i :: (T.children i).flatMap T.preorder := by
  rw [preorder, List.flatMap_subtype (g := T.preorder) (fun _ _ => rfl), List.unattach_attach]

/-- Induction from the children to the item. -/
theorem induct {P : ι → Prop} (h : ∀ i, (∀ c ∈ T.children i, P c) → P i) (i : ι) : P i := by
  induction hn : T.size i using Nat.strong_induction_on generalizing i with
  | _ n ih =>
    refine h i fun c hc => ih (T.size c) ?_ c rfl
    rw [← hn]
    exact (List.single_le_sum (fun _ _ => Nat.zero_le _) _ (List.mem_map_of_mem hc)).trans_lt (T.size_children i)

theorem run_eq_foldlM (visit : ι → σ → Option σ) (stack : List ι) (s : σ) :
    T.run cap visit stack s = (T.visits cap stack).foldlM (fun s i => visit i s) s := by
  fun_induction T.visits cap stack generalizing s with
  | case1 => rw [run]; rfl
  | case2 i stack ih =>
    rw [run, List.foldlM_cons]
    congr 1
    funext s'
    exact ih s'

variable {cap}

theorem length_pushAll (cs : List ι) {stack : List ι} (h : stack.length ≤ cap) :
    (pushAll cap cs stack).length = min (stack.length + cs.length) cap := by
  induction cs with
  | nil =>
    rw [List.length_nil, Nat.add_zero, min_eq_left h]
    rfl
  | cons c cs ih =>
    change (if (pushAll cap cs stack).length < cap then c :: pushAll cap cs stack else pushAll cap cs stack).length = _
    split
    · rw [List.length_cons, ih, List.length_cons]
      omega
    · rw [ih, List.length_cons]
      omega

theorem pushAll_cons (c : ι) (cs : List ι) {stack : List ι} (h : stack.length ≤ cap) :
    pushAll cap (c :: cs) stack =
      if stack.length + cs.length < cap then c :: pushAll cap cs stack else pushAll cap cs stack := by
  change (if (pushAll cap cs stack).length < cap then c :: pushAll cap cs stack else pushAll cap cs stack) = _
  rw [length_pushAll cs h]
  congr 1
  exact propext ⟨fun _ => by omega, fun _ => by omega⟩

/-- What is visited for the children on top of a stack, before the stack itself. -/
theorem visits_pushAll {cs stack : List ι} (hstack : stack.length ≤ cap)
    (ih : ∀ c ∈ cs, ∀ stack : List ι, stack.length < cap →
      T.visits cap (c :: stack) = T.reach cap stack.length c ++ T.visits cap stack) :
    T.visits cap (pushAll cap cs stack) = T.reachAll cap stack.length cs ++ T.visits cap stack := by
  induction cs with
  | nil => rw [reachAll]; rfl
  | cons c cs ihcs =>
    have hcs := ihcs fun c hc => ih c (List.mem_cons_of_mem _ hc)
    rw [pushAll_cons c cs hstack, reachAll]
    by_cases hroom : stack.length + cs.length < cap
    · have hlength : (pushAll cap cs stack).length = stack.length + cs.length := by
        rw [length_pushAll cs hstack]
        omega
      rw [if_pos hroom, if_pos hroom, ih c List.mem_cons_self _ (by omega), hlength, hcs, List.append_assoc]
    · rw [if_neg hroom, if_neg hroom, hcs, List.nil_append]

theorem visits_cons (i : ι) {stack : List ι} (hstack : stack.length < cap) :
    T.visits cap (i :: stack) = T.reach cap stack.length i ++ T.visits cap stack := by
  induction i using T.induct generalizing stack with
  | h i ih =>
    rw [visits, reach, T.visits_pushAll hstack.le fun c hc stack hstack => ih c hc hstack, List.cons_append]

/-- From a single item the loop visits what `reach` says. -/
theorem visits_singleton (i : ι) (hcap : 0 < cap) : T.visits cap [i] = T.reach cap 0 i := by
  rw [T.visits_cons i hcap, visits, List.append_nil]
  rfl

theorem reachAll_sublist {h : ℕ} {cs : List ι} (ih : ∀ c ∈ cs, ∀ h, (T.reach cap h c).Sublist (T.preorder c)) :
    (T.reachAll cap h cs).Sublist (cs.flatMap T.preorder) := by
  induction cs with
  | nil => rw [reachAll]; exact List.nil_sublist _
  | cons c cs ihcs =>
    rw [reachAll, List.flatMap_cons]
    refine List.Sublist.append ?_ (ihcs fun c hc => ih c (List.mem_cons_of_mem _ hc))
    split
    · exact ih c List.mem_cons_self _
    · exact List.nil_sublist _

theorem reach_sublist (h : ℕ) (i : ι) : (T.reach cap h i).Sublist (T.preorder i) := by
  induction i using T.induct generalizing h with
  | h i ih =>
    rw [reach, preorder_eq]
    exact (T.reachAll_sublist fun c hc h => ih c hc h).cons_cons i

end Order

section Complete

variable {cap} {h : ℕ}

/-- Nothing below the item is dropped. -/
def Complete (cap h : ℕ) (i : ι) : Prop := T.reach cap h i = T.preorder i

def CompleteAll (cap h : ℕ) (cs : List ι) : Prop := T.reachAll cap h cs = cs.flatMap T.preorder

theorem complete_iff (i : ι) : T.Complete cap h i ↔ T.CompleteAll cap h (T.children i) := by
  rw [Complete, CompleteAll, reach, preorder_eq, List.cons_inj_right]

theorem completeAll_nil : T.CompleteAll cap h [] := by
  rw [CompleteAll, reachAll]
  rfl

/-- All children are reached in full if and only if the first one finds room and is, and the others are. -/
theorem completeAll_cons (c : ι) (cs : List ι) :
    T.CompleteAll cap h (c :: cs) ↔
      h + cs.length < cap ∧ T.Complete cap (h + cs.length) c ∧ T.CompleteAll cap h cs := by
  have hcs : (T.reachAll cap h cs).Sublist (cs.flatMap T.preorder) := T.reachAll_sublist fun c _ h => T.reach_sublist h c
  have hc : (T.reach cap (h + cs.length) c).Sublist (T.preorder c) := T.reach_sublist _ c
  rw [CompleteAll, CompleteAll, Complete, reachAll, List.flatMap_cons]
  constructor
  · intro heq
    have hlength := congrArg List.length heq
    rw [List.length_append, List.length_append] at hlength
    have hle := hcs.length_le
    by_cases hroom : h + cs.length < cap
    · rw [if_pos hroom] at heq hlength
      have hle' := hc.length_le
      exact ⟨hroom, hc.eq_of_length (by omega), hcs.eq_of_length (by omega)⟩
    · -- a dropped child is missing, for every walk begins with its item
      rw [if_neg hroom, List.length_nil, T.preorder_eq c, List.length_cons] at hlength
      omega
  · rintro ⟨hroom, hfirst, hrest⟩
    rw [if_pos hroom, hfirst, hrest]

theorem completeAll_singleton (c : ι) : T.CompleteAll cap h [c] ↔ h < cap ∧ T.Complete cap h c := by
  rw [completeAll_cons, List.length_nil, Nat.add_zero]
  exact and_congr_right fun _ => and_iff_left T.completeAll_nil

/-- The children in front lie on top of the others. -/
theorem completeAll_append (cs ds : List ι) :
    T.CompleteAll cap h (cs ++ ds) ↔ T.CompleteAll cap (h + ds.length) cs ∧ T.CompleteAll cap h ds := by
  induction cs with
  | nil => exact (and_iff_right T.completeAll_nil).symm
  | cons c cs ih =>
    have hlength : h + (cs ++ ds).length = h + ds.length + cs.length := by
      rw [List.length_append]
      omega
    rw [List.cons_append, completeAll_cons, completeAll_cons, ih, hlength, and_assoc, and_assoc]

end Complete

section Paths

variable {κ : Type} {path : ι → List κ}

/-- The paths below an item go through the item. -/
theorem path_of_mem_preorder (hpath : ∀ i, ∀ c ∈ T.children i, path i <+: path c) {i j : ι}
    (hj : j ∈ T.preorder i) : path i <+: path j := by
  induction i using T.induct with
  | h i ih =>
    rw [preorder_eq, List.mem_cons, List.mem_flatMap] at hj
    rcases hj with rfl | ⟨c, hc, hj⟩
    · exact List.prefix_rfl
    · exact (hpath i c hc).trans (ih c hc hj)

/-- Children that are numbered below their item keep the items of the walk apart. -/
theorem nodup_preorder
    (hnumber : ∀ i, ∃ ks : List κ, ks.Nodup ∧ (T.children i).map path = ks.map fun k => path i ++ [k]) (i : ι) :
    ((T.preorder i).map path).Nodup := by
  choose number hnodup hchildren using hnumber
  have hpath : ∀ i, ∀ c ∈ T.children i, ∃ k, path c = path i ++ [k] := by
    intro i c hc
    have hmem : path c ∈ (T.children i).map path := List.mem_map_of_mem hc
    rw [hchildren, List.mem_map] at hmem
    obtain ⟨k, _, hk⟩ := hmem
    exact ⟨k, hk.symm⟩
  have hbelow : ∀ i, ∀ c ∈ T.children i, path i <+: path c := by
    intro i c hc
    obtain ⟨k, hk⟩ := hpath i c hc
    exact ⟨[k], hk.symm⟩
  induction i using T.induct with
  | h i ih =>
    rw [preorder_eq, List.map_cons, List.nodup_cons, List.map_flatMap, List.nodup_flatMap]
    refine ⟨?_, fun c hc => ih c hc, ?_⟩
    · intro hmem
      obtain ⟨c, hc, hmem⟩ := List.mem_flatMap.mp hmem
      obtain ⟨j, hj, hij⟩ := List.mem_map.mp hmem
      obtain ⟨k, hk⟩ := hpath i c hc
      have hlength := (T.path_of_mem_preorder hbelow hj).length_le
      rw [hij, hk, List.length_append, List.length_singleton] at hlength
      omega
    · -- two children have different paths of the same length, so nothing continues both
      have hdistinct : ((T.children i).map path).Nodup := by
        rw [hchildren]
        refine (hnodup i).map ?_
        intro k l hkl
        exact List.singleton_inj.mp (List.append_cancel_left hkl)
      refine (List.pairwise_map.mp hdistinct).imp_of_mem ?_
      intro c d hc hd hne
      refine List.disjoint_left.mpr ?_
      intro p hp hp'
      obtain ⟨j, hj, rfl⟩ := List.mem_map.mp hp
      obtain ⟨j', hj', hjj⟩ := List.mem_map.mp hp'
      obtain ⟨k, hk⟩ := hpath i c hc
      obtain ⟨l, hl⟩ := hpath i d hd
      have hcj := T.path_of_mem_preorder hbelow hj
      have hdj := hjj ▸ T.path_of_mem_preorder hbelow hj'
      refine hne (List.IsPrefix.eq_of_length (List.prefix_of_prefix_length_le hcj hdj ?_) ?_) <;>
        rw [hk, hl, List.length_append, List.length_append, List.length_singleton, List.length_singleton]

end Paths

section Rearranged

variable {T} {U : Traversal ι}

/-- Another order of the children gives the same items in another order. -/
theorem preorder_perm (hperm : ∀ i, (T.children i).Perm (U.children i)) (i : ι) : (T.preorder i).Perm (U.preorder i) := by
  induction i using T.induct with
  | h i ih =>
    rw [preorder_eq, preorder_eq]
    refine List.Perm.cons i (List.Perm.trans ?_ ((hperm i).flatMap_right U.preorder))
    exact List.Perm.flatMap_left _ ih

/-- Two lists of children walked in the same order: every child is. -/
theorem flatMap_preorder_eq_iff {cs : List ι} (hperm : ∀ c ∈ cs, (T.preorder c).Perm (U.preorder c)) :
    cs.flatMap T.preorder = cs.flatMap U.preorder ↔ ∀ c ∈ cs, T.preorder c = U.preorder c := by
  induction cs with
  | nil => simp
  | cons c cs ih =>
    rw [List.flatMap_cons, List.flatMap_cons, List.forall_mem_cons, ← ih fun c hc => hperm c (List.mem_cons_of_mem _ hc)]
    constructor
    · intro h
      exact List.append_inj h (hperm c List.mem_cons_self).length_eq
    · rintro ⟨hc, hcs⟩
      rw [hc, hcs]

/-- Children walked from the last to the first are walked in order only if there are fewer than two. -/
theorem length_le_one_of_reverse {cs : List ι} (hnodup : cs.Nodup)
    (h : cs.reverse.flatMap T.preorder = cs.flatMap U.preorder) : cs.length ≤ 1 := by
  have hhead : ∀ (V : Traversal ι) (l : List ι), (l.flatMap V.preorder).head? = l.head? := by
    intro V l
    cases l with
    | nil => rfl
    | cons c l =>
      rw [List.flatMap_cons, preorder_eq]
      rfl
  have hends := congrArg List.head? h
  rw [hhead, hhead, List.head?_reverse] at hends
  match cs, hnodup, hends with
  | [], _, _ => exact Nat.zero_le 1
  | [c], _, _ => exact Nat.le_refl 1
  | c :: d :: cs, hnodup, hends =>
    rw [List.getLast?_cons_cons, List.head?_cons] at hends
    exact absurd (List.mem_of_getLast? hends) (List.nodup_cons.mp hnodup).1

end Rearranged

end Traversal
