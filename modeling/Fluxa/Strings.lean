import Fluxa.Base.HeaderText
import Fluxa.StdLib

/-! The calls of `std.str` (`fluxa_std_strings.h`) that take texts apart and put them together: `split`, `join`,
`replace` and `count` are loops over the leftmost occurrences of a text, and every result that is put together has
to fit into a buffer. Running out of memory and lengths beyond `int` are left out. -/

namespace Fluxa.StdStr

open StdLib
open HeaderText (find)

def strMaxOut : ℕ := 8192

section Model

theorem drop_find_lt {sub cur : Bytes} {i : ℕ} (hsub : sub ≠ []) (h : find sub cur = some i) :
    (cur.drop (i + sub.length)).length < cur.length := by
  have hlen := (HeaderText.find_eq_some h).2.1
  have hpos := List.length_pos_of_ne_nil hsub
  rw [List.length_drop]
  omega

/-- The loop of `str.split`. -/
def splitLoop (delim : Bytes) (hdelim : delim ≠ []) (cur : Bytes) : List Bytes :=
  match h : find delim cur with
  | none => [cur]
  | some i => cur.take i :: splitLoop delim hdelim (cur.drop (i + delim.length))
termination_by cur.length
decreasing_by exact drop_find_lt hdelim h

/-- `str.split`; an empty delimiter splits into bytes. -/
def split (s delim : Bytes) : List Bytes :=
  if h : delim = [] then s.map fun c => [c] else splitLoop delim h s

/-- The loop of `str.join` behind its first round. Items that are no strings have a delimiter before them only. -/
def joinLoop (glue : Bytes) : List (Option Bytes) → Bytes → Bytes
  | [], out => out
  | item :: items, out =>
    if 0 < glue.length ∧ strMaxOut - 1 ≤ out.length + glue.length then out
    else joinLoop glue items (copyItem (out ++ glue) item)
where
  copyItem (out : Bytes) : Option Bytes → Bytes
    | none => out
    | some s => out ++ s.take (if strMaxOut - 1 ≤ out.length + s.length then strMaxOut - out.length - 1 else s.length)

/-- `str.join`. -/
def join : List (Option Bytes) → Bytes → Bytes
  | [], _ => []
  | item :: items, glue => joinLoop glue items (joinLoop.copyItem [] item)

/-- The end of `str.replace`. -/
def copyTail (out cur : Bytes) : Bytes :=
  out ++ cur.take (if strMaxOut ≤ out.length + cur.length then strMaxOut - out.length - 1 else cur.length)

/-- The loop of `str.replace`. Where the buffer ends, the rest is copied from before the occurrence. -/
def replaceLoop (oldSub newSub : Bytes) (hold : oldSub ≠ []) (cur out : Bytes) : Bytes :=
  match h : find oldSub cur with
  | none => copyTail out cur
  | some before =>
    if strMaxOut - 1 ≤ out.length + before + newSub.length then
      copyTail (if before < strMaxOut - out.length - 1 then out ++ cur.take before else out) cur
    else replaceLoop oldSub newSub hold (cur.drop (before + oldSub.length)) (out ++ cur.take before ++ newSub)
termination_by cur.length
decreasing_by exact drop_find_lt hold h

/-- `str.replace`. -/
def replace (s oldSub newSub : Bytes) : Bytes :=
  if h : oldSub = [] then s else replaceLoop oldSub newSub h s []

def countLoop (sub : Bytes) (hsub : sub ≠ []) (cur : Bytes) (n : ℕ) : ℕ :=
  match h : find sub cur with
  | none => n
  | some i => countLoop sub hsub (cur.drop (i + sub.length)) (n + 1)
termination_by cur.length
decreasing_by exact drop_find_lt hsub h

/-- `str.count`. -/
def count (s sub : Bytes) : ℕ := if h : sub = [] then s.length else countLoop sub h s 0

end Model

section Parts

variable {s d : Bytes}

theorem not_infix_take_find {i : ℕ} (hd : d ≠ []) (h : find d s = some i) : ¬ d <:+: s.take i := by
  rw [← HeaderText.find_eq_none hd, Option.eq_none_iff_forall_ne_some]
  intro j hj
  obtain ⟨hj, hle⟩ := (HeaderText.find_take hd i).mp hj
  have hpos := List.length_pos_of_ne_nil hd
  rw [h] at hj
  cases hj
  omega

theorem take_append_drop_find {i : ℕ} (h : find d s = some i) : s.take i ++ (d ++ s.drop (i + d.length)) = s := by
  obtain ⟨t, ht⟩ := (HeaderText.find_eq_some h).1
  have hrest : s.drop (i + d.length) = t := by
    rw [← List.drop_drop, ← ht, List.drop_left]
  rw [hrest, ht, List.take_append_drop]

def glued (g : Bytes) : List Bytes → Bytes
  | [] => []
  | p :: ps => p ++ ps.flatMap (g ++ ·)

theorem splitLoop_ne_nil (hd : d ≠ []) : splitLoop d hd s ≠ [] := by
  unfold splitLoop
  split <;> exact List.cons_ne_nil _ _

theorem glued_cons (g p : Bytes) {ps : List Bytes} (h : ps ≠ []) : glued g (p :: ps) = p ++ (g ++ glued g ps) := by
  obtain ⟨q, qs, rfl⟩ := List.exists_cons_of_ne_nil h
  rw [glued, glued, List.flatMap_cons, List.append_assoc g]

theorem glued_splitLoop (hd : d ≠ []) : glued d (splitLoop d hd s) = s := by
  induction s using splitLoop.induct d hd with
  | case1 s h =>
    rw [splitLoop, h]
    exact List.append_nil s
  | case2 s i h ih =>
    rw [splitLoop, h]
    dsimp only
    rw [glued_cons d _ (splitLoop_ne_nil hd), ih, take_append_drop_find h]

theorem not_infix_of_mem_splitLoop (hd : d ≠ []) {p : Bytes} (hp : p ∈ splitLoop d hd s) : ¬ d <:+: p := by
  induction s using splitLoop.induct d hd with
  | case1 s h =>
    rw [splitLoop, h] at hp
    rw [List.mem_singleton.mp hp]
    exact (HeaderText.find_eq_none hd).mp h
  | case2 s i h ih =>
    rw [splitLoop, h] at hp
    rcases List.mem_cons.mp hp with rfl | hp
    · exact not_infix_take_find hd h
    · exact ih hp

theorem countLoop_eq (hd : d ≠ []) (n : ℕ) : countLoop d hd s n + 1 = n + (splitLoop d hd s).length := by
  induction s using splitLoop.induct d hd generalizing n with
  | case1 s h =>
    rw [splitLoop, countLoop, h]
    rfl
  | case2 s i h ih =>
    rw [splitLoop, countLoop, h]
    dsimp only
    rw [ih, List.length_cons]
    omega

end Parts

section Buffers

variable {s d g out : Bytes}

/-- While everything fits, `str.join` writes the parts and what is between them. -/
theorem joinLoop_eq (ps : List Bytes) (h : (out ++ ps.flatMap (g ++ ·)).length < strMaxOut - 1) :
    joinLoop g (ps.map some) out = out ++ ps.flatMap (g ++ ·) := by
  induction ps generalizing out with
  | nil => exact (List.append_nil out).symm
  | cons p ps ih =>
    rw [List.flatMap_cons, ← List.append_assoc, ← List.append_assoc] at h ⊢
    have hlen : (out ++ g ++ p).length < strMaxOut - 1 := by
      rw [List.length_append] at h
      omega
    have hcopy : joinLoop.copyItem (out ++ g) (some p) = out ++ g ++ p := by
      rw [List.length_append] at hlen
      rw [joinLoop.copyItem, if_neg (by omega), List.take_length]
    rw [List.map_cons, joinLoop, if_neg, hcopy, ih h]
    simp only [List.length_append] at hlen
    omega

theorem join_eq (ps : List Bytes) (h : (glued g ps).length < strMaxOut - 1) : join (ps.map some) g = glued g ps := by
  cases ps with
  | nil => rfl
  | cons p ps =>
    have hcopy : joinLoop.copyItem [] (some p) = p := by
      have hp : p.length < strMaxOut - 1 := by
        rw [glued, List.length_append] at h
        omega
      rw [joinLoop.copyItem, List.length_nil, Nat.zero_add, if_neg (by omega), List.take_length, List.nil_append]
    rw [List.map_cons, join, hcopy]
    exact joinLoop_eq ps h

/-- While everything fits, `str.replace` writes the parts with the new text between them. -/
theorem replaceLoop_eq (hd : d ≠ []) (h : (out ++ glued g (splitLoop d hd s)).length < strMaxOut - 1) :
    replaceLoop d g hd s out = out ++ glued g (splitLoop d hd s) := by
  induction s using splitLoop.induct d hd generalizing out with
  | case1 s hs =>
    rw [splitLoop, hs] at h ⊢
    have hs' : glued g [s] = s := List.append_nil s
    dsimp only at h ⊢
    rw [hs', List.length_append] at h
    rw [replaceLoop, hs, hs']
    dsimp only
    rw [copyTail, if_neg (by omega), List.take_length]
  | case2 s i hs ih =>
    rw [splitLoop, hs] at h ⊢
    dsimp only at h ⊢
    have hglued := glued_cons g (s.take i) (splitLoop_ne_nil (s := s.drop (i + d.length)) hd)
    rw [hglued, ← List.append_assoc, ← List.append_assoc] at h ⊢
    have hi : (s.take i).length = i := by
      have := (HeaderText.find_eq_some hs).2.1
      rw [List.length_take]
      omega
    rw [replaceLoop, hs]
    dsimp only
    rw [if_neg, ih h]
    simp only [List.length_append, hi] at h
    omega

end Buffers

/-- **`split`, `count`, `join` and `replace` agree** on the occurrences of a separator, as long as the text with the
occurrences replaced fits into the buffer. -/
theorem split_join_replace_agree (s d : Bytes) (hd : d ≠ []) :
    (split s d).length = count s d + 1 ∧ (∀ p ∈ split s d, ¬ d <:+: p) ∧
      (∀ g, (glued g (split s d)).length < 8191 → join ((split s d).map some) g = replace s d g) ∧
      (s.length < 8191 → join ((split s d).map some) d = s) := by
  have hsplit : split s d = splitLoop d hd s := dif_neg hd
  rw [hsplit]
  refine ⟨?_, fun p hp => not_infix_of_mem_splitLoop hd hp, ?_, ?_⟩
  · rw [count, dif_neg hd, countLoop_eq hd 0, Nat.zero_add]
  · intro g hg
    rw [join_eq _ hg, replace, dif_neg hd, replaceLoop_eq hd hg, List.nil_append]
  · intro hs
    have hglued := glued_splitLoop (s := s) hd
    rw [join_eq _ (by rw [hglued]; exact hs), hglued]

/-- `aaa` split at `aa`. -/
theorem overlapping_occurrences_agree :
    (split [97, 97, 97] [97, 97]).length = count [97, 97, 97] [97, 97] + 1 ∧
      join ((split [97, 97, 97] [97, 97]).map some) [97, 97] = [97, 97, 97] := by
  obtain ⟨hcount, -, -, hback⟩ := split_join_replace_agree [97, 97, 97] [97, 97] (by decide)
  exact ⟨hcount, hback (by decide)⟩

section Limits

open HeaderText (isSpace)

/-- The length that is copied, where there is a limit. -/
def capped (limit : Bool) (n : ℕ) : ℕ := if limit ∧ strMaxOut ≤ n then strMaxOut - 1 else n

/-- The positions `str.slice` is asked for; negative ones count from the end. -/
def sliceBounds (s : Bytes) (start stop : ℤ) : ℤ × ℤ :=
  let start := if start < 0 then s.length + start else start
  let stop := if stop < 0 then s.length + stop else stop
  (if start < 0 then 0 else start, if s.length < stop then s.length else stop)

/-- `str.slice`. -/
def slice (limit : Bool) (s : Bytes) (start stop : ℤ) : Bytes :=
  let b := sliceBounds s start stop
  if b.2 ≤ b.1 then [] else (s.drop b.1.toNat).take (capped limit (b.2 - b.1).toNat)

/-- `str.trim`. -/
def trim (limit : Bool) (s : Bytes) : Bytes :=
  let s := s.dropWhile isSpace
  s.take (capped limit (s.rdropWhile isSpace).length)

def toLower (c : UInt8) : UInt8 := if 65 ≤ c ∧ c ≤ 90 then c + 32 else c

def toUpper (c : UInt8) : UInt8 := if 97 ≤ c ∧ c ≤ 122 then c - 32 else c

/-- The loop of `str.repeat`. -/
def repeatLoop (s : Bytes) : ℕ → Bytes → Bytes
  | 0, out => out
  | n + 1, out => if out.length + s.length < strMaxOut - 1 then repeatLoop s n (out ++ s) else out

/-- `join`, `replace` and `repeat` take the lengths of texts as `int` and add a position of the buffer to them; the
calls are those where these numbers fit. -/
inductive Call where
  | join (items : List Bytes) (glue : Bytes) (measured : ∀ t ∈ glue :: items, t.length + strMaxOut ≤ 2 ^ 31)
  | slice (s : Bytes) (start stop : ℤ)
  | trim (s : Bytes)
  | replace (s oldSub newSub : Bytes) (measured : s.length + newSub.length + strMaxOut ≤ 2 ^ 31)
  | lower (s : Bytes)
  | upper (s : Bytes)
  | repeat (s : Bytes) (n : ℤ) (measured : s.length < 2 ^ 31)

def Call.run : Call → Bytes
  | .join items glue _ => StdStr.join (items.map some) glue
  | .slice s start stop => StdStr.slice true s start stop
  | .trim s => StdStr.trim true s
  | .replace s oldSub newSub _ => StdStr.replace s oldSub newSub
  | .lower s => (s.take (strMaxOut - 1)).map toLower
  | .upper s => (s.take (strMaxOut - 1)).map toUpper
  | .repeat s n _ => if n ≤ 0 then [] else repeatLoop s n.toNat []

def Call.unlimited : Call → Bytes
  | .join items glue _ => glued glue items
  | .slice s start stop => StdStr.slice false s start stop
  | .trim s => StdStr.trim false s
  | .replace s oldSub newSub _ => if oldSub = [] then s else glued newSub (split s oldSub)
  | .lower s => s.map toLower
  | .upper s => s.map toUpper
  | .repeat s n _ => (List.replicate n.toNat s).flatten

/-- With `n` bytes written and these parts to come: where the limit falls into a new text, the old text from the part
before it on, as far as there is room for it, begins the new text. -/
def CutAgrees (oldSub newSub : Bytes) : ℕ → List Bytes → Prop
  | n, p :: q :: rest =>
    if n + p.length + newSub.length < 8191 then CutAgrees oldSub newSub (n + p.length + newSub.length) (q :: rest)
    else n + p.length < 8191 → (glued oldSub (p :: q :: rest)).take (8191 - (n + p.length)) <+: newSub
  | _, _ => True

/-- Only `replace` has a condition. -/
def Call.Agrees : Call → Prop
  | .replace s oldSub newSub _ => oldSub ≠ [] → CutAgrees oldSub newSub 0 (split s oldSub)
  | _ => True

/-- The result is a beginning of what it should be, and all of it if that is short. -/
def Capped (r u : Bytes) : Prop := r <+: u ∧ (u.length < 8190 → r = u)

variable {s d g out : Bytes}

theorem Capped.refl (u : Bytes) : Capped u u := ⟨List.prefix_rfl, fun _ => rfl⟩

theorem capped_take (u : Bytes) : Capped (u.take 8191) u :=
  ⟨List.take_prefix _ u, fun h => List.take_of_length_le (by omega)⟩

theorem capped_take_capped (u : Bytes) (n : ℕ) : Capped (u.take (capped true n)) (u.take (capped false n)) := by
  simp only [capped, true_and, Bool.false_eq_true, false_and, if_false, strMaxOut]
  split
  · rw [← Nat.min_eq_left (show 8192 - 1 ≤ n by omega), ← List.take_take]
    exact capped_take _
  · exact .refl _

theorem capped_repeatLoop (n : ℕ) : Capped (repeatLoop s n out) (out ++ (List.replicate n s).flatten) := by
  induction n generalizing out with
  | zero =>
    rw [List.replicate_zero, List.flatten_nil, List.append_nil]
    exact .refl _
  | succ n ih =>
    rw [repeatLoop, List.replicate_succ, List.flatten_cons, ← List.append_assoc]
    split
    · exact ih
    · next hfull =>
      rw [List.append_assoc]
      refine ⟨List.prefix_append _ _, fun h => absurd h ?_⟩
      simp only [List.length_append, strMaxOut] at hfull ⊢
      omega

theorem copyItem_eq (h : out.length ≤ 8191) (p : Bytes) : joinLoop.copyItem out (some p) = (out ++ p).take 8191 := by
  rw [joinLoop.copyItem, List.take_append, List.take_of_length_le h, strMaxOut]
  split
  · rw [Nat.sub_right_comm]
  · rw [List.take_of_length_le (by omega), List.take_of_length_le (by omega)]

theorem joinLoop_prefix (ps : List Bytes) (done : Bytes) :
    joinLoop g (ps.map some) (done.take 8191) <+: done ++ ps.flatMap (g ++ ·) := by
  induction ps generalizing done with
  | nil => exact (List.take_prefix _ done).trans (List.prefix_append _ _)
  | cons p ps ih =>
    rw [List.map_cons, joinLoop, strMaxOut]
    split
    · exact (List.take_prefix _ done).trans (List.prefix_append _ _)
    · next hglue =>
      have hroom : done.take 8191 ++ g = (done ++ g).take 8191 := by
        rw [List.take_append, List.take_of_length_le (l := g)]
        rw [List.length_take] at hglue
        omega
      rw [hroom, copyItem_eq (List.length_take_le _ _), take_take_append, List.flatMap_cons, ← List.append_assoc,
        ← List.append_assoc]
      exact ih _

theorem capped_join (ps : List Bytes) (h : ∀ t ∈ g :: ps, t.length + strMaxOut ≤ 2 ^ 31) :
    Capped (Call.join ps g h).run (Call.join ps g h).unlimited := by
  refine ⟨?_, fun h => join_eq ps (lt_trans h (by decide))⟩
  cases ps with
  | nil => exact List.prefix_rfl
  | cons p ps =>
    rw [Call.run, List.map_cons, join, copyItem_eq (Nat.zero_le _)]
    exact joinLoop_prefix ps p

theorem copyTail_eq (h : out.length ≤ 8191) : copyTail out s = (out ++ s).take 8191 := by
  rw [copyTail, List.take_append, List.take_of_length_le h, strMaxOut]
  split
  · rw [Nat.sub_right_comm]
  · rw [List.take_length, List.take_of_length_le (by omega)]

theorem replaceLoop_prefix_iff (hd : d ≠ []) (hout : out.length ≤ 8191) :
    replaceLoop d g hd s out <+: out ++ glued g (splitLoop d hd s) ↔ CutAgrees d g out.length (splitLoop d hd s) := by
  induction s using splitLoop.induct d hd generalizing out with
  | case1 s hs =>
    rw [replaceLoop, splitLoop, hs]
    dsimp only
    rw [copyTail_eq hout, glued, List.flatMap_nil, List.append_nil]
    exact iff_of_true (List.take_prefix _ _) trivial
  | case2 s i hs ih =>
    have hparts : splitLoop d hd s = s.take i :: splitLoop d hd (s.drop (i + d.length)) := by
      rw [splitLoop, hs]
    have hwhole := glued_splitLoop (s := s) hd
    have hlen := (HeaderText.find_eq_some hs).2.1
    have hi : (s.take i).length = i := List.length_take_of_le (by omega)
    obtain ⟨q, rest, hrest⟩ := List.exists_cons_of_ne_nil (splitLoop_ne_nil (s := s.drop (i + d.length)) hd)
    rw [hparts, hrest] at hwhole ⊢
    rw [glued_cons g _ (List.cons_ne_nil q rest), ← List.append_assoc, ← List.append_assoc, replaceLoop, hs, CutAgrees,
      hwhole, hi]
    dsimp only
    have hout' : (out ++ s.take i).length = out.length + i := by rw [List.length_append, hi]
    by_cases hfits : out.length + i + g.length < 8191
    · rw [if_neg (by unfold strMaxOut; omega), if_pos hfits, ← hrest, ih (by rw [List.length_append]; omega),
        List.length_append, hout']
    · rw [if_pos (by unfold strMaxOut; omega), if_neg hfits]
      by_cases hroom : out.length + i < 8191
      · rw [if_pos (by unfold strMaxOut; omega), copyTail_eq (by omega), List.take_append,
          List.take_of_length_le (by omega), List.append_assoc _ g, List.prefix_append_right_inj, hout',
          imp_iff_right hroom]
        refine ⟨fun h => List.prefix_of_prefix_length_le h (List.prefix_append g _) ?_,
          fun h => h.trans (List.prefix_append g _)⟩
        rw [List.length_take]
        omega
      · refine iff_of_true ?_ fun h => absurd h hroom
        rw [if_neg (by unfold strMaxOut; omega), copyTail_eq hout, List.take_append, List.take_of_length_le hout,
          List.append_assoc, List.append_assoc, List.prefix_append_right_inj]
        refine List.IsPrefix.trans ?_ (List.prefix_append _ _)
        rw [List.prefix_take_iff, List.length_take]
        exact ⟨List.take_prefix _ _, by omega⟩

theorem capped_replace_iff (s d g : Bytes) (h : s.length + g.length + strMaxOut ≤ 2 ^ 31) :
    Capped (Call.replace s d g h).run (Call.replace s d g h).unlimited ↔ (Call.replace s d g h).Agrees := by
  by_cases hd : d = []
  · subst hd
    exact iff_of_true (.refl s) fun h => absurd rfl h
  · have hsplit : split s d = splitLoop d hd s := dif_neg hd
    have hrun : (Call.replace s d g h).run = replaceLoop d g hd s [] := dif_neg hd
    have hfull : (Call.replace s d g h).unlimited = glued g (splitLoop d hd s) := (if_neg hd).trans (by rw [hsplit])
    have hshort (h : (glued g (splitLoop d hd s)).length < 8190) :
        replaceLoop d g hd s [] = glued g (splitLoop d hd s) := replaceLoop_eq hd (lt_trans h (by decide))
    rw [Capped, hrun, hfull, and_iff_left hshort, Call.Agrees, hsplit]
    exact (replaceLoop_prefix_iff hd (Nat.zero_le _)).trans (imp_iff_right hd).symm

/-- **When a result is cut off properly.** Of the calls with a limit only `replace` can return something else than a
beginning of the unlimited result. -/
theorem capped_iff_agrees (call : Call) :
    (call.run <+: call.unlimited ∧ (call.unlimited.length < 8190 → call.run = call.unlimited)) ↔ call.Agrees := by
  cases call with
  | replace s d g h => exact capped_replace_iff s d g h
  | join ps g h => exact iff_of_true (capped_join ps h) trivial
  | slice s start stop =>
    refine iff_of_true (show Capped _ _ from ?_) trivial
    rw [Call.run, Call.unlimited, slice, slice]
    split
    · exact .refl []
    · exact capped_take_capped _ _
  | trim s => exact iff_of_true (capped_take_capped _ _) trivial
  | lower s | upper s =>
    refine iff_of_true ?_ trivial
    rw [Call.run, List.map_take]
    exact capped_take _
  | «repeat» s n h =>
    refine iff_of_true (show Capped _ _ from ?_) trivial
    rw [Call.run, Call.unlimited]
    split
    · next hn =>
      rw [Int.toNat_of_nonpos hn]
      exact .refl []
    · exact capped_repeatLoop _

/-- `replace("ab", "b", new)` with a new text of 8190 bytes repeats what stands before the occurrence and keeps the old
text. -/
theorem replace_repeats_text :
    let call := Call.replace [97, 98] [98] (List.replicate 8190 110) (by rw [List.length_replicate]; decide)
    call.run = [97, 97, 98] ∧ ¬ [97, 97, 98] <+: call.unlimited := by
  have hfind : find [98] [97, 98] = some 1 := by decide
  constructor
  · rw [Call.run, replace, dif_neg (by decide), replaceLoop, hfind]
    dsimp only
    rw [if_pos (by rw [List.length_replicate]; decide)]
    rfl
  · have hparts : split [97, 98] [98] = [[97], []] := by
      rw [split, dif_neg (by decide), splitLoop, hfind]
      dsimp only
      rw [splitLoop, show find [98] _ = none by decide]
      rfl
    have hlong (t : Bytes) : ¬ [97, 97, 98] <+: glued (110 :: t) [[97], []] := fun h =>
      absurd (List.cons_prefix_cons.mp (List.cons_prefix_cons.mp h).2).1 (by decide)
    rw [Call.unlimited, if_neg (by decide), hparts]
    exact hlong (List.replicate 8189 110)

end Limits

end Fluxa.StdStr
