import Fluxa.Base.Probing
import Fluxa.Value
import Mathlib.Data.Set.Card
import Mathlib.Data.Set.Finite.Range
import Mathlib.Algebra.BigOperators.Fin

/-! The key-value part of `std.cache` (`fluxa_std_cache.h`): shards of slots with eight probes for each key, and a random
one of the eight is replaced when all are taken. A lookup stops at the first empty slot, and a deletion leaves an empty
slot behind. The checks of the arguments, the diagnostic counters and the arenas are left out, and so are the locks: a
call holds the lock of its shard throughout. -/

namespace Fluxa.StdCache

open Probing

open Probing (Table find way Sound)

structure CacheShard where
  entries : Table (Fin 256) String String
  populated : ℤ
  randState : UInt32

abbrev Cache := Fin 32 → CacheShard

def empty : Cache := fun _ => ⟨fun _ => none, 0, 0⟩

/-- FNV-1a. -/
def cacheHash (s : String) : UInt32 := s.toUTF8.toList.foldl (fun h b => (h ^^^ b.toUInt32) * 16777619) 2166136261

def shardOf (key : String) : Fin 32 := Fin.ofNat 32 (cacheHash key).toNat

def base (h : UInt32) : Fin 256 := Fin.ofNat 256 (h >>> 4).toNat

def probes (h : UInt32) : List (Fin 256) := (List.finRange 8).map fun j => base h + j.castLE (by decide)

/-- `shard_rand`: the new state, which is the number. -/
def shardRand (state : UInt32) : UInt32 :=
  let x := if state = 0 then 0x9E3779B9 else state
  let x := x ^^^ (x <<< 13)
  let x := x ^^^ (x >>> 17)
  x ^^^ (x <<< 5)

/-- The loop of `shard_locate`: what it returns, or the first empty slot when it has seen all probes. -/
def scan (entries : Table (Fin 256) String String) (key : String) (create : Bool) :
    List (Fin 256) → Option (Fin 256) → Option (Fin 256) ⊕ Option (Fin 256)
  | [], firstEmpty => .inr firstEmpty
  | idx :: rest, firstEmpty =>
    match entries idx with
    | none => if create then scan entries key create rest (firstEmpty.or (some idx)) else .inl none
    | some e => if e.1 = key then .inl (some idx) else scan entries key create rest firstEmpty

/-- The slot, whether its entry has to go, and the shard with the state of the generator. -/
def shardLocate (sh : CacheShard) (key : String) (create : Bool) : Option (Fin 256) × Bool × CacheShard :=
  match scan sh.entries key create (probes (cacheHash key)) none with
  | .inl idx => (idx, false, sh)
  | .inr firstEmpty =>
    if create then
      match firstEmpty with
      | some idx => (some idx, false, sh)
      | none =>
        let x := shardRand sh.randState
        let evictSlot : Fin 8 := Fin.ofNat 8 x.toNat
        (some (base (cacheHash key) + evictSlot.castLE (by decide)), true, { sh with randState := x })
    else (none, false, sh)

namespace CacheShard

def put (sh : CacheShard) (key val : String) : CacheShard :=
  match shardLocate sh key true with
  | (none, _, sh) => sh
  | (some idx, wasEvict, sh) =>
    if wasEvict then { sh with entries := Function.update sh.entries idx (some (key, val)) }
    else match sh.entries idx with
      | none =>
        { sh with
          entries := Function.update sh.entries idx (some (key, val))
          populated := sh.populated + 1 }
      | some e => { sh with entries := Function.update sh.entries idx (some (e.1, val)) }

def get (sh : CacheShard) (key : String) : Option String :=
  (shardLocate sh key false).1.bind fun idx => (sh.entries idx).map (·.2)

def del (sh : CacheShard) (key : String) : CacheShard :=
  match (shardLocate sh key false).1 with
  | none => sh
  | some idx => { sh with entries := Function.update sh.entries idx none, populated := sh.populated - 1 }

def clear (sh : CacheShard) : CacheShard := { sh with entries := fun _ => none, populated := 0 }

end CacheShard

inductive Request where
  | put (key val : String)
  | get (key : String)
  | del (key : String)
  | clear
  | size
  deriving DecidableEq

variable (c : Cache)

/-- Whether `cache.get` hits, and what. -/
def lookup (key : String) : Option String := (c (shardOf key)).get key

/-- What `cache.get` returns: the empty string for a miss. -/
def get (key : String) : String := (lookup c key).getD ""

def put (key val : String) : Cache := Function.update c (shardOf key) ((c (shardOf key)).put key val)

def del (key : String) : Cache := Function.update c (shardOf key) ((c (shardOf key)).del key)

def clear : Cache := fun s => (c s).clear

def size : ℤ := ((List.finRange 32).map fun s => (c s).populated).sum

def step : Request → Cache
  | .put key val => put c key val
  | .del key => del c key
  | .clear => clear c
  | .get _ | .size => c

section Shard

def path (key : String) : List (Fin 256) := probes (cacheHash key)

variable {t : Table (Fin 256) String String} {sh : CacheShard} {key val : String}

theorem locate_lookup (sh : CacheShard) (key : String) : (shardLocate sh key false).1 = find sh.entries key (path key) := by
  have hscan (l : List (Fin 256)) (fe : Option (Fin 256)) :
      scan sh.entries key false l fe = .inl (find sh.entries key l) ∨
        scan sh.entries key false l fe = .inr fe ∧ find sh.entries key l = none := by
    induction l with
    | nil => exact .inr ⟨rfl, rfl⟩
    | cons i l ih =>
      cases hi : sh.entries i with
      | none => simp [scan, find, hi]
      | some e => by_cases hk : e.1 = key <;> simp [scan, find, hi, hk, ih]
  unfold shardLocate path
  rcases hscan (probes (cacheHash key)) none with h | ⟨h, hnone⟩
  · rw [h]
  · rw [h, hnone]
    rfl

/-- The search for a place: the key's own slot, or the first empty one if the key is not there. -/
theorem scan_create (t : Table (Fin 256) String String) (key : String) (l : List (Fin 256)) (fe : Option (Fin 256)) :
    (∃ i ∈ l, scan t key true l fe = .inl (some i) ∧ ∃ v, t i = some (key, v)) ∨
      (∀ i ∈ l, ∀ v, t i ≠ some (key, v)) ∧ scan t key true l fe = .inr (fe.or (l.find? fun i => (t i).isNone)) := by
  induction l generalizing fe with
  | nil => exact .inr ⟨nofun, by simp [scan]⟩
  | cons i l ih =>
    cases hi : t i with
    | none =>
      rcases ih (fe.or (some i)) with ⟨j, hj, hscan, hv⟩ | ⟨hno, hscan⟩
      · exact .inl ⟨j, List.mem_cons_of_mem i hj, by simpa [scan, hi] using hscan, hv⟩
      · refine .inr ⟨List.forall_mem_cons.mpr ⟨by simp [hi], hno⟩, ?_⟩
        cases fe <;> simpa [scan, hi] using hscan
    | some e =>
      by_cases hk : e.1 = key
      · exact .inl ⟨i, List.mem_cons_self, by simp [scan, hi, hk], e.2, by rw [hi, ← hk]⟩
      · rcases ih fe with ⟨j, hj, hscan, hv⟩ | ⟨hno, hscan⟩
        · exact .inl ⟨j, List.mem_cons_of_mem i hj, by simpa [scan, hi, hk] using hscan, hv⟩
        · refine .inr ⟨List.forall_mem_cons.mpr ⟨fun v hv => hk ?_, hno⟩, by simp [scan, hi, hk, hscan]⟩
          rw [hi] at hv
          rw [Option.some.inj hv]

/-- What `put` does: it stores the entry in a slot of the key's path where a lookup will find it, and counts it if the
slot was empty. -/
theorem put_spec (h : Sound path sh.entries) (key val : String) :
    ∃ i rand, i ∈ path key ∧ (∀ j ∈ way (path key) i, sh.entries j ≠ none) ∧
      (∀ j w, sh.entries j = some (key, w) → j = i) ∧
      sh.put key val = ⟨Function.update sh.entries i (some (key, val)),
        sh.populated + (if sh.entries i = none then 1 else 0), rand⟩ := by
  rcases scan_create sh.entries key (path key) none with ⟨i, hi, hscan, v, hv⟩ | ⟨hno, hscan⟩
  · refine ⟨i, sh.randState, hi, h.filled hv, fun j w hj => h.unique hj hv, ?_⟩
    simp only [path] at hscan
    simp [CacheShard.put, shardLocate, hscan, hv]
  · have hnowhere (j : Fin 256) (w : String) (hj : sh.entries j = some (key, w)) : False := hno j (h.placed hj) w hj
    rw [Option.none_or] at hscan
    simp only [path] at hscan
    cases hempty : (path key).find? fun i => (sh.entries i).isNone with
    | some i =>
      simp only [path] at hempty
      have hi : sh.entries i = none := by simpa using List.find?_some hempty
      refine ⟨i, sh.randState, List.mem_of_find?_eq_some hempty, fun j hj => ?_,
        fun j w hj => (hnowhere j w hj).elim, ?_⟩
      · have hj := not_of_mem_way hempty hj
        rintro hnone
        simp [hnone] at hj
      · simp [CacheShard.put, shardLocate, hscan, hempty, hi]
    | none =>
      have hfull : ∀ j ∈ path key, sh.entries j ≠ none := by simpa using hempty
      simp only [path] at hempty
      let slot : Fin 8 := Fin.ofNat 8 (shardRand sh.randState).toNat
      have hmem : base (cacheHash key) + slot.castLE (by decide) ∈ path key :=
        List.mem_map.mpr ⟨slot, List.mem_finRange slot, rfl⟩
      refine ⟨_, shardRand sh.randState, hmem, fun j hj => hfull j (mem_of_mem_way hj),
        fun j w hj => (hnowhere j w hj).elim, ?_⟩
      rw [if_neg (hfull _ hmem)]
      simp [CacheShard.put, shardLocate, hscan, hempty, slot]

end Shard

section Count

def occupied (t : Table (Fin 256) String String) : Finset (Fin 256) := Finset.univ.filter fun i => t i ≠ none

variable (t : Table (Fin 256) String String) (i : Fin 256)

theorem card_occupied_store (e : String × String) :
    ((occupied (Function.update t i (some e))).card : ℤ) = (occupied t).card + if t i = none then 1 else 0 := by
  have hinsert : occupied (Function.update t i (some e)) = insert i (occupied t) := by
    ext j
    by_cases hj : j = i <;> simp [occupied, hj]
  rw [hinsert]
  split
  · rename_i hi
    rw [Finset.card_insert_of_notMem (by simp [occupied, hi])]
    simp
  · rename_i hi
    rw [Finset.insert_eq_of_mem (by simpa [occupied] using hi)]
    simp

theorem card_occupied_erase (h : t i ≠ none) :
    ((occupied (Function.update t i none)).card : ℤ) = (occupied t).card - 1 := by
  have herase : occupied (Function.update t i none) = (occupied t).erase i := by
    ext j
    by_cases hj : j = i <;> simp [occupied, hj]
  have hmem : i ∈ occupied t := by simpa [occupied] using h
  rw [herase, Finset.card_erase_of_mem hmem, Nat.cast_sub (Finset.card_pos.mpr ⟨i, hmem⟩)]
  simp

end Count

/-- A cache that forgets nothing: the value of the last put of each key since it was deleted or everything was. -/
abbrev Record := String → Option String

def Record.note (m : Record) : Request → Record
  | .put key val => Function.update m key (some val)
  | .del key => Function.update m key none
  | .clear => fun _ => none
  | .get _ | .size => m

/-- The shards are sound, every entry is in its key's shard and has the value on record, and all entries are counted. -/
structure Faithful (m : Record) (c : Cache) : Prop where
  sound : ∀ s, Sound path (c s).entries
  own : ∀ {s i k v}, (c s).entries i = some (k, v) → shardOf k = s
  current : ∀ {s i k v}, (c s).entries i = some (k, v) → m k = some v
  counted : ∀ s, (c s).populated = (occupied (c s).entries).card

section Faithful

variable {m : Record} {c : Cache} {k v : String}

theorem faithful_empty : Faithful (fun _ => none) empty :=
  ⟨fun _ => sound_empty, nofun, nofun, fun _ => by simp [empty, occupied]⟩

theorem lookup_eq_some (h : lookup c k = some v) : ∃ i, (c (shardOf k)).entries i = some (k, v) := by
  unfold lookup CacheShard.get at h
  rw [locate_lookup] at h
  obtain ⟨i, hi, hv⟩ := Option.bind_eq_some_iff.mp h
  obtain ⟨-, w, hw⟩ := find_some hi
  rw [hw] at hv
  obtain rfl : w = v := by simpa using hv
  exact ⟨i, hw⟩

theorem Faithful.lookup_iff (h : Faithful m c) :
    lookup c k = some v ↔ ∃ i, (c (shardOf k)).entries i = some (k, v) := by
  refine ⟨lookup_eq_some, ?_⟩
  rintro ⟨i, hi⟩
  unfold lookup CacheShard.get
  rw [locate_lookup, (h.sound _).find_iff.mpr ⟨v, hi⟩]
  simp [hi]

theorem Faithful.update (h : Faithful m c) {m' : Record} {s : Fin 32} {sh : CacheShard} (hsound : Sound path sh.entries)
    (hown : ∀ {i k v}, sh.entries i = some (k, v) → shardOf k = s ∧ m' k = some v)
    (hcounted : sh.populated = (occupied sh.entries).card) (hother : ∀ k, shardOf k ≠ s → m' k = m k) :
    Faithful m' (Function.update c s sh) := by
  constructor
  · intro r
    by_cases hr : r = s
    · rwa [hr, Function.update_self]
    · rw [Function.update_of_ne hr]
      exact h.sound r
  · intro r i k v hi
    by_cases hr : r = s
    · rw [hr, Function.update_self] at hi
      exact (hown hi).1.trans hr.symm
    · rw [Function.update_of_ne hr] at hi
      exact h.own hi
  · intro r i k v hi
    by_cases hr : r = s
    · rw [hr, Function.update_self] at hi
      exact (hown hi).2
    · rw [Function.update_of_ne hr] at hi
      rw [hother k (by rw [h.own hi]; exact hr)]
      exact h.current hi
  · intro r
    by_cases hr : r = s
    · rwa [hr, Function.update_self]
    · rw [Function.update_of_ne hr]
      exact h.counted r

theorem Faithful.put (h : Faithful m c) (key val : String) : Faithful (m.note (.put key val)) (put c key val) := by
  have hnoted {k : String} (hk : k ≠ key) : m.note (.put key val) k = m k := Function.update_of_ne hk _ _
  obtain ⟨i, rand, hi, hway, honly, hput⟩ := put_spec (h.sound (shardOf key)) key val
  unfold StdCache.put
  rw [hput]
  refine h.update ((h.sound _).store hi hway honly) ?_ ?_ ?_
  · intro j k v hj
    by_cases hji : j = i
    · simp only [hji, Function.update_self, Option.some.injEq, Prod.mk.injEq] at hj
      rw [← hj.1, ← hj.2]
      exact ⟨rfl, Function.update_self ..⟩
    · have hold : (c (shardOf key)).entries j = some (k, v) := by simpa [hji] using hj
      have hk : k ≠ key := by
        rintro rfl
        exact hji (honly j v hold)
      exact ⟨h.own hold, (hnoted hk).trans (h.current hold)⟩
  · dsimp only
    rw [card_occupied_store, h.counted]
  · intro k hk
    exact hnoted fun hkey => hk (by rw [hkey])

/-- The slot of the key is on no other entry's way. -/
def Uncrossed (c : Cache) (key : String) : Prop :=
  ∀ i ∈ find (c (shardOf key)).entries key (path key), ∀ j, ∀ e ∈ (c (shardOf key)).entries j, i ∉ way (path e.1) j

instance (c : Cache) (key : String) : Decidable (Uncrossed c key) :=
  inferInstanceAs (Decidable (∀ i ∈ find (c (shardOf key)).entries key (path key), _))

theorem del_of_absent (h : find (c (shardOf k)).entries k (path k) = none) : del c k = c := by
  unfold del CacheShard.del
  rw [locate_lookup, h, Function.update_eq_self]

theorem del_of_found {i : Fin 256} (h : find (c (shardOf k)).entries k (path k) = some i) :
    del c k = Function.update c (shardOf k) { c (shardOf k) with
      entries := Function.update (c (shardOf k)).entries i none, populated := (c (shardOf k)).populated - 1 } := by
  unfold del CacheShard.del
  rw [locate_lookup, h]

theorem Faithful.del (h : Faithful m c) {key : String} (hsafe : Uncrossed c key) :
    Faithful (m.note (.del key)) (del c key) := by
  have hnoted {k : String} (hk : k ≠ key) : m.note (.del key) k = m k := Function.update_of_ne hk _ _
  cases hf : find (c (shardOf key)).entries key (path key) with
  | none =>
    rw [del_of_absent hf]
    have hno := (h.sound (shardOf key)).find_none_iff.mp hf
    refine ⟨h.sound, h.own, fun {s i k v} hi => ?_, h.counted⟩
    have hk : k ≠ key := by
      rintro rfl
      exact hno i v (h.own hi ▸ hi)
    exact (hnoted hk).trans (h.current hi)
  | some i =>
    obtain ⟨v, hv⟩ := (h.sound (shardOf key)).find_iff.mp hf
    rw [del_of_found hf]
    refine h.update ((h.sound _).erase fun j l w hj => hsafe i hf j (l, w) hj) ?_ ?_ ?_
    · intro j k w hj
      by_cases hji : j = i
      · simp [hji] at hj
      · have hold : (c (shardOf key)).entries j = some (k, w) := by simpa [hji] using hj
        have hk : k ≠ key := by
          rintro rfl
          exact hji ((h.sound _).unique hold hv)
        exact ⟨h.own hold, (hnoted hk).trans (h.current hold)⟩
    · dsimp only
      rw [card_occupied_erase _ _ (by simp [hv]), h.counted]
    · intro k hk
      exact hnoted fun hkey => hk (by rw [hkey])

theorem Faithful.clear : Faithful (m.note .clear) (clear c) :=
  ⟨fun _ => sound_empty, nofun, nofun, fun _ => by simp [StdCache.clear, CacheShard.clear, occupied]⟩

end Faithful

section Size

variable {m : Record} {c : Cache}

/-- The keys for which `cache.get` hits. -/
def hits (c : Cache) : Set String := {k | (lookup c k).isSome}

def keyAt (c : Cache) (p : Σ _ : Fin 32, Fin 256) : String := (((c p.1).entries p.2).map Prod.fst).getD ""

theorem hits_finite (c : Cache) : (hits c).Finite := by
  refine (Set.finite_range (keyAt c)).subset fun k hk => ?_
  obtain ⟨v, hv⟩ := Option.isSome_iff_exists.mp hk
  obtain ⟨i, hi⟩ := lookup_eq_some hv
  exact ⟨⟨shardOf k, i⟩, by simp [keyAt, hi]⟩

theorem size_eq_sum (c : Cache) : size c = ∑ s, (c s).populated := (Fin.sum_univ_def _).symm

theorem Faithful.size_eq (h : Faithful m c) : size c = (hits c).ncard := by
  let slots : Finset (Σ _ : Fin 32, Fin 256) := Finset.univ.sigma fun s => occupied (c s).entries
  have hentry {p : Σ _ : Fin 32, Fin 256} (hp : p ∈ slots) : ∃ v, (c p.1).entries p.2 = some (keyAt c p, v) := by
    have hne : (c p.1).entries p.2 ≠ none := by simpa [slots, occupied] using hp
    obtain ⟨e, he⟩ := Option.ne_none_iff_exists'.mp hne
    exact ⟨e.2, by simp [keyAt, he]⟩
  have himage : hits c = keyAt c '' slots := by
    ext k
    constructor
    · intro hk
      obtain ⟨v, hv⟩ := Option.isSome_iff_exists.mp hk
      obtain ⟨i, hi⟩ := lookup_eq_some hv
      exact ⟨⟨shardOf k, i⟩, by simp [slots, occupied, hi], by simp [keyAt, hi]⟩
    · rintro ⟨p, hp, rfl⟩
      obtain ⟨v, hv⟩ := hentry hp
      exact Option.isSome_iff_exists.mpr ⟨v, h.lookup_iff.mpr ⟨p.2, h.own hv ▸ hv⟩⟩
  have hinj : Set.InjOn (keyAt c) slots := by
    rintro ⟨s, i⟩ hp ⟨r, j⟩ hq hkey
    obtain ⟨v, hv⟩ := hentry hp
    obtain ⟨w, hw⟩ := hentry hq
    rw [hkey] at hv
    obtain rfl : s = r := (h.own hv).symm.trans (h.own hw)
    obtain rfl : i = j := (h.sound s).unique hv hw
    rfl
  rw [himage, hinj.ncard_image, Set.ncard_coe_finset, Finset.card_sigma, size_eq_sum]
  push_cast
  exact Finset.sum_congr rfl fun s _ => h.counted s

theorem size_del_of_found {k : String} {i : Fin 256} (h : find (c (shardOf k)).entries k (path k) = some i) :
    size (del c k) = size c - 1 := by
  rw [size_eq_sum, size_eq_sum, del_of_found h]
  have hpop (s : Fin 32) : (Function.update c (shardOf k) { c (shardOf k) with
      entries := Function.update (c (shardOf k)).entries i none, populated := (c (shardOf k)).populated - 1 } s).populated =
      Function.update (fun s => (c s).populated) (shardOf k) ((c (shardOf k)).populated - 1) s := by
    by_cases hs : s = shardOf k <;> simp [hs]
  rw [Finset.sum_congr rfl fun s _ => hpop s, Finset.sum_update_of_mem (Finset.mem_univ _),
    ← Finset.add_sum_erase _ _ (Finset.mem_univ (shardOf k)), Finset.sdiff_singleton_eq_erase]
  omega

theorem Faithful.hits_del (h : Faithful m c) {key : String} {i : Fin 256}
    (hf : find (c (shardOf key)).entries key (path key) = some i) : hits (StdCache.del c key) ⊆ hits c \ {key} := by
  obtain ⟨v, hv⟩ := (h.sound _).find_iff.mp hf
  intro l hl
  obtain ⟨u, hu⟩ := Option.isSome_iff_exists.mp hl
  obtain ⟨x, hx⟩ := lookup_eq_some hu
  rw [del_of_found hf] at hx
  by_cases hs : shardOf l = shardOf key
  · rw [hs, Function.update_self] at hx
    have hxi : x ≠ i := by
      rintro rfl
      simp at hx
    have hold : (c (shardOf key)).entries x = some (l, u) := by simpa [hxi] using hx
    refine ⟨Option.isSome_iff_exists.mpr ⟨u, h.lookup_iff.mpr ⟨x, hs ▸ hold⟩⟩, ?_⟩
    rintro rfl
    exact hxi ((h.sound _).unique hold hv)
  · rw [Function.update_of_ne hs] at hx
    exact ⟨Option.isSome_iff_exists.mpr ⟨u, h.lookup_iff.mpr ⟨x, hx⟩⟩, fun hkey => hs (by rw [hkey])⟩

/-- A deletion that leaves an empty slot on another entry's way hides that entry, but only the deleted one is taken off
the count. -/
theorem Faithful.size_lt (h : Faithful m c) {key : String} (hcross : ¬Uncrossed c key) :
    (hits (StdCache.del c key)).ncard < size (StdCache.del c key) := by
  unfold Uncrossed at hcross
  push Not at hcross
  obtain ⟨i, hf, j, ⟨k, w⟩, hj, hway⟩ := hcross
  obtain ⟨v, hv⟩ := (h.sound _).find_iff.mp hf
  have hshard : shardOf k = shardOf key := h.own hj
  have hne : k ≠ key := by
    rintro rfl
    exact ne_of_mem_way hway ((h.sound _).unique hv hj)
  have hkey : key ∈ hits c := Option.isSome_iff_exists.mpr ⟨v, h.lookup_iff.mpr ⟨i, hv⟩⟩
  have hk : k ∈ hits c := Option.isSome_iff_exists.mpr ⟨w, h.lookup_iff.mpr ⟨j, by rw [hshard]; exact hj⟩⟩
  have hgone : k ∉ hits (StdCache.del c key) := by
    have hhole : find (Function.update (c (shardOf key)).entries i none) k (path k) = none := by
      refine find_of_hole (fun x hx e he => ?_) hway (Function.update_self ..)
      by_cases hxi : x = i
      · simp [hxi] at he
      · exact (h.sound _).other_key hj hx (by simpa [hxi] using he)
    have hmiss : lookup (StdCache.del c key) k = none := by
      unfold lookup CacheShard.get
      rw [locate_lookup, del_of_found hf, hshard, Function.update_self, hhole]
      rfl
    simp [hits, hmiss]
  have hsub : hits (StdCache.del c key) ⊆ (hits c \ {key}) \ {k} := fun l hl =>
    ⟨h.hits_del hf hl, fun hlk => hgone (hlk ▸ hl)⟩
  have hfinite := (hits_finite c).subset (Set.sdiff_subset (t := {key}))
  have hcard := Set.ncard_le_ncard hsub (hfinite.subset Set.sdiff_subset)
  have hlast := Set.ncard_sdiff_singleton_add_one (show k ∈ hits c \ {key} from ⟨hk, hne⟩) hfinite
  have hfirst := Set.ncard_sdiff_singleton_add_one hkey (hits_finite c)
  rw [size_del_of_found hf, h.size_eq]
  omega

end Size

section Truth

/-- What is said of a cache at a moment: a hit has the value on record, and the size is the number of hits. -/
structure Honest (m : Record) (c : Cache) : Prop where
  value : ∀ k, get c k = "" ∨ m k = some (get c k)
  size : size c = (hits c).ncard

/-- The cache is honest before and after each of the calls, and a deletion changes no other key's value. -/
def Truthful (c : Cache) (m : Record) : List Request → Prop
  | [] => Honest m c
  | r :: rs =>
    Honest m c ∧ (∀ a, r = .del a → ∀ b, b ≠ a → get (del c a) b = get c b) ∧ Truthful (step c r) (m.note r) rs

/-- No deletion frees a slot on another entry's way. -/
def Uncrossing (c : Cache) : List Request → Prop
  | [] => True
  | r :: rs => (∀ a, r = .del a → Uncrossed c a) ∧ Uncrossing (step c r) rs

variable {m : Record} {c : Cache}

theorem Faithful.honest (h : Faithful m c) : Honest m c := by
  refine ⟨fun k => ?_, h.size_eq⟩
  unfold get
  cases hk : lookup c k with
  | none => exact .inl rfl
  | some v =>
    obtain ⟨i, hi⟩ := h.lookup_iff.mp hk
    exact .inr (h.current hi)

theorem Faithful.get_del (h : Faithful m c) {a b : String} (hsafe : Uncrossed c a) (hb : b ≠ a) :
    get (StdCache.del c a) b = get c b := by
  have hdel := h.del hsafe
  unfold get
  cases hk : lookup c b with
  | none =>
    cases hk' : lookup (StdCache.del c a) b with
    | none => rfl
    | some v =>
      cases hf : find (c (shardOf a)).entries a (path a) with
      | none =>
        rw [del_of_absent hf, hk] at hk'
        exact absurd hk' nofun
      | some i =>
        have hmem := (h.hits_del hf (show b ∈ hits _ by simp [hits, hk'])).1
        simp [hits, hk] at hmem
  | some v =>
    cases hf : find (c (shardOf a)).entries a (path a) with
    | none => rw [del_of_absent hf, hk]
    | some i =>
      obtain ⟨x, hx⟩ := h.lookup_iff.mp hk
      obtain ⟨w, hw⟩ := (h.sound _).find_iff.mp hf
      have hkept : (StdCache.del c a (shardOf b)).entries x = some (b, v) := by
        rw [del_of_found hf]
        by_cases hs : shardOf b = shardOf a
        · rw [hs] at hx ⊢
          have hxi : x ≠ i := by
            rintro rfl
            have hsame := hw.symm.trans hx
            simp only [Option.some.injEq, Prod.mk.injEq] at hsame
            exact hb hsame.1.symm
          rw [Function.update_self]
          simpa [hxi] using hx
        · rwa [Function.update_of_ne hs]
      rw [hdel.lookup_iff.mpr ⟨x, hkept⟩]

theorem Truthful.honest {rs : List Request} (h : Truthful c m rs) : Honest m c := by
  cases rs with
  | nil => exact h
  | cons r rs => exact h.1

theorem Faithful.step (h : Faithful m c) {r : Request} (hsafe : ∀ a, r = .del a → Uncrossed c a) :
    Faithful (m.note r) (StdCache.step c r) := by
  cases r with
  | put key val => exact h.put key val
  | get key => exact h
  | del key => exact h.del (hsafe key rfl)
  | clear => exact .clear
  | size => exact h

theorem Faithful.truthful_iff (h : Faithful m c) (rs : List Request) : Truthful c m rs ↔ Uncrossing c rs := by
  induction rs generalizing c m with
  | nil => exact iff_of_true h.honest trivial
  | cons r rs ih =>
    constructor
    · rintro ⟨-, -, hrest⟩
      have hsafe : ∀ a, r = .del a → Uncrossed c a := by
        rintro a rfl
        by_contra hcross
        exact absurd hrest.honest.size (h.size_lt hcross).ne'
      exact ⟨hsafe, (ih (h.step hsafe)).mp hrest⟩
    · rintro ⟨hsafe, hrest⟩
      refine ⟨h.honest, ?_, (ih (h.step hsafe)).mpr hrest⟩
      exact fun a ha b hb => h.get_del (hsafe a ha) hb

end Truth

/-- For every sequence of calls: the cache tells the truth throughout exactly if no call deletes an entry from a slot that
another entry's probes pass. -/
theorem cache_truthful_iff (calls : List Request) : Truthful empty (fun _ => none) calls ↔ Uncrossing empty calls :=
  faithful_empty.truthful_iff calls

/-- Two keys with the same probes: behind the deletion of the first, the second is lost, and its own deletion does
nothing; it comes back with the slot. -/
theorem deletion_hides_entry :
    let c := step (step empty (.put "d3" "x")) (.put "nq" "y")
    let lost := step c (.del "d3")
    let back := step (step lost (.del "nq")) (.put "d3" "z")
    (get c "nq" = "y" ∧ get lost "nq" = "" ∧ size lost = 1 ∧ get lost "d3" = "" ∧ get back "nq" = "y") ∧
      ¬Truthful empty (fun _ => none) [.put "d3" "x", .put "nq" "y", .del "d3"] := by
  refine ⟨by decide +kernel, ?_⟩
  rintro ⟨-, -, -, -, -, hdel, -⟩
  exact absurd (hdel "d3" rfl "nq" (by decide)) (by decide +kernel)

section Genuine

variable {l : List (String × String)} {sh : CacheShard} {c : Cache}

/-- The puts since the cache was cleared last. -/
def notePut (l : List (String × String)) : Request → List (String × String)
  | .put key val => (key, val) :: l
  | .clear => []
  | .get _ | .del _ | .size => l

/-- Every entry was put in, and all entries are counted. -/
structure Genuine (l : List (String × String)) (sh : CacheShard) : Prop where
  stored : ∀ {i e}, sh.entries i = some e → e ∈ l
  counted : sh.populated = (occupied sh.entries).card

/-- Also a table with holes takes the entry in one slot, and counts it if the slot was empty. -/
theorem put_stores (sh : CacheShard) (key val : String) :
    ∃ i rand, sh.put key val = ⟨Function.update sh.entries i (some (key, val)),
      sh.populated + (if sh.entries i = none then 1 else 0), rand⟩ := by
  rcases scan_create sh.entries key (path key) none with ⟨i, -, hscan, v, hv⟩ | ⟨-, hscan⟩
  · refine ⟨i, sh.randState, ?_⟩
    simp only [path] at hscan
    simp [CacheShard.put, shardLocate, hscan, hv]
  · rw [Option.none_or] at hscan
    simp only [path] at hscan
    cases hempty : (probes (cacheHash key)).find? fun i => (sh.entries i).isNone with
    | some i =>
      have hi : sh.entries i = none := by simpa using List.find?_some hempty
      exact ⟨i, sh.randState, by simp [CacheShard.put, shardLocate, hscan, hempty, hi]⟩
    | none =>
      let slot : Fin 8 := Fin.ofNat 8 (shardRand sh.randState).toNat
      have hfull : sh.entries (base (cacheHash key) + slot.castLE (by decide)) ≠ none := by
        have hno := List.find?_eq_none.mp hempty _ (List.mem_map.mpr ⟨slot, List.mem_finRange slot, rfl⟩)
        simpa using hno
      refine ⟨base (cacheHash key) + slot.castLE (by decide), shardRand sh.randState, ?_⟩
      rw [if_neg hfull]
      simp [CacheShard.put, shardLocate, hscan, hempty, slot]

theorem Genuine.put (h : Genuine l sh) (key val : String) : Genuine ((key, val) :: l) (sh.put key val) := by
  obtain ⟨i, rand, hput⟩ := put_stores sh key val
  rw [hput]
  refine ⟨fun {j e} hj => ?_, by rw [card_occupied_store, h.counted]⟩
  by_cases hji : j = i
  · simp only [hji, Function.update_self, Option.some.injEq] at hj
    exact hj ▸ List.mem_cons_self
  · exact List.mem_cons_of_mem _ (h.stored (by simpa [hji] using hj))

theorem Genuine.del (h : Genuine l sh) (key : String) : Genuine l (sh.del key) := by
  unfold CacheShard.del
  rw [locate_lookup]
  cases hf : find sh.entries key (path key) with
  | none => exact h
  | some i =>
    obtain ⟨-, w, hw⟩ := find_some hf
    refine ⟨fun {j e} hj => ?_, by rw [card_occupied_erase _ _ (by simp [hw]), h.counted]⟩
    by_cases hji : j = i
    · simp [hji] at hj
    · exact h.stored (by simpa [hji] using hj)

theorem genuine_step (h : ∀ s, Genuine l (c s)) (r : Request) (s : Fin 32) : Genuine (notePut l r) (step c r s) := by
  cases r with
  | put key val =>
    by_cases hs : s = shardOf key
    · subst hs
      simpa only [step, StdCache.put, Function.update_self, notePut] using (h _).put key val
    · simp only [step, StdCache.put, Function.update_of_ne hs]
      exact ⟨fun hi => List.mem_cons_of_mem _ ((h s).stored hi), (h s).counted⟩
  | del key =>
    by_cases hs : s = shardOf key
    · subst hs
      simpa only [step, StdCache.del, Function.update_self, notePut] using (h _).del key
    · simpa only [step, StdCache.del, Function.update_of_ne hs, notePut] using h s
  | clear => exact ⟨nofun, by simp [step, StdCache.clear, CacheShard.clear, occupied]⟩
  | get | size => exact h s

theorem genuine_run (calls : List Request) (h : ∀ s, Genuine l (c s)) (s : Fin 32) :
    Genuine (calls.foldl notePut l) (calls.foldl step c s) := by
  induction calls generalizing l c with
  | nil => exact h s
  | cons r calls ih => exact ih (genuine_step h r)

/-- **The cache makes nothing up**, deletions or not: what `cache.get` finds under a key was put under this key after the
last clear, and `cache.size` is the number of slots that are taken. -/
theorem cache_genuine (calls : List Request) :
    let c := calls.foldl step empty
    (∀ k v, lookup c k = some v → (k, v) ∈ calls.foldl notePut []) ∧
      size c = ∑ s, ((occupied (c s).entries).card : ℤ) ∧ size c ≤ 8192 := by
  intro c
  have h : ∀ s, Genuine (calls.foldl notePut []) (c s) :=
    genuine_run calls fun s => ⟨nofun, by simp [empty, occupied]⟩
  have hsize : size c = ∑ s, ((occupied (c s).entries).card : ℤ) := by
    rw [size_eq_sum]
    exact Finset.sum_congr rfl fun s _ => (h s).counted
  refine ⟨fun k v hv => ?_, hsize, ?_⟩
  · obtain ⟨i, hi⟩ := lookup_eq_some hv
    exact (h _).stored hi
  · have hcard (s : Fin 32) : ((occupied (c s).entries).card : ℤ) ≤ 256 := by
      exact_mod_cast (Finset.card_le_univ _).trans (Fintype.card_fin 256).le
    calc size c = ∑ s, ((occupied (c s).entries).card : ℤ) := hsize
      _ ≤ ∑ _s : Fin 32, (256 : ℤ) := Finset.sum_le_sum fun s _ => hcard s
      _ = 8192 := by simp

end Genuine

end Fluxa.StdCache
