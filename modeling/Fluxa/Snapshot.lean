import Fluxa.PrstPool
import Mathlib.Data.List.Nodup

/-! Snapshots of the pool. From a snapshot that was taken of a pool the reader gives the pool back, exactly
if no two entries share a name. Whatever the bytes are, the reader ends, stays inside the buffer and leaves
a pool of distinct names whose values have their declared types. -/

namespace Fluxa

open Wire Stored Cursor EntryName

section Restore

def PrstPool.names (p : PrstPool) : List EntryName := p.map (·.name)

theorem prstPoolFind_eq_none {p : PrstPool} {name : EntryName} :
    prstPoolFind p name.toCString = none ↔ name ∉ p.names := by
  have heq : ∀ n : EntryName, n.toCString = name.toCString ↔ n = name := fun n => by cases n; cases name; simp
  simp [prstPoolFind, PrstPool.names, List.findIdx?_eq_none_iff, heq]

@[simp] theorem EntryName.cut_toCString (name : EntryName) : cut name.toCString = name := by
  obtain ⟨⟨bytes, noNul⟩, short⟩ := name
  simp [cut, CString.take, List.take_of_length_le short]

theorem names_modify (p : PrstPool) (i : ℕ) {f : PoolEntry → PoolEntry} (hf : ∀ e, (f e).name = e.name) :
    PrstPool.names (p.modify i f) = p.names := by
  refine List.ext_getElem (by simp [PrstPool.names]) fun k _ _ => ?_
  by_cases hk : i = k <;> simp [PrstPool.names, hk, hf]

theorem new_of_distinct {p : PrstPool} {e : PoolEntry} {es : List PoolEntry} (h : (PrstPool.names (p ++ e :: es)).Nodup) :
    e.name ∉ p.names := by
  simp only [PrstPool.names, List.map_append, List.map_cons] at h
  exact fun he => (List.nodup_append.mp h).2.2 _ he _ List.mem_cons_self rfl

/-- The entry of a snapshot in the place of an entry of the same name. -/
def PoolEntry.replaceBy (e x : PoolEntry) : PoolEntry := { e with name := x.name }

/-- What restoring an entry does to the pool: nothing, a new entry at the end, or the contents of the
entry in the place of those of another one. -/
inductive Restored (p : PrstPool) (e : PoolEntry) : PrstPool → Prop
  | refused : Restored p e p
  | added (h : e.name ∉ p.names) : Restored p e (p ++ [e])
  | replaced (i : ℕ) (h : i < p.length) : Restored p e (p.modify i e.replaceBy)

theorem prstRestoreEntry_of_new {p : PrstPool} {e : PoolEntry} (h : e.name ∉ p.names) :
    prstRestoreEntry p e = p ++ [e] := by
  simp [prstRestoreEntry, prstPoolSet, prstPoolFind_eq_none.mpr h, List.modify_eq_set_getElem?]

theorem restored (p : PrstPool) (e : PoolEntry) : Restored p e (prstRestoreEntry p e) := by
  cases hfind : prstPoolFind p e.name.toCString with
  | none =>
    have hnew := prstPoolFind_eq_none.mp hfind
    rw [prstRestoreEntry_of_new hnew]
    exact .added hnew
  | some i =>
    obtain ⟨hi, -⟩ := List.findIdx?_eq_some_iff_getElem.mp hfind
    by_cases hany : (p[i]?).any (·.declaredType != e.value.type.tag)
    · simp only [prstRestoreEntry, prstPoolSet, hfind, hany, if_true]
      exact .refused
    · simp only [prstRestoreEntry, prstPoolSet, hfind, hany, Bool.false_eq_true, if_false,
        List.modify_modify_eq]
      exact .replaced i hi

end Restore

section Hostile

/-- A value read under a tag has the type of the tag, or is nil. -/
def Stored.Typed (v : Stored) (dt : Int32) : Prop := v = .nil ∨ v.type.tag = dt

theorem typed_scalarOf (dt : Int32) (iv : Int64) (fv : UInt64) (bv : Int32) (s : List UInt8) :
    (scalarOf dt iv fv bv s).Typed dt := by
  unfold scalarOf Typed
  split_ifs <;> simp_all [type]

variable {b : Buffer}

theorem meets_text {fuel n : ℕ} (dt : Int32) :
    Meets b (prstDeserText b dt n) (Within b fuel n) fun _ => Within b fuel 0 := by
  unfold prstDeserText
  split
  · exact (meets_bytes (n := 0)).mono (fun c h => h) fun _ c h => h.mono (by omega) le_rfl
  · exact (meets_skip (n := 0)).bind fun _ => meets_pure fun c h => h

/-- The reader of a value stays in the buffer, and more fuel than there are bytes left lasts. -/
theorem meets_value (dt : Int32) : ∀ fuel, Meets b (prstDeserValue b fuel dt) (Within b fuel 0)
    fun v c => c.Within b fuel 0 ∧ v.Typed dt := by
  intro fuel
  induction fuel generalizing dt with
  | zero =>
    intro c hc
    exact absurd hc.fueled (Nat.not_lt.mpr hc.left)
  | succ fuel ih =>
    have h64 : ∀ {n : ℕ}, Meets b (int64 b) (Within b (fuel + 1) (8 + n))
        fun _ => Within b fuel n :=
      meets_bytes.map.mono (fun c h => h) fun _ c h => h.mono (by omega) le_rfl
    have hf64 : ∀ {n : ℕ}, Meets b (uint64 b) (Within b fuel (8 + n)) fun _ => Within b fuel n :=
      meets_bytes.map.mono (fun c h => h) fun _ c h => h.mono (by omega) le_rfl
    have h32 : ∀ {n : ℕ}, Meets b (int32 b) (Within b fuel (4 + n)) fun _ => Within b fuel n :=
      meets_bytes.map.mono (fun c h => h) fun _ c h => h.mono (by omega) le_rfl
    have hdone : ∀ {v : Stored} {c : Cursor}, v.Typed dt → c.Within b fuel 0 →
        c.Within b (fuel + 1) 0 ∧ v.Typed dt := fun hv hc => ⟨hc.mono (by omega) le_rfl, hv⟩
    refine (meets_require (n := 24)).bind fun _ => ?_
    refine (h64 (n := 16)).bind fun iv => (hf64 (n := 8)).bind fun fv => (h32 (n := 4)).bind fun bv =>
      (h32 (n := 0)).bind fun sl => ?_
    split
    · exact meets_cut fun c hc => hc.toSafe
    refine meets_require.bind fun _ => (meets_text dt).bind fun s => (meets_fits (n := 4)).bind fun ok => ?_
    cases ok with
    | false => exact meets_pure fun c hc => hdone (typed_scalarOf ..) hc
    | true =>
      refine (h32 (n := 0)).bind fun arrCount => ?_
      split
      · exact meets_cut fun c hc => hc.toSafe
      refine (meets_times ?_ (fun c hc => hc.toSafe) _).bind fun elems => meets_pure fun c hc => hdone ?_ hc
      · refine (meets_require (n := 4)).bind fun _ => (h32 (n := 0)).bind fun etag => ?_
        exact (ih etag).mono (fun c hc => hc) fun _ c hc => hc.1
      · split
        next h => exact .inr h.2.symm
        next => exact typed_scalarOf ..

theorem meets_entry (fuel : ℕ) : Meets b (prstDeserEntry b fuel) (Within b fuel 0)
    fun e c => c.Within b fuel 0 ∧ e.value.Typed e.declaredType := by
  have h32 : ∀ {n : ℕ}, Meets b (int32 b) (Within b fuel (4 + n)) fun _ => Within b fuel n :=
    meets_bytes.map.mono (fun c h => h) fun _ c h => h.mono (by omega) le_rfl
  have hname : Meets b (bytes b 256) (Within b fuel 264) fun _ => Within b fuel 8 :=
    (meets_bytes (n := 8)).mono (fun c h => h) fun _ c h => h.mono (by omega) le_rfl
  refine (meets_require (n := 264)).bind fun _ => hname.bind fun name => ?_
  refine (h32 (n := 4)).bind fun dt => (h32 (n := 0)).bind fun so => (meets_value dt fuel).bind fun v => ?_
  intro c hc
  exact ((meets_value dt fuel).bind fun iv => meets_pure fun c' hc' => ⟨hc'.1, hc.2⟩) c hc.1

/-- The entries of the pool have different names, and values of their declared types. -/
structure PrstPool.Sound (p : PrstPool) : Prop where
  distinct : p.names.Nodup
  typed : ∀ e ∈ p, e.value.Typed e.declaredType

theorem Restored.sound {p p' : PrstPool} {e : PoolEntry} (h : Restored p e p') (hp : p.Sound)
    (he : e.value.Typed e.declaredType) : p'.Sound := by
  cases h with
  | refused => exact hp
  | added hnew =>
    refine ⟨?_, fun x hx => ?_⟩
    · have hnames : PrstPool.names (p ++ [e]) = p.names ++ [e.name] := by simp [PrstPool.names]
      rw [hnames]
      refine List.nodup_append.mpr ⟨hp.distinct, by simp, ?_⟩
      rintro a ha x hx rfl
      exact hnew (List.mem_singleton.mp hx ▸ ha)
    · rcases List.mem_append.mp hx with hx | hx
      · exact hp.typed x hx
      · rwa [List.mem_singleton.mp hx]
  | replaced i hi =>
    refine ⟨?_, fun x hx => ?_⟩
    · rw [names_modify p i (fun _ => rfl : ∀ x, (e.replaceBy x).name = x.name)]
      exact hp.distinct
    · rcases mem_modify hx with hx | ⟨y, -, rfl⟩
      · exact hp.typed x hx
      · exact he

theorem Restored.length_le {p p' : PrstPool} {e : PoolEntry} (h : Restored p e p') : p'.length ≤ p.length + 1 := by
  cases h <;> simp

theorem meets_entries (fuel : ℕ) : ∀ n (p : PrstPool), p.Sound →
    Meets b (prstDeserEntries b fuel n p) (Within b fuel 0)
      fun r c => c.Safe b ∧ r.2.Sound ∧ r.2.length ≤ p.length + n
  | 0, p, hp => meets_pure fun c hc => ⟨hc.toSafe, hp, le_rfl⟩
  | n + 1, p, hp => by
      refine (meets_attempt (meets_entry fuel)).bind fun o => ?_
      cases o with
      | none => exact meets_pure fun c hc => ⟨hc, hp, Nat.le_add_right ..⟩
      | some e =>
        intro c hc
        have hrest := meets_entries fuel n (prstRestoreEntry p e) ((restored p e).sound hp hc.2)
        have hlen := (restored p e).length_le
        exact hrest.mono (fun c h => h) (fun r c h => ⟨h.1, h.2.1, by have := h.2.2; omega⟩) c hc.1

/-- The first entry that cannot be read ends the reading. -/
theorem prstDeserEntries_succ (fuel n : ℕ) (p : PrstPool) (c : Cursor) : prstDeserEntries b fuel (n + 1) p c =
    match prstDeserEntry b fuel c with
    | (none, c') => (some (false, p), c')
    | (some e, c') => prstDeserEntries b fuel n (prstRestoreEntry p e) c' := by
  rw [prstDeserEntries, Cutoff.bind_apply, attempt]
  rcases prstDeserEntry b fuel c with ⟨_ | e, c'⟩ <;> rfl

theorem prstDeserEntries_answers (fuel : ℕ) : ∀ n (p : PrstPool) (c : Cursor),
    ∃ ok p' c', prstDeserEntries b fuel n p c = (some (ok, p'), c')
  | 0, p, c => ⟨true, p, c, rfl⟩
  | n + 1, p, c => by
      rw [prstDeserEntries_succ]
      rcases prstDeserEntry b fuel c with ⟨_ | e, c'⟩
      · exact ⟨false, p, c', rfl⟩
      · exact prstDeserEntries_answers fuel n (prstRestoreEntry p e) c'

/-- The number of entries a snapshot declares, if it is one the reader accepts. -/
def acceptedCount (b : Buffer) : Option ℕ :=
  let cnt := int32OfLE (b.slice 0 4)
  if 4 ≤ b.size ∧ ¬(cnt < 0 ∨ 65536 < cnt) then some cnt.toNatClampNeg else none

def afterCount : Cursor := ⟨4, [(0, 4)], false⟩

/-- A snapshot is refused for its first bytes, or its entries are read into an empty pool. -/
theorem prstPoolDeserializeIn_cases (b : Buffer) (frames : ℕ) (p : PrstPool) :
    (acceptedCount b = none ∧ ∃ c, c.Safe b ∧ prstPoolDeserializeIn b frames p .start = (some (false, p), c)) ∨
      ∃ n, acceptedCount b = some n ∧ afterCount.Within b (b.size + 1) 0 ∧
        prstPoolDeserializeIn b frames p .start = prstDeserEntries b frames n [] afterCount := by
  by_cases hsize : 4 ≤ b.size
  · have hfits : fits b 4 .start = (some true, .start) := by simp [fits, start, hsize]
    have hcount : int32 b .start = (some (int32OfLE (b.slice 0 4)), afterCount) := rfl
    have hafter : afterCount.Within b (b.size + 1) 0 :=
      ⟨⟨by simpa [afterCount] using hsize, rfl⟩, hsize, by show b.size < 4 + (b.size + 1); omega⟩
    simp only [prstPoolDeserializeIn, Cutoff.bind_of_some hfits, if_true, Cutoff.bind_of_some hcount, acceptedCount,
      hsize, true_and]
    by_cases hbad : int32OfLE (b.slice 0 4) < 0 ∨ 65536 < int32OfLE (b.slice 0 4)
    · exact .inl ⟨by simp [hbad], afterCount, hafter.toSafe, by rw [if_pos hbad]; rfl⟩
    · exact .inr ⟨_, if_pos hbad, hafter, by rw [if_neg hbad]⟩
  · have hfits : fits b 4 .start = (some false, .start) := by simp [fits, start, hsize]
    refine .inl ⟨by simp [acceptedCount, hsize], .start, ⟨by simp [start], rfl⟩, ?_⟩
    simp [prstPoolDeserializeIn, Cutoff.bind_of_some hfits]

theorem prstPoolDeserialize_cases (b : Buffer) (p : PrstPool) :
    (acceptedCount b = none ∧ ∃ c, c.Safe b ∧ prstPoolDeserialize b p .start = (some (false, p), c)) ∨
      ∃ n, acceptedCount b = some n ∧ afterCount.Within b (b.size + 1) 0 ∧
        prstPoolDeserialize b p .start = prstDeserEntries b (b.size + 1) n [] afterCount :=
  prstPoolDeserializeIn_cases b (b.size + 1) p

/-- The entries of a snapshot are read to an end, which leaves a sound pool. -/
theorem prstDeserEntries_sound {n : ℕ} {c : Cursor} (hc : c.Within b (b.size + 1) 0) :
    ∃ ok p' c', prstDeserEntries b (b.size + 1) n [] c = (some (ok, p'), c') ∧ c'.Safe b ∧
      PrstPool.Sound p' ∧ p'.length ≤ n := by
  obtain ⟨ok, p', c', hrun⟩ := prstDeserEntries_answers (b := b) (b.size + 1) n [] c
  have hempty : PrstPool.Sound [] := ⟨List.nodup_nil, by simp⟩
  have hmeets := meets_entries (b.size + 1) n [] hempty c hc
  rw [hrun] at hmeets
  exact ⟨ok, p', c', hrun, hmeets.1, by simpa using hmeets.2⟩

theorem sound_of_read {p q : PrstPool} (h : (prstPoolDeserialize b q .start).1 = some (true, p)) : p.Sound := by
  obtain ⟨-, c, -, hrun⟩ | ⟨n, -, hc, hrun⟩ := prstPoolDeserialize_cases b q
  · rw [hrun] at h
    cases h
  · obtain ⟨ok, p', c', hentries, -, hsound, -⟩ := prstDeserEntries_sound (n := n) hc
    rw [hrun, hentries] at h
    cases h
    exact hsound

/-- **Any bytes are safe to read as a snapshot.** The reader ends, and reads inside the buffer only. If the
declared number of entries is accepted, it leaves a sound pool of at most that many; otherwise it fails and
leaves the pool as it was. -/
theorem prstPoolDeserialize_safe (b : Buffer) (p : PrstPool) :
    ∃ ok p' c, prstPoolDeserialize b p .start = (some (ok, p'), c) ∧ c.Safe b ∧
      match acceptedCount b with
      | some n => PrstPool.Sound p' ∧ p'.length ≤ n
      | none => ok = false ∧ p' = p := by
  obtain ⟨hcount, c, hsafe, hrun⟩ | ⟨n, hcount, hc, hrun⟩ := prstPoolDeserialize_cases b p
  · exact ⟨false, p, c, hrun, hsafe, by simp [hcount]⟩
  · obtain ⟨ok, p', c', hentries, hsafe, hsound⟩ := prstDeserEntries_sound (n := n) hc
    exact ⟨ok, p', c', hrun.trans hentries, hsafe, by simpa only [hcount] using hsound⟩

end Hostile

section RoundTrip

variable {b : Buffer}

namespace Stored

def elems : Stored → List Stored
  | arr es => es
  | _ => []

/-- The values a snapshot holds in full. -/
inductive Snapshotable : Stored → Prop
  | int (i : Int64) : Snapshotable (int i)
  | float (bits : UInt64) : Snapshotable (float bits)
  | bool (b : Int32) : Snapshotable (bool b)
  | str (s : CString) (h : s.bytes.length < 2 ^ 31) : Snapshotable (str s)
  | arr (es : List Stored) (hne : es ≠ []) (hlen : es.length ≤ 65536) (h : ∀ v ∈ es, Snapshotable v) :
      Snapshotable (arr es)

mutual

def carried : Stored → Stored
  | .arr [] => .nil
  | .arr (e :: es) => .arr (e.carried :: carriedAll es)
  | .ref _ _ => .nil
  | .nil => .nil
  | .int i => .int i
  | .float bits => .float bits
  | .bool x => .bool x
  | .str s => .str s

def carriedAll : List Stored → List Stored
  | [] => []
  | e :: es => e.carried :: carriedAll es

end

theorem carriedAll_eq_map (es : List Stored) : carriedAll es = es.map carried := by
  induction es with
  | nil => rfl
  | cons e es ih => rw [carriedAll, ih, List.map_cons]

theorem carried_arr {es : List Stored} (h : es ≠ []) : (arr es).carried = .arr (es.map carried) := by
  cases es with
  | nil => exact absurd rfl h
  | cons e es => rw [carried, carriedAll_eq_map, List.map_cons]

/-- Strings and arrays of the sizes a snapshot can have. -/
inductive Bounded : Stored → Prop
  | nil : Bounded nil
  | int (i : Int64) : Bounded (int i)
  | float (bits : UInt64) : Bounded (float bits)
  | bool (x : Int32) : Bounded (bool x)
  | str (s : CString) (h : s.bytes.length < 2 ^ 31) : Bounded (str s)
  | arr (es : List Stored) (hlen : es.length ≤ 65536) (h : ∀ v ∈ es, Bounded v) : Bounded (arr es)
  | ref (kind : RefKind) (addr : ℕ) : Bounded (ref kind addr)

theorem Snapshotable.carried_eq {v : Stored} (h : v.Snapshotable) : v.carried = v := by
  induction h with
  | int | float | bool | str => rfl
  | arr es hne hlen h ih => rw [carried_arr hne, List.map_congr_left ih, List.map_id']

theorem Snapshotable.bounded {v : Stored} (h : v.Snapshotable) : v.Bounded := by
  induction h with
  | int i => exact .int i
  | float bits => exact .float bits
  | bool x => exact .bool x
  | str s h => exact .str s h
  | arr es hne hlen h ih => exact .arr es hlen ih

theorem Bounded.carried {v : Stored} (h : v.Bounded) : v.carried.Bounded := by
  induction h with
  | nil => exact .nil
  | int i => exact .int i
  | float bits => exact .float bits
  | bool x => exact .bool x
  | str s h => exact .str s h
  | ref kind addr => exact .nil
  | arr es hlen h ih =>
    by_cases hne : es = []
    · subst hne
      exact .nil
    · rw [carried_arr hne]
      refine .arr _ (by rwa [List.length_map]) fun v hv => ?_
      obtain ⟨w, hw, rfl⟩ := List.mem_map.mp hv
      exact ih w hw

/-- The types whose values fill a field of the block. -/
def scalarTypes : List ValType := [.int, .float, .bool, .string]

/-- The value has the declared type, or is nil where the declared type has no field in the block: a headstone. -/
def Under (v : Stored) (dt : Int32) : Prop := v.type.tag = dt ∨ (v = .nil ∧ ∀ t ∈ scalarTypes, t.tag ≠ dt)

theorem tag_ref_ne (kind : RefKind) : ∀ t ∈ scalarTypes, t.tag ≠ kind.type.tag := by
  cases kind <;> decide

theorem Under.carried {v : Stored} {dt : Int32} (h : v.Under dt) : v.carried.Under dt := by
  rcases h with rfl | ⟨rfl, hdt⟩
  · cases v with
    | arr es =>
      cases es with
      | nil => exact .inr ⟨rfl, by decide⟩
      | cons e es => exact .inl rfl
    | ref kind addr => exact .inr ⟨rfl, tag_ref_ne kind⟩
    | _ => exact .inl rfl
  · exact .inr ⟨rfl, hdt⟩

end Stored

theorem prstSerValue_eq (v : Stored) : prstSerValue v =
    int64LE v.intVal ++ (uint64LE v.floatVal ++ (int32LE v.boolVal ++ (int32LE (.ofNat v.text.length) ++
      (v.text.take (Int32.ofNat v.text.length).toNatClampNeg ++
        (int32LE (.ofNat v.elems.length) ++ prstSerElems v.elems))))) := by
  cases v <;> simp [prstSerValue, prstSerScalars, elems, prstSerElems]

theorem prstSerElems_eq (vs : List Stored) :
    prstSerElems vs = vs.flatMap fun v => int32LE v.type.tag ++ prstSerValue v := by
  induction vs with
  | nil => rfl
  | cons v vs ih => simp [prstSerElems, ih]

@[simp] theorem ValType.tag_inj {s t : ValType} : s.tag = t.tag ↔ s = t := by
  cases s <;> cases t <;> decide

variable {v : Stored} {fuel : ℕ} {e : PoolEntry} {p : PrstPool}

theorem Stored.text_of_ne (h : v.type ≠ .string) : v.text = [] := by
  cases v <;> simp_all [text, type]

theorem decodes_text (v : Stored) : Decodes b (prstDeserText b v.type.tag v.text.length) v.text v.text := by
  by_cases h : v.type = .string
  · rw [prstDeserText, if_pos (ValType.tag_inj.mpr h)]
    exact decodes_bytes v.text
  · rw [prstDeserText, if_neg (mt ValType.tag_inj.mp h), text_of_ne h]
    exact (decodes_skip []).bind (decodes_pure [])

theorem ofNat_not_neg {n : ℕ} (h : n < 2 ^ 31) : ¬Int32.ofNat n < 0 := by
  rw [Int32.lt_iff_toInt_lt, Int32.toInt_ofNat_of_lt h]
  simp

theorem ofNat_in_limit {n : ℕ} (h : n ≤ 65536) : ¬(Int32.ofNat n < 0 ∨ 65536 < Int32.ofNat n) := by
  rw [Int32.lt_iff_toInt_lt, Int32.lt_iff_toInt_lt, Int32.toInt_ofNat_of_lt (by omega)]
  simp
  omega

theorem take_text (h : v.text.length < 2 ^ 31) : v.text.take (Int32.ofNat v.text.length).toNatClampNeg = v.text := by
  rw [Int32.toNatClampNeg_ofNat_of_lt h, List.take_length]

theorem length_prstSerElems_lt {es : List Stored} (h : (prstSerValue (.arr es)).length < fuel + 1) :
    (prstSerElems es).length < fuel := by
  rw [prstSerValue_eq] at h
  simp only [List.length_append, length_int64LE, length_int32LE, elems] at h
  omega

theorem decodes_block {dt : Int32} {es : List Stored} (hlength : v.text.length < 2 ^ 31)
    (hcount : v.elems.length ≤ 65536) (htext : Decodes b (prstDeserText b dt v.text.length) v.text v.text)
    (helems : Decodes b (times v.elems.length (prstDeserElem b (prstDeserValue b fuel))) (prstSerElems v.elems) es) :
    Decodes b (prstDeserValue b (fuel + 1) dt) (prstSerValue v)
      (if 0 < Int32.ofNat v.elems.length ∧ dt = ValType.arr.tag then .arr es
        else scalarOf dt v.intVal v.floatVal v.boolVal v.text) := by
  rw [prstSerValue_eq, take_text hlength, prstDeserValue]
  refine Decodes.require ?_ (by simp; omega)
  refine (decodes_int64 _).bind ((decodes_uint64 _).bind ((decodes_int32 _).bind ((decodes_int32 _).bind ?_)))
  rw [if_neg (ofNat_not_neg hlength), Int32.toNatClampNeg_ofNat_of_lt hlength]
  refine Decodes.require (htext.bind (Decodes.fits ?_ (by simp))) (by simp)
  refine (decodes_int32 _).bind ?_
  rw [if_neg (ofNat_in_limit hcount), Int32.toNatClampNeg_ofNat_of_lt (by omega), ← List.append_nil (prstSerElems _)]
  exact helems.bind (decodes_pure _)

theorem CString.ofBuffer_bytes (s : CString) : CString.ofBuffer s.bytes = s := by
  obtain ⟨bytes, noNul⟩ := s
  have hall : ∀ x ∈ bytes, (x != 0) = true := fun x hx => bne_iff_ne.mpr fun h => noNul (h ▸ hx)
  simp only [CString.ofBuffer, List.takeWhile_eq_self_iff.mpr hall]

theorem length_prstSerValue_lt : ∀ {vs : List Stored}, v ∈ vs →
    (prstSerValue v).length < (prstSerElems vs).length
  | x :: xs, h => by
      rw [prstSerElems, List.length_append, List.length_append, length_int32LE]
      rcases List.mem_cons.mp h with rfl | h
      · omega
      · have := length_prstSerValue_lt h
        omega

theorem scalarOf_nil (dt : Int32) (h : ∀ t ∈ scalarTypes, t.tag ≠ dt) (iv : Int64) (fv : UInt64) (bv : Int32)
    (s : List UInt8) : scalarOf dt iv fv bv s = .nil := by
  rw [scalarOf, if_neg (h .int (by decide)).symm, if_neg (h .float (by decide)).symm, if_neg (h .bool (by decide)).symm,
    if_neg (h .string (by decide)).symm]

theorem decodes_noText (dt : Int32) : Decodes b (prstDeserText b dt 0) [] [] := by
  rw [prstDeserText]
  split
  · exact decodes_bytes []
  · exact (decodes_skip []).bind (decodes_pure [])

/-- A value without elements arrives as what its scalar fields give under the tag. -/
theorem decodes_fields (dt : Int32) (hlength : v.text.length < 2 ^ 31) (helems : v.elems = [])
    (htext : Decodes b (prstDeserText b dt v.text.length) v.text v.text) (hfuel : 0 < fuel) :
    Decodes b (prstDeserValue b fuel dt) (prstSerValue v) (scalarOf dt v.intVal v.floatVal v.boolVal v.text) := by
  obtain ⟨fuel, rfl⟩ := Nat.exists_eq_succ_of_ne_zero hfuel.ne'
  have hblock : Decodes b (prstDeserValue b (fuel + 1) dt) (prstSerValue v) _ :=
    decodes_block hlength (by simp [helems]) htext (by rw [helems]; exact decodes_pure [])
  rwa [helems, if_neg (fun h => absurd h.1 (by decide))] at hblock

/-- Every value within the bounds is read to its end, and arrives as far as a snapshot carries it. -/
theorem decodes_carried (hv : v.Bounded) : ∀ {dt : Int32} {fuel : ℕ}, v.Under dt →
    (prstSerValue v).length < fuel → Decodes b (prstDeserValue b fuel dt) (prstSerValue v) v.carried := by
  induction hv with
  | nil =>
    intro dt fuel hdt hfuel
    have hfields := decodes_fields (b := b) (v := .nil) dt (by decide) rfl (decodes_noText dt) (Nat.zero_lt_of_lt hfuel)
    rwa [scalarOf_nil dt (by rcases hdt with rfl | ⟨_, h⟩ <;> [decide; exact h])] at hfields
  | int | float | bool =>
    rintro dt fuel (rfl | ⟨h, _⟩) hfuel
    · exact decodes_fields _ (Nat.two_pow_pos 31) rfl (decodes_text _) (Nat.zero_lt_of_lt hfuel)
    · cases h
  | str s h =>
    rintro dt fuel (rfl | ⟨h', _⟩) hfuel
    · have hfields := decodes_fields (b := b) (v := .str s) _ h rfl (decodes_text _) (Nat.zero_lt_of_lt hfuel)
      have hback : scalarOf (str s).type.tag (str s).intVal (str s).floatVal (str s).boolVal
          (str s).text = .str s := congrArg str s.ofBuffer_bytes
      rwa [hback] at hfields
    · cases h'
  | ref kind addr =>
    rintro dt fuel (rfl | ⟨h, _⟩) hfuel
    · have hfields := decodes_fields (b := b) (v := .ref kind addr) kind.type.tag (Nat.two_pow_pos 31) rfl
        (decodes_text _) (Nat.zero_lt_of_lt hfuel)
      rwa [scalarOf_nil _ (tag_ref_ne kind)] at hfields
    · cases h
  | arr es hlen h ih =>
    rintro dt fuel (rfl | ⟨h', _⟩) hfuel
    · by_cases hne : es = []
      · subst hne
        have hfields := decodes_fields (b := b) (v := .arr []) ValType.arr.tag (by decide) rfl (decodes_text _)
          (Nat.zero_lt_of_lt hfuel)
        rwa [scalarOf_nil _ (by decide)] at hfields
      · obtain ⟨fuel, rfl⟩ := Nat.exists_eq_succ_of_ne_zero (Nat.ne_zero_of_lt hfuel)
        have hshorter : (prstSerElems es).length < fuel := length_prstSerElems_lt hfuel
        have helem : ∀ v ∈ es, Decodes b (prstDeserElem b (prstDeserValue b fuel))
            (int32LE v.type.tag ++ prstSerValue v) v.carried := fun v hv =>
          ((decodes_int32 _).bind (ih v hv (.inl rfl) ((length_prstSerValue_lt hv).trans hshorter))).require (by simp)
        have helems : Decodes b (times es.length (prstDeserElem b (prstDeserValue b fuel))) (prstSerElems es)
            (es.map carried) := by
          rw [prstSerElems_eq]
          exact decodes_times_map helem
        have hpos : 0 < Int32.ofNat es.length := by
          rw [Int32.lt_iff_toInt_lt, Int32.toInt_ofNat_of_lt (by omega)]
          simpa using List.length_pos_iff.mpr hne
        have hblock := decodes_block (v := .arr es) (Nat.two_pow_pos 31) hlen (decodes_text (.arr es)) helems
        rw [if_pos ⟨hpos, rfl⟩] at hblock
        rwa [carried_arr hne]
    · cases h'

/-- A value that a snapshot holds in full is read back, with fuel for its bytes. -/
theorem decodes_value (hv : v.Snapshotable) (hfuel : (prstSerValue v).length < fuel) :
    Decodes b (prstDeserValue b fuel v.type.tag) (prstSerValue v) v := by
  have hcarried := decodes_carried (b := b) hv.bounded (.inl rfl) hfuel
  rwa [hv.carried_eq] at hcarried

/-- An entry as the operations of the pool leave it. -/
structure PoolEntry.Snapshotable (e : PoolEntry) : Prop where
  value : e.value.Snapshotable
  initValue : e.initValue.Snapshotable
  declared : e.value.type.tag = e.declaredType
  initDeclared : e.initValue.type.tag = e.declaredType

theorem EntryName.length_buffer (name : EntryName) (slack : ℕ → UInt8) : (name.buffer slack).length = 256 := by
  have := name.short
  simp [buffer]
  omega

theorem EntryName.ofBuffer_buffer (name : EntryName) (slack : ℕ → UInt8) :
    ofBuffer (name.buffer slack) = name := by
  obtain ⟨⟨bytes, noNul⟩, short⟩ := name
  have hall : ∀ x ∈ bytes, (x != 0) = true := fun x hx => bne_iff_ne.mpr fun h => noNul (h ▸ hx)
  have hend : ∀ (n : ℕ) (l : List UInt8), ((0 :: l).take n).takeWhile (· != 0) = [] := by
    intro n l
    cases n <;> rfl
  simp only [ofBuffer, buffer, CString.ofBuffer, List.take_append, List.take_of_length_le short,
    List.takeWhile_append_of_pos hall, hend, List.append_nil]

def PoolEntry.carried (e : PoolEntry) : PoolEntry :=
  { e with value := e.value.carried, initValue := e.initValue.carried }

/-- An entry as the operations of the pool leave it, whatever it holds. -/
structure PoolEntry.Bounded (e : PoolEntry) : Prop where
  value : e.value.Bounded
  initValue : e.initValue.Bounded
  declared : e.value.Under e.declaredType
  initDeclared : e.initValue.Under e.declaredType

theorem PoolEntry.Bounded.carried (h : e.Bounded) : e.carried.Bounded :=
  ⟨h.value.carried, h.initValue.carried, h.declared.carried, h.initDeclared.carried⟩

theorem decodes_carriedEntry (he : e.Bounded) (slack : ℕ → UInt8)
    (hfuel : (prstSerEntry slack e).length < fuel) :
    Decodes b (prstDeserEntry b fuel) (prstSerEntry slack e) e.carried := by
  simp only [prstSerEntry, List.length_append] at hfuel
  have hvalue : Decodes b (prstDeserValue b fuel e.declaredType) (prstSerValue e.value) e.value.carried :=
    decodes_carried he.value he.declared (by omega)
  have hinit : Decodes b (prstDeserValue b fuel e.declaredType) (prstSerValue e.initValue) e.initValue.carried :=
    decodes_carried he.initValue he.initDeclared (by omega)
  have hname := decodes_bytes (b := b) (e.name.buffer slack)
  rw [length_buffer] at hname
  refine Decodes.require ?_ (by simp [prstSerEntry, length_buffer]; omega)
  refine hname.bind ((decodes_int32 _).bind ((decodes_int32 _).bind (hvalue.bind ?_)))
  have hlast := hinit.map fun iv : Stored =>
    (⟨.ofBuffer (e.name.buffer slack), e.value.carried, iv, e.declaredType, e.stackOffset⟩ : PoolEntry)
  rw [ofBuffer_buffer, map_eq_pure_bind] at hlast
  rw [ofBuffer_buffer]
  exact hlast

namespace PoolEntry.Snapshotable

variable {e : PoolEntry}

theorem bounded (he : e.Snapshotable) : e.Bounded :=
  ⟨he.value.bounded, he.initValue.bounded, .inl he.declared, .inl he.initDeclared⟩

theorem carried_eq (he : e.Snapshotable) : e.carried = e := by
  rw [carried, he.value.carried_eq, he.initValue.carried_eq]

end PoolEntry.Snapshotable

theorem decodes_entry (he : e.Snapshotable) (slack : ℕ → UInt8)
    (hfuel : (prstSerEntry slack e).length < fuel) : Decodes b (prstDeserEntry b fuel) (prstSerEntry slack e) e := by
  have hcarried := decodes_carriedEntry (b := b) he.bounded slack hfuel
  rwa [he.carried_eq] at hcarried

/-- What the reader makes of entries that were written, whether their names differ or not. -/
def restoreAll (p : PrstPool) (es : List PoolEntry) : PrstPool := (es.map PoolEntry.carried).foldl prstRestoreEntry p

theorem decodes_restoreAll {slack : ℕ → ℕ → UInt8} : ∀ {es : List PoolEntry} {p : PrstPool},
    (∀ e ∈ es, e.Bounded) → (prstSerEntries slack es).length < fuel →
    Decodes b (prstDeserEntries b fuel es.length p) (prstSerEntries slack es) (true, restoreAll p es)
  | [], p, _, _ => decodes_pure (true, p)
  | e :: es, p, hes, hfuel => by
      rw [prstSerEntries, List.length_append] at hfuel
      have hentry : Decodes b (prstDeserEntry b fuel) (prstSerEntry (slack es.length) e) e.carried :=
        decodes_carriedEntry (hes e List.mem_cons_self) _ (by omega)
      have hrest : Decodes b (prstDeserEntries b fuel es.length (prstRestoreEntry p e.carried)) (prstSerEntries slack es)
          (true, restoreAll (prstRestoreEntry p e.carried) es) :=
        decodes_restoreAll (fun x hx => hes x (List.mem_cons_of_mem e hx)) (by omega)
      rw [List.length_cons, prstDeserEntries, prstSerEntries]
      exact hentry.attempt.bind hrest

theorem names_map_carried (es : List PoolEntry) : PrstPool.names (es.map PoolEntry.carried) = PrstPool.names es := by
  rw [PrstPool.names, List.map_map]
  rfl

theorem foldl_restore_of_distinct : ∀ {es : List PoolEntry} {p : PrstPool}, (PrstPool.names (p ++ es)).Nodup →
    es.foldl prstRestoreEntry p = p ++ es
  | [], p, _ => (List.append_nil p).symm
  | e :: es, p, hnames => by
      have hnew : e.name ∉ p.names := new_of_distinct hnames
      rw [List.foldl_cons, prstRestoreEntry_of_new hnew, foldl_restore_of_distinct (by simpa using hnames),
        List.append_assoc, List.singleton_append]

theorem restoreAll_of_distinct {es : List PoolEntry} (hnames : (PrstPool.names es).Nodup) :
    restoreAll [] es = es.map PoolEntry.carried := by
  rw [← names_map_carried] at hnames
  exact foldl_restore_of_distinct hnames

/-- The reader on the section of a pool, whatever its own pool held before. -/
theorem decodes_section {q : PrstPool} (hp : ∀ e ∈ p, e.Bounded) (hlen : p.length ≤ 65536) (slack : ℕ → ℕ → UInt8)
    (hsize : b.size = (prstPoolSerialize slack p).length) :
    Decodes b (prstPoolDeserialize b q) (prstPoolSerialize slack p) (true, restoreAll [] p) := by
  have hfuel : (prstSerEntries slack p).length < b.size + 1 := by
    rw [hsize, prstPoolSerialize, List.length_append]
    omega
  unfold prstPoolDeserialize
  refine Decodes.fits ?_ (by simp [prstPoolSerialize])
  refine (decodes_int32 _).bind ?_
  rw [if_neg (ofNat_in_limit hlen), Int32.toNatClampNeg_ofNat_of_lt (by omega)]
  exact decodes_restoreAll hp hfuel

/-- An entry after `prst_pool_set`: an old one, an old one with the value, or a new one. -/
theorem mem_prstPoolSet {name : CString} (he : e ∈ (prstPoolSet p name v).1) :
    e ∈ p ∨ (∃ x ∈ p, x.declaredType = v.type.tag ∧ e = { x with value := v }) ∨ e = ⟨.cut name, v, v, v.type.tag, -1⟩ := by
  unfold prstPoolSet at he
  split at he
  · split at he
    · exact .inl he
    · rename_i hsame
      rcases mem_modify he with he | ⟨x, hx, rfl⟩
      · exact .inl he
      · exact .inr (.inl ⟨x, List.mem_of_getElem? hx, by simpa [hx] using hsame, rfl⟩)
  · rcases List.mem_append.mp he with he | he
    · exact .inl he
    · exact .inr (.inr (List.mem_singleton.mp he))

theorem mem_prstPoolSetOffset {name : CString} {offset : Int32}
    (he : e ∈ prstPoolSetOffset p name offset) : e ∈ p ∨ ∃ x ∈ p, e = { x with stackOffset := offset } := by
  unfold prstPoolSetOffset at he
  split at he
  · rcases mem_modify he with he | ⟨x, hx, rfl⟩
    · exact .inl he
    · exact .inr ⟨x, List.mem_of_getElem? hx, rfl⟩
  · exact .inl he

/-- The pools that `prst_pool_set` and `prst_pool_set_offset` build from such values. No longer name reaches them:
the lexer cuts identifiers to 255 bytes. -/
inductive Built : PrstPool → Prop
  | init : Built []
  | set {p : PrstPool} (hp : Built p) (name : CString) (hname : name.bytes.length ≤ 255) {v : Stored}
      (hv : v.Snapshotable) : Built (prstPoolSet p name v).1
  | setOffset {p : PrstPool} (hp : Built p) (name : CString) (offset : Int32) :
      Built (prstPoolSetOffset p name offset)

theorem Built.snapshotable (hp : Built p) : ∀ e ∈ p, e.Snapshotable := by
  induction hp with
  | init => simp
  | set hp name _ hv ih =>
    intro e he
    rcases mem_prstPoolSet he with he | ⟨x, hx, htype, rfl⟩ | rfl
    · exact ih e he
    · exact ⟨hv, (ih x hx).initValue, htype.symm, (ih x hx).initDeclared⟩
    · exact ⟨hv, hv, rfl, rfl⟩
  | setOffset hp name offset ih =>
    intro e he
    rcases mem_prstPoolSetOffset he with he | ⟨x, hx, rfl⟩
    · exact ih e he
    · exact ⟨(ih x hx).value, (ih x hx).initValue, (ih x hx).declared, (ih x hx).initDeclared⟩

theorem names_prstPoolSet {name : CString} (hname : name.bytes.length ≤ 255) (h : p.names.Nodup) :
    (prstPoolSet p name v).1.names.Nodup := by
  rw [prstPoolSet]
  cases hfind : prstPoolFind p name with
  | none =>
    have hcut : cut name = ⟨name, hname⟩ := cut_toCString ⟨name, hname⟩
    have hnew : (⟨name, hname⟩ : EntryName) ∉ p.names := prstPoolFind_eq_none.mp hfind
    simp only [PrstPool.names, List.map_append, hcut] at hnew ⊢
    refine List.nodup_append.mpr ⟨h, List.nodup_singleton _, ?_⟩
    rintro a ha x hx rfl
    rw [List.mem_singleton.mp hx] at ha
    exact hnew ha
  | some i =>
    dsimp only
    split
    · exact h
    · have hnames := names_modify p i (f := fun e => { e with value := v }) fun _ => rfl
      rwa [← hnames] at h

theorem Built.distinct (hp : Built p) : p.names.Nodup := by
  induction hp with
  | init => exact List.nodup_nil
  | set hp name hname hv ih => exact names_prstPoolSet hname ih
  | @setOffset p hp name offset ih =>
    rw [prstPoolSetOffset]
    split
    · next i _ =>
      have hnames := names_modify p i (f := fun e => { e with stackOffset := offset }) fun _ => rfl
      rwa [← hnames] at ih
    · exact ih

/-- Reading the snapshot of a pool gives the pool back, whatever the reader's own pool held before. -/
def RoundTrips (p : PrstPool) : Prop :=
  ∀ (slack : ℕ → ℕ → UInt8) (b : Buffer), b.size = (prstPoolSerialize slack p).length →
    b.At 0 (prstPoolSerialize slack p) → ∀ q, (prstPoolDeserialize b q .start).1 = some (true, p)

/-- **A pool is read back from its snapshot as it was.** -/
theorem built_roundTrips (p : PrstPool) (hp : Built p) (hlen : p.length ≤ 65536) : RoundTrips p := by
  intro slack b hsize hat q
  have hsnap := hp.snapshotable
  have hcarried : p.map PoolEntry.carried = p := (List.map_congr_left fun e he => (hsnap e he).carried_eq).trans p.map_id'
  obtain ⟨reads, hrun⟩ := decodes_section (q := q) (fun e he => (hsnap e he).bounded) hlen slack hsize .start hat
  rw [hrun, restoreAll_of_distinct hp.distinct, hcarried]

theorem n_noNul : 0 ∉ ([110] : List UInt8) := by decide

/-- `prst int n = 5` with slot 2, and an array of arrays. -/
def nestedPool : PrstPool :=
  (prstPoolSet (prstPoolSetOffset (prstPoolSet [] ⟨[110], by decide⟩ (.int 5)).1 ⟨[110], by decide⟩ 2)
    ⟨[109], by decide⟩ (.arr [.arr [.bool 1, .str ⟨[104, 105], by decide⟩], .float 4607182418800017408])).1

theorem nestedPool_roundTrips : RoundTrips nestedPool := by
  refine built_roundTrips nestedPool ?_ (by decide)
  have hinner : (arr [.bool 1, .str ⟨[104, 105], by decide⟩]).Snapshotable := by
    refine .arr _ (by simp) (by simp) fun v hv => ?_
    rcases List.mem_pair.mp hv with rfl | rfl
    · exact .bool 1
    · exact .str _ (by decide)
  refine .set (.setOffset (.set .init _ (by decide) (.int 5)) _ 2) _ (by decide) (.arr _ (by simp) (by simp) fun v hv => ?_)
  rcases List.mem_pair.mp hv with rfl | rfl
  · exact hinner
  · exact .float _

end RoundTrip

end Fluxa
