import Fluxa.SnapshotDepth

/-! Snapshots that were cut off. The reader accepts a value without its count of elements, as the old format had
it, so a snapshot that ends there is read without an error: nothing is lost if the value is a scalar, and an array
comes back as nil. -/

namespace Fluxa

open Wire Cutoff EntryName

section Values

variable {b : Buffer}

theorem prstDeserValue_short (dt : Int32) {c : Cursor} (h : b.size < c.pos + 24) : ∀ fuel,
    (prstDeserValue b fuel dt c).1 = none
  | 0 => rfl
  | _ + 1 => by
      rw [prstDeserValue, bind_of_none (require_of_lt h)]

theorem prstDeserElem_short (value : Int32 → Decoder Stored) {c : Cursor} (h : b.size < c.pos + 4) :
    (prstDeserElem b value c).1 = none := by
  rw [prstDeserElem, bind_of_none (require_of_lt h)]

theorem prstDeserEntry_short (fuel : ℕ) {c : Cursor} (h : b.size < c.pos + 264) :
    (prstDeserEntry b fuel c).1 = none := by
  rw [prstDeserEntry, bind_of_none (require_of_lt h)]

theorem prstDeserEntries_short {fuel n : ℕ} (p : PrstPool) {c : Cursor} (h : b.size < c.pos + 264) :
    Ensures False (prstDeserEntries b fuel (n + 1) p) c fun r _ => r.1 = false := by
  have hnone : attempt (prstDeserEntry b fuel) c = (some none, (prstDeserEntry b fuel c).2) := by
    rw [attempt, prstDeserEntry_short fuel h]
  rw [Ensures, prstDeserEntries, bind_of_some hnone]
  rfl

/-- A block that is cut short is refused, or read up to the count of elements. -/
theorem cutShort_block {v : Stored} {fuel : ℕ} (htext : v.text.length < 2 ^ 31) (hcount : v.elems.length ≤ 65536)
    (helems : CutShort b (times v.elems.length (prstDeserElem b (prstDeserValue b fuel))) 0 (prstSerElems v.elems)
      fun _ c => b.size < c.pos + 4) :
    CutShort b (prstDeserValue b (fuel + 1) v.type.tag) 0 (prstSerValue v) fun r c => b.size < c.pos + 4 ∧
      (v.elems = [] → r = scalarOf v.type.tag v.intVal v.floatVal v.boolVal v.text) := by
  rw [prstSerValue_eq, take_text htext, prstDeserValue]
  refine CutShort.require ?_
  refine CutShort.read (n := 16) (decodes_int64 _) (CutShort.read (n := 8) (decodes_uint64 _)
    (CutShort.read (n := 4) (decodes_int32 _) (CutShort.read (n := 0) (decodes_int32 _) ?_)))
  rw [if_neg (ofNat_not_neg htext), Int32.toNatClampNeg_ofNat_of_lt htext]
  refine CutShort.require (CutShort.read (n := 0) (decodes_text v) (CutShort.fits ?_ fun c hc => ?_))
  · refine CutShort.read (n := 0) (decodes_int32 _) ?_
    rw [if_neg (ofNat_in_limit hcount), Int32.toNatClampNeg_ofNat_of_lt (by omega)]
    cases hnil : v.elems with
    | nil => exact cutShort_nil
    | cons x xs =>
      rw [← hnil]
      exact fun c hc hn => (helems c hc hn).bind fun es c' h => ⟨h, fun h' => absurd (hnil.symm.trans h') (by simp)⟩
  · exact ensures_pure ⟨hc, fun _ => rfl⟩

/-- A value that is cut short is refused, or less than four bytes are left behind it; if it has no elements, it is
read as it was. -/
theorem cutShort_value {v : Stored} (hv : v.Snapshotable) : ∀ {fuel : ℕ}, (prstSerValue v).length < fuel →
    CutShort b (prstDeserValue b fuel v.type.tag) 0 (prstSerValue v)
      fun r c => b.size < c.pos + 4 ∧ (v.elems = [] → r = v) := by
  have hscalar {v : Stored} {fuel : ℕ} (htext : v.text.length < 2 ^ 31) (helems : v.elems = [])
      (hread : scalarOf v.type.tag v.intVal v.floatVal v.boolVal v.text = v) (hfuel : (prstSerValue v).length < fuel) :
      CutShort b (prstDeserValue b fuel v.type.tag) 0 (prstSerValue v)
        fun r c => b.size < c.pos + 4 ∧ (v.elems = [] → r = v) := by
    obtain ⟨fuel, rfl⟩ := Nat.exists_eq_succ_of_ne_zero (Nat.ne_zero_of_lt hfuel)
    have hblock : CutShort b (prstDeserValue b (fuel + 1) v.type.tag) 0 (prstSerValue v) _ :=
      cutShort_block htext (by simp [helems]) (by rw [helems]; exact cutShort_nil)
    rwa [hread] at hblock
  induction hv with
  | int x | float x | bool x => exact hscalar (by simp [Stored.text]) rfl rfl
  | str s h => exact hscalar h rfl (congrArg Stored.str s.ofBuffer_bytes)
  | arr es hne hlen h ih =>
    intro fuel hfuel
    obtain ⟨fuel, rfl⟩ := Nat.exists_eq_succ_of_ne_zero (Nat.ne_zero_of_lt hfuel)
    have hshorter : (prstSerElems es).length < fuel := length_prstSerElems_lt hfuel
    have hroom (v : Stored) (hv : v ∈ es) : (prstSerValue v).length < fuel := (length_prstSerValue_lt hv).trans hshorter
    have hdecodes (v : Stored) (hv : v ∈ es) : Decodes b (prstDeserElem b (prstDeserValue b fuel))
        (int32LE v.type.tag ++ prstSerValue v) v :=
      ((decodes_int32 _).bind (decodes_value (h v hv) (hroom v hv))).require (by simp)
    have hcut (v : Stored) (hv : v ∈ es) : CutShort b (prstDeserElem b (prstDeserValue b fuel)) 0
        (int32LE v.type.tag ++ prstSerValue v) fun _ c => b.size < c.pos + 4 := by
      refine CutShort.require (CutShort.read (n := 0) (decodes_int32 _) fun c hc hn => ?_)
      exact (ih v hv (hroom v hv) c hc hn).mono fun _ _ h => h.1
    have helems : CutShort b (times es.length (prstDeserElem b (prstDeserValue b fuel))) 0 (prstSerElems es)
        fun _ c => b.size < c.pos + 4 := by
      rw [prstSerElems_eq]
      exact cutShort_times (fun c hc => prstDeserElem_short _ hc) hdecodes hcut
    have hblock := cutShort_block (v := .arr es) (by simp [Stored.text]) hlen helems
    exact fun c hc hn => (hblock c hc hn).mono fun r c' hr => ⟨hr.1, fun h => absurd h hne⟩

end Values

section Entries

variable {b : Buffer}

theorem cutShort_entry {e : PoolEntry} (he : e.Snapshotable) (slack : ℕ → UInt8) {fuel : ℕ}
    (hfuel : (prstSerEntry slack e).length < fuel) :
    CutShort b (prstDeserEntry b fuel) 0 (prstSerEntry slack e)
      fun r c => b.size < c.pos + 4 ∧ (e.initValue.elems = [] → r = e) := by
  simp only [prstSerEntry, List.length_append] at hfuel
  have hvalue := decodes_value (b := b) he.value (show _ < fuel by omega)
  have hcut := cutShort_value (b := b) he.value (show _ < fuel by omega)
  have hinit := cutShort_value (b := b) he.initValue (show _ < fuel by omega)
  rw [he.declared] at hvalue hcut
  rw [he.initDeclared] at hinit
  have hname := decodes_bytes (b := b) (e.name.buffer slack)
  rw [length_buffer] at hname
  have hroom : 264 = (e.name.buffer slack).length + 8 := by rw [length_buffer]
  unfold prstDeserEntry
  refine CutShort.require ?_
  rw [hroom]
  refine CutShort.read (n := 8) hname (CutShort.read (n := 4) (decodes_int32 _) (CutShort.read (n := 0) (decodes_int32 _) ?_))
  -- behind a value that is cut short there is no room for the other one
  refine CutShort.bind hcut hvalue (fun r c hc => ?_) fun c hc hn => ?_
  · exact ensures_of_none (by rw [bind_of_none (Prod.ext (prstDeserValue_short _ (by omega) fuel) rfl)])
  · refine (hinit c hc hn).bind fun iv c' h => ensures_pure ⟨h.1, fun hnil => ?_⟩
    rw [h.2 hnil, ofBuffer_buffer]

/-- The reader ends without success, or with the whole pool, unless the last initial value has elements. -/
theorem cutShort_entries {slack : ℕ → ℕ → UInt8} {fuel : ℕ} : ∀ {es : List PoolEntry} {p : PrstPool},
    (∀ e ∈ es, e.Snapshotable) → (PrstPool.names (p ++ es)).Nodup → (prstSerEntries slack es).length < fuel →
    (∀ e ∈ es.getLast?, e.initValue.elems = []) →
    CutShort b (prstDeserEntries b fuel es.length p) 0 (prstSerEntries slack es) fun r _ => r.1 = true → r.2 = p ++ es
  | [], p, _, _, _, _ => cutShort_nil
  | e :: es, p, hes, hnames, hfuel, hlast => by
      have hnew : e.name ∉ p.names := new_of_distinct hnames
      rw [prstSerEntries, List.length_append] at hfuel
      have hsnap := hes e List.mem_cons_self
      have hentry := decodes_entry (b := b) hsnap (slack es.length) (show _ < fuel by omega)
      have hcut := cutShort_entry (b := b) hsnap (slack es.length) (show _ < fuel by omega)
      rw [List.length_cons, prstDeserEntries, prstSerEntries]
      refine CutShort.bind hcut.attempt hentry.attempt (fun o c ho => ?_) ?_
      · cases o with
        | none => exact ensures_pure fun h => Bool.noConfusion h
        | some r =>
          obtain ⟨hshort, hsame⟩ := ho r rfl
          cases es with
          | nil =>
            refine ensures_pure fun _ => ?_
            rw [hsame (hlast e rfl), prstRestoreEntry_of_new hnew]
          | cons x xs =>
            exact (prstDeserEntries_short (prstRestoreEntry p r) (by omega)).mono fun r _ hr => by simp [hr]
      · have hrest : CutShort b (prstDeserEntries b fuel es.length (p ++ [e])) 0 (prstSerEntries slack es)
            fun r _ => r.1 = true → r.2 = p ++ [e] ++ es := by
          refine cutShort_entries (fun x hx => hes x (List.mem_cons_of_mem e hx)) (by simpa using hnames) (by omega) ?_
          intro x hx
          refine hlast x ?_
          cases es with
          | nil => cases hx
          | cons y ys => exact hx
        rw [← prstRestoreEntry_of_new hnew] at hrest
        rw [List.append_cons, ← prstRestoreEntry_of_new hnew]
        exact hrest

end Entries

section Pools

variable {b : Buffer}

theorem prstPoolDeserialize_of_count {cnt : Int32} (hat : b.At 0 (int32LE cnt)) (q : PrstPool) :
    prstPoolDeserialize b q .start =
      if cnt < 0 ∨ 65536 < cnt then (some (false, q), afterCount)
      else prstDeserEntries b (b.size + 1) cnt.toNatClampNeg [] afterCount := by
  have hfits : fits b 4 .start = (some true, .start) := by
    rw [fits, decide_eq_true (show Cursor.start.pos + 4 ≤ b.size from hat.1)]
  have hcount : int32 b .start = (some cnt, afterCount) := by
    have hslice : b.slice 0 4 = int32LE cnt := hat.2
    rw [show int32 b .start = (some (int32OfLE (b.slice 0 4)), afterCount) from rfl, hslice, int32OfLE_int32LE]
  simp only [prstPoolDeserialize, prstPoolDeserializeIn, bind_of_some hfits, if_true, bind_of_some hcount]
  split <;> rfl

theorem Buffer.endsIn_take {l : List UInt8} {n : ℕ} (hn : n < l.length) (hsize : b.size = n) (hat : b.At 0 (l.take n)) :
    b.EndsIn 0 l := by
  have hlen : (l.take n).length = n := by simp [hn.le]
  subst hsize
  refine ⟨Nat.zero_le _, by omega, ?_⟩
  have hbytes := hat.2
  rwa [hlen] at hbytes

/-- A strict prefix of a snapshot of the pool is refused, or read as the pool. -/
def TruncationSafe (p : PrstPool) : Prop :=
  ∀ (slack : ℕ → ℕ → UInt8), ∀ n < (prstPoolSerialize slack p).length, ∀ b : Buffer, b.size = n →
    b.At 0 ((prstPoolSerialize slack p).take n) → ∀ q p', (prstPoolDeserialize b q .start).1 = some (true, p') → p' = p

/-- A prefix that is read has its count, and its entries are read to the end. -/
theorem read_of_truncated {p p' q : PrstPool} (hlen : p.length < 2 ^ 31) {slack : ℕ → ℕ → UInt8}
    (hends : b.EndsIn 0 (prstPoolSerialize slack p)) (hread : (prstPoolDeserialize b q .start).1 = some (true, p')) :
    p.length ≤ 65536 ∧ b.EndsIn 4 (prstSerEntries slack p) ∧
      ∃ c, prstDeserEntries b (b.size + 1) p.length [] afterCount = (some (true, p'), c) := by
  have hsplit := hends.split
  rw [length_int32LE] at hsplit
  split at hsplit
  · obtain ⟨hat, hentries⟩ := hsplit
    rw [prstPoolDeserialize_of_count hat, Int32.toNatClampNeg_ofNat_of_lt hlen] at hread
    split at hread
    · cases hread
    · next hcount =>
      refine ⟨?_, by simpa using hentries, _, Prod.ext hread rfl⟩
      rw [Int32.lt_iff_toInt_lt, Int32.lt_iff_toInt_lt, Int32.toInt_ofNat_of_lt hlen] at hcount
      simp at hcount
      omega
  · next hshort =>
    have hfits : fits b 4 .start = (some false, .start) := by
      rw [fits, decide_eq_false (show ¬Cursor.start.pos + 4 ≤ b.size from hshort)]
    rw [prstPoolDeserialize, prstPoolDeserializeIn, bind_of_some hfits] at hread
    cases hread

/-- A pool of too many entries is not read at all; one of distinct names whose last initial value has no elements is
read in full if it is read. -/
theorem truncationSafe {p : PrstPool} (hp : ∀ e ∈ p, e.Snapshotable) (hlen : p.length < 2 ^ 31)
    (h : 65536 < p.length ∨ p.names.Nodup ∧ ∀ e ∈ p.getLast?, e.initValue.elems = []) : TruncationSafe p := by
  intro slack n hn b hsize hat q p' hread
  obtain ⟨hsmall, hends, c, hentries⟩ := read_of_truncated hlen (Buffer.endsIn_take hn hsize hat) hread
  obtain ⟨hnames, hlast⟩ := h.resolve_left (by omega)
  have hmore : prstDeserEntries b (b.size + 1 + (prstSerEntries slack p).length) p.length [] afterCount =
      (some (true, p'), c) := by
    rcases prstDeserEntries_more b (Nat.le_add_right (b.size + 1) _) p.length [] afterCount with ⟨q, c', hread, -⟩ | heq
    · rw [hentries] at hread
      cases hread
    · rw [← heq, hentries]
  have hcut := cutShort_entries (b := b) (p := []) hp hnames
    (show (prstSerEntries slack p).length < b.size + 1 + (prstSerEntries slack p).length by omega) hlast
  exact (hcut _ hends hends.left).of_eq hmore rfl

/-- What is left of a value that is cut off before its elements. -/
def Stored.scalars (v : Stored) : Stored := scalarOf v.type.tag v.intVal v.floatVal v.boolVal v.text

variable {v : Stored} {e : PoolEntry}

/-- A value is read from its scalar fields where the buffer ends behind them. -/
theorem exhausts_value (htext : v.text.length < 2 ^ 31) (fuel : ℕ) :
    Exhausts b (prstDeserValue b (fuel + 1) v.type.tag) (prstSerScalars v) v.scalars := by
  have hser : prstSerScalars v = int64LE v.intVal ++ (uint64LE v.floatVal ++ (int32LE v.boolVal ++
      (int32LE (.ofNat v.text.length) ++ (v.text ++ [])))) := by
    simp [prstSerScalars, take_text htext]
  rw [hser, prstDeserValue]
  refine Exhausts.require ?_ (by simp; omega)
  refine (decodes_int64 _).then_exhausts ((decodes_uint64 _).then_exhausts ((decodes_int32 _).then_exhausts
    ((decodes_int32 _).then_exhausts ?_)))
  rw [if_neg (ofNat_not_neg htext), Int32.toNatClampNeg_ofNat_of_lt htext]
  refine Exhausts.require ((decodes_text v).then_exhausts (exhausts_fits ?_ (by omega))) (by simp)
  exact exhausts_pure _

/-- What is left of an entry whose initial value is cut off there. -/
def PoolEntry.cutOff (e : PoolEntry) : PoolEntry := { e with initValue := e.initValue.scalars }

/-- The bytes of an entry up to the elements of its initial value. -/
def prstSerEntryCut (slack : ℕ → UInt8) (e : PoolEntry) : List UInt8 :=
  e.name.buffer slack ++ (int32LE e.declaredType ++ (int32LE e.stackOffset ++
    (prstSerValue e.value ++ prstSerScalars e.initValue)))

theorem exhausts_entry (he : e.Snapshotable) (slack : ℕ → UInt8) {fuel : ℕ}
    (htext : e.initValue.text.length < 2 ^ 31) (hfuel : (prstSerValue e.value).length < fuel) :
    Exhausts b (prstDeserEntry b fuel) (prstSerEntryCut slack e) e.cutOff := by
  have hvalue := decodes_value (b := b) he.value hfuel
  obtain ⟨fuel, rfl⟩ := Nat.exists_eq_succ_of_ne_zero (Nat.ne_zero_of_lt hfuel)
  have hinit := exhausts_value (b := b) htext fuel
  rw [he.declared] at hvalue
  rw [he.initDeclared] at hinit
  have hname := decodes_bytes (b := b) (e.name.buffer slack)
  rw [length_buffer] at hname
  refine Exhausts.require ?_ (by simp [prstSerEntryCut, length_buffer]; omega)
  refine hname.then_exhausts ((decodes_int32 _).then_exhausts ((decodes_int32 _).then_exhausts
    (hvalue.then_exhausts ?_)))
  have hlast := hinit.bind_pure (f := fun iv : Stored =>
    (⟨.ofBuffer (e.name.buffer slack), e.value, iv, e.declaredType, e.stackOffset⟩ : PoolEntry))
  rw [ofBuffer_buffer] at hlast ⊢
  exact hlast

/-- All entries are put back, the last one with what is left of its initial value. -/
theorem exhausts_entries (he : e.Snapshotable) (htext : e.initValue.text.length < 2 ^ 31)
    {slack : ℕ → ℕ → UInt8} {fuel : ℕ} : ∀ {es : List PoolEntry} {p : PrstPool}, (∀ x ∈ es, x.Snapshotable) →
    (prstSerEntries slack es ++ prstSerEntryCut (slack 0) e).length < fuel →
    Exhausts b (prstDeserEntries b fuel (es.length + 1) p) (prstSerEntries slack es ++ prstSerEntryCut (slack 0) e)
      (true, prstRestoreEntry (es.foldl prstRestoreEntry p) e.cutOff)
  | [], p, _, hfuel => by
      simp only [prstSerEntries, prstSerEntryCut, List.nil_append, List.length_append] at hfuel
      have hentry := exhausts_entry (b := b) he (slack 0) htext (show _ < fuel by omega)
      intro c hc hend
      obtain ⟨c', hread⟩ := hentry c hc hend
      exact ⟨c', by rw [List.length_nil, prstDeserEntries_succ, hread]; rfl⟩
  | x :: xs, p, hes, hfuel => by
      rw [prstSerEntries, List.append_assoc] at hfuel ⊢
      rw [List.length_append] at hfuel
      have hentry := decodes_entry (b := b) (hes x List.mem_cons_self) (slack xs.length) (show _ < fuel by omega)
      rw [List.length_cons, prstDeserEntries]
      exact hentry.attempt.then_exhausts
        (exhausts_entries he htext (fun y hy => hes y (List.mem_cons_of_mem x hy)) (by omega))

theorem prstSerEntries_concat (es : List PoolEntry) (e : PoolEntry) :
    prstSerEntries (fun _ _ => 0) (es ++ [e]) = prstSerEntries (fun _ _ => 0) es ++ (prstSerEntryCut (fun _ => 0) e ++
      (int32LE (.ofNat e.initValue.elems.length) ++ prstSerElems e.initValue.elems)) := by
  induction es with
  | nil => simp [prstSerEntries, prstSerEntry, prstSerEntryCut, prstSerValue_eq e.initValue, prstSerScalars]
  | cons x xs ih => rw [List.cons_append, prstSerEntries, ih, prstSerEntries, List.append_assoc]

/-- The prefix that ends before the elements of the last initial value is read. -/
theorem read_without_elements {es : List PoolEntry} (hsnap : ∀ x ∈ es ++ [e], x.Snapshotable)
    (htext : e.initValue.text.length < 2 ^ 31) (hlen : (es ++ [e]).length ≤ 65536) :
    ∃ n < (prstPoolSerialize (fun _ _ => 0) (es ++ [e])).length, ∃ b : Buffer, b.size = n ∧
      b.At 0 ((prstPoolSerialize (fun _ _ => 0) (es ++ [e])).take n) ∧
      (prstPoolDeserialize b [] .start).1 =
        some (true, prstRestoreEntry (es.foldl prstRestoreEntry []) e.cutOff) := by
  let front := int32LE (.ofNat (es ++ [e]).length) ++ (prstSerEntries (fun _ _ => 0) es ++ prstSerEntryCut (fun _ => 0) e)
  let rest := int32LE (.ofNat e.initValue.elems.length) ++ prstSerElems e.initValue.elems
  have hwhole : prstPoolSerialize (fun _ _ => 0) (es ++ [e]) = front ++ rest := by
    simp [prstPoolSerialize, prstSerEntries_concat, front, rest]
  have hat : (Buffer.ofList front).At 0 front := Buffer.at_ofList front
  have hsize : (Buffer.ofList front).size = front.length := rfl
  have hfront : front.length = 4 + (prstSerEntries (fun _ _ => 0) es ++ prstSerEntryCut (fun _ => 0) e).length := by
    rw [List.length_append, length_int32LE]
  refine ⟨front.length, by rw [hwhole]; simp [rest], .ofList front, rfl, by rw [hwhole, List.take_left]; exact hat, ?_⟩
  obtain ⟨hcount, hentries⟩ := hat.split
  rw [prstPoolDeserialize_of_count hcount, if_neg (ofNat_in_limit hlen), Int32.toNatClampNeg_ofNat_of_lt (by omega),
    List.length_append, List.length_singleton]
  have hroom : (prstSerEntries (fun _ _ => 0) es ++ prstSerEntryCut (fun _ => 0) e).length < front.length + 1 := by omega
  have hread := exhausts_entries (b := Buffer.ofList front) (p := []) (hsnap e (by simp)) htext
    (fun x hx => hsnap x (by simp [hx])) hroom
  obtain ⟨c, hrun⟩ := hread afterCount (by simpa [afterCount] using hentries) (by rw [hsize, hfront]; rfl)
  rw [hsize, hrun]

theorem Stored.exists_elems (h : v.type = .arr) : ∃ es, v = .arr es := by
  cases v with
  | arr es => exact ⟨es, rfl⟩
  | ref kind addr => cases kind <;> cases h
  | _ => cases h

theorem Stored.Snapshotable.text_lt (hv : v.Snapshotable) : v.text.length < 2 ^ 31 := by
  cases hv with
  | str s h => exact h
  | _ => simp [Stored.text]

/-- **A prefix of a snapshot is refused or read as the whole pool**, exactly if the pool has too many entries to be
read, or different names and a last initial value that is not an array. -/
theorem truncationSafe_iff (p : PrstPool) (hp : ∀ e ∈ p, e.Snapshotable) (hlen : p.length < 2 ^ 31) :
    TruncationSafe p ↔ 65536 < p.length ∨ p.names.Nodup ∧ ∀ e ∈ p.getLast?, e.initValue.type ≠ .arr := by
  constructor
  · intro h
    by_cases hlarge : 65536 < p.length
    · exact .inl hlarge
    refine .inr ?_
    rcases List.eq_nil_or_concat' p with rfl | ⟨es, e, rfl⟩
    · exact ⟨List.nodup_nil, nofun⟩
    have hinit := (hp e (by simp)).initValue
    obtain ⟨n, hn, b, hsize, hat, hread⟩ := read_without_elements hp hinit.text_lt (Nat.not_lt.mp hlarge)
    have hback := h _ n hn b hsize hat [] _ hread
    have hnames := (sound_of_read hread).distinct
    rw [hback] at hnames
    refine ⟨hnames, fun x hx harr => ?_⟩
    obtain rfl : e = x := by simpa using hx
    -- with distinct names the last entry comes back as it was cut off
    have hfold : es.foldl prstRestoreEntry [] = es := by
      refine foldl_restore_of_distinct (p := []) ?_
      rw [PrstPool.names, List.map_append] at hnames
      exact hnames.of_append_left
    have hnew : e.cutOff.name ∉ PrstPool.names es := new_of_distinct (e := e) hnames
    rw [hfold, prstRestoreEntry_of_new hnew] at hback
    have hsame : e.cutOff.initValue = e.initValue := by
      rw [List.append_cancel_left_eq] at hback
      rw [(List.cons.inj hback).1]
    obtain ⟨elems, hv⟩ := Stored.exists_elems harr
    rw [PoolEntry.cutOff, hv] at hsame
    cases hsame
  · intro h
    refine truncationSafe hp hlen (h.imp_right fun h => ⟨h.1, fun e he => ?_⟩)
    have hne := h.2 e he
    cases hv : e.initValue with
    | arr es => exact absurd (by rw [hv]; rfl) hne
    | _ => rfl

section Examples

/-- `prst int n = 5`. -/
def scalarPool : PrstPool := (prstPoolSet [] ⟨[110], n_noNul⟩ (.int 5)).1

theorem scalarPool_truncationSafe : TruncationSafe scalarPool :=
  (truncationSafe_iff scalarPool (Built.set .init _ (by decide) (.int 5)).snapshotable (by decide)).mpr (.inr ⟨by decide, by rintro e ⟨⟩; decide⟩)

/-- `prst int arr a[2] = [3, 4]`. -/
def arrayPool : PrstPool := (prstPoolSet [] ⟨[97], by decide⟩ (.arr [.int 3, .int 4])).1

theorem built_arrayPool : Built arrayPool := by
  refine .set .init _ (by decide) (.arr _ (by simp) (by simp) fun v hv => ?_)
  rcases List.mem_pair.mp hv with rfl | rfl
  · exact .int 3
  · exact .int 4

/-- The first 384 of its 452 bytes are read without an error, and the initial value of the array is nil. -/
theorem initial_array_lost : Built arrayPool ∧
    (prstPoolSerialize (fun _ _ => 0) arrayPool).length = 452 ∧
    ((prstPoolDeserialize (.ofList ((prstPoolSerialize (fun _ _ => 0) arrayPool).take 384)) [] .start).1.map
      fun r => (r.1, r.2.map fun e => (e.value.type, e.initValue.type))) = some (true, [(.arr, .nil)]) :=
  ⟨built_arrayPool, by decide +kernel, by decide +kernel⟩

end Examples

end Pools

end Fluxa
