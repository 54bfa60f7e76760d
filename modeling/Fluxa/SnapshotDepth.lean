import Fluxa.Snapshot

/-! The reader of a snapshot calls itself once for every value that is nested in another one, and nothing limits how
deep. With a C stack that has room for some number of calls it is safe for exactly the snapshots that nest no deeper;
how deep they do is for the one who wrote the bytes to choose. -/

namespace Fluxa

open Wire Cutoff EntryName

section Fuel

variable (b : Buffer)

theorem falters_value : ∀ (fuel : ℕ) (dt : Int32), Falters (prstDeserValue b fuel dt) (prstDeserValue b (fuel + 1) dt)
  | 0, dt => fun _ => .inl ⟨rfl, rfl⟩
  | fuel + 1, dt => by
      have helem : Falters (prstDeserElem b (prstDeserValue b fuel)) (prstDeserElem b (prstDeserValue b (fuel + 1))) :=
        .bind (.refl _) fun _ => .bind (.refl _) fun etag => falters_value fuel etag
      refine .bind (.refl _) fun _ => .bind (.refl _) fun _ => .bind (.refl _) fun _ => .bind (.refl _) fun _ =>
        .bind (.refl _) fun _ => .ite (.refl _) (.bind (.refl _) fun _ => .bind (.refl _) fun _ => .bind (.refl _) fun _ =>
          .ite (.bind (.refl _) fun _ => .ite (.refl _) (.bind (helem.times _) fun _ => .refl _)) (.refl _))

variable {fuel fuel' : ℕ}

theorem falters_value_of_le (h : fuel ≤ fuel') (dt : Int32) :
    Falters (prstDeserValue b fuel dt) (prstDeserValue b fuel' dt) := by
  induction fuel', h using Nat.le_induction with
  | base => exact .refl _
  | succ k _ ih => exact ih.trans (falters_value b k dt)

theorem falters_elem_of_le (h : fuel ≤ fuel') :
    Falters (prstDeserElem b (prstDeserValue b fuel)) (prstDeserElem b (prstDeserValue b fuel')) :=
  .bind (.refl _) fun _ => .bind (.refl _) fun etag => falters_value_of_le b h etag

theorem falters_entry_of_le (h : fuel ≤ fuel') : Falters (prstDeserEntry b fuel) (prstDeserEntry b fuel') :=
  .bind (.refl _) fun _ => .bind (.refl _) fun _ => .bind (.refl _) fun dt => .bind (.refl _) fun _ =>
    .bind (falters_value_of_le b h dt) fun _ => .bind (falters_value_of_le b h dt) fun _ => .refl _

/-- The entries are read alike with more fuel, unless the fuel runs out. -/
theorem prstDeserEntries_more (h : fuel ≤ fuel') : ∀ (n : ℕ) (p : PrstPool) (c : Cursor),
    (∃ q c', prstDeserEntries b fuel n p c = (some (false, q), c') ∧ c'.spent = true) ∨
      prstDeserEntries b fuel n p c = prstDeserEntries b fuel' n p c
  | 0, _, _ => .inr rfl
  | n + 1, p, c => by
      rcases falters_entry_of_le b h c with hout | heq
      · have hread : prstDeserEntry b fuel c = (none, (prstDeserEntry b fuel c).2) := Prod.ext hout.1 rfl
        exact .inl ⟨p, _, by rw [prstDeserEntries_succ, hread], hout.2⟩
      · rw [prstDeserEntries_succ, prstDeserEntries_succ, heq]
        rcases prstDeserEntry b fuel' c with ⟨_ | e, c'⟩
        · exact .inr rfl
        · exact prstDeserEntries_more h n (prstRestoreEntry p e) c'

end Fuel

section Nesting

variable (b : Buffer)

/-- The block of a value without its elements, and how many of them follow. -/
def prstDeserHead (dt : Int32) : Decoder (Stored × ℕ) := do
  require b 24
  let iv ← int64 b
  let fv ← uint64 b
  let bv ← int32 b
  let sl ← int32 b
  if sl < 0 then cut
  else do
    require b sl.toNatClampNeg
    let s ← prstDeserText b dt sl.toNatClampNeg
    let v := scalarOf dt iv fv bv s
    if ← fits b 4 then do
      let arrCount ← int32 b
      if arrCount < 0 ∨ 65536 < arrCount then cut
      else pure (v, arrCount.toNatClampNeg)
    else pure (v, 0)

def prstDeserTag : Decoder Int32 := do
  require b 4
  int32 b

/-- While it reads the value at a cursor the reader calls itself for another one: an element, when the elements in
front of it have been read. -/
inductive Calls (dt : Int32) (c : Cursor) (dt' : Int32) (c' : Cursor) : Prop
  | elem {v : Stored} {n i fuel : ℕ} {es : List Stored} {c₁ c₂ : Cursor}
      (head : prstDeserHead b dt c = (some (v, n), c₁)) (index : i < n)
      (before : times i (prstDeserElem b (prstDeserValue b fuel)) c₁ = (some es, c₂))
      (tag : prstDeserTag b c₂ = (some dt', c'))

/-- That many calls are open below the one for the value at a cursor. -/
def Nests : ℕ → Int32 → Cursor → Prop
  | 0, _, _ => True
  | n + 1, dt, c => ∃ dt' c', Calls b dt c dt' c' ∧ Nests n dt' c'

theorem prstDeserElem_eq (value : Int32 → Decoder Stored) : prstDeserElem b value = prstDeserTag b >>= value := by
  rw [prstDeserElem, prstDeserTag, bind_assoc]

theorem prstDeserValue_eq (fuel : ℕ) (dt : Int32) : prstDeserValue b (fuel + 1) dt =
    prstDeserHead b dt >>= fun h => times h.2 (prstDeserElem b (prstDeserValue b fuel)) >>= fun elems =>
      pure (if 0 < h.2 ∧ dt = ValType.arr.tag then .arr elems else h.1) := by
  have hpos (k : Int32) : 0 < k.toNatClampNeg ↔ 0 < k := by
    rw [Int32.toNatClampNeg, Int.lt_toNat, Int32.lt_iff_toInt_lt]
    rfl
  rw [prstDeserValue, prstDeserHead]
  simp only [bind_assoc]
  refine bind_congr fun _ => bind_congr fun iv => bind_congr fun fv => bind_congr fun bv => bind_congr fun sl => ?_
  split
  · rfl
  simp only [bind_assoc]
  refine bind_congr fun _ => bind_congr fun s => bind_congr fun ok => ?_
  cases ok with
  | false => rfl
  | true =>
    simp only [if_true, bind_assoc]
    refine bind_congr fun k => ?_
    split
    · rfl
    · simp only [pure_bind, hpos]

theorem unfuelled_head (dt : Int32) : Unfuelled (prstDeserHead b dt) := by
  have htext (n : ℕ) : Unfuelled (prstDeserText b dt n) := .ite (fun _ => rfl) fun _ => rfl
  refine (unfuelled_require b 24).bind fun _ => .bind (fun _ => rfl) fun iv => .bind (fun _ => rfl) fun fv =>
    .bind (fun _ => rfl) fun bv => .bind (fun _ => rfl) fun sl => .ite (fun _ => rfl) ?_
  refine (unfuelled_require b _).bind fun _ => (htext _).bind fun s => .bind (fun _ => rfl) fun ok => .ite ?_ fun _ => rfl
  exact .bind (fun _ => rfl) fun k => .ite (fun _ => rfl) fun _ => rfl

theorem unfuelled_tag : Unfuelled (prstDeserTag b) := (unfuelled_require b 4).bind fun _ _ => rfl

theorem frugal_elem {value : Int32 → Decoder Stored} (h : ∀ dt, Frugal (value dt)) : Frugal (prstDeserElem b value) := by
  rw [prstDeserElem_eq]
  exact (unfuelled_tag b).frugal.bind h

theorem frugal_value : ∀ (fuel : ℕ) (dt : Int32), Frugal (prstDeserValue b fuel dt)
  | 0, _ => by
      intro c v c' h
      cases h
  | fuel + 1, dt => by
      have helem := frugal_elem b (frugal_value fuel)
      rw [prstDeserValue_eq]
      exact (unfuelled_head b dt).frugal.bind fun h => (helem.times h.2).bind fun _ => Unfuelled.frugal fun _ => rfl

variable {b}

theorem runsOut_elem {fuel : ℕ} {c : Cursor} (hc : c.spent = false) :
    RunsOut (prstDeserElem b (prstDeserValue b fuel)) c ↔
      ∃ dt' c', prstDeserTag b c = (some dt', c') ∧ RunsOut (prstDeserValue b fuel dt') c' := by
  rw [prstDeserElem_eq, runsOut_bind]
  exact or_iff_right ((unfuelled_tag b).not_runsOut hc)

theorem runsOut_value_succ {fuel : ℕ} {dt : Int32} {c : Cursor} (hc : c.spent = false) :
    RunsOut (prstDeserValue b (fuel + 1) dt) c ↔ ∃ v n c₁, prstDeserHead b dt c = (some (v, n), c₁) ∧
      RunsOut (times n (prstDeserElem b (prstDeserValue b fuel))) c₁ := by
  rw [prstDeserValue_eq, runsOut_bind, or_iff_right ((unfuelled_head b dt).not_runsOut hc)]
  simp only [runsOut_bind_pure, Prod.exists]

/-- The calls that are open at once are as many as the values that lie in one another. -/
theorem runsOut_value_iff : ∀ {n : ℕ} {dt : Int32} {c : Cursor}, c.spent = false →
    (RunsOut (prstDeserValue b n dt) c ↔ Nests b n dt c)
  | 0, _, _, _ => iff_of_true ⟨rfl, rfl⟩ trivial
  | n + 1, dt, c, hc => by
      have helem := frugal_elem b (frugal_value b n)
      rw [runsOut_value_succ hc]
      constructor
      · rintro ⟨v, k, c₁, hhead, hout⟩
        obtain ⟨i, hi, es, c₂, hbefore, hout⟩ := runsOut_times.mp hout
        have hc₁ : c₁.spent = false := ((unfuelled_head b dt).frugal hhead).trans hc
        have hc₂ : c₂.spent = false := (helem.times i hbefore).trans hc₁
        obtain ⟨dt', c', htag, hout⟩ := (runsOut_elem hc₂).mp hout
        have hc' : c'.spent = false := ((unfuelled_tag b).frugal htag).trans hc₂
        exact ⟨dt', c', .elem hhead hi hbefore htag, (runsOut_value_iff hc').mp hout⟩
      · rintro ⟨dt', c', ⟨hhead, hi, hbefore, htag⟩, hnests⟩
        rename_i v k i fuel es c₁ c₂
        refine ⟨v, k, c₁, hhead, ?_⟩
        have hc₁ : c₁.spent = false := ((unfuelled_head b dt).frugal hhead).trans hc
        -- the elements in front may be too deep already
        rcases runsOut_or_eq (fun h => (falters_elem_of_le b h).times i) hbefore n with hout | hsame
        · exact hout.times_of_le hi.le
        · have hc₂ : c₂.spent = false := (helem.times i hsame).trans hc₁
          have hc' : c'.spent = false := ((unfuelled_tag b).frugal htag).trans hc₂
          have hout : RunsOut (prstDeserElem b (prstDeserValue b n)) c₂ :=
            (runsOut_elem hc₂).mpr ⟨dt', c', htag, (runsOut_value_iff hc').mpr hnests⟩
          exact runsOut_times.mpr ⟨i, hi, es, c₂, hsame, hout⟩

end Nesting

section Pool

variable (b : Buffer)

def prstDeserEntryHead : Decoder (List UInt8 × Int32 × Int32) := do
  require b 264
  let name ← bytes b 256
  let dt ← int32 b
  let so ← int32 b
  pure (name, dt, so)

/-- The reader comes to the value of an entry: those in front of it have been read. -/
inductive StartsValue (dt : Int32) (c : Cursor) : Prop
  | entry {n i fuel : ℕ} {es : List PoolEntry} {name : List UInt8} {so : Int32} {c₁ : Cursor}
      (count : acceptedCount b = some n) (index : i < n)
      (before : times i (prstDeserEntry b fuel) afterCount = (some es, c₁))
      (head : prstDeserEntryHead b c₁ = (some (name, dt, so), c))

/-- The snapshot has a value that lies in so many others, as the value of an entry or as its initial value. -/
def TooDeep (frames : ℕ) : Prop :=
  ∃ dt c, StartsValue b dt c ∧
    (Nests b frames dt c ∨ ∃ fuel v c', prstDeserValue b fuel dt c = (some v, c') ∧ Nests b frames dt c')

theorem prstDeserEntry_eq (fuel : ℕ) : prstDeserEntry b fuel = prstDeserEntryHead b >>= fun h =>
    prstDeserValue b fuel h.2.1 >>= fun v => prstDeserValue b fuel h.2.1 >>= fun iv =>
      pure ⟨.ofBuffer h.1, v, iv, h.2.1, h.2.2⟩ := by
  simp only [prstDeserEntry, prstDeserEntryHead, bind_assoc, pure_bind]

theorem unfuelled_entryHead : Unfuelled (prstDeserEntryHead b) :=
  (unfuelled_require b 264).bind fun _ => .bind (fun _ => rfl) fun _ => .bind (fun _ => rfl) fun _ _ => rfl

theorem frugal_entry (fuel : ℕ) : Frugal (prstDeserEntry b fuel) := by
  rw [prstDeserEntry_eq]
  exact (unfuelled_entryHead b).frugal.bind fun h => (frugal_value b fuel h.2.1).bind fun v =>
    (frugal_value b fuel h.2.1).bind fun iv => Unfuelled.frugal fun _ => rfl

variable {b} {frames : ℕ}

theorem runsOut_entry_iff {c : Cursor} (hc : c.spent = false) : RunsOut (prstDeserEntry b frames) c ↔
    ∃ name dt so c₁, prstDeserEntryHead b c = (some (name, dt, so), c₁) ∧ (Nests b frames dt c₁ ∨
      ∃ v c₂, prstDeserValue b frames dt c₁ = (some v, c₂) ∧ Nests b frames dt c₂) := by
  rw [prstDeserEntry_eq, runsOut_bind, or_iff_right ((unfuelled_entryHead b).not_runsOut hc)]
  simp only [runsOut_bind (f := fun _ => _ >>= _), runsOut_bind_pure, Prod.exists]
  constructor
  · rintro ⟨name, dt, so, c₁, hhead, hout⟩
    have hc₁ : c₁.spent = false := ((unfuelled_entryHead b).frugal hhead).trans hc
    refine ⟨name, dt, so, c₁, hhead, ?_⟩
    rcases hout with hout | ⟨v, c₂, hvalue, hout⟩
    · exact .inl ((runsOut_value_iff hc₁).mp hout)
    · exact .inr ⟨v, c₂, hvalue, (runsOut_value_iff ((frugal_value b frames dt hvalue).trans hc₁)).mp hout⟩
  · rintro ⟨name, dt, so, c₁, hhead, hnests⟩
    have hc₁ : c₁.spent = false := ((unfuelled_entryHead b).frugal hhead).trans hc
    refine ⟨name, dt, so, c₁, hhead, ?_⟩
    rcases hnests with hnests | ⟨v, c₂, hvalue, hnests⟩
    · exact .inl ((runsOut_value_iff hc₁).mpr hnests)
    · exact .inr ⟨v, c₂, hvalue, (runsOut_value_iff ((frugal_value b frames dt hvalue).trans hc₁)).mpr hnests⟩

/-- An entry that is too deep ends the reading of the entries, with the stack gone. -/
theorem spent_entries : ∀ {n : ℕ} {p : PrstPool} {c : Cursor}, c.spent = false →
    ((prstDeserEntries b frames n p c).2.spent = true ↔ RunsOut (times n (prstDeserEntry b frames)) c)
  | 0, p, c, hc => iff_of_false (by simp [prstDeserEntries, hc]) (not_runsOut_pure _)
  | n + 1, p, c, hc => by
      rw [times, runsOut_bind]
      simp only [runsOut_bind_pure]
      rcases hentry : prstDeserEntry b frames c with ⟨_ | e, c'⟩
      · rw [prstDeserEntries_succ, RunsOut, hentry]
        simp
      · rw [prstDeserEntries_succ, RunsOut, hentry]
        have hc' : c'.spent = false := (frugal_entry b frames hentry).trans hc
        simpa using spent_entries hc'

theorem tooDeep_iff {n : ℕ} (hcount : acceptedCount b = some n) :
    TooDeep b frames ↔ RunsOut (times n (prstDeserEntry b frames)) afterCount := by
  constructor
  · rintro ⟨dt, c, ⟨hcount', hi, hbefore, hhead⟩, hnests⟩
    rename_i n' i fuel es name so c₁
    obtain rfl : n' = n := Option.some.inj (hcount'.symm.trans hcount)
    rcases runsOut_or_eq (fun h => (falters_entry_of_le b h).times i) hbefore frames with hout | hsame
    · exact hout.times_of_le hi.le
    have hc₁ : c₁.spent = false := (frugal_entry b frames).times i hsame
    have hc : c.spent = false := ((unfuelled_entryHead b).frugal hhead).trans hc₁
    refine runsOut_times.mpr ⟨i, hi, es, c₁, hsame, (runsOut_entry_iff hc₁).mpr ⟨name, dt, so, c, hhead, ?_⟩⟩
    rcases hnests with hnests | ⟨fuel', v, c₂, hvalue, hnests⟩
    · exact .inl hnests
    · rcases runsOut_or_eq (fun h => falters_value_of_le b h dt) hvalue frames with hout | hsame
      · exact .inl ((runsOut_value_iff hc).mp hout)
      · exact .inr ⟨v, c₂, hsame, hnests⟩
  · intro hout
    obtain ⟨i, hi, es, c₁, hbefore, hout⟩ := runsOut_times.mp hout
    have hc₁ : c₁.spent = false := (frugal_entry b frames).times i hbefore
    obtain ⟨name, dt, so, c, hhead, hnests⟩ := (runsOut_entry_iff hc₁).mp hout
    refine ⟨dt, c, .entry hcount hi hbefore hhead, ?_⟩
    rcases hnests with hnests | ⟨v, c₂, hvalue, hnests⟩
    · exact .inl hnests
    · exact .inr ⟨frames, v, c₂, hvalue, hnests⟩

theorem spent_of_tooDeep (p : PrstPool) (h : TooDeep b frames) :
    (prstPoolDeserializeIn b frames p .start).2.spent = true := by
  obtain ⟨dt, c, ⟨hcount, _, _, _⟩, -⟩ := id h
  rcases prstPoolDeserializeIn_cases b frames p with ⟨hnone, -⟩ | ⟨n, hcount, -, hrun⟩
  · rw [hcount] at hnone
    cases hnone
  · rw [hrun]
    exact (spent_entries rfl).mpr ((tooDeep_iff hcount).mp h)

/-- **A snapshot is safe to read if it nests no deeper than the stack.** On a stack with room for `frames` calls the
reader ends and stays inside the buffer exactly if no value lies in `frames` others. It then leaves a sound pool of at
most the declared number of entries; a snapshot that is refused for this number leaves the pool as it was. -/
theorem prstPoolDeserializeIn_safe_iff (b : Buffer) (frames : ℕ) (p : PrstPool) :
    (∃ ok p' c, prstPoolDeserializeIn b frames p .start = (some (ok, p'), c) ∧ c.Safe b ∧
      match acceptedCount b with
      | some n => PrstPool.Sound p' ∧ p'.length ≤ n
      | none => ok = false ∧ p' = p) ↔ ¬TooDeep b frames := by
  constructor
  · rintro ⟨ok, p', c, hrun, hsafe, -⟩ hdeep
    have hspent := spent_of_tooDeep p hdeep
    rw [hrun, hsafe.unspent] at hspent
    cases hspent
  · intro hdeep
    rcases prstPoolDeserializeIn_cases b frames p with ⟨hcount, c, hsafe, hrun⟩ | ⟨n, hcount, hc, hrun⟩
    · exact ⟨false, p, c, hrun, hsafe, by simp [hcount]⟩
    · obtain ⟨ok, p', c', hentries, hsafe, hsound⟩ := prstDeserEntries_sound (n := n) hc
      have hsame : prstDeserEntries b frames n [] afterCount = prstDeserEntries b (b.size + 1) n [] afterCount := by
        rcases le_total frames (b.size + 1) with hle | hle
        · refine (prstDeserEntries_more b hle n [] afterCount).resolve_left ?_
          rintro ⟨q, c, hread, hspent⟩
          exact hdeep ((tooDeep_iff hcount).mpr ((spent_entries rfl).mp (by rw [hread]; exact hspent)))
        · refine ((prstDeserEntries_more b hle n [] afterCount).resolve_left ?_).symm
          rintro ⟨q, c, hread, hspent⟩
          rw [hentries] at hread
          cases hread
          rw [hsafe.unspent] at hspent
          cases hspent
      exact ⟨ok, p', c', (hrun.trans hsame).trans hentries, hsafe, by simpa only [hcount] using hsound⟩

/-- The block of an array of one element, and the type of the element: an array. -/
def arrayBlock : List UInt8 :=
  (int64LE 0 ++ (uint64LE 0 ++ (int32LE 0 ++ (int32LE 0 ++ int32LE 1)))) ++ int32LE ValType.arr.tag

def arrayBlocks : ℕ → List UInt8
  | 0 => []
  | n + 1 => arrayBlock ++ arrayBlocks n

/-- One entry, an array in an array, and so on. -/
def deepSnapshot (name : EntryName) (n : ℕ) : List UInt8 :=
  int32LE 1 ++ ((name.buffer (fun _ => 0) ++ (int32LE ValType.arr.tag ++ int32LE 0)) ++ arrayBlocks n)

theorem decodes_arrayHead : Decodes b (prstDeserHead b ValType.arr.tag)
    (int64LE 0 ++ (uint64LE 0 ++ (int32LE 0 ++ (int32LE 0 ++ int32LE 1)))) (.nil, 1) := by
  refine Decodes.require ?_ (by simp)
  refine (decodes_int64 _).bind ((decodes_uint64 _).bind ((decodes_int32 _).bind ((decodes_int32 _).bind ?_)))
  refine Decodes.require (Decodes.bind (l := []) (decodes_noText _) (Decodes.fits ?_ (by simp))) (by simp)
  exact (decodes_int32 1).last (decodes_pure _)

theorem nests_arrayBlocks : ∀ {n : ℕ} {c : Cursor}, b.At c.pos (arrayBlocks n) → Nests b n ValType.arr.tag c
  | 0, _, _ => trivial
  | n + 1, c, h => by
      obtain ⟨hblock, hrest⟩ := h.split
      obtain ⟨hhead, htag⟩ := hblock.split
      obtain ⟨reads, hhead⟩ := decodes_arrayHead c hhead
      have hdecodes : Decodes b (prstDeserTag b) (int32LE ValType.arr.tag) ValType.arr.tag :=
        (decodes_int32 _).require (by simp)
      obtain ⟨reads', htag⟩ := hdecodes ⟨_, reads, c.spent⟩ htag
      have hbefore (c : Cursor) : times 0 (prstDeserElem b (prstDeserValue b 0)) c = (some [], c) := rfl
      refine ⟨_, _, .elem hhead Nat.zero_lt_one (hbefore _) htag, nests_arrayBlocks ?_⟩
      rw [arrayBlock, List.length_append, ← Nat.add_assoc] at hrest
      exact hrest

theorem decodes_entryHead {name : List UInt8} (hname : name.length = 256) (dt so : Int32) :
    Decodes b (prstDeserEntryHead b) (name ++ (int32LE dt ++ int32LE so)) (name, dt, so) := by
  have hbytes := decodes_bytes (b := b) name
  rw [hname] at hbytes
  exact Decodes.require (hbytes.bind ((decodes_int32 _).bind ((decodes_int32 so).last (decodes_pure _))))
    (by simp [hname])

theorem tooDeep_deepSnapshot (name : EntryName) (n : ℕ) (hat : b.At 0 (deepSnapshot name n)) : TooDeep b n := by
  obtain ⟨hcount, hrest⟩ := hat.split
  obtain ⟨hhead, hblocks⟩ := hrest.split
  have haccepted : acceptedCount b = some 1 := by
    have hread : int32OfLE (b.slice 0 4) = 1 := by
      rw [← length_int32LE 1, hcount.2, int32OfLE_int32LE]
    rw [acceptedCount, hread]
    exact if_pos ⟨(by decide : 4 ≤ 0 + (int32LE 1).length).trans hcount.1, by decide⟩
  obtain ⟨reads, hrun⟩ := decodes_entryHead (name.length_buffer _) ValType.arr.tag 0 afterCount hhead
  have hbefore : times 0 (prstDeserEntry b 0) afterCount = _ := rfl
  exact ⟨_, _, .entry haccepted Nat.zero_lt_one hbefore hrun, .inl (nests_arrayBlocks hblocks)⟩

/-- No stack is large enough for every snapshot: in an array that holds an array, and so on, the calls of the reader
outgrow it. -/
theorem no_stack_suffices :
    ¬∃ frames, ∀ b : Buffer, (prstPoolDeserializeIn b frames [] .start).2.spent = false := by
  rintro ⟨frames, h⟩
  let b : Buffer := .ofList (deepSnapshot (.ofBuffer []) frames)
  have hdeep : TooDeep b frames := tooDeep_deepSnapshot (.ofBuffer []) frames (Buffer.at_ofList _)
  have hspent := spent_of_tooDeep [] hdeep
  rw [h b] at hspent
  cases hspent

end Pool

end Fluxa
