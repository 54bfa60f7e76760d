import Fluxa.Handover
import Fluxa.Truncation

/-! What a migration carries over. The pool of the running program may hold values a snapshot has no room for: a dyn or
another reference, an empty array. They arrive as nil under their declared type. Everything else arrives as it was, provided
that the entries have different names and that the size of the pool section fits into the 32 bits the header has for it. -/

namespace Fluxa

open Wire Cutoff

section Operations

/-- `prst_pool_invalidate`: the last entry takes the place of the one that goes. -/
def prstPoolInvalidate (p : PrstPool) (name : CString) : PrstPool :=
  match prstPoolFind p name, p.getLast? with
  | some i, some last => (p.set i last).dropLast
  | _, _ => p

/-- `runtime_prst_headstone_resources` on one value. -/
def Stored.headstone : Stored → Stored
  | .ref .dyn _ => .nil
  | v => v

def prstHeadstoneResources (p : PrstPool) : PrstPool :=
  p.map fun e => { e with value := e.value.headstone, initValue := e.initValue.headstone }

/-- The pools the operations build, a pool that was read from the snapshot of another one included. -/
inductive PoolReached : PrstPool → Prop
  | init : PoolReached []
  | set {p : PrstPool} (hp : PoolReached p) (name : CString) {v : Stored} (hv : v.Bounded) :
      PoolReached (prstPoolSet p name v).1
  | setOffset {p : PrstPool} (hp : PoolReached p) (name : CString) (offset : Int32) :
      PoolReached (prstPoolSetOffset p name offset)
  | invalidate {p : PrstPool} (hp : PoolReached p) (name : CString) : PoolReached (prstPoolInvalidate p name)
  | headstone {p : PrstPool} (hp : PoolReached p) : PoolReached (prstHeadstoneResources p)
  | read {p q p' : PrstPool} (hp : PoolReached p) (hlen : p.length ≤ 65536) (slack : ℕ → ℕ → UInt8) (b : Buffer)
      (hsize : b.size = (prstPoolSerialize slack p).length) (hat : b.At 0 (prstPoolSerialize slack p))
      (hread : (prstPoolDeserialize b q .start).1 = some (true, p')) : PoolReached p'

theorem Stored.Bounded.headstone {v : Stored} (h : v.Bounded) : v.headstone.Bounded := by
  unfold Stored.headstone
  split
  · exact .nil
  · exact h

theorem Stored.Under.headstone {v : Stored} {dt : Int32} (h : v.Under dt) : v.headstone.Under dt := by
  unfold Stored.headstone
  split
  · rcases h with rfl | ⟨h, _⟩
    · exact .inr ⟨rfl, tag_ref_ne .dyn⟩
    · cases h
  · exact h

theorem mem_prstPoolInvalidate {p : PrstPool} {name : CString} {e : PoolEntry} (h : e ∈ prstPoolInvalidate p name) :
    e ∈ p := by
  unfold prstPoolInvalidate at h
  split at h
  next i last hfind hlast =>
    rcases List.mem_or_eq_of_mem_set (List.mem_of_mem_dropLast h) with h | rfl
    · exact h
    · exact List.mem_of_getLast? hlast
  next => exact h

theorem bounded_restoreAll : ∀ {es : List PoolEntry} {p : PrstPool}, (∀ e ∈ es, e.Bounded) → (∀ e ∈ p, e.Bounded) →
    ∀ e ∈ restoreAll p es, e.Bounded
  | [], _, _, hp => hp
  | x :: es, p, hes, hp => by
      have hx := (hes x List.mem_cons_self).carried
      refine bounded_restoreAll (p := prstRestoreEntry p x.carried) (fun e he => hes e (List.mem_cons_of_mem x he)) ?_
      intro e he
      have hrestored := restored p x.carried
      generalize prstRestoreEntry p x.carried = p' at he hrestored
      cases hrestored with
      | refused => exact hp e he
      | added hnew =>
        rcases List.mem_append.mp he with he | he
        · exact hp e he
        · rwa [List.mem_singleton.mp he]
      | replaced i hi =>
        rcases mem_modify he with he | ⟨y, hy, rfl⟩
        · exact hp e he
        · exact ⟨hx.value, hx.initValue, hx.declared, hx.initDeclared⟩

theorem PoolReached.bounded {p : PrstPool} (hp : PoolReached p) : ∀ e ∈ p, e.Bounded := by
  induction hp with
  | init => exact fun e he => absurd he List.not_mem_nil
  | set hp name hv ih =>
    intro e he
    rcases mem_prstPoolSet he with he | ⟨x, hx, htype, rfl⟩ | rfl
    · exact ih e he
    · exact ⟨hv, (ih x hx).initValue, .inl htype.symm, (ih x hx).initDeclared⟩
    · exact ⟨hv, hv, .inl rfl, .inl rfl⟩
  | setOffset hp name offset ih =>
    intro e he
    rcases mem_prstPoolSetOffset he with he | ⟨x, hx, rfl⟩
    · exact ih e he
    · exact ⟨(ih x hx).value, (ih x hx).initValue, (ih x hx).declared, (ih x hx).initDeclared⟩
  | invalidate hp name ih => exact fun e he => ih e (mem_prstPoolInvalidate he)
  | headstone hp ih =>
    intro e he
    obtain ⟨x, hx, rfl⟩ := List.mem_map.mp he
    have hold := ih x hx
    exact ⟨hold.value.headstone, hold.initValue.headstone, hold.declared.headstone, hold.initDeclared.headstone⟩
  | @read p q p' hp hlen slack b hsize hat hread ih =>
    obtain ⟨reads, hrun⟩ := decodes_section (q := q) ih hlen slack hsize .start hat
    rw [hrun] at hread
    cases hread
    exact bounded_restoreAll ih fun e he => absurd he List.not_mem_nil

end Operations

section Graphs

variable {b : Buffer}

/-- The graphs `prst_graph_record` builds. -/
inductive GraphRecorded : PrstGraph → Prop
  | init (cap : ℤ) : GraphRecorded (.initCap cap)
  | record {g : PrstGraph} (hg : GraphRecorded g) (prstName : CString) (readerCtx : Option CString) :
      GraphRecorded (g.record prstName readerCtx)

structure IsField (l : List UInt8) : Prop where
  length_eq : l.length = 256
  terminated : 0 ∈ l

theorem isField_fieldOf (s : CString) : IsField (fieldOf s) := by
  have hlength : (s.bytes.take 255).length ≤ 255 := List.length_take_le _ _
  refine ⟨?_, List.mem_append_right _ (List.mem_replicate.mpr ⟨by omega, rfl⟩)⟩
  rw [fieldOf, List.length_append, List.length_replicate]
  omega

theorem GraphRecorded.isField {g : PrstGraph} (hg : GraphRecorded g) :
    ∀ d ∈ g.deps, IsField d.prstName ∧ IsField d.readerCtx := by
  induction hg with
  | init cap =>
    unfold PrstGraph.initCap
    split <;> exact fun d hd => absurd hd List.not_mem_nil
  | @record g hg prstName readerCtx ih =>
    have hadded : ∀ ctx, ∀ d ∈ g.deps ++ [PrstDep.of prstName ctx], IsField d.prstName ∧ IsField d.readerCtx := by
      intro ctx d hd
      rcases List.mem_append.mp hd with hd | hd
      · exact ih d hd
      · rw [List.mem_singleton.mp hd]
        exact ⟨isField_fieldOf prstName, isField_fieldOf ctx⟩
    unfold PrstGraph.record
    dsimp only
    split
    · exact ih
    split
    · exact hadded _
    split
    all_goals
      split
      · exact hadded _
      · exact ih

theorem decodes_dep {d : PrstDep} (hname : IsField d.prstName) (hctx : IsField d.readerCtx) :
    Decodes b (prstGraphDep b) (d.prstName ++ d.readerCtx) d := by
  have hfirst := decodes_bytes (b := b) d.prstName
  have hsecond := (decodes_bytes (b := b) d.readerCtx).map fun ctx => (⟨d.prstName, ctx⟩ : PrstDep)
  rw [hname.length_eq] at hfirst
  rw [hctx.length_eq, map_eq_pure_bind] at hsecond
  exact hfirst.bind hsecond

theorem length_depsBytes {deps : List PrstDep} (h : ∀ d ∈ deps, IsField d.prstName ∧ IsField d.readerCtx) :
    (depsBytes deps).length = deps.length * 512 := by
  induction deps with
  | nil => rfl
  | cons d ds ih =>
    obtain ⟨hname, hctx⟩ := h d List.mem_cons_self
    have hrest := ih fun d hd => h d (List.mem_cons_of_mem _ hd)
    rw [depsBytes] at hrest ⊢
    rw [List.flatMap_cons, List.length_append, List.length_append, hname.length_eq, hctx.length_eq, hrest, List.length_cons]
    omega

theorem decodes_graph {deps : List PrstDep} (h : ∀ d ∈ deps, IsField d.prstName ∧ IsField d.readerCtx)
    (hlen : deps.length ≤ 65536) (hsize : b.size = (prstGraphSerialize deps).length) :
    Decodes b (prstGraphDeserialize b) (prstGraphSerialize deps) (some deps) := by
  have hroom : 4 + deps.length * 512 ≤ b.size := by
    rw [hsize, prstGraphSerialize, List.length_append, length_int32LE, length_depsBytes h]
  unfold prstGraphDeserialize
  refine Decodes.fits ?_ (by simp [prstGraphSerialize])
  refine (decodes_int32 _).bind ?_
  rw [if_neg (ofNat_in_limit hlen), Int32.toNatClampNeg_ofNat_of_lt (by omega), if_pos hroom]
  exact (decodes_times fun d hd => decodes_dep (h d hd).1 (h d hd).2).map some

end Graphs

section Migration

variable {b : Buffer} {slack : ℕ → ℕ → UInt8} {a : HandoverState}

/-- Where the parts of a snapshot stand. -/
structure Laid (b : Buffer) (slack : ℕ → ℕ → UInt8) (a : HandoverState) : Prop where
  size_eq : b.size = (handoverSerializeState slack a).length
  at_start : b.At 0 (handoverSerializeState slack a)

theorem slice_word {words : List (List UInt8)} (hwords : ∀ w ∈ words, w.length = 4) {rest : List UInt8} {pos : ℕ}
    (h : b.At pos (words.flatten ++ rest)) {i : ℕ} {w : List UInt8} (hw : words[i]? = some w) :
    b.slice (pos + 4 * i) 4 = w := by
  induction words generalizing pos i with
  | nil => cases hw
  | cons x xs ih =>
    rw [List.flatten_cons, List.append_assoc] at h
    obtain ⟨hfirst, hrest⟩ := h.split
    have hx := hwords x List.mem_cons_self
    cases i with
    | zero =>
      obtain rfl : x = w := Option.some.inj hw
      rw [← hx]
      exact hfirst.2
    | succ i =>
      rw [hx] at hrest
      have hslice := ih (fun w hw => hwords w (List.mem_cons_of_mem _ hw)) hrest hw
      rw [← hslice]
      congr 1
      omega

def headerWords (a : HandoverState) (poolSize graphSize : ℕ) : List (List UInt8) :=
  [uint32LE handoverMagic, uint32LE handoverVersion, uint32LE (prstPoolChecksum a.pool),
    uint32LE ((prstGraphChecksum a.graph.deps).getD 0), uint32LE (.ofNat poolSize), uint32LE (.ofNat graphSize),
    int32LE (.ofNat a.pool.length), int32LE (.ofNat a.graph.deps.length), int32LE a.cycleCount, List.replicate 4 0]

theorem handoverHeader_eq (poolSize graphSize : ℕ) :
    handoverHeader a poolSize graphSize = (headerWords a poolSize graphSize).flatten := by
  simp [handoverHeader, headerWords]

theorem length_headerWords (poolSize graphSize : ℕ) : ∀ w ∈ headerWords a poolSize graphSize, w.length = 4 := by
  intro w hw
  simp only [headerWords, List.mem_cons, List.not_mem_nil, or_false] at hw
  rcases hw with rfl | rfl | rfl | rfl | rfl | rfl | rfl | rfl | rfl | rfl <;> simp

theorem length_handoverHeader (poolSize graphSize : ℕ) : (handoverHeader a poolSize graphSize).length = headerSize := by
  simp [handoverHeader, headerSize]

namespace Laid

theorem at_header (h : Laid b slack a) :
    b.At 0 ((headerWords a (prstPoolSerialize slack a.pool).length (prstGraphSerialize a.graph.deps).length).flatten ++
      (prstPoolSerialize slack a.pool ++ prstGraphSerialize a.graph.deps)) := by
  rw [← handoverHeader_eq]
  exact h.at_start

theorem word (h : Laid b slack a) {i : ℕ} {w : List UInt8}
    (hw : (headerWords a (prstPoolSerialize slack a.pool).length (prstGraphSerialize a.graph.deps).length)[i]? = some w) :
    b.slice (4 * i) 4 = w := by
  have hslice := slice_word (length_headerWords _ _) h.at_header hw
  rwa [Nat.zero_add] at hslice

theorem magic (h : Laid b slack a) : uint32OfLE (b.slice 0 4) = handoverMagic := by
  rw [h.word (i := 0) rfl, uint32OfLE_uint32LE]

theorem version (h : Laid b slack a) : uint32OfLE (b.slice 4 4) = handoverVersion := by
  rw [h.word (i := 1) rfl, uint32OfLE_uint32LE]

theorem poolChecksum (h : Laid b slack a) : hdrPoolChecksum b = prstPoolChecksum a.pool := by
  rw [hdrPoolChecksum, h.word (i := 2) rfl, uint32OfLE_uint32LE]

theorem graphChecksum (h : Laid b slack a) : hdrGraphChecksum b = (prstGraphChecksum a.graph.deps).getD 0 := by
  rw [hdrGraphChecksum, h.word (i := 3) rfl, uint32OfLE_uint32LE]

theorem poolSize (h : Laid b slack a) : hdrPoolSize b = .ofNat (prstPoolSerialize slack a.pool).length := by
  rw [hdrPoolSize, h.word (i := 4) rfl, uint32OfLE_uint32LE]

theorem graphSize (h : Laid b slack a) : hdrGraphSize b = .ofNat (prstGraphSerialize a.graph.deps).length := by
  rw [hdrGraphSize, h.word (i := 5) rfl, uint32OfLE_uint32LE]

theorem at_sections (h : Laid b slack a) :
    b.At headerSize (prstPoolSerialize slack a.pool) ∧
      b.At (headerSize + (prstPoolSerialize slack a.pool).length) (prstGraphSerialize a.graph.deps) := by
  obtain ⟨_, hsections⟩ := Buffer.At.split (l := handoverHeader a _ _) h.at_start
  rw [length_handoverHeader, Nat.zero_add] at hsections
  exact hsections.split

end Laid

theorem toNat_ofNat_size {n : ℕ} (h : n < 2 ^ 32) : (UInt32.ofNat n).toNat = n := UInt32.toNat_ofNat_of_lt' h

theorem ofNat_pos {n : ℕ} (h : n < 2 ^ 32) (hpos : 0 < n) : 0 < UInt32.ofNat n := by
  rw [UInt32.lt_iff_toNat_lt, toNat_ofNat_size h]
  exact hpos

/-- The pool arrives as its entries are restored one by one, unless that changes the checksum. -/
theorem handoverPool_laid (h : Laid b slack a) (hpool : ∀ e ∈ a.pool, e.Bounded) (hlen : a.pool.length ≤ 65536)
    (hsize : (prstPoolSerialize slack a.pool).length < 2 ^ 32) (c : Cursor) :
    (handoverPool b c).1 = some (if prstPoolChecksum (restoreAll [] a.pool) = prstPoolChecksum a.pool then
      .ok (restoreAll [] a.pool) else .error .checksum) := by
  have hpos : 0 < (prstPoolSerialize slack a.pool).length := by simp [prstPoolSerialize]
  have hread : ∀ c, (inWindow b headerSize (prstPoolSerialize slack a.pool).length
      (fun w => prstPoolDeserialize w []) c).1 = some (true, restoreAll [] a.pool) := by
    intro c
    obtain ⟨reads, hrun⟩ := decodes_section (b := b.window headerSize (prstPoolSerialize slack a.pool).length) (q := [])
      hpool hlen slack rfl .start h.at_sections.1.window
    rw [fst_inWindow, hrun]
  have hfield : ∀ c, (uint32At b 16 c).1 = some (.ofNat (prstPoolSerialize slack a.pool).length) :=
    fun c => congrArg some h.poolSize
  have hchecksum : ∀ c, (uint32At b 8 c).1 = some (prstPoolChecksum a.pool) := fun c => congrArg some h.poolChecksum
  rw [handoverPool, bind_of_fst (hfield c), if_pos (ofNat_pos hsize hpos), toNat_ofNat_size hsize,
    bind_of_fst (hread _), if_pos rfl, bind_of_fst (hchecksum _)]
  rfl

theorem handoverGraph_laid (h : Laid b slack a) (hgraph : GraphRecorded a.graph)
    (hsize : (prstPoolSerialize slack a.pool).length < 2 ^ 32) (c : Cursor) :
    (handoverGraph b c).1 = some (.ok a.graph.deps) := by
  have hfields := hgraph.isField
  have hcount : a.graph.deps.length ≤ 65536 := a.graph.count_le.trans a.graph.cap_le
  have hlength : (prstGraphSerialize a.graph.deps).length = 4 + a.graph.deps.length * 512 := by
    rw [prstGraphSerialize, List.length_append, length_int32LE, length_depsBytes hfields]
  have hread : ∀ c, (inWindow b (headerSize + (prstPoolSerialize slack a.pool).length)
      (prstGraphSerialize a.graph.deps).length prstGraphDeserialize c).1 = some (some a.graph.deps) := by
    intro c
    obtain ⟨reads, hrun⟩ := decodes_graph (b := b.window _ (prstGraphSerialize a.graph.deps).length) hfields hcount rfl
      .start h.at_sections.2.window
    rw [fst_inWindow, hrun]
  obtain ⟨cs, hcs⟩ : ∃ cs, prstGraphChecksum a.graph.deps = some cs :=
    fnvDeps_isSome (fun d hd => ⟨(hfields d hd).1.terminated, (hfields d hd).2.terminated⟩) fnvBasis
  have hpoolSize : ∀ c, (uint32At b 16 c).1 = some (.ofNat (prstPoolSerialize slack a.pool).length) :=
    fun c => congrArg some h.poolSize
  have hgraphSize : ∀ c, (uint32At b 20 c).1 = some (.ofNat (prstGraphSerialize a.graph.deps).length) :=
    fun c => congrArg some h.graphSize
  have hchecksum : ∀ c, (uint32At b 12 c).1 = some cs := by
    intro c
    have hvalue := h.graphChecksum
    rw [hcs] at hvalue
    exact congrArg some hvalue
  rw [handoverGraph, bind_of_fst (hpoolSize c), bind_of_fst (hgraphSize _),
    if_pos (ofNat_pos (by omega) (by omega)), toNat_ofNat_size hsize, toNat_ofNat_size (by omega),
    bind_of_fst (hread _)]
  simp only [hcs]
  rw [bind_of_fst (hchecksum _), if_pos rfl]
  rfl

theorem handover_laid (h : Laid b slack a) (hpool : ∀ e ∈ a.pool, e.Bounded) (hlen : a.pool.length ≤ 65536)
    (hgraph : GraphRecorded a.graph) (hsize : (prstPoolSerialize slack a.pool).length < 2 ^ 32) :
    (handoverDeserializeState b .start).1 =
      some (if prstPoolChecksum (restoreAll [] a.pool) = prstPoolChecksum a.pool then
        .ok (restoreAll [] a.pool, a.graph.deps) else .error .checksum) := by
  have hheader : ¬b.size < headerSize := by
    have hat := h.at_sections.1.1
    omega
  have hmagic : ∀ c, (uint32At b 0 c).1 = some handoverMagic := fun c => congrArg some h.magic
  have hversion : ∀ c, (uint32At b 4 c).1 = some handoverVersion := fun c => congrArg some h.version
  rw [handoverDeserializeState, if_neg hheader, bind_of_fst (hmagic _), if_neg (by decide),
    bind_of_fst (hversion _), if_pos (by decide), bind_of_fst (handoverPool_laid h hpool hlen hsize _)]
  split
  · dsimp only
    rw [bind_of_fst (handoverGraph_laid h hgraph hsize _)]
    rfl
  · rfl

/-- The entry arrives unchanged; its initial value does if a snapshot carries it. -/
structure Arrives (e e' : PoolEntry) : Prop where
  name : e'.name = e.name
  value : e'.value = e.value
  declaredType : e'.declaredType = e.declaredType
  stackOffset : e'.stackOffset = e.stackOffset
  initValue : e.initValue.Snapshotable → e'.initValue = e.initValue

/-- Step 2 succeeds with the checksums of the running program, and the values a snapshot carries arrive unchanged. -/
def Migrates (slack : ℕ → ℕ → UInt8) (a : HandoverState) : Prop :=
  ∀ b, Laid b slack a → ∃ pool graph, (handoverDeserializeState b .start).1 = some (.ok (pool, graph)) ∧
    prstPoolChecksum pool = prstPoolChecksum a.pool ∧ prstGraphChecksum graph = prstGraphChecksum a.graph.deps ∧
    ∀ (i : ℕ) (e : PoolEntry), a.pool[i]? = some e → e.value.Snapshotable → ∃ e', pool[i]? = some e' ∧ Arrives e e'

theorem fnvValue_carried (h : UInt32) (v : Stored) : fnvValue h v.carried = fnvValue h v := by
  cases v with
  | arr es => cases es <;> rfl
  | _ => rfl

theorem prstPoolChecksum_carried (p : PrstPool) : prstPoolChecksum (p.map PoolEntry.carried) = prstPoolChecksum p := by
  have hentry : ∀ h e, fnvEntry h (PoolEntry.carried e) = fnvEntry h e := fun h e =>
    congrArg (· ^^^ 0x1e) (fnvValue_carried _ e.value)
  rw [prstPoolChecksum, List.foldl_map]
  congr 1
  funext h e
  exact hentry h e

/-- **A migration does not fail its checksum** if the entries have different names and the pool section is smaller than
`2 ^ 32` bytes. -/
theorem migration_succeeds (hpool : PoolReached a.pool) (hlen : a.pool.length ≤ 65536) (hgraph : GraphRecorded a.graph)
    (hnames : a.pool.names.Nodup) (hsize : (prstPoolSerialize slack a.pool).length < 2 ^ 32) : Migrates slack a := by
  intro b hlaid
  have hresult := handover_laid hlaid hpool.bounded hlen hgraph hsize
  rw [restoreAll_of_distinct hnames, if_pos (prstPoolChecksum_carried a.pool)] at hresult
  refine ⟨_, _, hresult, prstPoolChecksum_carried a.pool, rfl, fun i e he hvalue => ⟨e.carried, ?_, ?_⟩⟩
  · rw [List.getElem?_map, he]
    rfl
  · exact ⟨rfl, hvalue.carried_eq, rfl, rfl, fun hinit => hinit.carried_eq⟩

/-- An integer, a dyn that has become a headstone, and a dyn that is still open. -/
def mixedState : HandoverState where
  pool := (prstPoolSet (prstHeadstoneResources
    (prstPoolSet (prstPoolSet [] ⟨[110], n_noNul⟩ (.int 5)).1 ⟨[119], by decide⟩ (.ref .dyn 7)).1)
    ⟨[99], by decide⟩ (.ref .dyn 8)).1
  graph := (PrstGraph.initCap 0).record ⟨[110], n_noNul⟩ (some ⟨[102], by decide⟩)
  cycleCount := 3

theorem mixed_state_migrates : Migrates (fun _ _ => 0) mixedState := by
  refine migration_succeeds ?_ (by decide +kernel) (.record (.init 0) _ _) (by decide +kernel) (by decide +kernel)
  exact .set (.headstone (.set (.set .init _ (.int 5)) _ (.ref .dyn 7))) _ (.ref .dyn 8)

def stringState (s : CString) : HandoverState := ⟨(prstPoolSet [] ⟨[115], by decide⟩ (.str s)).1, .initCap 0, 0⟩

theorem length_stringState (slack : ℕ → ℕ → UInt8) {s : CString} (h : s.bytes.length < 2 ^ 31) :
    (prstPoolSerialize slack (stringState s).pool).length = 324 + 2 * s.bytes.length := by
  have hvalue : (prstSerValue (.str s)).length = 28 + s.bytes.length := by
    rw [prstSerValue_eq]
    simp [Stored.text, Stored.elems, prstSerElems, Int32.toNatClampNeg_ofNat_of_lt h]
    omega
  have hpool : (stringState s).pool = [⟨.cut ⟨[115], by decide⟩, .str s, .str s, ValType.string.tag, -1⟩] := rfl
  rw [hpool, prstPoolSerialize, prstSerEntries, prstSerEntries, prstSerEntry]
  simp only [List.length_append, length_int32LE, EntryName.length_buffer, hvalue, List.length_nil]
  omega

/-- The section of a string of that length and of its initial value is two bytes longer than `2 ^ 32`, and the reader is
given two bytes. -/
theorem not_migrates_of_length {s : CString} (h : s.bytes.length = 2 ^ 31 - 161) : ¬Migrates slack (stringState s) := by
  intro hmigrates
  have hlaid : Laid (.ofList (handoverSerializeState slack (stringState s))) slack (stringState s) :=
    ⟨rfl, Buffer.at_ofList _⟩
  obtain ⟨pool, graph, hok, _⟩ := hmigrates _ hlaid
  generalize Buffer.ofList (handoverSerializeState slack (stringState s)) = b at hlaid hok
  have hsize : hdrPoolSize b = 2 := by
    rw [hlaid.poolSize, length_stringState slack (by omega), h]
    decide
  have hfield : ∀ c, (uint32At b 16 c).1 = some 2 := fun c => congrArg some hsize
  have hread : ∀ c, (inWindow b headerSize (2 : UInt32).toNat (fun w => prstPoolDeserialize w []) c).1 =
      some (false, []) := by
    intro c
    have hfits : fits (b.window headerSize 2) 4 .start = (some false, .start) := rfl
    rw [fst_inWindow]
    change (prstPoolDeserialize (b.window headerSize 2) [] .start).1 = _
    rw [prstPoolDeserialize, prstPoolDeserializeIn, bind_of_some hfits]
    rfl
  have hpool : ∀ c, (handoverPool b c).1 = some (.error .deserialize) := by
    intro c
    rw [handoverPool, bind_of_fst (hfield c), if_pos (by decide), bind_of_fst (hread _)]
    rfl
  have hheader : ¬b.size < headerSize := by
    have hat := hlaid.at_sections.1.1
    omega
  have hmagic : ∀ c, (uint32At b 0 c).1 = some handoverMagic := fun c => congrArg some hlaid.magic
  have hversion : ∀ c, (uint32At b 4 c).1 = some handoverVersion := fun c => congrArg some hlaid.version
  rw [handoverDeserializeState, if_neg hheader, bind_of_fst (hmagic _), if_neg (by decide),
    bind_of_fst (hversion _), if_pos (by decide), bind_of_fst (hpool _)] at hok
  cases hok

theorem poolReached_stringState {s : CString} (h : s.bytes.length < 2 ^ 31) : PoolReached (stringState s).pool :=
  .set .init _ (.str s h)

/-- A string of 161 bytes less than `2 ^ 31`. -/
def longString : CString :=
  ⟨List.replicate (2 ^ 31 - 161) 97, fun h => absurd (List.eq_of_mem_replicate h) (by decide)⟩

theorem not_migrates_of_checksum {p : PrstPool} (hp : PoolReached p) (hlen : p.length ≤ 65536)
    (hsize : (prstPoolSerialize slack p).length < 2 ^ 32) (hne : prstPoolChecksum (restoreAll [] p) ≠ prstPoolChecksum p) :
    ¬Migrates slack ⟨p, .initCap 0, 0⟩ := by
  intro hmigrates
  have hlaid : Laid (.ofList (handoverSerializeState slack ⟨p, .initCap 0, 0⟩)) slack ⟨p, .initCap 0, 0⟩ :=
    ⟨rfl, Buffer.at_ofList _⟩
  obtain ⟨pool, graph, hok, _⟩ := hmigrates _ hlaid
  rw [handover_laid hlaid hp.bounded hlen (.init 0) hsize, if_neg hne] at hok
  cases hok

def longName : CString := ⟨List.replicate 256 97, by decide⟩

/-- `prst_pool_set` looks for the whole name and keeps 255 bytes of it, so that setting the variable again
makes a second entry. -/
def longNamePool : PrstPool := (prstPoolSet (prstPoolSet [] longName (.int 1)).1 longName (.int 2)).1

/-- A variable with that string, and a name of 256 bytes that has two entries, of which one arrives. -/
theorem long_string_is_not_migrated :
    (PoolReached (stringState longString).pool ∧ ¬Migrates (fun _ _ => 0) (stringState longString)) ∧
      PoolReached longNamePool ∧ ¬Migrates (fun _ _ => 0) ⟨longNamePool, .initCap 0, 0⟩ := by
  have hlength : longString.bytes.length = 2 ^ 31 - 161 := List.length_replicate
  have hreached : PoolReached longNamePool := .set (.set .init _ (.int 1)) _ (.int 2)
  have hstring : PoolReached (stringState longString).pool := poolReached_stringState (by omega)
  have hmerged : prstPoolChecksum (restoreAll [] longNamePool) ≠ prstPoolChecksum longNamePool := by decide +kernel
  have hsize : (prstPoolSerialize (fun _ _ => 0) longNamePool).length < 2 ^ 32 := by decide +kernel
  exact ⟨⟨hstring, not_migrates_of_length hlength⟩, hreached,
    not_migrates_of_checksum hreached (by decide +kernel) hsize hmerged⟩

end Migration

section Repeated

theorem Stored.Bounded.carried_carried {v : Stored} (h : v.Bounded) : v.carried.carried = v.carried := by
  induction h with
  | nil | int | float | bool | str | ref => rfl
  | arr es hlen h ih =>
    by_cases hne : es = []
    · subst hne
      rfl
    · rw [Stored.carried_arr hne, Stored.carried_arr (by simpa using hne), List.map_map]
      exact congrArg Stored.arr (List.map_congr_left ih)

/-- The second pool was read from a snapshot of the first, with or without success. -/
def Rereads (p p' : PrstPool) : Prop :=
  ∃ (slack : ℕ → ℕ → UInt8) (b : Buffer) (q : PrstPool) (ok : Bool), b.size = (prstPoolSerialize slack p).length ∧
    b.At 0 (prstPoolSerialize slack p) ∧ (prstPoolDeserialize b q .start).1 = some (ok, p')

variable {p p' : PrstPool}

theorem read_section (hp : ∀ e ∈ p, e.Bounded) (hlen : p.length ≤ 65536) (hnames : p.names.Nodup)
    {slack : ℕ → ℕ → UInt8} {b : Buffer} (hsize : b.size = (prstPoolSerialize slack p).length)
    (hat : b.At 0 (prstPoolSerialize slack p)) (q : PrstPool) :
    (prstPoolDeserialize b q .start).1 = some (true, p.map PoolEntry.carried) := by
  obtain ⟨reads, hrun⟩ := decodes_section (q := q) hp hlen slack hsize .start hat
  rw [hrun, restoreAll_of_distinct hnames]

theorem rereads_carried (hp : ∀ e ∈ p, e.Bounded) (hlen : p.length ≤ 65536) (hnames : p.names.Nodup) :
    Rereads p (p.map PoolEntry.carried) :=
  ⟨fun _ _ => 0, .ofList _, [], true, rfl, Buffer.at_ofList _, read_section hp hlen hnames rfl (Buffer.at_ofList _) []⟩

/-- What one snapshot has dropped, the next one does not miss. -/
theorem roundTrips_carried (hp : ∀ e ∈ p, e.Bounded) (hlen : p.length ≤ 65536) (hnames : p.names.Nodup) :
    RoundTrips (p.map PoolEntry.carried) := by
  intro slack b hsize hat q
  have hbounded : ∀ e ∈ p.map PoolEntry.carried, e.Bounded := by
    intro e he
    obtain ⟨x, hx, rfl⟩ := List.mem_map.mp he
    exact (hp x hx).carried
  have hsettled : (p.map PoolEntry.carried).map PoolEntry.carried = p.map PoolEntry.carried := by
    rw [List.map_map]
    refine List.map_congr_left fun e he => ?_
    rw [Function.comp_apply, PoolEntry.carried, PoolEntry.carried, (hp e he).value.carried_carried,
      (hp e he).initValue.carried_carried]
  rw [read_section hbounded (by rwa [List.length_map]) (by rwa [names_map_carried]) hsize hat q, hsettled]

end Repeated

end Fluxa
