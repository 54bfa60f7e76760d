import Fluxa.Snapshot

/-! The second step of a handover (`handover.c`): the state of the running program is written into a snapshot and read back
into the candidate. A snapshot is a header, a pool and a graph; the header gives the sizes of the two sections. The reader
takes the sizes from the header and does not compare them with the size of the snapshot, and it does not look at the
checksum of a section of size zero. -/

namespace Fluxa

open Wire

section Checksums

/-- FNV-1a. -/
def fnvBytes (h : UInt32) (l : List UInt8) : UInt32 := l.foldl (fun h b => (h ^^^ b.toUInt32) * 16777619) h

def fnvBasis : UInt32 := 2166136261

/-- Of the value only an integer is mixed in, low word first. -/
def fnvValue (h : UInt32) : Stored → UInt32
  | .int i =>
    let v := i.toUInt64
    let h := (h ^^^ v.toUInt32) * 16777619
    (h ^^^ (v >>> 32).toUInt32) * 16777619
  | _ => h

def fnvEntry (h : UInt32) (e : PoolEntry) : UInt32 :=
  let h := fnvBytes h e.name.bytes ^^^ 0x1f
  let h := (h ^^^ e.declaredType.toUInt32.toUInt8.toUInt32) * 16777619
  fnvValue h e.value ^^^ 0x1e

def prstPoolChecksum (p : PrstPool) : UInt32 := p.foldl fnvEntry fnvBasis

end Checksums

section Graph

/-- The two `char[256]` of an edge, as they are in memory. -/
structure PrstDep where
  prstName : List UInt8
  readerCtx : List UInt8
  deriving DecidableEq

/-- What `strncpy` leaves in a field: at most 255 bytes and zeros up to the end. -/
def fieldOf (s : CString) : List UInt8 := s.bytes.take 255 ++ List.replicate (256 - (s.bytes.take 255).length) 0

def PrstDep.of (prstName readerCtx : CString) : PrstDep := ⟨fieldOf prstName, fieldOf readerCtx⟩

def prstGraphCapDefault : ℕ := 256

def prstGraphCapMax : ℕ := 65536

structure PrstGraph where
  deps : List PrstDep
  cap : ℕ
  count_le : deps.length ≤ cap
  cap_le : cap ≤ prstGraphCapMax

namespace PrstGraph

def initCap (cap : ℤ) : PrstGraph :=
  if h : cap ≤ 0 ∨ prstGraphCapMax < cap then ⟨[], prstGraphCapDefault, Nat.zero_le _, by decide⟩
  else ⟨[], cap.toNat, Nat.zero_le _, by omega⟩

/-- An edge that is there already is not entered again; the fields are compared with the full names. A graph that cannot
grow drops the edge. -/
def record (g : PrstGraph) (prstName : CString) (readerCtx : Option CString) : PrstGraph :=
  let ctx := readerCtx.getD ⟨[60, 103, 108, 111, 98, 97, 108, 62], by decide⟩
  if g.deps.any fun d => CString.ofBuffer d.prstName = prstName ∧ CString.ofBuffer d.readerCtx = ctx then g
  else if hroom : g.deps.length < g.cap then
    { g with deps := g.deps ++ [.of prstName ctx], count_le := by rw [List.length_append]; exact hroom }
  else
    let newCap := min (if 0 < g.cap then g.cap * 2 else prstGraphCapDefault) prstGraphCapMax
    if hgrown : g.deps.length < newCap then
      { g with
        deps := g.deps ++ [.of prstName ctx]
        cap := newCap
        count_le := by rw [List.length_append]; exact hgrown
        cap_le := Nat.min_le_right _ _ }
    else g

end PrstGraph

def depsBytes (deps : List PrstDep) : List UInt8 := deps.flatMap fun d => d.prstName ++ d.readerCtx

/-- The C string at the start of some memory, unless it runs over the end. -/
def cstrAt (mem : List UInt8) : Option (List UInt8) :=
  if 0 ∈ mem then some (mem.takeWhile (· != 0)) else none

/-- A string is read up to its terminator, wherever that is; `none` is a read behind the last edge. -/
def fnvDeps : List PrstDep → UInt32 → Option UInt32
  | [], h => some h
  | d :: ds, h => do
      let name ← cstrAt (d.prstName ++ (d.readerCtx ++ depsBytes ds))
      let ctx ← cstrAt (d.readerCtx ++ depsBytes ds)
      fnvDeps ds (fnvBytes (fnvBytes h name ^^^ 0x1f) ctx ^^^ 0x1e)

def prstGraphChecksum (deps : List PrstDep) : Option UInt32 := fnvDeps deps fnvBasis

def prstGraphSerialize (deps : List PrstDep) : List UInt8 := int32LE (.ofNat deps.length) ++ depsBytes deps

def prstGraphDep (b : Buffer) : Decoder PrstDep := do
  let prstName ← bytes b 256
  let readerCtx ← bytes b 256
  pure ⟨prstName, readerCtx⟩

/-- `none` is the failure of the source. -/
def prstGraphDeserialize (b : Buffer) : Decoder (Option (List PrstDep)) := do
  if ← fits b 4 then do
    let cnt ← int32 b
    if cnt < 0 ∨ 65536 < cnt then pure none
    else if 4 + cnt.toNatClampNeg * 512 ≤ b.size then some <$> times cnt.toNatClampNeg (prstGraphDep b)
    else pure none
  else pure none

end Graph

section Snapshots

/-- The results of `HandoverResult` that reading a snapshot can have, apart from `HANDOVER_OK`. -/
inductive HandoverErr where
  | deserialize | checksum | version
  deriving DecidableEq

def handoverMagic : UInt32 := 0xF10A8888

def handoverVersion : UInt32 := 1001

def headerSize : ℕ := 40

/-- The version of a snapshot must have the same major number and must not be newer. -/
def handoverCheckVersion (version : UInt32) : Bool := version / 1000 == handoverVersion / 1000 && version ≤ handoverVersion

structure HandoverState where
  pool : PrstPool
  graph : PrstGraph
  cycleCount : Int32

/-- The header's fields in order; the sizes are cast to 32 bits. A graph that `prst_graph_record` built has all its strings
terminated, so that the default is never taken. -/
def handoverHeader (a : HandoverState) (poolSize graphSize : ℕ) : List UInt8 :=
  uint32LE handoverMagic ++ (uint32LE handoverVersion ++ (uint32LE (prstPoolChecksum a.pool) ++
    (uint32LE ((prstGraphChecksum a.graph.deps).getD 0) ++ (uint32LE (.ofNat poolSize) ++ (uint32LE (.ofNat graphSize) ++
      (int32LE (.ofNat a.pool.length) ++ (int32LE (.ofNat a.graph.deps.length) ++ (int32LE a.cycleCount ++
        List.replicate 4 0))))))))

def handoverSerializeState (slack : ℕ → ℕ → UInt8) (a : HandoverState) : List UInt8 :=
  let pool := prstPoolSerialize slack a.pool
  let graph := prstGraphSerialize a.graph.deps
  handoverHeader a pool.length graph.length ++ (pool ++ graph)

variable (b : Buffer)

/-- The pool section. A section of size zero gives an empty pool, without a look at the checksum. -/
def handoverPool : Decoder (Except HandoverErr PrstPool) := do
  let poolSize ← uint32At b 16
  if 0 < poolSize then do
    let r ← inWindow b headerSize poolSize.toNat fun w => prstPoolDeserialize w []
    if r.1 then do
      let checksum ← uint32At b 8
      pure (if prstPoolChecksum r.2 = checksum then .ok r.2 else .error .checksum)
    else pure (.error .deserialize)
  else pure (.ok [])

/-- The graph section, behind the pool section. The computation is cut off where the checksum would read on behind the
edges. -/
def handoverGraph : Decoder (Except HandoverErr (List PrstDep)) := do
  let poolSize ← uint32At b 16
  let graphSize ← uint32At b 20
  if 0 < graphSize then do
    match ← inWindow b (headerSize + poolSize.toNat) graphSize.toNat prstGraphDeserialize with
    | none => pure (.error .deserialize)
    | some deps =>
      match prstGraphChecksum deps with
      | none => Cutoff.cut
      | some cs => do
          let checksum ← uint32At b 12
          pure (if cs = checksum then .ok deps else .error .checksum)
  else pure (.ok [])

/-- `handover_deserialize_state`. -/
def handoverDeserializeState : Decoder (Except HandoverErr (PrstPool × List PrstDep)) := do
  if b.size < headerSize then pure (.error .deserialize)
  else do
    let magic ← uint32At b 0
    if magic ≠ handoverMagic then pure (.error .deserialize)
    else do
      let version ← uint32At b 4
      if handoverCheckVersion version then do
        match ← handoverPool b with
        | .error r => pure (.error r)
        | .ok pool => do
            match ← handoverGraph b with
            | .error r => pure (.error r)
            | .ok graph => pure (.ok (pool, graph))
      else pure (.error .version)

end Snapshots

section Bounds

variable {b : Buffer}

/-! The fields of the header. -/

def hdrMagic (b : Buffer) : UInt32 := uint32OfLE (b.slice 0 4)

def hdrVersion (b : Buffer) : UInt32 := uint32OfLE (b.slice 4 4)

def hdrPoolChecksum (b : Buffer) : UInt32 := uint32OfLE (b.slice 8 4)

def hdrGraphChecksum (b : Buffer) : UInt32 := uint32OfLE (b.slice 12 4)

def hdrPoolSize (b : Buffer) : UInt32 := uint32OfLE (b.slice 16 4)

def hdrGraphSize (b : Buffer) : UInt32 := uint32OfLE (b.slice 20 4)

/-- The pool a snapshot encodes: the contents of its pool section. -/
def encodedPool (b : Buffer) : Option PrstPool :=
  if hdrPoolSize b = 0 then some []
  else match (prstPoolDeserialize (b.window headerSize (hdrPoolSize b).toNat) [] .start).1 with
    | some (true, p) => some p
    | _ => none

/-- The graph a snapshot encodes: the contents of its graph section. -/
def encodedGraph (b : Buffer) : Option (List PrstDep) :=
  if hdrGraphSize b = 0 then some []
  else (prstGraphDeserialize (b.window (headerSize + (hdrPoolSize b).toNat) (hdrGraphSize b).toNat) .start).1.join

/-- The snapshot is read inside its bounds, and what is read is what it encodes, with the checksums of its header. -/
structure ReadWithin (b : Buffer) : Prop where
  inside : ∃ r c, handoverDeserializeState b .start = (some r, c) ∧ c.Safe b
  encoded : ∀ pool graph, (handoverDeserializeState b .start).1 = some (.ok (pool, graph)) →
    encodedPool b = some pool ∧ prstPoolChecksum pool = hdrPoolChecksum b ∧
      encodedGraph b = some graph ∧ prstGraphChecksum graph = some (hdrGraphChecksum b)

/-- The graph section lies in the snapshot, has the checksum of nothing if it is empty, and its names end in their
fields. -/
structure GraphFits (b : Buffer) : Prop where
  fits : headerSize + (hdrPoolSize b).toNat + (hdrGraphSize b).toNat ≤ b.size
  empty : hdrGraphSize b = 0 → hdrGraphChecksum b = fnvBasis
  terminated : ∀ graph, encodedGraph b = some graph → ∀ d ∈ graph, 0 ∈ d.prstName ∧ 0 ∈ d.readerCtx

/-- The pool section lies in the snapshot and has the checksum of nothing if it is empty. The graph section counts only if
the pool is accepted. -/
structure SizesFit (b : Buffer) : Prop where
  fits : headerSize + (hdrPoolSize b).toNat ≤ b.size
  empty : hdrPoolSize b = 0 → hdrPoolChecksum b = fnvBasis
  graph : ∀ pool, encodedPool b = some pool → prstPoolChecksum pool = hdrPoolChecksum b → GraphFits b

/-- The header is there, and is that of a snapshot of a version that is read. -/
structure Readable (b : Buffer) : Prop where
  header : headerSize ≤ b.size
  magic : hdrMagic b = handoverMagic
  version : handoverCheckVersion (hdrVersion b) = true

theorem ne_zero_of_pos {x : UInt32} (h : 0 < x) : x ≠ 0 := by
  rintro rfl
  exact absurd h (by decide)

theorem eq_zero_of_not_pos {x : UInt32} (h : ¬0 < x) : x = 0 := UInt32.le_zero_iff.mp (UInt32.not_lt.mp h)

theorem gives_header {α : Type} {c : Cursor} {pos : ℕ} {x : UInt32} {f : UInt32 → Decoder α} {R : α → Prop}
    (hsize : headerSize ≤ b.size) (hpos : pos + 4 ≤ headerSize) (hx : uint32OfLE (b.slice pos 4) = x)
    (hc : c.Safe b) (hf : ∀ c, c.Safe b → Gives b (f x) c R) : Gives b (uint32At b pos >>= f) c R :=
  (gives_uint32At hc (hpos.trans hsize)).bind fun _ c hc hy => (hy.trans hx) ▸ hf c hc

theorem gives_pool {c : Cursor} (hc : c.Safe b) (hfits : headerSize + (hdrPoolSize b).toNat ≤ b.size)
    (hempty : hdrPoolSize b = 0 → hdrPoolChecksum b = fnvBasis) :
    Gives b (handoverPool b) c fun r => ∀ pool, r = .ok pool →
      encodedPool b = some pool ∧ prstPoolChecksum pool = hdrPoolChecksum b := by
  have hsize := (Nat.le_add_right _ _).trans hfits
  refine gives_header (x := hdrPoolSize b) hsize (by decide) rfl hc fun c hc => ?_
  by_cases hpos : 0 < hdrPoolSize b
  · rw [if_pos hpos]
    have hread : Gives (b.window headerSize (hdrPoolSize b).toNat)
        (prstPoolDeserialize (b.window headerSize (hdrPoolSize b).toNat) []) .start
        (fun r => (prstPoolDeserialize (b.window headerSize (hdrPoolSize b).toNat) [] .start).1 = some r) := by
      obtain ⟨ok, p, c', hrun, hsafe, _⟩ := prstPoolDeserialize_safe (b.window headerSize (hdrPoolSize b).toNat) []
      exact ⟨(ok, p), c', hrun, hsafe, congrArg Prod.fst hrun⟩
    refine (gives_inWindow (d := fun w => prstPoolDeserialize w []) hc hfits hread).bind ?_
    rintro ⟨ok, p⟩ c hc hp
    cases ok with
    | false => exact gives_pure hc fun pool h => nomatch h
    | true =>
      refine gives_header (x := hdrPoolChecksum b) hsize (by decide) rfl hc fun c hc => ?_
      refine gives_pure hc fun pool h => ?_
      dsimp only at h
      split at h
      next hchecksum =>
        cases h
        refine ⟨?_, hchecksum⟩
        rw [encodedPool, if_neg (ne_zero_of_pos hpos), hp]
      next => cases h
  · rw [if_neg hpos]
    have hzero := eq_zero_of_not_pos hpos
    refine gives_pure hc fun pool h => ?_
    cases h
    exact ⟨if_pos hzero, (hempty hzero).symm⟩

theorem prstGraphDep_eq (c : Cursor) :
    prstGraphDep b c = (some ⟨b.slice c.pos 256, b.slice (c.pos + 256) 256⟩,
      ⟨c.pos + 512, (c.pos + 256, 256) :: (c.pos, 256) :: c.reads, c.spent⟩) := rfl

theorem times_prstGraphDep_safe (n : ℕ) {c : Cursor} (hc : c.Safe b) (hleft : c.pos + n * 512 ≤ b.size) :
    ∃ deps c', times n (prstGraphDep b) c = (some deps, c') ∧ c'.Safe b := by
  induction n generalizing c with
  | zero => exact ⟨[], c, rfl, hc⟩
  | succ n ih =>
    have hsafe : (prstGraphDep b c).2.Safe b := by
      refine ⟨fun r hr => ?_, hc.unspent⟩
      rcases List.mem_cons.mp hr with rfl | hr
      · change c.pos + 256 + 256 ≤ b.size
        omega
      · rcases List.mem_cons.mp hr with rfl | hr
        · change c.pos + 256 ≤ b.size
          omega
        · exact hc.inside r hr
    obtain ⟨deps, c', hrest, hsafe'⟩ := ih hsafe (by rw [prstGraphDep_eq]; dsimp only; omega)
    refine ⟨⟨b.slice c.pos 256, b.slice (c.pos + 256) 256⟩ :: deps, c', ?_, hsafe'⟩
    rw [times, Cutoff.bind_of_some (prstGraphDep_eq c)]
    exact Cutoff.bind_of_some hrest

theorem gives_graphDeserialize (w : Buffer) :
    Gives w (prstGraphDeserialize w) .start fun r => (prstGraphDeserialize w .start).1 = some r := by
  suffices h : ∃ r c, prstGraphDeserialize w .start = (some r, c) ∧ c.Safe w by
    obtain ⟨r, c, hrun, hsafe⟩ := h
    exact ⟨r, c, hrun, hsafe, congrArg Prod.fst hrun⟩
  have hstart : Cursor.start.Safe w := ⟨fun r hr => absurd hr List.not_mem_nil, rfl⟩
  by_cases hsize : 4 ≤ w.size
  · have hfits : fits w 4 .start = (some true, .start) := by simp [fits, Cursor.start, hsize]
    have hcount : int32 w .start = (some (int32OfLE (w.slice 0 4)), afterCount) := rfl
    have hafter : afterCount.Safe w := ⟨by simpa [afterCount] using hsize, rfl⟩
    rw [prstGraphDeserialize, Cutoff.bind_of_some hfits, if_pos rfl, Cutoff.bind_of_some hcount]
    split
    · exact ⟨none, afterCount, rfl, hafter⟩
    split
    next hroom =>
      obtain ⟨deps, c, hdeps, hsafe⟩ := times_prstGraphDep_safe _ hafter hroom
      refine ⟨some deps, c, ?_, hsafe⟩
      rw [map_eq_pure_bind, Cutoff.bind_of_some hdeps]
      rfl
    next => exact ⟨none, afterCount, rfl, hafter⟩
  · have hfits : fits w 4 .start = (some false, .start) := by simp [fits, Cursor.start, hsize]
    rw [prstGraphDeserialize, Cutoff.bind_of_some hfits]
    exact ⟨none, .start, rfl, hstart⟩

theorem cstrAt_append {mem : List UInt8} (h : 0 ∈ mem) (more : List UInt8) : (cstrAt (mem ++ more)).isSome := by
  rw [cstrAt, if_pos (List.mem_append_left more h)]
  rfl

/-- The checksum of edges whose names end in their fields is read inside them. -/
theorem fnvDeps_isSome {deps : List PrstDep} (h : ∀ d ∈ deps, 0 ∈ d.prstName ∧ 0 ∈ d.readerCtx) (x : UInt32) :
    ∃ y, fnvDeps deps x = some y := by
  induction deps generalizing x with
  | nil => exact ⟨x, rfl⟩
  | cons d ds ih =>
    obtain ⟨hname, hctx⟩ := h d List.mem_cons_self
    obtain ⟨name, hname⟩ := Option.isSome_iff_exists.mp (cstrAt_append hname (d.readerCtx ++ depsBytes ds))
    obtain ⟨ctx, hctx⟩ := Option.isSome_iff_exists.mp (cstrAt_append hctx (depsBytes ds))
    rw [fnvDeps, hname, Option.bind_eq_bind, Option.bind_some, hctx]
    exact ih (fun d hd => h d (List.mem_cons_of_mem _ hd)) _

theorem gives_graph {c : Cursor} (hc : c.Safe b) (h : GraphFits b) :
    Gives b (handoverGraph b) c fun r => ∀ graph, r = .ok graph →
      encodedGraph b = some graph ∧ prstGraphChecksum graph = some (hdrGraphChecksum b) := by
  have hfits := h.fits
  have hsize : headerSize ≤ b.size := by omega
  refine gives_header (x := hdrPoolSize b) hsize (by decide) rfl hc fun c hc => ?_
  refine gives_header (x := hdrGraphSize b) hsize (by decide) rfl hc fun c hc => ?_
  have hempty := h.empty
  by_cases hpos : 0 < hdrGraphSize b
  · rw [if_pos hpos]
    refine (gives_inWindow hc hfits (gives_graphDeserialize _)).bind ?_
    intro r c hc hr
    cases r with
    | none => exact gives_pure hc fun graph h => nomatch h
    | some deps =>
      have hencoded : encodedGraph b = some deps := by
        rw [encodedGraph, if_neg (ne_zero_of_pos hpos), hr]
        rfl
      obtain ⟨cs, hcs⟩ : ∃ cs, prstGraphChecksum deps = some cs := fnvDeps_isSome (h.terminated deps hencoded) fnvBasis
      simp only [hcs]
      refine gives_header (x := hdrGraphChecksum b) hsize (by decide) rfl hc fun c hc => ?_
      refine gives_pure hc fun graph h => ?_
      split at h
      next hchecksum =>
        cases h
        exact ⟨hencoded, hcs.trans (congrArg some hchecksum)⟩
      next => cases h
  · rw [if_neg hpos]
    have hzero := eq_zero_of_not_pos hpos
    refine gives_pure hc fun graph h => ?_
    cases h
    exact ⟨if_pos hzero, congrArg some (hempty hzero).symm⟩

theorem gives_state (hsize : headerSize ≤ b.size) (h : Readable b → SizesFit b) :
    Gives b (handoverDeserializeState b) .start fun r => ∀ pool graph, r = .ok (pool, graph) →
      encodedPool b = some pool ∧ prstPoolChecksum pool = hdrPoolChecksum b ∧
        encodedGraph b = some graph ∧ prstGraphChecksum graph = some (hdrGraphChecksum b) := by
  have hstart : Cursor.start.Safe b := ⟨fun r hr => absurd hr List.not_mem_nil, rfl⟩
  rw [handoverDeserializeState, if_neg (by omega)]
  refine gives_header (x := hdrMagic b) hsize (by decide) rfl hstart fun c hc => ?_
  split
  · exact gives_pure hc fun pool graph h => nomatch h
  next hmagic =>
  refine gives_header (x := hdrVersion b) hsize (by decide) rfl hc fun c hc => ?_
  split
  next hversion =>
    have h := h ⟨hsize, not_not.mp hmagic, hversion⟩
    refine (gives_pool hc h.fits h.empty).bind ?_
    intro r c hc hpool
    cases r with
    | error r => exact gives_pure hc fun pool graph h => nomatch h
    | ok pool =>
      refine (gives_graph hc (h.graph pool (hpool pool rfl).1 (hpool pool rfl).2)).bind ?_
      intro r c hc hgraph
      cases r with
      | error r => exact gives_pure hc fun pool graph h => nomatch h
      | ok graph =>
        refine gives_pure hc fun pool' graph' h => ?_
        cases h
        exact ⟨(hpool pool rfl).1, (hpool pool rfl).2, hgraph graph rfl⟩
  · exact gives_pure hc fun pool graph h => nomatch h

theorem handoverDeserializeState_short (h : b.size < headerSize) :
    handoverDeserializeState b .start = (some (.error .deserialize), .start) := by
  rw [handoverDeserializeState, if_pos h]
  rfl

/-- **A snapshot whose sections lie inside it is read within its bounds**, as far as it gets to them. -/
theorem snapshot_read_within (h : Readable b → SizesFit b) : ReadWithin b := by
  rcases Nat.lt_or_ge b.size headerSize with hsize | hsize
  · have hrun := handoverDeserializeState_short hsize
    refine ⟨⟨_, _, hrun, fun r hr => absurd hr List.not_mem_nil, rfl⟩, fun pool graph hok => ?_⟩
    rw [hrun] at hok
    cases hok
  · obtain ⟨r, c, hrun, hsafe, hencoded⟩ := (gives_state hsize h).ends
    refine ⟨⟨r, c, hrun, hsafe⟩, fun pool graph hok => ?_⟩
    rw [hrun] at hok
    exact hencoded pool graph (Option.some.inj hok)

def headerWith (poolChecksum graphChecksum poolSize graphSize : UInt32) : List UInt8 :=
  uint32LE handoverMagic ++ uint32LE handoverVersion ++ uint32LE poolChecksum ++ uint32LE graphChecksum ++
    uint32LE poolSize ++ uint32LE graphSize ++ List.replicate 16 0

/-- The state of a program without persistent variables. -/
def emptyState : HandoverState := ⟨[], .initCap 0, 0⟩

def emptySnapshot : Buffer := .ofList (handoverSerializeState (fun _ _ => 0) emptyState)

theorem empty_snapshot_read_within : Readable emptySnapshot ∧ ReadWithin emptySnapshot := by
  have hgraph : encodedGraph emptySnapshot = some [] := by decide +kernel
  refine ⟨⟨by decide +kernel, by decide +kernel, by decide +kernel⟩, ?_⟩
  refine snapshot_read_within fun _ => ⟨by decide +kernel, fun h => ?_, fun _ _ _ => ⟨by decide +kernel, fun h => ?_,
    fun graph h => ?_⟩⟩
  · exact absurd h (by decide +kernel)
  · exact absurd h (by decide +kernel)
  · obtain rfl : [] = graph := Option.some.inj (hgraph.symm.trans h)
    exact fun d hd => absurd hd List.not_mem_nil

/-- A snapshot with one edge, all of whose bytes are letters. -/
def unterminatedSnapshot : Buffer := ⟨fun i => (headerWith fnvBasis fnvBasis 0 516 ++ int32LE 1).getD i 97, 556⟩

/-- A header that is followed by nothing and declares four bytes of pool, a header with the wrong checksums for its empty
sections, and an edge without a terminator. -/
theorem declared_size_is_overread :
    ¬ReadWithin (.ofList (headerWith 0 0 4 0)) ∧ ¬ReadWithin (.ofList (headerWith 0 0 0 0)) ∧
      ¬ReadWithin unterminatedSnapshot := by
  refine ⟨fun h => ?_, fun h => ?_, fun h => ?_⟩
  · obtain ⟨r, c, hrun, hsafe⟩ := h.inside
    have hread : (40, 4) ∈ (handoverDeserializeState (.ofList (headerWith 0 0 4 0)) .start).2.reads := by decide +kernel
    rw [hrun] at hread
    exact absurd (hsafe.inside _ hread) (by decide +kernel)
  · have hok : (handoverDeserializeState (.ofList (headerWith 0 0 0 0)) .start).1 = some (.ok ([], [])) := by
      with_unfolding_all rfl
    exact absurd (h.encoded [] [] hok).2.1 (by decide +kernel)
  · obtain ⟨r, c, hrun, hsafe⟩ := h.inside
    have hcut : (handoverDeserializeState unterminatedSnapshot .start).1.isNone := by decide +kernel
    rw [hrun] at hcut
    cases hcut

end Bounds

end Fluxa
