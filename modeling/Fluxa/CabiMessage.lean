import Fluxa.CabiFrame

/-! Messages of the C ABI. As long as no size wraps around, appending values builds the frame of the values, from
which the getters give them back. A frame that is accepted need not be one that appending builds: the bytes
that an item reserves are not looked at. -/

namespace Fluxa.Cabi

open Wire Item CabiValue Sized
open Wire.Scan

section Building

open Cutoff (Ensures ensures_pure ensures_cut ensures_modify ensures_get_bind ensures_modify_bind)

theorem le_growCapacity {need : UInt32} : ∀ (rounds : ℕ) (cap : UInt32), need.toNat ≤ cap.toNat * 2 ^ rounds →
    need ≤ growCapacity rounds cap need
  | 0, cap, h => by
      rw [Nat.pow_zero, Nat.mul_one] at h
      exact UInt32.le_iff_toNat_le.mpr h
  | rounds + 1, cap, h => by
      rw [growCapacity]
      by_cases hlt : cap < need
      · have hnext : need.toNat ≤ (if cap ≤ 0xFFFFFFFF / 2 then cap * 2 else need).toNat * 2 ^ rounds := by
          split_ifs with hhalf
          · have hcap : cap.toNat ≤ 4294967295 / 2 := UInt32.le_iff_toNat_le.mp hhalf
            have hdouble : (cap * 2).toNat = cap.toNat * 2 := by
              rw [UInt32.toNat_mul]
              exact Nat.mod_eq_of_lt (by show cap.toNat * 2 < _; omega)
            calc need.toNat ≤ cap.toNat * 2 ^ (rounds + 1) := h
              _ = (cap * 2).toNat * 2 ^ rounds := by rw [hdouble]; ring
          · exact Nat.le_mul_of_pos_right _ (by positivity)
        rw [if_pos hlt]
        dsimp only
        generalize (if cap ≤ 0xFFFFFFFF / 2 then cap * 2 else need) = next at hnext ⊢
        split
        · exact UInt32.le_refl need
        · exact le_growCapacity rounds _ hnext
      · rw [if_neg hlt]
        exact UInt32.not_lt.mp hlt

theorem le_newCapacity (capacity need : UInt32) : need ≤ newCapacity capacity need := by
  refine le_growCapacity _ _ ?_
  have hlt := need.toNat_lt
  have hpos : 1 ≤ (if capacity = 0 then (256 : UInt32) else capacity).toNat := by
    split_ifs with hzero
    · decide
    · exact Nat.pos_of_ne_zero fun h => hzero (UInt32.toNat.inj h)
  calc need.toNat ≤ 1 * 2 ^ 33 := by omega
    _ ≤ _ := Nat.mul_le_mul_right _ hpos

variable {alloc : Allocator} {sure : Prop} {m m' : Message}

def Message.memory (m : Message) : Buffer := ⟨m.data, m.capacity.toNat⟩

/-- What room for more bytes leaves as it is. -/
structure Message.Grows (m m' : Message) : Prop where
  size : m'.size = m.size
  overrun : m'.overrun = m.overrun
  keeps : ∀ {pos l}, m.memory.At pos l → m'.memory.At pos l

variable {vals : List CabiValue} {l : List UInt8} {pos : ℕ} {val : CabiValue}

theorem at_of_keeps {b b' : Buffer} (hsize : b.size ≤ b'.size)
    (hbyte : ∀ a < b.size, b'.byte a = b.byte a) (h : b.At pos l) : b'.At pos l := by
  have hroom := h.1
  refine ⟨hroom.trans hsize, ?_⟩
  rw [← h.2]
  simp only [Buffer.slice, List.length_map, List.length_range]
  refine List.map_congr_left fun i hi => hbyte _ ?_
  have := List.mem_range.mp hi
  omega

theorem provide_ensures {need : UInt32} (hsure : sure → alloc = .ample) :
    Ensures sure (provide alloc need) m fun _ m' => m.Grows m' ∧ need ≤ m'.capacity := by
  refine ensures_get_bind ?_
  by_cases hfits : need ≤ m.capacity
  · rw [if_pos hfits]
    exact ensures_pure ⟨⟨rfl, rfl, id⟩, hfits⟩
  · rw [if_neg hfits]
    have hgrown := le_newCapacity m.capacity need
    have hmore : m.capacity ≤ newCapacity m.capacity need :=
      UInt32.le_trans (UInt32.le_of_lt (UInt32.not_le.mp hfits)) hgrown
    cases hdata : alloc.realloc m.data m.capacity (newCapacity m.capacity need) with
    | none =>
      refine ensures_cut fun h => ?_
      rw [hsure h] at hdata
      exact absurd hdata nofun
    | some data =>
      exact ensures_modify
        ⟨⟨rfl, rfl, at_of_keeps (UInt32.le_iff_toNat_le.mp hmore) fun a ha => alloc.keeps hdata a ha⟩, hgrown⟩

theorem reserve_ensures {add : UInt32} (hsure : sure → alloc = .ample ∧ m.size.toNat + add.toNat < 2 ^ 32) :
    Ensures sure (reserve alloc add) m fun _ m' => m.Grows m' ∧ m.size.toNat + add.toNat ≤ m'.capacity.toNat := by
  refine ensures_get_bind ?_
  by_cases hover : 0xFFFFFFFF < m.size.toNat + add.toNat
  · rw [if_pos hover]
    refine ensures_cut fun h => ?_
    have := (hsure h).2
    omega
  · have hneed : (UInt32.ofNat (m.size.toNat + add.toNat)).toNat = m.size.toNat + add.toNat :=
      UInt32.toNat_ofNat_of_lt' (show _ < 2 ^ 32 by omega)
    rw [if_neg hover]
    refine (provide_ensures fun h => (hsure h).1).mono fun _ m' ⟨hgrows, hroom⟩ => ⟨hgrows, ?_⟩
    rw [← hneed]
    exact UInt32.le_iff_toNat_le.mp hroom

/-- Bytes were written inside the block, and nothing else has changed. -/
structure Message.Writes (m : Message) (pos : ℕ) (l : List UInt8) (m' : Message) : Prop where
  size : m'.size = m.size
  capacity : m'.capacity = m.capacity
  overrun : m'.overrun = m.overrun
  has : m'.memory.At pos l
  keeps : ∀ {pos' l'}, pos' + l'.length ≤ pos ∨ pos + l.length ≤ pos' → m.memory.At pos' l' → m'.memory.At pos' l'

theorem Message.Writes.trans {m'' : Message} {l' : List UInt8} (h : m.Writes pos l m')
    (h' : m'.Writes (pos + l.length) l' m'') : m.Writes pos (l ++ l') m'' := by
  refine ⟨h'.size.trans h.size, h'.capacity.trans h.capacity, h'.overrun.trans h.overrun,
    (h'.keeps (.inl (Nat.le_refl _)) h.has).append h'.has, fun hout hat => ?_⟩
  rw [List.length_append] at hout
  exact h'.keeps (by omega) (h.keeps (by omega) hat)

theorem write_ensures {bs : List UInt8} (hroom : pos + bs.length ≤ m.capacity.toNat) :
    Ensures sure (write pos bs) m fun _ m' => m.Writes pos bs m' := by
  refine ensures_modify ⟨rfl, rfl, by simp [Nat.not_lt.mpr hroom], ⟨hroom, ?_⟩, fun hout hat => ⟨hat.1, ?_⟩⟩
  · refine List.ext_getElem (by simp) fun i _ hi => ?_
    simp [Buffer.slice, Message.memory, hi]
  · rw [← hat.2]
    simp only [Buffer.slice, List.length_map, List.length_range]
    refine List.map_congr_left fun i hi => if_neg ?_
    have := List.mem_range.mp hi
    omega

def body (vals : List CabiValue) : List UInt8 := (vals.map clean).flatMap bytes

theorem length_le_body (vals : List CabiValue) : vals.length * 8 ≤ (body vals).length := by
  induction vals with
  | nil => exact Nat.zero_le _
  | cons val vals ih =>
    rw [body, List.map_cons, List.flatMap_cons, List.length_append, length_bytes, List.length_cons]
    rw [body] at ih
    omega

theorem body_append (vals vals' : List CabiValue) : body (vals ++ vals') = body vals ++ body vals' := by
  rw [body, List.map_append, List.flatMap_append]
  rfl

theorem body_singleton (val : CabiValue) : body [val] = (clean val).bytes := List.append_nil _

/-- The message is the frame of these values, and no write went past its block. -/
structure Message.Holds (m : Message) (vals : List CabiValue) : Prop where
  size : m.size.toNat = 12 + (body vals).length
  start : m.memory.At 0 (magic ++ [1] ++ [0, 0, 0])
  count : m.memory.At 8 (uint32LE (.ofNat vals.length))
  items : m.memory.At 12 (body vals)
  overrun : m.overrun = false

theorem Message.Holds.view_bytes (h : m.Holds vals) : m.view.bytes = frame (vals.map clean) := by
  have hslice : ∀ pos k, m.view.buffer.slice pos k = m.memory.slice pos k := fun _ _ => rfl
  have hsize : m.view.size.toNat = 8 + 4 + (body vals).length := h.size
  rw [View.bytes, hsize, Buffer.slice_add, Buffer.slice_add, hslice, hslice, hslice]
  have hstart := h.start.2
  have hcount := h.count.2
  rw [length_uint32LE] at hcount
  change m.memory.slice 0 8 = _ at hstart
  show m.memory.slice 0 8 ++ m.memory.slice 8 4 ++ m.memory.slice 12 _ = _
  rw [hstart, hcount, h.items.2, frame, header, List.length_map]
  rfl

theorem Message.Grows.holds (hg : m.Grows m') (h : m.Holds vals) : m'.Holds vals :=
  ⟨by rw [hg.size, h.size], hg.keeps h.start, hg.keeps h.count, hg.keeps h.items, by rw [hg.overrun, h.overrun]⟩

/-- A message to which these values have been appended: before the first of them it is fresh. -/
def Message.Collects (m : Message) (vals : List CabiValue) : Prop := m = messageInit ∧ vals = [] ∨ m.Holds vals

theorem ensureHeader_ensures (hsure : sure → alloc = .ample) (h : m.Collects vals) :
    Ensures sure (ensureHeader alloc) m fun _ m' => m'.Holds vals := by
  refine ensures_get_bind ?_
  rcases h with ⟨rfl, rfl⟩ | h
  · rw [if_neg (by decide)]
    refine (reserve_ensures fun hs => ⟨hsure hs, by decide⟩).bind fun _ m ⟨hgrows, hroom⟩ => ?_
    change 12 ≤ m.capacity.toNat at hroom
    refine (write_ensures (by show 4 ≤ _; omega)).bind fun _ m₁ h₁ => ?_
    refine (write_ensures (by rw [h₁.capacity]; show 5 ≤ _; omega)).bind fun _ m₂ h₂ => ?_
    refine (write_ensures (by rw [h₂.capacity, h₁.capacity]; show 8 ≤ _; omega)).bind fun _ m₃ h₃ => ?_
    refine (write_ensures (by rw [h₃.capacity, h₂.capacity, h₁.capacity]; exact hroom)).bind fun _ m₄ h₄ => ?_
    have hstart : m.Writes 0 (magic ++ [1] ++ [0, 0, 0]) m₃ := (h₁.trans h₂).trans h₃
    have hcount := h₄.has
    rw [wr32_eq] at hcount
    refine ensures_modify ⟨rfl, h₄.keeps (.inl (Nat.le_refl _)) hstart.has, hcount, ⟨?_, rfl⟩, ?_⟩
    · show 12 ≤ m₄.capacity.toNat
      rwa [h₄.capacity, hstart.capacity]
    · exact h₄.overrun.trans (hstart.overrun.trans hgrows.overrun)
  · have hsize := h.size
    have hne : m.size ≠ 0 := fun hzero => by
      rw [hzero] at hsize
      change 0 = _ at hsize
      omega
    rw [if_pos hne, if_pos (UInt32.le_iff_toNat_le.mpr (by rw [hsize]; exact Nat.le_add_right ..))]
    exact ensures_pure h

theorem writeItem_ensures {payload : Sized UInt8} (hpayload : payload.items = val.payload)
    (hroom : m.size.toNat + (8 + val.payload.length) ≤ m.capacity.toNat) :
    Ensures sure (writeItem val.type payload m.size.toNat) m
      fun _ m' => m.Writes m.size.toNat (clean val).bytes m' := by
  have hn : payload.size = .ofNat val.payload.length := by rw [size, hpayload]
  have hword : wr32 payload.size = uint32LE (.ofNat val.payload.length) := by rw [wr32_eq, hn]
  have hlen : (wr32 payload.size).length = 4 := rfl
  refine (write_ensures (by show _ + 1 ≤ _; omega)).bind fun _ m₁ h₁ => ?_
  refine (write_ensures (by rw [h₁.capacity]; show _ + 1 + 3 ≤ _; omega)).bind fun _ m₂ h₂ => ?_
  refine (write_ensures (by rw [h₂.capacity, h₁.capacity, hlen]; omega)).bind fun _ m₃ h₃ => ?_
  have hstart : m.Writes m.size.toNat ([val.type.code] ++ [0, 0, 0] ++ wr32 payload.size) m₃ :=
    (h₁.trans h₂).trans h₃
  have hbytes : (clean val).bytes = [val.type.code] ++ [0, 0, 0] ++ wr32 payload.size ++ payload.items := by
    rw [hword, hpayload, Item.bytes]
    simp [clean]
  by_cases hzero : payload.size = 0
  · have hnil : payload.items = [] := by
      have h := toNat_size payload
      rw [hzero] at h
      exact List.length_eq_zero_iff.mp h.symm
    rw [if_neg (by simpa using hzero)]
    refine ensures_pure ?_
    rw [hbytes, hnil, List.append_nil]
    exact hstart
  · rw [if_pos (by simpa using hzero)]
    refine (write_ensures (by rw [hstart.capacity, hpayload]; omega)).mono fun _ m₄ h₄ => ?_
    rw [hbytes]
    exact hstart.trans h₄

theorem countItem_ensures {n : ℕ} (hn : n + 1 < 2 ^ 32) (h : m.memory.At 8 (uint32LE (.ofNat n))) :
    Ensures sure countItem m fun _ m' => m.Writes 8 (uint32LE (.ofNat (n + 1))) m' := by
  have hslice := h.2
  have hroom := h.1
  rw [length_uint32LE] at hslice hroom
  have hrd : rd32 (m.memory.slice 8 4) = .ofNat n := by
    rw [hslice, rd32_eq (length_uint32LE _), uint32OfLE_uint32LE]
  have hnat : (UInt32.ofNat n).toNat = n := UInt32.toNat_ofNat_of_lt' (show _ < 2 ^ 32 by omega)
  have hmax : UInt32.ofNat n ≠ 0xFFFFFFFF := fun heq => by
    rw [heq] at hnat
    change 4294967295 = n at hnat
    omega
  refine ensures_get_bind ?_
  change Ensures sure (if rd32 (m.memory.slice 8 4) = 0xFFFFFFFF then Cutoff.cut
    else write 8 (wr32 (rd32 (m.memory.slice 8 4) + 1))) m _
  rw [hrd, if_neg hmax, wr32_eq]
  have hsucc : UInt32.ofNat n + 1 = .ofNat (n + 1) := (UInt32.ofNat_add n 1).symm
  rw [hsucc]
  exact write_ensures (by rw [length_uint32LE]; exact hroom)

theorem addTaggedRaw_ensures {payload : Sized UInt8} {tag : CabiType}
    (hsure : sure → alloc = .ample ∧ 12 + (body vals).length + (8 + val.payload.length) < 2 ^ 32)
    (hpayload : payload.items = val.payload) (htag : val.type = tag) (hfit : 8 + val.payload.length < 2 ^ 32)
    (h : m.Collects vals) : Ensures sure (addTaggedRaw alloc tag payload) m fun _ m' => m'.Holds (vals ++ [val]) := by
  subst htag
  have hn : payload.size.toNat = val.payload.length := by rw [toNat_size, hpayload]
  have hadd : (8 + payload.size).toNat = 8 + val.payload.length := toNat_add rfl hn hfit
  refine (ensureHeader_ensures (fun hs => (hsure hs).1) h).bind fun _ m₀ hm₀ => ?_
  refine (reserve_ensures fun hs => ⟨(hsure hs).1, by rw [hm₀.size, hadd]; exact (hsure hs).2⟩).bind
    fun _ m ⟨hgrows, hroom⟩ => ?_
  have hm := hgrows.holds hm₀
  rw [← hgrows.size, hadd] at hroom
  refine ensures_get_bind ((writeItem_ensures hpayload hroom).bind fun _ m₁ hw => ?_)
  have hsize := m.size.toNat_lt
  have hcap := m.capacity.toNat_lt
  have hm1 : m₁.size.toNat = m.size.toNat := by rw [hw.size]
  have hsum : (m₁.size + (8 + payload.size)).toNat = m.size.toNat + (8 + val.payload.length) :=
    toNat_add hm1 hadd (by omega)
  refine ensures_modify_bind ?_
  have hstart := hw.keeps (.inl (by rw [hm.size]; show 8 ≤ _; omega)) hm.start
  have hcount := hw.keeps (.inl (by rw [hm.size, length_uint32LE]; omega)) hm.count
  have hold := hw.keeps (.inl (by rw [hm.size])) hm.items
  have hnew := hw.has
  rw [hm.size] at hnew
  refine (countItem_ensures (m := { m₁ with size := m₁.size + (8 + payload.size) }) (n := vals.length) ?_ hcount).mono
    fun _ m₃ h₃ => ?_
  · have := length_le_body vals
    have := hm.size
    omega
  · refine ⟨?_, h₃.keeps (.inl (Nat.le_refl _)) hstart, ?_, ?_, ?_⟩
    · rw [h₃.size, hsum, hm.size, body_append, body_singleton, List.length_append, length_bytes]
      show _ = _ + (_ + (8 + val.payload.length))
      omega
    · rw [List.length_append]
      exact h₃.has
    · rw [body_append, body_singleton]
      exact h₃.keeps (.inr (by rw [length_uint32LE])) (hold.append hnew)
    · rw [h₃.overrun, hw.overrun, hm.overrun]

theorem onFresh_ensures {steps : Building Unit} {P : Message → Prop}
    (h : Ensures sure steps messageInit fun _ t => P t) : Ensures sure (onFresh steps) m fun t m' => m' = m ∧ P t := by
  unfold Ensures at h
  unfold onFresh
  split at h
  · rename_i hsteps
    rw [hsteps]
    exact ensures_pure ⟨rfl, h⟩
  · rename_i hsteps
    rw [hsteps]
    exact ensures_cut h

theorem contents_eq (hsize : m.size.toNat = l.length) (h : m.memory.At 0 l) : m.contents.items = l := by
  have hslice := h.2
  rw [← hsize] at hslice
  exact hslice

/-- The elements of an array, from the `i`-th on, behind those that are already there. -/
theorem writeElems_ensures {α : Type} {place : UInt32 → ℕ} {bytes : α → List UInt8} {w : ℕ}
    (hplace : ∀ j : UInt32, 4 + j.toNat * w + w < 2 ^ 32 → place j = 4 + j.toNat * w)
    (hbytes : ∀ a, (bytes a).length = w) (hw : 0 < w) :
    ∀ (as : List α) (i : UInt32) (m : Message) (l : List UInt8), m.memory.At 0 l → l.length = 4 + i.toNat * w →
      l.length + as.length * w ≤ m.capacity.toNat →
      Ensures sure (writeElems place bytes i as) m fun _ m' => m'.memory.At 0 (l ++ as.flatMap bytes) ∧ m'.size = m.size
  | [], _, m, l, hat, _, _ => ensures_pure ⟨by rw [List.flatMap_nil, List.append_nil]; exact hat, rfl⟩
  | a :: as, i, m, l, hat, hlen, hroom => by
      have hcap := m.capacity.toNat_lt
      rw [List.length_cons, Nat.succ_mul] at hroom
      have hi : i.toNat ≤ i.toNat * w := Nat.le_mul_of_pos_right _ hw
      have hnext : (i + 1).toNat = i.toNat + 1 := toNat_add rfl rfl (by omega)
      rw [writeElems, hplace i (by omega), ← hlen]
      refine (write_ensures (by rw [hbytes]; omega)).bind fun _ m₁ h₁ => ?_
      have hat₁ : m₁.memory.At 0 (l ++ bytes a) :=
        (h₁.keeps (.inl (by rw [Nat.zero_add])) hat).append (by rw [Nat.zero_add]; exact h₁.has)
      have hrest := writeElems_ensures hplace hbytes hw as (i + 1) m₁ (l ++ bytes a) hat₁
        (by rw [List.length_append, hbytes, hnext, hlen]; ring)
        (by rw [List.length_append, hbytes, h₁.capacity]; omega)
      refine hrest.mono fun _ m' ⟨hat', hsize⟩ => ⟨?_, hsize.trans h₁.size⟩
      rwa [List.flatMap_cons, ← List.append_assoc]

theorem arrFixed_ensures {α : Type} {place : UInt32 → ℕ} {bytes : α → List UInt8} {w : ℕ} {xs : Sized α}
    (hplace : ∀ j : UInt32, 4 + j.toNat * w + w < 2 ^ 32 → place j = 4 + j.toNat * w)
    (hbytes : ∀ a, (bytes a).length = w) (hw : 0 < w)
    (hsure : sure → alloc = .ample ∧ 4 + xs.items.length * w < 2 ^ 32) :
    Ensures sure (arrFixed alloc w place bytes xs) messageInit fun _ t =>
      t.contents.items = uint32LE xs.size ++ xs.items.flatMap bytes := by
  unfold arrFixed
  rw [toNat_size]
  by_cases hover : 0xFFFFFFFF < 4 + xs.items.length * w
  · dsimp only
    rw [if_pos hover]
    exact ensures_cut fun hs => by have := (hsure hs).2; omega
  · have hn : (UInt32.ofNat (4 + xs.items.length * w)).toNat = 4 + xs.items.length * w :=
      UInt32.toNat_ofNat_of_lt' (show _ < 2 ^ 32 by omega)
    dsimp only
    rw [if_neg hover]
    refine (reserve_ensures fun hs => ⟨(hsure hs).1, by rw [hn]; show 0 + _ < _; omega⟩).bind fun _ t ⟨_, hroom⟩ => ?_
    rw [hn] at hroom
    change 0 + (4 + _) ≤ _ at hroom
    refine ensures_modify_bind ?_
    refine (write_ensures (by show 0 + 4 ≤ t.capacity.toNat; omega)).bind fun _ t₁ h₁ => ?_
    have hhas := h₁.has
    rw [wr32_eq] at hhas
    have hcap : t₁.capacity = t.capacity := h₁.capacity
    refine (writeElems_ensures hplace hbytes hw xs.items 0 t₁ _ hhas ?_ ?_).mono fun _ t₂ ⟨hat, hsize⟩ => contents_eq ?_ hat
    · rw [length_uint32LE]
      show 4 = 4 + 0 * w
      omega
    · rw [length_uint32LE, hcap]
      omega
    · rw [hsize, h₁.size, List.length_append, length_uint32LE, length_flatMap_const hbytes]
      exact hn

def Message.Spans (m : Message) (l : List UInt8) : Prop := m.size.toNat = l.length ∧ m.memory.At 0 l

theorem writeStr_ensures {s : Sized UInt8} (hsure : sure → alloc = .ample ∧ l.length + (4 + s.items.length) < 2 ^ 32)
    (hfit : 4 + s.items.length < 2 ^ 32) (h : m.Spans l) :
    Ensures sure (writeStr alloc s) m fun _ m' => m'.Spans (l ++ strBytes s) := by
  have hadd : (4 + s.size).toNat = 4 + s.items.length := toNat_add rfl (toNat_size s) hfit
  refine (reserve_ensures fun hs => ⟨(hsure hs).1, by rw [h.1, hadd]; exact (hsure hs).2⟩).bind fun _ m₀ ⟨hgrows, hroom⟩ => ?_
  have hcap := m₀.capacity.toNat_lt
  rw [hadd, h.1] at hroom
  have hsize₀ : m₀.size.toNat = l.length := by rw [hgrows.size, h.1]
  refine ensures_get_bind ((write_ensures (by rw [hsize₀]; show _ + 4 ≤ _; omega)).bind fun _ m₁ h₁ => ?_)
  refine ensures_modify_bind (ensures_get_bind ?_)
  have hsize₁ : (m₁.size + 4).toNat = l.length + 4 := toNat_add (by rw [h₁.size, hsize₀]) rfl (by omega)
  have hlen := h₁.has
  rw [wr32_eq, hsize₀] at hlen
  have hat₁ : m₁.memory.At 0 (l ++ uint32LE s.size) :=
    (h₁.keeps (.inl (by rw [hsize₀, Nat.zero_add])) (hgrows.keeps h.2)).append (by rw [Nat.zero_add]; exact hlen)
  by_cases hzero : s.size = 0
  · have hnil : s.items = [] := by
      have h := toNat_size s
      rw [hzero] at h
      exact List.length_eq_zero_iff.mp h.symm
    rw [if_neg (by simpa using hzero)]
    refine ensures_pure ⟨?_, ?_⟩
    · rw [List.length_append, length_strBytes, hnil]
      exact hsize₁
    · rw [strBytes, hnil, List.append_nil]
      exact hat₁
  · rw [if_pos (by simpa using hzero)]
    refine (write_ensures
      (by show (m₁.size + 4).toNat + _ ≤ m₁.capacity.toNat; rw [hsize₁, h₁.capacity]; omega)).bind fun _ m₂ h₂ => ?_
    have hsize₂ : m₂.size.toNat = l.length + 4 := by rw [h₂.size]; exact hsize₁
    have htext := h₂.has
    rw [show _ = l.length + 4 from hsize₁] at htext
    refine ensures_modify ⟨?_, ?_⟩
    · rw [List.length_append, length_strBytes, ← Nat.add_assoc]
      exact toNat_add hsize₂ (toNat_size s) (by omega)
    · rw [strBytes, ← List.append_assoc]
      refine Buffer.At.append (h₂.keeps (.inl ?_) hat₁) ?_
      · rw [List.length_append, length_uint32LE]
        show 0 + _ ≤ (m₁.size + 4).toNat
        omega
      · rw [List.length_append, length_uint32LE, Nat.zero_add]
        exact htext

theorem writeStrs_ensures : ∀ (ss : List (Sized UInt8)) (m : Message) (l : List UInt8),
    (sure → alloc = .ample) → l.length + (ss.flatMap strBytes).length < 2 ^ 32 → m.Spans l →
    Ensures sure (writeStrs alloc ss) m fun _ m' => m'.Spans (l ++ ss.flatMap strBytes)
  | [], m, l, _, _, h => ensures_pure (by rw [List.flatMap_nil, List.append_nil]; exact h)
  | s :: ss, m, l, hsure, hfit, h => by
      rw [List.flatMap_cons, List.length_append, length_strBytes] at hfit
      refine (writeStr_ensures (fun hs => ⟨hsure hs, by omega⟩) (by omega) h).bind fun _ m₁ h₁ => ?_
      rw [List.flatMap_cons, ← List.append_assoc]
      exact writeStrs_ensures ss m₁ _ hsure (by rw [List.length_append, length_strBytes]; omega) h₁

theorem arrStr_ensures {xs : Sized (Sized UInt8)} (hsure : sure → alloc = .ample)
    (hfit : 4 + (xs.items.flatMap strBytes).length < 2 ^ 32) :
    Ensures sure (arrStr alloc xs) messageInit fun _ t =>
      t.contents.items = uint32LE xs.size ++ xs.items.flatMap strBytes := by
  refine (reserve_ensures fun hs => ⟨hsure hs, by decide⟩).bind fun _ t ⟨_, hroom⟩ => ?_
  change 0 + 4 ≤ _ at hroom
  refine (write_ensures hroom).bind fun _ t₁ h₁ => ensures_modify_bind ?_
  have hhas := h₁.has
  rw [wr32_eq] at hhas
  refine (writeStrs_ensures xs.items { t₁ with size := 4 } (uint32LE xs.size) hsure (by rw [length_uint32LE]; exact hfit)
    ⟨by rw [length_uint32LE]; rfl, hhas⟩).mono fun _ t₂ ⟨hsize, hat⟩ => contents_eq hsize hat

/-- Appending a value whose payload does not take the size of its item past a `uint32_t`. -/
theorem add_ensures
    (hsure : sure → alloc = .ample ∧ 12 + (body vals).length + (8 + val.payload.length) < 2 ^ 32)
    (hfit : 8 + val.payload.length < 2 ^ 32) (h : m.Collects vals) :
    Ensures sure (add alloc val) m fun _ m' => m'.Holds (vals ++ [val]) := by
  have hfixed : ∀ (α : Type) (tag : CabiType) (w : ℕ) (place : UInt32 → ℕ) (bytes : α → List UInt8) (xs : Sized α),
      (∀ j : UInt32, 4 + j.toNat * w + w < 2 ^ 32 → place j = 4 + j.toNat * w) → (∀ a, (bytes a).length = w) → 0 < w →
      val.payload = uint32LE xs.size ++ xs.items.flatMap bytes → val.type = tag →
      Ensures sure (addArrFixed alloc tag w place bytes xs) m fun _ m' => m'.Holds (vals ++ [val]) := by
    intro α tag w place bytes xs hplace hbytes hw hval htag
    have hlen : val.payload.length = 4 + xs.items.length * w := by
      rw [hval, List.length_append, length_uint32LE, length_flatMap_const hbytes]
    refine (onFresh_ensures (arrFixed_ensures hplace hbytes hw fun hs => ⟨(hsure hs).1, by omega⟩)).bind
      fun t m' hfresh => ?_
    obtain ⟨hm', ht⟩ := hfresh
    subst hm'
    exact addTaggedRaw_ensures hsure (ht.trans hval.symm) htag hfit h
  have hmul : ∀ (j : UInt32) (w : UInt32), j.toNat * w.toNat < 2 ^ 32 → 4 + (j * w).toNat = 4 + j.toNat * w.toNat := by
    intro j w hlt
    rw [UInt32.toNat_mul, Nat.mod_eq_of_lt hlt]
  cases val with
  | int x => exact addTaggedRaw_ensures hsure (wr32_eq _) rfl hfit h
  | float bits => exact addTaggedRaw_ensures hsure (wr64_eq bits) rfl hfit h
  | bool x | str x => exact addTaggedRaw_ensures hsure rfl rfl hfit h
  | intArr xs =>
    refine hfixed _ _ _ _ _ xs (fun j hj => hmul j 4 (by show j.toNat * 4 < _; omega)) (fun _ => rfl) (by decide) ?_ rfl
    simp only [payload, wr32_eq]
  | floatArr xs =>
    refine hfixed _ _ _ _ _ xs (fun j hj => hmul j 8 (by show j.toNat * 8 < _; omega)) (fun _ => rfl) (by decide) ?_ rfl
    rw [show wr64 = uint64LE from funext wr64_eq]
    rfl
  | boolArr xs =>
    refine hfixed _ _ _ _ _ xs (fun j hj => ?_) (fun _ => rfl) (by decide) rfl rfl
    rw [Nat.mul_one]
    exact toNat_add rfl rfl (by omega)
  | strArr xs =>
    have hlen : (strArr xs).payload.length = 4 + (xs.items.flatMap strBytes).length := by
      rw [payload, List.length_append, length_uint32LE]
    refine (onFresh_ensures (arrStr_ensures (fun hs => (hsure hs).1) (by omega))).bind fun t m' hfresh => ?_
    obtain ⟨hm', ht⟩ := hfresh
    subst hm'
    exact addTaggedRaw_ensures hsure ht rfl hfit h

theorem addAll_ensures : ∀ (vals new : List CabiValue) (m : Message),
    (sure → alloc = .ample ∧ 12 + (body (vals ++ new)).length < 2 ^ 32) →
    (∀ val ∈ new, val.encodedSize + 8 < 2 ^ 32) → m.Collects vals →
    Ensures sure (addAll alloc new) m fun _ m' => m'.Collects (vals ++ new)
  | vals, [], m, _, _, h => ensures_pure (by rw [List.append_nil]; exact h)
  | vals, val :: new, m, hsure, hfit, h => by
      have hval : 8 + val.payload.length < 2 ^ 32 := by
        have := hfit val List.mem_cons_self
        rw [length_payload]
        omega
      rw [List.append_cons] at hsure ⊢
      refine (add_ensures (fun hs => ⟨(hsure hs).1, ?_⟩) hval h).bind fun _ m₁ h₁ => ?_
      · have hall := (hsure hs).2
        have hlen : (body (vals ++ [val] ++ new)).length = (body (vals ++ [val])).length + (body new).length := by
          rw [body_append, List.length_append]
        have hone : (clean val).bytes.length = 8 + val.payload.length := length_bytes _
        rw [hlen, body_append, List.length_append, body_singleton, hone] at hall
        omega
      · exact addAll_ensures (vals ++ [val]) new m₁ hsure (fun v hv => hfit v (List.mem_cons_of_mem val hv)) (.inr h₁)

end Building

section RoundTrip

/-- What the typed getters say at an index: the value under its own type, and nothing under any other. -/
structure Answers (v : View) (i : UInt32) (val? : Option CabiValue) : Prop where
  type : (valueType v i).result = val?.map (·.type.code)
  int : (getInt v i).result = val?.bind int?
  float : (getFloat v i).result = val?.bind float?
  bool : (getBool v i).result = val?.bind bool?
  str : (getStr v i).result.map v.text = val?.bind str?
  count : (getArrCount v i).result = val?.bind arrCount?
  intElem : ∀ e, (getIntArrValue v i e).result = val?.bind (·.intElem? e)
  floatElem : ∀ e, (getFloatArrValue v i e).result = val?.bind (·.floatElem? e)
  boolElem : ∀ e, (getBoolArrValue v i e).result = val?.bind (·.boolElem? e)
  strElem : ∀ e, (getStrArrValue v i e).result.map v.text = val?.bind (·.strElem? e)

def Reports (v : View) (vals : List CabiValue) : Prop :=
  (valueCount v).result.map UInt32.toNat = some vals.length ∧ ∀ i : UInt32, Answers v i vals[i.toNat]?

/-- The frame is accepted, and its values are reported. -/
def RoundTrips (v : View) (vals : List CabiValue) : Prop := (viewValidate v).result = some () ∧ Reports v vals

variable {v : View} {i : UInt32} {val? : Option CabiValue}

theorem EndsWithText.result {d : Scan StrView} {l? : Option (List UInt8)} (h : EndsWithText v d l?) :
    d.result.map v.text = l? := by
  obtain ⟨s?, hends, htext, -⟩ := h
  rw [hends.1, htext]

theorem answers_of_locates (h : Locates v i val?) : Answers v i val? where
  type := (valueType_ends h).1
  int := (getInt_ends h).1
  float := (getFloat_ends h).1
  bool := (getBool_ends h).1
  str := (getStr_ends h).result
  count := (getArrCount_ends h).1
  intElem e := (getIntArrValue_ends h e).1
  floatElem e := (getFloatArrValue_ends h e).1
  boolElem e := (getBoolArrValue_ends h e).1
  strElem e := (getStrArrValue_ends h e).result

theorem reports_of_frame {items : List Item} (h : v.bytes = frame items) : Reports v (items.map value) := by
  refine ⟨?_, fun i => ?_⟩
  · have hcount : (valueCount v).result = some (.ofNat items.length) := by
      unfold valueCount
      rw [result_bind, result_succeeds, (viewValidate_ends h).1]
      exact (word_ends (at_frame h).2.2.2.1).1
    rw [hcount, Option.map_some, toNat_count h, List.length_map]
  · rw [List.getElem?_map]
    exact answers_of_locates (locates_of_frame h i)

theorem Sized.ext {α : Type} {s t : Sized α} (h : s.items = t.items) : s = t := by
  cases s
  cases t
  cases h
  rfl

/-- An array is known from the number of its elements and from each of them. -/
theorem Sized.ext_getElem {α : Type} {s t : Sized α} (hsize : s.size = t.size)
    (h : ∀ e : UInt32, s.items[e.toNat]? = t.items[e.toNat]?) : s = t := by
  have hlen : s.items.length = t.items.length := by rw [← s.toNat_size, ← t.toNat_size, hsize]
  refine ext (List.ext_getElem? fun k => ?_)
  by_cases hk : k < 2 ^ 32
  · have h := h (.ofNat k)
    rwa [UInt32.toNat_ofNat_of_lt' hk] at h
  · have hs := s.fits
    rw [List.getElem?_eq_none (by omega), List.getElem?_eq_none (by omega)]

theorem Answers.unique {val?' : Option CabiValue} (h : Answers v i val?) (h' : Answers v i val?') : val? = val?' := by
  have htype := h.type.symm.trans h'.type
  cases val? with
  | none => cases val?' with
    | none => rfl
    | some val' => exact absurd htype nofun
  | some val => cases val?' with
    | none => exact absurd htype nofun
    | some val' =>
      have htype : val.type = val'.type := code_injective (Option.some.inj htype)
      have hint := h.int.symm.trans h'.int
      have hfloat := h.float.symm.trans h'.float
      have hbool := h.bool.symm.trans h'.bool
      have hstr := h.str.symm.trans h'.str
      have hcount := h.count.symm.trans h'.count
      have hints := fun e => (h.intElem e).symm.trans (h'.intElem e)
      have hfloats := fun e => (h.floatElem e).symm.trans (h'.floatElem e)
      have hbools := fun e => (h.boolElem e).symm.trans (h'.boolElem e)
      have hstrs := fun e => (h.strElem e).symm.trans (h'.strElem e)
      cases val <;> cases val' <;> simp only [CabiValue.type, reduceCtorEq] at htype
      · exact congrArg (some ∘ CabiValue.int) (Option.some.inj hint)
      · exact congrArg (some ∘ CabiValue.float) (Option.some.inj hfloat)
      · exact congrArg (some ∘ CabiValue.bool) (Option.some.inj hbool)
      · exact congrArg (some ∘ CabiValue.str) (ext (Option.some.inj hstr))
      · exact congrArg (some ∘ intArr) (ext_getElem (Option.some.inj hcount) hints)
      · exact congrArg (some ∘ floatArr) (ext_getElem (Option.some.inj hcount) hfloats)
      · exact congrArg (some ∘ boolArr) (ext_getElem (Option.some.inj hcount) hbools)
      · refine congrArg (some ∘ strArr) (ext_getElem (Option.some.inj hcount) fun e => ?_)
        exact Option.map_injective (fun s t hst => ext hst) (hstrs e)

theorem Reports.unique {vals vals' : List CabiValue} (h : Reports v vals) (h' : Reports v vals') : vals = vals' := by
  have hlen : vals.length = vals'.length := Option.some.inj (h.1.symm.trans h'.1)
  obtain ⟨c, -, hc⟩ := Option.map_eq_some_iff.mp h.1
  have hlt := c.toNat_lt
  refine List.ext_getElem? fun k => ?_
  by_cases hk : k < 2 ^ 32
  · have h := (h.2 (.ofNat k)).unique (h'.2 (.ofNat k))
    rwa [UInt32.toNat_ofNat_of_lt' hk] at h
  · rw [List.getElem?_eq_none (by omega), List.getElem?_eq_none (by omega)]

theorem encodedSize_lt_of_frame {items : List Item} {it : Item} (h : v.bytes = frame items) (hit : it ∈ items) :
    it.value.encodedSize + 8 < 2 ^ 32 := by
  have hsize := v.size.toNat_lt
  obtain ⟨-, -, -, -, -, htotal⟩ := at_frame h
  have hlen : it.bytes.length ≤ (items.flatMap bytes).length := by
    obtain ⟨before, after, rfl⟩ := List.append_of_mem hit
    rw [List.flatMap_append, List.flatMap_cons, List.length_append, List.length_append]
    omega
  rw [it.length_bytes, length_payload] at hlen
  omega

/-- What is appended to a fresh message comes back, unless nothing is appended or the size of an item is more
than a `uint32_t`. -/
theorem appended_comes_back_iff (alloc : Allocator) (vals : List CabiValue) (m : Message)
    (h : addAll alloc vals messageInit = (some (), m)) :
    RoundTrips m.view vals ↔ vals ≠ [] ∧ ∀ val ∈ vals, val.encodedSize + 8 < 2 ^ 32 := by
  constructor
  · rintro ⟨hvalid, hreports⟩
    obtain ⟨items, hitems⟩ := (viewValidate_meets m.view).2 () hvalid
    obtain rfl := hreports.unique (reports_of_frame hitems)
    refine ⟨?_, fun val hval => ?_⟩
    · rintro hnil
      rw [hnil] at h
      obtain rfl : messageInit = m := (Prod.mk.inj h).2
      exact absurd hvalid (by decide)
    · obtain ⟨it, hit, rfl⟩ := List.mem_map.mp hval
      exact encodedSize_lt_of_frame hitems hit
  · rintro ⟨hne, hfit⟩
    have hall : Cutoff.Ensures False (addAll alloc vals) messageInit fun _ m' => m'.Collects vals :=
      addAll_ensures [] vals messageInit nofun hfit (.inl ⟨rfl, rfl⟩)
    rcases hall.of_eq h with ⟨-, hnil⟩ | hholds
    · exact absurd hnil hne
    · have hbytes := hholds.view_bytes
      refine ⟨(viewValidate_ends hbytes).1, ?_⟩
      have hreports := reports_of_frame hbytes
      rwa [List.map_map, show value ∘ clean = id from rfl, List.map_id] at hreports

/-- With memory for everything, values whose frame is small enough are all appended. -/
theorem addAll_ample (vals : List CabiValue) (htotal : 12 + (body vals).length < 2 ^ 32) :
    ∃ m, addAll .ample vals messageInit = (some (), m) ∧ m.Collects vals := by
  have hfit : ∀ val ∈ vals, val.encodedSize + 8 < 2 ^ 32 := by
    intro val hval
    obtain ⟨before, after, rfl⟩ := List.append_of_mem hval
    rw [List.append_cons, body_append, body_append, body_singleton, List.length_append, List.length_append,
      length_bytes, length_payload] at htotal
    change _ + (_ + (8 + val.encodedSize) + _) < _ at htotal
    omega
  have hall : Cutoff.Ensures True (addAll .ample vals) messageInit fun _ m => m.Collects vals :=
    addAll_ensures [] vals messageInit (fun _ => ⟨rfl, htotal⟩) hfit (.inl ⟨rfl, rfl⟩)
  obtain ⟨_, m, hm, hcollects⟩ := hall.exists trivial
  exact ⟨m, hm, hcollects⟩

theorem int_and_strs_round_trip :
    ∃ m, addAll .ample [.int (-7), .strArr ⟨[⟨[104, 105], by decide⟩, ⟨[], by decide⟩], by decide⟩] messageInit =
      (some (), m) ∧
      RoundTrips m.view [.int (-7), .strArr ⟨[⟨[104, 105], by decide⟩, ⟨[], by decide⟩], by decide⟩] := by
  obtain ⟨m, hm, -⟩ := addAll_ample [.int (-7), .strArr ⟨[⟨[104, 105], by decide⟩, ⟨[], by decide⟩], by decide⟩]
    (by decide +kernel)
  exact ⟨m, hm, (appended_comes_back_iff .ample _ m hm).mpr ⟨by decide, by decide⟩⟩

section Overrun

open Cutoff (Ensures ensures_pure ensures_modify ensures_get_bind ensures_modify_bind)

variable {sure : Prop} {m m' m'' : Message} {pos : ℕ}

/-- Bytes were written from a position on, inside the block or not. -/
structure Message.Spills (m : Message) (pos : ℕ) (m' : Message) : Prop where
  size : m'.size = m.size
  capacity : m'.capacity = m.capacity
  overrun : m.overrun = true → m'.overrun = true
  keeps : ∀ {pos' l}, pos' + l.length ≤ pos → m.memory.At pos' l → m'.memory.At pos' l

theorem Message.Spills.trans (h : m.Spills pos m') (h' : m'.Spills pos m'') : m.Spills pos m'' :=
  ⟨h'.size.trans h.size, h'.capacity.trans h.capacity, h'.overrun ∘ h.overrun,
    fun hout hat => h'.keeps hout (h.keeps hout hat)⟩

theorem write_spills {start : ℕ} {bs : List UInt8} (hpos : pos ≤ start) :
    Ensures sure (write start bs) m fun _ m' =>
      m.Spills pos m' ∧ (m.capacity.toNat < start + bs.length → m'.overrun = true) := by
  refine ensures_modify ⟨⟨rfl, rfl, fun h => by simp [h], fun hout hat => ⟨hat.1, ?_⟩⟩, fun h => by simp [h]⟩
  rw [← hat.2]
  simp only [Buffer.slice, List.length_map, List.length_range]
  refine List.map_congr_left fun i hi => if_neg ?_
  have := List.mem_range.mp hi
  omega

theorem writeItem_spills {tag : CabiType} {payload : Sized UInt8} (hne : payload.size ≠ 0)
    (hlong : m.capacity.toNat < pos + 8 + payload.items.length) :
    Ensures sure (writeItem tag payload pos) m fun _ m' => m.Spills pos m' ∧ m'.overrun = true := by
  refine (write_spills (Nat.le_refl _)).bind fun _ m₁ ⟨h₁, _⟩ => ?_
  refine (write_spills (show pos ≤ _ by omega)).bind fun _ m₂ ⟨h₂, _⟩ => ?_
  refine (write_spills (show pos ≤ _ by omega)).bind fun _ m₃ ⟨h₃, _⟩ => ?_
  have h : m.Spills pos m₃ := (h₁.trans h₂).trans h₃
  rw [if_pos hne]
  refine (write_spills (show pos ≤ _ by omega)).mono fun _ m₄ ⟨h₄, hover⟩ => ⟨h.trans h₄, hover ?_⟩
  rw [h.capacity]
  exact hlong

/-- The size of the item of a string of `2 ^ 32 - 8` bytes is 0 as a `uint32_t`: the string is written over
the end of the block, the message gets no longer, and the call reports success. -/
theorem long_str_overruns : ∃ (s : Sized UInt8) (m : Message), s.items.length = 4294967288 ∧
    addAll .ample [.str s] messageInit = (some (), m) ∧ m.overrun = true ∧ (viewValidate m.view).result ≠ some () := by
  obtain ⟨s, hs⟩ : ∃ s : Sized UInt8, s.items.length = 4294967288 :=
    ⟨⟨List.replicate 4294967288 0, by rw [List.length_replicate]; decide⟩, List.length_replicate⟩
  have hsize : s.size = 0xFFFFFFF8 := UInt32.toNat.inj (s.toNat_size.trans hs)
  have hadd : Ensures True (addTaggedRaw .ample .str s) messageInit fun _ m =>
      m.size = 12 ∧ m.overrun = true ∧ m.memory.At 8 (uint32LE 1) := by
    have hheader : Ensures True (ensureHeader .ample) messageInit fun _ m => m.Holds [] :=
      ensureHeader_ensures (fun _ => rfl) (.inl ⟨rfl, rfl⟩)
    refine hheader.bind fun _ m hm => ?_
    have h12 : m.size = 12 := UInt32.toNat.inj hm.size
    rw [hsize]
    refine (reserve_ensures fun _ => ⟨rfl, by rw [h12]; decide⟩).bind fun _ m' ⟨hgrows, _⟩ => ?_
    have hm := hgrows.holds hm
    have hcap := m'.capacity.toNat_lt
    refine ensures_get_bind ((writeItem_spills (by rw [hsize]; decide) (by omega)).bind fun _ m₁ ⟨h₁, hover⟩ => ?_)
    refine ensures_modify_bind ?_
    have hcount := h₁.keeps (by rw [hm.size]; decide) hm.count
    refine (countItem_ensures (m := { m₁ with size := m₁.size + (8 + 0xFFFFFFF8) }) (n := 0) (by decide) hcount).mono
      fun _ m₂ h₂ => ⟨?_, h₂.overrun.trans hover, h₂.has⟩
    rw [h₂.size, h₁.size, hgrows.size, h12]
    rfl
  obtain ⟨_, m, hm, hsize, hover, hcount⟩ := hadd.exists trivial
  refine ⟨s, m, hs, ?_, hover, fun hvalid => ?_⟩
  · exact Cutoff.bind_of_some hm
  · obtain ⟨items, hitems⟩ := (viewValidate_meets m.view).2 () hvalid
    obtain ⟨-, -, -, hword, -, htotal⟩ := at_frame hitems
    have hnil : items.length = 0 := by
      have := length_le_flatMap_bytes items
      have h12 : m.view.size.toNat = 12 := congrArg UInt32.toNat hsize
      omega
    have hzero := hword.2
    have hone := hcount.2
    rw [length_uint32LE] at hzero hone
    rw [hnil] at hzero
    exact absurd (hzero.symm.trans hone) (by decide)

end Overrun

end RoundTrip

section Canonical

/-- The bytes that the functions that append give for these values. -/
def encoding (vals : List CabiValue) : Option (List UInt8) :=
  match addAll .ample vals messageInit with
  | (some _, m) => some m.view.bytes
  | (none, _) => none

/-- Every byte that the getters read, or that they return a pointer to, is one of the frame. -/
structure ReadsInside (v : View) : Prop where
  validate : (viewValidate v).Safe v.buffer
  count : (valueCount v).Safe v.buffer
  type : ∀ i, (valueType v i).Safe v.buffer
  int : ∀ i, (getInt v i).Safe v.buffer
  float : ∀ i, (getFloat v i).Safe v.buffer
  bool : ∀ i, (getBool v i).Safe v.buffer
  str : ∀ i, (getStr v i).Safe v.buffer ∧ ∀ s ∈ (getStr v i).result, s.start + s.size.toNat ≤ v.size.toNat
  arrCount : ∀ i, (getArrCount v i).Safe v.buffer
  intElem : ∀ i e, (getIntArrValue v i e).Safe v.buffer
  floatElem : ∀ i e, (getFloatArrValue v i e).Safe v.buffer
  boolElem : ∀ i e, (getBoolArrValue v i e).Safe v.buffer
  strElem : ∀ i e, (getStrArrValue v i e).Safe v.buffer ∧
    ∀ s ∈ (getStrArrValue v i e).result, s.start + s.size.toNat ≤ v.size.toNat

/-- The frame is what appending the reported values gives. -/
def Canonical (v : View) : Prop := ∃ vals, Reports v vals ∧ encoding vals = some v.bytes

def View.itemCount (v : View) : ℕ := natLE (v.buffer.slice 8 4)

/-- The three bytes behind the tag of each of so many items, from an offset on. -/
def View.reservedFrom (v : View) : ℕ → ℕ → List UInt8
  | 0, _ => []
  | k + 1, off => v.buffer.slice (off + 1) 3 ++ v.reservedFrom k (off + 8 + natLE (v.buffer.slice (off + 4) 4))

def View.reserved (v : View) : List UInt8 := v.reservedFrom v.itemCount 12

variable {v : View}

theorem EndsWithText.inside {d : Scan StrView} {l? : Option (List UInt8)} (h : EndsWithText v d l?) :
    d.Safe v.buffer ∧ ∀ s ∈ d.result, s.start + s.size.toNat ≤ v.size.toNat := by
  obtain ⟨s?, hends, -, hinside⟩ := h
  rw [hends.1]
  exact ⟨hends.2, hinside⟩

theorem exists_locates (v : View) (i : UInt32) : ∃ val?, Locates v i val? := by
  cases hvalid : (viewValidate v).result with
  | none => exact ⟨none, locates_of_refused hvalid i⟩
  | some _ =>
    obtain ⟨items, hitems⟩ := (viewValidate_meets v).2 () hvalid
    exact ⟨_, locates_of_frame hitems i⟩

theorem valueCount_safe (v : View) : (valueCount v).Safe v.buffer := by
  refine Safe.bind (viewValidate_meets v).1.succeeds fun ok hok => ?_
  cases ok with
  | false => exact safe_pure 0
  | true =>
    have hvalid : (viewValidate v).result.isSome = true := Option.some.inj hok
    obtain ⟨_, hvalid⟩ := Option.isSome_iff_exists.mp hvalid
    obtain ⟨items, hitems⟩ := (viewValidate_meets v).2 () hvalid
    exact (word_ends (at_frame hitems).2.2.2.1).2

theorem readsInside (v : View) : ReadsInside v := by
  have hlocates := exists_locates v
  refine ⟨(viewValidate_meets v).1, valueCount_safe v, ?_, ?_, ?_, ?_, ?_, ?_, ?_, ?_, ?_, ?_⟩ <;> intro i <;>
    obtain ⟨val?, h⟩ := hlocates i
  · exact (valueType_ends h).2
  · exact (getInt_ends h).2
  · exact (getFloat_ends h).2
  · exact (getBool_ends h).2
  · exact (getStr_ends h).inside
  · exact (getArrCount_ends h).2
  · exact fun e => (getIntArrValue_ends h e).2
  · exact fun e => (getFloatArrValue_ends h e).2
  · exact fun e => (getBoolArrValue_ends h e).2
  · exact fun e => (getStrArrValue_ends h e).inside

theorem natLE_slice_word {pos : ℕ} {x : UInt32} (h : v.buffer.At pos (uint32LE x)) :
    natLE (v.buffer.slice pos 4) = x.toNat := by
  have hslice := h.2
  rw [length_uint32LE] at hslice
  rw [hslice, natLE_uint32LE]

theorem reservedFrom_eq : ∀ (items : List Item) (off : ℕ), v.buffer.At off (items.flatMap bytes) →
    v.reservedFrom items.length off = items.flatMap reserved
  | [], _, _ => rfl
  | it :: items, off, h => by
      rw [List.flatMap_cons] at h
      obtain ⟨hit, hitems⟩ := h.split
      obtain ⟨-, hlen, -, hn⟩ := at_item hit
      have hhead : v.buffer.At off ([it.value.type.code] ++ (it.reserved ++
        (uint32LE (.ofNat it.value.payload.length) ++ it.value.payload))) := hit
      have hreserved := hhead.split.2.split.1.2
      rw [it.three] at hreserved
      rw [it.length_bytes, ← Nat.add_assoc] at hitems
      rw [List.length_cons, View.reservedFrom, natLE_slice_word hlen, hn, reservedFrom_eq items _ hitems, List.flatMap_cons]
      exact congrArg (· ++ _) hreserved

theorem itemCount_eq {items : List Item} (h : v.bytes = frame items) : v.itemCount = items.length := by
  rw [View.itemCount, natLE_slice_word (at_frame h).2.2.2.1, toNat_count h]

theorem reserved_eq {items : List Item} (h : v.bytes = frame items) : v.reserved = items.flatMap reserved := by
  rw [View.reserved, itemCount_eq h, reservedFrom_eq items 12 (at_frame h).2.2.2.2.1]

/-- Only the reserved bytes tell an item from the one with its value that is appended. -/
theorem clean_bytes_eq_iff (it : Item) : (clean it.value).bytes = it.bytes ↔ ∀ b ∈ it.reserved, b = 0 := by
  have hzeros : [0, 0, 0] = it.reserved ↔ ∀ b ∈ it.reserved, b = 0 := by
    rw [eq_comm, ← show List.replicate 3 (0 : UInt8) = [0, 0, 0] from rfl, List.eq_replicate_iff]
    exact ⟨fun h => h.2, fun h => ⟨it.three, h⟩⟩
  rw [← hzeros]
  constructor
  · intro h
    exact (List.append_inj (List.cons.inj h).2 it.three.symm).1
  · intro h
    rw [Item.bytes, Item.bytes, ← h]
    rfl

theorem body_eq_iff : ∀ items : List Item,
    body (items.map value) = items.flatMap bytes ↔ ∀ b ∈ items.flatMap reserved, b = 0
  | [] => by simp [body]
  | it :: items => by
      have hlen : (clean it.value).bytes.length = it.bytes.length := by
        rw [length_bytes, length_bytes]
        rfl
      have hsplit : body ((it :: items).map value) = (clean it.value).bytes ++ body (items.map value) := rfl
      rw [hsplit, List.flatMap_cons, List.flatMap_cons]
      constructor
      · intro h b hb
        obtain ⟨hit, hitems⟩ := List.append_inj h hlen
        rcases List.mem_append.mp hb with hb | hb
        · exact (clean_bytes_eq_iff it).mp hit b hb
        · exact (body_eq_iff items).mp hitems b hb
      · intro h
        rw [(clean_bytes_eq_iff it).mpr fun b hb => h b (List.mem_append_left _ hb),
          (body_eq_iff items).mpr fun b hb => h b (List.mem_append_right _ hb)]

theorem length_body (items : List Item) : (body (items.map value)).length = (items.flatMap bytes).length := by
  induction items with
  | nil => rfl
  | cons it items ih =>
    have hsplit : body ((it :: items).map value) = (clean it.value).bytes ++ body (items.map value) := rfl
    rw [hsplit, List.flatMap_cons, List.length_append, List.length_append, ih, length_bytes, length_bytes]
    rfl

theorem encoding_eq {items : List Item} (h : v.bytes = frame items) :
    encoding (items.map value) = if items = [] then some [] else some (header items.length ++ body (items.map value)) := by
  have hsize := v.size.toNat_lt
  obtain ⟨-, -, -, -, -, htotal⟩ := at_frame h
  obtain ⟨m, hm, hcollects⟩ := addAll_ample (items.map value) (by rw [length_body]; omega)
  rw [encoding, hm]
  by_cases hnil : items = []
  · subst hnil
    obtain rfl : messageInit = m := (Prod.mk.inj hm).2
    rfl
  · rw [if_neg hnil]
    rcases hcollects with ⟨-, hempty⟩ | hholds
    · exact absurd (List.map_eq_nil_iff.mp hempty) hnil
    · show some m.view.bytes = _
      rw [hholds.view_bytes, frame, List.length_map, List.length_map]
      rfl

/-- Whatever is accepted has one list of values, and the getters stay inside of it. It is what appending its
values gives if and only if it has a value and all the bytes that its items reserve are 0. -/
theorem accepted_canonical_iff (v : View) (h : (viewValidate v).result = some ()) :
    ReadsInside v ∧ (∃! vals, Reports v vals) ∧ (Canonical v ↔ v.itemCount ≠ 0 ∧ ∀ b ∈ v.reserved, b = 0) := by
  obtain ⟨items, hitems⟩ := (viewValidate_meets v).2 () h
  have hreports := reports_of_frame hitems
  refine ⟨readsInside v, ⟨_, hreports, fun vals hvals => hvals.unique hreports⟩, ?_⟩
  have hcanonical : Canonical v ↔ encoding (items.map value) = some v.bytes := by
    constructor
    · rintro ⟨vals, hvals, henc⟩
      rwa [hvals.unique hreports] at henc
    · exact fun henc => ⟨_, hreports, henc⟩
  rw [hcanonical, encoding_eq hitems, itemCount_eq hitems, reserved_eq hitems, hitems, frame]
  by_cases hnil : items = []
  · subst hnil
    rw [if_pos rfl]
    simp [header]
  · rw [if_neg hnil, Option.some.injEq, List.append_right_inj, body_eq_iff]
    simp [hnil]

theorem one_int_canonical : ReadsInside ⟨fun a => (frame [.clean (.int 5)]).getD a 0, 24⟩ ∧
    Canonical ⟨fun a => (frame [.clean (.int 5)]).getD a 0, 24⟩ := by
  obtain ⟨hreads, -, hiff⟩ := accepted_canonical_iff ⟨fun a => (frame [.clean (.int 5)]).getD a 0, 24⟩ (by decide +kernel)
  exact ⟨hreads, hiff.mpr ⟨by decide +kernel, by decide +kernel⟩⟩

/-- Two frames that are accepted and hold the same value, with different bytes. -/
theorem reserved_byte_accepted :
    (viewValidate ⟨fun a => (frame [⟨.int 5, [1, 0, 0], rfl⟩]).getD a 0, 24⟩).result = some () ∧
    (viewValidate ⟨fun a => (frame [.clean (.int 5)]).getD a 0, 24⟩).result = some () ∧
    (getInt ⟨fun a => (frame [⟨.int 5, [1, 0, 0], rfl⟩]).getD a 0, 24⟩ 0).result = some 5 ∧
    (getInt ⟨fun a => (frame [.clean (.int 5)]).getD a 0, 24⟩ 0).result = some 5 ∧
    frame [⟨.int 5, [1, 0, 0], rfl⟩] ≠ frame [.clean (.int 5)] := by
  refine ⟨?_, ?_, ?_, ?_, ?_⟩ <;> decide +kernel

end Canonical

end Fluxa.Cabi
