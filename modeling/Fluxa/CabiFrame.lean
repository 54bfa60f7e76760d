import Fluxa.Cabi

/-! Frames of the clear wire format. `frame` is what a list of values looks like on the wire, up to the
three bytes of every item that no function looks at. The validator accepts the frames and nothing else, and
on a frame the getters give back its values; the functions that append build frames, as long as no size wraps
around. -/

namespace Fluxa.Cabi

open Wire CabiValue Buffer Sized CabiType
open Wire.Scan

section Words

theorem wr32_eq (v : UInt32) : wr32 v = uint32LE v := by
  have hbyte : ∀ k < 32, (v >>> UInt32.ofNat k).toUInt8 = UInt8.ofNat (v.toNat / 2 ^ k) := by
    intro k hk
    apply UInt8.toNat.inj
    simp [Nat.shiftRight_eq_div_pow, Nat.mod_eq_of_lt hk]
  have h₀ : v.toUInt8 = UInt8.ofNat v.toNat := UInt8.toNat.inj (by simp)
  simp only [wr32, uint32LE, bytesLE, Nat.div_div_eq_div_mul, h₀]
  exact congrArg₂ _ rfl (congrArg₂ _ (hbyte 8 (by decide)) (congrArg₂ _ (hbyte 16 (by decide))
    (congrArg₂ _ (hbyte 24 (by decide)) rfl)))

theorem wr64_eq (v : UInt64) : wr64 v = uint64LE v := by
  refine natLE_injective (by rw [length_uint64LE]; rfl) ?_
  rw [wr64, wr32_eq, wr32_eq, natLE_append, natLE_uint32LE, natLE_uint32LE, uint64LE, natLE_bytesLE, length_uint32LE]
  have := v.toNat_lt
  simp [Nat.shiftRight_eq_div_pow]
  omega

theorem or_shiftLeft {a k : ℕ} (b : ℕ) (h : a < 2 ^ k) : a ||| b <<< k = a + 2 ^ k * b := by
  rw [Nat.or_comm, ← Nat.shiftLeft_add_eq_or_of_lt h, Nat.shiftLeft_eq]
  ring

theorem rd32_eq {l : List UInt8} (h : l.length = 4) : rd32 l = uint32OfLE l := by
  obtain ⟨b₀, b₁, b₂, b₃, rfl⟩ : ∃ b₀ b₁ b₂ b₃, l = [b₀, b₁, b₂, b₃] := by
    match l, h with
    | [b₀, b₁, b₂, b₃], _ => exact ⟨_, _, _, _, rfl⟩
  have h₀ := b₀.toNat_lt
  have h₁ := b₁.toNat_lt
  have h₂ := b₂.toNat_lt
  have h₃ := b₃.toNat_lt
  have hshift : ∀ (b : UInt8) (k : ℕ), k ≤ 24 → b.toNat <<< k % 4294967296 = b.toNat <<< k := by
    intro b k hk
    have hbyte : b.toNat ≤ 255 := Nat.le_of_lt_succ b.toNat_lt
    apply Nat.mod_eq_of_lt
    calc b.toNat <<< k = b.toNat * 2 ^ k := Nat.shiftLeft_eq ..
      _ ≤ 255 * 2 ^ 24 := Nat.mul_le_mul hbyte (Nat.pow_le_pow_right (by decide) hk)
      _ < 4294967296 := by decide
  apply UInt32.toNat.inj
  simp only [rd32, uint32OfLE, natLE, UInt32.toNat_or, UInt32.toNat_shiftLeft, UInt8.toNat_toUInt32,
    UInt32.toNat_ofNat', UInt32.reduceToNat, Nat.reduceMod, Nat.reducePow, hshift _ 8 (by decide),
    hshift _ 16 (by decide), hshift _ 24 (by decide)]
  rw [or_shiftLeft _ h₀, or_shiftLeft b₂.toNat (by omega), or_shiftLeft b₃.toNat (by omega)]
  omega

theorem rd64_eq {l l' : List UInt8} (h : l.length = 4) (h' : l'.length = 4) :
    (rd32 l).toUInt64 ||| ((rd32 l').toUInt64 <<< 32) = uint64OfLE (l ++ l') := by
  have hlow := natLE_lt l
  have hhigh := natLE_lt l'
  rw [h] at hlow
  rw [h'] at hhigh
  have hrd : (rd32 l).toNat = natLE l := by rw [rd32_eq h, uint32OfLE, UInt32.toNat_ofNat_of_lt' hlow]
  have hrd' : (rd32 l').toNat = natLE l' := by rw [rd32_eq h', uint32OfLE, UInt32.toNat_ofNat_of_lt' hhigh]
  have hfit : natLE l' <<< 32 % 2 ^ 64 = natLE l' <<< 32 := by
    apply Nat.mod_eq_of_lt
    rw [Nat.shiftLeft_eq]
    omega
  apply UInt64.toNat.inj
  simp only [UInt64.toNat_or, UInt64.toNat_shiftLeft, UInt32.toNat_toUInt64, hrd, hrd', uint64OfLE,
    UInt64.toNat_ofNat', UInt64.reduceToNat, Nat.reduceMod, hfit, natLE_append, h]
  rw [or_shiftLeft _ (by omega)]
  omega

@[simp] theorem Sized.toNat_size {α : Type} (s : Sized α) : s.size.toNat = s.items.length :=
  UInt32.toNat_ofNat_of_lt' s.fits

end Words

section Reading

variable {v : View} {pos : ℕ}

theorem word_meets (h : pos + 4 ≤ v.size.toNat) :
    (v.word pos).Meets v.buffer fun x => v.buffer.slice pos 4 = uint32LE x := by
  refine (meets_load h).bind fun l hl => meets_pure ?_
  have hlen : l.length = 4 := by rw [← hl, length_slice]
  rw [rd32_eq hlen, uint32LE_uint32OfLE hlen, hl]

theorem byteAt_meets (h : pos + 1 ≤ v.size.toNat) :
    (v.byteAt pos).Meets v.buffer fun x => v.buffer.slice pos 1 = [x] := by
  refine (meets_load h).bind fun l hl => meets_pure ?_
  rw [← hl]
  rfl

theorem word_ends {x : UInt32} (h : v.buffer.At pos (uint32LE x)) : (v.word pos).Ends v.buffer (some x) := by
  have hload := ends_load h
  rw [length_uint32LE] at hload
  refine hload.bind ?_
  rw [rd32_eq (length_uint32LE x), uint32OfLE_uint32LE]
  exact ends_pure x

theorem byteAt_ends {x : UInt8} (h : v.buffer.At pos [x]) : (v.byteAt pos).Ends v.buffer (some x) :=
  (ends_load h).bind (ends_pure x)

theorem dword_ends {x : UInt64} (h : v.buffer.At pos (uint64LE x)) : (v.dword pos).Ends v.buffer (some x) := by
  obtain ⟨l, l', hl, hl', hx⟩ : ∃ l l' : List UInt8, l.length = 4 ∧ l'.length = 4 ∧ uint64LE x = l ++ l' :=
    ⟨(uint64LE x).take 4, (uint64LE x).drop 4, by simp, by simp, (List.take_append_drop 4 _).symm⟩
  rw [hx] at h
  obtain ⟨hlow, hhigh⟩ := h.split
  rw [hl] at hhigh
  rw [← uint32LE_uint32OfLE hl] at hlow
  rw [← uint32LE_uint32OfLE hl'] at hhigh
  refine (word_ends hlow).bind ((word_ends hhigh).bind ?_)
  have hval : (uint32OfLE l).toUInt64 ||| ((uint32OfLE l').toUInt64 <<< 32) = x := by
    rw [← rd32_eq hl, ← rd32_eq hl', rd64_eq hl hl', ← hx, uint64OfLE_uint64LE]
  rw [hval]
  exact ends_pure x

end Reading

section Arithmetic

theorem toNat_add {a b : UInt32} {n k : ℕ} (ha : a.toNat = n) (hb : b.toNat = k) (h : n + k < 2 ^ 32) :
    (a + b).toNat = n + k := by
  rw [UInt32.toNat_add, ha, hb, Nat.mod_eq_of_lt h]

theorem le_sub_iff {a b c : UInt32} : b ≤ a ∧ c ≤ a - b ↔ b.toNat + c.toNat ≤ a.toNat := by
  by_cases h : b ≤ a
  · rw [UInt32.le_iff_toNat_le (a := c), UInt32.toNat_sub_of_le _ _ h]
    rw [UInt32.le_iff_toNat_le] at h ⊢
    omega
  · rw [UInt32.le_iff_toNat_le] at h ⊢
    omega

end Arithmetic

section Payloads

def strBytes (s : Sized UInt8) : List UInt8 := uint32LE s.size ++ s.items

namespace CabiValue

def payload : CabiValue → List UInt8
  | int v => uint32LE v.toUInt32
  | float bits => uint64LE bits
  | bool v => [boolByte v]
  | str s => s.items
  | intArr v => uint32LE v.size ++ v.items.flatMap fun x => uint32LE x.toUInt32
  | floatArr v => uint32LE v.size ++ v.items.flatMap uint64LE
  | boolArr v => uint32LE v.size ++ v.items.flatMap fun x => [boolByte x]
  | strArr v => uint32LE v.size ++ v.items.flatMap strBytes

/-- The number of bytes a value takes on the wire. -/
def encodedSize : CabiValue → ℕ
  | int _ => 4
  | float _ => 8
  | bool _ => 1
  | str s => s.items.length
  | intArr v => 4 + v.items.length * 4
  | floatArr v => 4 + v.items.length * 8
  | boolArr v => 4 + v.items.length
  | strArr v => 4 + (v.items.map fun s => 4 + s.items.length).sum

end CabiValue

theorem length_flatMap_const {α : Type} {enc : α → List UInt8} {w : ℕ} (h : ∀ a, (enc a).length = w) (l : List α) :
    (l.flatMap enc).length = l.length * w := by
  induction l with
  | nil => simp
  | cons a as ih => rw [List.flatMap_cons, List.length_append, h, ih, List.length_cons]; ring

theorem length_strBytes (s : Sized UInt8) : (strBytes s).length = 4 + s.items.length := by
  rw [strBytes, List.length_append, length_uint32LE]

theorem length_payload (val : CabiValue) : val.payload.length = val.encodedSize := by
  cases val with
  | int v => exact length_uint32LE _
  | float bits => exact length_uint64LE bits
  | bool v => rfl
  | str s => rfl
  | intArr v => simp [payload, encodedSize, length_flatMap_const (fun x : Int32 => length_uint32LE x.toUInt32)]
  | floatArr v => simp [payload, encodedSize, length_flatMap_const length_uint64LE]
  | boolArr v => simp [payload, encodedSize, length_flatMap_const (fun x => (rfl : [boolByte x].length = 1))]
  | strArr v => simp [payload, encodedSize, List.length_flatMap, length_strBytes]

theorem exists_flatMap {α : Type} {enc : α → List UInt8} {w : ℕ} (honto : ∀ l : List UInt8, l.length = w → ∃ a, enc a = l) :
    ∀ (c : ℕ) (l : List UInt8), l.length = c * w → ∃ as : List α, as.length = c ∧ as.flatMap enc = l
  | 0, l, h => ⟨[], rfl, by rw [Nat.zero_mul] at h; exact (List.length_eq_zero_iff.mp h).symm⟩
  | c + 1, l, h => by
      rw [Nat.succ_mul] at h
      obtain ⟨a, ha⟩ := honto (l.take w) (by rw [List.length_take]; omega)
      obtain ⟨as, hlen, has⟩ := exists_flatMap honto c (l.drop w) (by rw [List.length_drop]; omega)
      exact ⟨a :: as, by rw [List.length_cons, hlen], by rw [List.flatMap_cons, ha, has, List.take_append_drop]⟩

theorem code_ofCode? {tag : UInt8} {t : CabiType} (h : ofCode? tag = some t) : t.code = tag := by
  simpa using List.find?_some h

theorem ofCode?_code (t : CabiType) : ofCode? t.code = some t := by cases t <;> rfl

theorem boolByte_of_le {x : UInt8} (h : x ≤ 1) : ∃ v, boolByte v = x := by
  have hle : x.toNat ≤ 1 := h
  rcases Nat.le_one_iff_eq_zero_or_eq_one.mp hle with h | h
  · exact ⟨false, UInt8.toNat.inj h.symm⟩
  · exact ⟨true, UInt8.toNat.inj h.symm⟩

variable {v : View} {p : ℕ}

theorem boolsValid_meets : ∀ (k : ℕ) (i : UInt32), 4 + i.toNat + k < 2 ^ 32 →
    p + (4 + i.toNat) + k ≤ v.size.toNat →
    (boolsValid v p k i).Meets v.buffer fun _ => ∃ xs : List Bool, xs.length = k ∧
      v.buffer.slice (p + (4 + i.toNat)) k = xs.flatMap fun x => [boolByte x]
  | 0, i, _, _ => meets_pure ⟨[], rfl, rfl⟩
  | k + 1, i, hfit, hroom => by
      have hplace : (4 + i).toNat = 4 + i.toNat := toNat_add rfl rfl (by omega)
      have hnext : (i + 1).toNat = i.toNat + 1 := toNat_add rfl rfl (by omega)
      rw [boolsValid, hplace]
      refine (byteAt_meets (by omega)).bind fun x hx => meets_check_bind fun hle => ?_
      obtain ⟨b, rfl⟩ := boolByte_of_le hle
      have hrest := boolsValid_meets k (i + 1) (by omega) (by omega)
      refine ⟨hrest.1, fun u hu => ?_⟩
      obtain ⟨xs, hlen, hxs⟩ := hrest.2 u hu
      refine ⟨b :: xs, by rw [List.length_cons, hlen], ?_⟩
      rw [List.flatMap_cons, ← hxs, ← hx, hnext, Nat.add_comm k 1, slice_add]
      congr 1

theorem strsValid_meets {n : UInt32} (hroom : p + n.toNat ≤ v.size.toNat) : ∀ (k : ℕ) (off : UInt32),
    (strsValid v p n k off).Meets v.buffer fun off' => ∃ ss : List (Sized UInt8), ss.length = k ∧
      off'.toNat = off.toNat + (ss.flatMap strBytes).length ∧
      v.buffer.slice (p + off.toNat) (ss.flatMap strBytes).length = ss.flatMap strBytes
  | 0, off => meets_pure ⟨[], rfl, rfl, rfl⟩
  | k + 1, off => by
      rw [strsValid]
      refine meets_check_bind fun hlen4 => ?_
      have hoff' : off.toNat + 4 ≤ n.toNat := le_sub_iff.mp hlen4
      have hn := n.toNat_lt
      have hadd : (off + 4).toNat = off.toNat + 4 := toNat_add rfl rfl (by omega)
      refine (word_meets (by omega)).bind fun l hl => meets_check_bind fun hle => ?_
      have hl' : off.toNat + 4 + l.toNat ≤ n.toNat := by
        rw [← hadd]
        exact le_sub_iff.mp ⟨UInt32.le_iff_toNat_le.mpr (by omega), hle⟩
      have hnext : (off + 4 + l).toNat = off.toNat + 4 + l.toNat := toNat_add hadd rfl (by omega)
      have hrest := strsValid_meets hroom k (off + 4 + l)
      refine ⟨hrest.1, fun off' hoff' => ?_⟩
      obtain ⟨ss, hlen, hend, hss⟩ := hrest.2 off' hoff'
      let s : Sized UInt8 := ⟨v.buffer.slice (p + off.toNat + 4) l.toNat, by rw [length_slice]; exact l.toNat_lt⟩
      have hsize : s.items.length = l.toNat := length_slice ..
      have hbytes : v.buffer.slice (p + off.toNat) (4 + l.toNat) = strBytes s := by
        have hword : s.size = l := UInt32.toNat.inj (by rw [toNat_size, hsize])
        rw [slice_add, hl, strBytes, hword]
      refine ⟨s :: ss, by rw [List.length_cons, hlen], ?_, ?_⟩
      · rw [hend, hnext, List.flatMap_cons, List.length_append, length_strBytes, hsize]
        omega
      · rw [List.flatMap_cons, List.length_append, length_strBytes, hsize, slice_add, hbytes]
        rw [hnext] at hss
        rw [show p + off.toNat + (4 + l.toNat) = p + (off.toNat + 4 + l.toNat) by omega, hss]

end Payloads

section Accepted

variable {v : View} {p : ℕ} {n : UInt32}

theorem int_onto {l : List UInt8} (h : l.length = 4) : ∃ x : Int32, uint32LE x.toUInt32 = l :=
  ⟨(uint32OfLE l).toInt32, by rw [UInt32.toUInt32_toInt32, uint32LE_uint32OfLE h]⟩

theorem exists_sized {α : Type} {as : List α} {c : UInt32} (h : as.length = c.toNat) :
    ∃ xs : Sized α, xs.items = as ∧ xs.size = c :=
  ⟨⟨as, h ▸ c.toNat_lt⟩, rfl, UInt32.toNat.inj ((toNat_size _).trans h)⟩

theorem four_le_toNat (h : 4 ≤ n) : 4 ≤ n.toNat := UInt32.le_iff_toNat_le.mp h

theorem arrFixed_meets {α : Type} {enc : α → List UInt8} {w : ℕ} (honto : ∀ l : List UInt8, l.length = w → ∃ a, enc a = l)
    (hroom : p + n.toNat ≤ v.size.toNat) :
    Scan.Meets v.buffer (do check (4 ≤ n); let c ← v.word p; check (4 + c.toNat * w = n.toNat)) fun _ =>
      ∃ xs : Sized α, v.buffer.slice p n.toNat = uint32LE xs.size ++ xs.items.flatMap enc := by
  refine meets_check_bind fun hn => ?_
  have hn4 := four_le_toNat hn
  refine (word_meets (by omega)).bind fun c hc => meets_check.mono fun _ hlen => ?_
  obtain ⟨as, hcount, has⟩ := exists_flatMap honto c.toNat (v.buffer.slice (p + 4) (c.toNat * w)) (length_slice ..)
  obtain ⟨xs, rfl, hsize⟩ := exists_sized hcount
  exact ⟨xs, by rw [← hlen, slice_add, hc, hsize, has]⟩

theorem boolArr_meets (hroom : p + n.toNat ≤ v.size.toNat) :
    Scan.Meets v.buffer (do
      check (4 ≤ n)
      let c ← v.word p
      check (4 + c.toNat = n.toNat)
      boolsValid v p c.toNat 0) fun _ =>
      ∃ xs : Sized Bool, v.buffer.slice p n.toNat = uint32LE xs.size ++ xs.items.flatMap fun x => [boolByte x] := by
  refine meets_check_bind fun hn => ?_
  have hn4 := four_le_toNat hn
  refine (word_meets (by omega)).bind fun c hc => meets_check_bind fun hlen => ?_
  have hn := n.toNat_lt
  have hzero : (0 : UInt32).toNat = 0 := rfl
  refine (boolsValid_meets c.toNat 0 (by omega) (by omega)).mono fun _ ⟨as, hcount, has⟩ => ?_
  obtain ⟨xs, rfl, hsize⟩ := exists_sized hcount
  exact ⟨xs, by rw [← hlen, slice_add, hc, hsize]; exact congrArg _ has⟩

theorem strArr_meets (hroom : p + n.toNat ≤ v.size.toNat) :
    Scan.Meets v.buffer (do
      check (4 ≤ n)
      let c ← v.word p
      let off ← strsValid v p n c.toNat 4
      check (off = n)) fun _ =>
      ∃ xs : Sized (Sized UInt8), v.buffer.slice p n.toNat = uint32LE xs.size ++ xs.items.flatMap strBytes := by
  refine meets_check_bind fun hn => ?_
  have hn4 := four_le_toNat hn
  refine (word_meets (by omega)).bind fun c hc => ?_
  refine (strsValid_meets hroom c.toNat 4).bind fun off ⟨as, hcount, hoff, has⟩ => meets_check.mono fun _ hend => ?_
  obtain ⟨xs, rfl, hsize⟩ := exists_sized hcount
  have hn : n.toNat = 4 + (xs.items.flatMap strBytes).length := hend ▸ hoff
  exact ⟨xs, by rw [hn, slice_add, hc, hsize]; exact congrArg _ has⟩

theorem payloadValid_meets {tag : UInt8} (hroom : p + n.toNat ≤ v.size.toNat) :
    (payloadValid v tag p n).Meets v.buffer fun _ =>
      ∃ val : CabiValue, val.type.code = tag ∧ v.buffer.slice p n.toNat = val.payload := by
  unfold payloadValid
  split
  case h_1 ht =>
    refine meets_check.mono fun _ hn => ?_
    obtain ⟨x, hx⟩ := int_onto (length_slice v.buffer p 4)
    exact ⟨.int x, code_ofCode? ht, by rw [hn]; exact hx.symm⟩
  case h_2 ht =>
    refine meets_check.mono fun _ hn => ⟨.float (uint64OfLE (v.buffer.slice p 8)), code_ofCode? ht, ?_⟩
    rw [hn]
    exact (uint64LE_uint64OfLE (length_slice ..)).symm
  case h_3 ht =>
    refine meets_check_bind fun hn => ?_
    rw [hn] at hroom ⊢
    refine (byteAt_meets hroom).bind fun x hx => meets_check.mono fun _ hle => ?_
    obtain ⟨b, rfl⟩ := boolByte_of_le hle
    exact ⟨.bool b, code_ofCode? ht, hx⟩
  case h_4 ht =>
    exact meets_pure ⟨.str ⟨v.buffer.slice p n.toNat, by rw [length_slice]; exact n.toNat_lt⟩, code_ofCode? ht, rfl⟩
  case h_5 ht =>
    exact (arrFixed_meets (fun l => int_onto) hroom).mono fun _ ⟨xs, hxs⟩ => ⟨.intArr xs, code_ofCode? ht, hxs⟩
  case h_6 ht =>
    exact (arrFixed_meets (fun l hl => ⟨uint64OfLE l, uint64LE_uint64OfLE hl⟩) hroom).mono fun _ ⟨xs, hxs⟩ =>
      ⟨.floatArr xs, code_ofCode? ht, hxs⟩
  case h_7 ht => exact (boolArr_meets hroom).mono fun _ ⟨xs, hxs⟩ => ⟨.boolArr xs, code_ofCode? ht, hxs⟩
  case h_8 ht => exact (strArr_meets hroom).mono fun _ ⟨xs, hxs⟩ => ⟨.strArr xs, code_ofCode? ht, hxs⟩
  case h_9 => exact meets_refuse

end Accepted

section Frames

/-- A value in a frame, with the three bytes behind its tag. -/
structure Item where
  value : CabiValue
  reserved : List UInt8
  three : reserved.length = 3

namespace Item

def bytes (it : Item) : List UInt8 :=
  it.value.type.code :: it.reserved ++ (uint32LE (.ofNat it.value.payload.length) ++ it.value.payload)

/-- The item the functions that append write. -/
def clean (val : CabiValue) : Item := ⟨val, [0, 0, 0], rfl⟩

theorem length_bytes (it : Item) : it.bytes.length = 8 + it.value.payload.length := by
  simp only [bytes, List.length_append, List.length_cons, it.three, length_uint32LE]
  omega

end Item

def header (count : ℕ) : List UInt8 := magic ++ [1] ++ [0, 0, 0] ++ uint32LE (.ofNat count)

def frame (items : List Item) : List UInt8 := header items.length ++ items.flatMap Item.bytes

theorem length_header (count : ℕ) : (header count).length = 12 := by
  simp [header, magic]

variable {v : View}

/-- The item that starts at an offset, from the tag, the reserved bytes, the size and the payload. -/
theorem slice_item {off n : ℕ} {tag : UInt8} {x : UInt32} {val : CabiValue} (htag : v.buffer.slice off 1 = [tag])
    (hx : v.buffer.slice (off + 4) 4 = uint32LE x) (hn : x.toNat = n) (hcode : val.type.code = tag)
    (hval : v.buffer.slice (off + 8) n = val.payload) :
    ∃ it : Item, it.value = val ∧ v.buffer.slice off (8 + n) = it.bytes := by
  refine ⟨⟨val, v.buffer.slice (off + 1) 3, length_slice ..⟩, rfl, ?_⟩
  have hlen : UInt32.ofNat val.payload.length = x := by
    rw [← hval, length_slice, ← hn, UInt32.ofNat_toNat]
  rw [show 8 + n = 1 + 3 + 4 + n by omega, slice_add, slice_add, slice_add, htag, hx, hval,
    Item.bytes, hcode, hlen]
  simp

theorem itemsValid_meets : ∀ (k : ℕ) (off : UInt32),
    (itemsValid v k off).Meets v.buffer fun off' => ∃ items : List Item, items.length = k ∧
      off'.toNat = off.toNat + (items.flatMap Item.bytes).length ∧
      v.buffer.slice off.toNat (items.flatMap Item.bytes).length = items.flatMap Item.bytes
  | 0, off => meets_pure ⟨[], rfl, rfl, rfl⟩
  | k + 1, off => by
      rw [itemsValid]
      refine meets_check_bind fun ⟨hoff, hlen8⟩ => ?_
      have hroom8 : off.toNat + 8 ≤ v.size.toNat := le_sub_iff.mp ⟨hoff, hlen8⟩
      have hsize := v.size.toNat_lt
      refine (word_meets (by omega)).bind fun n hn => meets_check_bind fun hle => ?_
      have hroom : off.toNat + 8 + n.toNat ≤ v.size.toNat := by
        have h := le_sub_iff.mp ⟨hlen8, hle⟩
        rw [UInt32.toNat_sub_of_le _ _ hoff] at h
        have h8 : (8 : UInt32).toNat = 8 := rfl
        omega
      have hnext : (off + (8 + n)).toNat = off.toNat + (8 + n.toNat) :=
        toNat_add rfl (toNat_add rfl rfl (by omega)) (by omega)
      refine (byteAt_meets (by omega)).bind fun tag htag => ?_
      refine (payloadValid_meets hroom).bind fun _ ⟨val, hcode, hval⟩ => ?_
      refine (itemsValid_meets k (off + (8 + n))).mono fun off' ⟨items, hlen, hend, hitems⟩ => ?_
      obtain ⟨it, rfl, hit⟩ := slice_item htag hn rfl hcode hval
      have hitlen : it.bytes.length = 8 + n.toNat := by rw [← hit, length_slice]
      refine ⟨it :: items, by rw [List.length_cons, hlen], ?_, ?_⟩
      · rw [hend, hnext, List.flatMap_cons, List.length_append, hitlen]
        omega
      · rw [List.flatMap_cons, List.length_append, hitlen, slice_add, hit, ← hnext, hitems]

/-- The validator accepts nothing but frames, and reads nothing outside of what it is given. -/
theorem viewValidate_meets (v : View) : (viewValidate v).Meets v.buffer fun _ => ∃ items, v.bytes = frame items := by
  unfold viewValidate
  refine meets_check_bind fun hsize => ?_
  have h12 : 12 ≤ v.size.toNat := UInt32.le_iff_toNat_le.mp hsize
  have hbuf : v.buffer.size = v.size.toNat := rfl
  refine (meets_load (by omega)).bind fun m hm => meets_check_bind fun hmagic => ?_
  refine (byteAt_meets (by omega)).bind fun version hversion => meets_check_bind fun hone => ?_
  refine (meets_load (by omega)).bind fun reserved hreserved => meets_check_bind fun hzero => ?_
  refine (word_meets (by omega)).bind fun count hcount => ?_
  refine (itemsValid_meets count.toNat 12).bind fun off ⟨items, hlen, hoff, hitems⟩ => ?_
  refine meets_check.mono fun _ hend => ⟨items, ?_⟩
  have hbytes : v.size.toNat = 4 + 1 + 3 + 4 + (items.flatMap Item.bytes).length := by
    rw [← hend, hoff]
    rfl
  rw [View.bytes, hbytes, slice_add, slice_add, slice_add, slice_add]
  show v.buffer.slice 0 4 ++ v.buffer.slice 4 1 ++ v.buffer.slice 5 3 ++ v.buffer.slice 8 4 ++ v.buffer.slice 12 _ = _
  rw [hm, hmagic, hversion, hone, hreserved, hzero, hcount, frame, header, hlen, UInt32.ofNat_toNat]
  exact congrArg _ hitems

end Frames

section Encoded

variable {v : View} {p : ℕ} {n : UInt32}

theorem at_size_lt {pos : ℕ} {l : List UInt8} (h : v.buffer.At pos l) : pos + l.length < 2 ^ 32 :=
  h.1.trans_lt v.size.toNat_lt

theorem boolByte_le (x : Bool) : boolByte x ≤ 1 := by cases x <;> decide

theorem boolsValid_ends : ∀ (xs : List Bool) (i : UInt32), 4 + i.toNat + xs.length < 2 ^ 32 →
    v.buffer.At (p + (4 + i.toNat)) (xs.flatMap fun x => [boolByte x]) →
    (boolsValid v p xs.length i).Ends v.buffer (some ())
  | [], _, _, _ => ends_pure ()
  | x :: xs, i, hfit, hat => by
      rw [List.length_cons] at hfit
      obtain ⟨hx, hxs⟩ := hat.split
      have hplace : (4 + i).toNat = 4 + i.toNat := toNat_add rfl rfl (by omega)
      have hnext : (i + 1).toNat = i.toNat + 1 := toNat_add rfl rfl (by omega)
      rw [List.length_cons, boolsValid, hplace]
      refine (byteAt_ends hx).bind (ends_check_pos (boolByte_le x) (boolsValid_ends xs (i + 1) (by omega) ?_))
      rw [hnext]
      exact hxs

theorem strsValid_ends : ∀ (ss : List (Sized UInt8)) (off : UInt32),
    off.toNat + (ss.flatMap strBytes).length ≤ n.toNat → v.buffer.At (p + off.toNat) (ss.flatMap strBytes) →
    ∃ off' : UInt32, off'.toNat = off.toNat + (ss.flatMap strBytes).length ∧
      (strsValid v p n ss.length off).Ends v.buffer (some off')
  | [], off, _, _ => ⟨off, rfl, ends_pure off⟩
  | s :: ss, off, hfit, hat => by
      have hn := n.toNat_lt
      rw [List.flatMap_cons, List.length_append, length_strBytes] at hfit
      obtain ⟨hs, hss⟩ := hat.split
      rw [length_strBytes] at hss
      have hadd : (off + 4).toNat = off.toNat + 4 := toNat_add rfl rfl (by omega)
      have hnext : (off + 4 + s.size).toNat = off.toNat + (4 + s.items.length) := by
        rw [toNat_add hadd (toNat_size s) (by omega)]
        omega
      have h4 := (le_sub_iff (c := 4)).mpr (show off.toNat + 4 ≤ n.toNat by omega)
      have hlen := le_sub_iff.mpr (show (off + 4).toNat + s.size.toNat ≤ n.toNat by rw [hadd, toNat_size]; omega)
      obtain ⟨off', hoff', hrest⟩ := strsValid_ends ss (off + 4 + s.size) (by omega)
        (by rw [hnext, ← Nat.add_assoc]; exact hss)
      refine ⟨off', by rw [hoff', hnext, List.flatMap_cons, List.length_append, length_strBytes]; omega, ?_⟩
      exact ends_check_pos h4 ((word_ends hs.split.1).bind (ends_check_pos hlen.2 hrest))

theorem payloadValid_ends {val : CabiValue} (hn : n.toNat = val.payload.length) (hat : v.buffer.At p val.payload) :
    (payloadValid v val.type.code p n).Ends v.buffer (some ()) := by
  have hfit := at_size_lt hat
  have hcheck : ∀ {q : Prop} [Decidable q], q → (check q).Ends v.buffer (some ()) := fun hq => ⟨if_pos hq, safe_check _⟩
  have heq : ∀ k : UInt32, val.payload.length = k.toNat → n = k := fun k hk => UInt32.toNat.inj (hn.trans hk)
  unfold payloadValid
  rw [ofCode?_code]
  cases val with
  | int x => exact hcheck (heq 4 (length_uint32LE _))
  | float bits => exact hcheck (heq 8 (length_uint64LE bits))
  | bool x => exact ends_check_pos (heq 1 rfl) ((byteAt_ends hat).bind (hcheck (boolByte_le x)))
  | str s => exact ends_pure ()
  | intArr xs | floatArr xs =>
    rw [length_payload] at hn
    refine ends_check_pos (UInt32.le_iff_toNat_le.mpr ?_) ((word_ends hat.split.1).bind (hcheck ?_))
    · rw [hn]; exact Nat.le_add_right ..
    · rw [hn, toNat_size]; rfl
  | boolArr xs =>
    rw [length_payload] at hn hfit
    refine ends_check_pos (UInt32.le_iff_toNat_le.mpr ?_) ((word_ends hat.split.1).bind (ends_check_pos ?_ ?_))
    · rw [hn]; exact Nat.le_add_right ..
    · rw [hn, toNat_size]; rfl
    · rw [toNat_size]
      have h0 : (0 : UInt32).toNat = 0 := rfl
      change p + (4 + xs.items.length) < 2 ^ 32 at hfit
      exact boolsValid_ends xs.items 0 (by omega) hat.split.2
  | strArr xs =>
    rw [payload, List.length_append, length_uint32LE] at hn
    obtain ⟨off, hoff, hends⟩ := strsValid_ends (v := v) (p := p) (n := n) xs.items 4 (by rw [hn]; exact Nat.le_refl _)
      hat.split.2
    refine ends_check_pos (UInt32.le_iff_toNat_le.mpr ?_) ((word_ends hat.split.1).bind ?_)
    · rw [hn]; exact Nat.le_add_right ..
    · rw [toNat_size]
      exact hends.bind (hcheck (UInt32.toNat.inj (hoff.trans hn.symm)))

theorem at_item {off : ℕ} {it : Item} (h : v.buffer.At off it.bytes) :
    v.buffer.At off [it.value.type.code] ∧ v.buffer.At (off + 4) (uint32LE (.ofNat it.value.payload.length)) ∧
      v.buffer.At (off + 8) it.value.payload ∧
      (UInt32.ofNat it.value.payload.length).toNat = it.value.payload.length := by
  have hfit := at_size_lt h
  rw [it.length_bytes] at hfit
  rw [Item.bytes] at h
  obtain ⟨hhead, hrest⟩ := h.split
  obtain ⟨htag, -⟩ := At.split (l := [it.value.type.code]) hhead
  rw [List.length_cons, it.three] at hrest
  obtain ⟨hlen, hpay⟩ := hrest.split
  rw [length_uint32LE] at hpay
  exact ⟨htag, hlen, hpay, UInt32.toNat_ofNat_of_lt' (show _ < 2 ^ 32 by omega)⟩

theorem at_items {it : Item} {items : List Item} {off : UInt32}
    (h : v.buffer.At off.toNat ((it :: items).flatMap Item.bytes)) :
    v.buffer.At off.toNat it.bytes ∧
      v.buffer.At (off + (8 + .ofNat it.value.payload.length)).toNat (items.flatMap Item.bytes) ∧
      (off + (8 + .ofNat it.value.payload.length)).toNat = off.toNat + it.bytes.length := by
  obtain ⟨hit, hitems⟩ := h.split
  have hfit := at_size_lt hit
  obtain ⟨-, -, -, hn⟩ := at_item hit
  rw [it.length_bytes] at hitems hfit ⊢
  have hnext : (off + (8 + UInt32.ofNat it.value.payload.length)).toNat = off.toNat + (8 + it.value.payload.length) :=
    toNat_add rfl (toNat_add rfl hn (by omega)) (by omega)
  exact ⟨hit, hnext ▸ hitems, hnext⟩

theorem itemsValid_ends : ∀ (items : List Item) (off : UInt32), v.buffer.At off.toNat (items.flatMap Item.bytes) →
    ∃ off' : UInt32, off'.toNat = off.toNat + (items.flatMap Item.bytes).length ∧
      (itemsValid v items.length off).Ends v.buffer (some off')
  | [], off, _ => ⟨off, rfl, ends_pure off⟩
  | it :: items, off, hat => by
      obtain ⟨hit, hitems, hnext⟩ := at_items hat
      have hroom : off.toNat + it.bytes.length ≤ v.size.toNat := hit.1
      obtain ⟨htag, hlen, hpay, hn⟩ := at_item hit
      rw [it.length_bytes] at hroom
      have h8 := (le_sub_iff (c := 8)).mpr (show off.toNat + 8 ≤ v.size.toNat by omega)
      have hfits : UInt32.ofNat it.value.payload.length ≤ v.size - off - 8 := by
        refine (le_sub_iff.mpr ?_).2
        rw [UInt32.toNat_sub_of_le _ _ h8.1, hn]
        show 8 + _ ≤ _
        omega
      obtain ⟨off', hoff', hrest⟩ := itemsValid_ends items _ hitems
      refine ⟨off', by rw [hoff', hnext, List.flatMap_cons, List.length_append, Nat.add_assoc], ?_⟩
      exact ends_check_pos h8 ((word_ends hlen).bind (ends_check_pos hfits
        ((byteAt_ends htag).bind ((payloadValid_ends hn hpay).bind hrest))))

theorem at_frame {items : List Item} (h : v.bytes = frame items) :
    v.buffer.At 0 magic ∧ v.buffer.At 4 [1] ∧ v.buffer.At 5 [0, 0, 0] ∧
      v.buffer.At 8 (uint32LE (.ofNat items.length)) ∧ v.buffer.At 12 (items.flatMap Item.bytes) ∧
      v.size.toNat = 12 + (items.flatMap Item.bytes).length := by
  have hsize : v.size.toNat = (frame items).length := by rw [← h, View.bytes, length_slice]
  have hat : v.buffer.At 0 (frame items) := by
    refine ⟨by rw [Nat.zero_add]; exact hsize.ge, ?_⟩
    rw [← hsize]
    exact h
  obtain ⟨hheader, hitems⟩ := hat.split
  obtain ⟨hrest, hcount⟩ := hheader.split
  obtain ⟨hrest, hzeros⟩ := hrest.split
  obtain ⟨hmagic, hone⟩ := hrest.split
  rw [length_header] at hitems
  rw [frame, List.length_append, length_header] at hsize
  exact ⟨hmagic, hone, hzeros, hcount, hitems, hsize⟩

theorem length_le_flatMap_bytes (items : List Item) : items.length ≤ (items.flatMap Item.bytes).length := by
  induction items with
  | nil => exact Nat.le_refl 0
  | cons it items ih =>
    rw [List.flatMap_cons, List.length_append, it.length_bytes, List.length_cons]
    omega

theorem toNat_count {items : List Item} (h : v.bytes = frame items) :
    (UInt32.ofNat items.length).toNat = items.length := by
  have hsize := v.size.toNat_lt
  have := length_le_flatMap_bytes items
  obtain ⟨-, -, -, -, -, h⟩ := at_frame h
  exact UInt32.toNat_ofNat_of_lt' (show _ < 2 ^ 32 by omega)

theorem viewValidate_ends {items : List Item} (h : v.bytes = frame items) : (viewValidate v).Ends v.buffer (some ()) := by
  have hcount := toNat_count h
  obtain ⟨hmagic, hone, hzeros, hword, hitems, hsize⟩ := at_frame h
  obtain ⟨off, hoff, hends⟩ := itemsValid_ends items 12 hitems
  rw [← hcount] at hends
  have h12 : 12 ≤ v.size := UInt32.le_iff_toNat_le.mpr (by rw [hsize]; exact Nat.le_add_right ..)
  have hend : off = v.size := UInt32.toNat.inj (hoff.trans hsize.symm)
  exact ends_check_pos h12 ((ends_load hmagic).bind (ends_check_pos rfl ((byteAt_ends hone).bind (ends_check_pos rfl
    ((ends_load hzeros).bind (ends_check_pos rfl ((word_ends hword).bind (hends.bind ⟨if_pos hend, safe_check _⟩))))))))

end Encoded

section Getters

namespace CabiValue

def int? : CabiValue → Option Int32
  | int x => some x
  | _ => none

def float? : CabiValue → Option UInt64
  | float bits => some bits
  | _ => none

def bool? : CabiValue → Option Bool
  | bool x => some x
  | _ => none

def str? : CabiValue → Option (List UInt8)
  | str s => some s.items
  | _ => none

def arrCount? : CabiValue → Option UInt32
  | intArr xs => some xs.size
  | floatArr xs => some xs.size
  | boolArr xs => some xs.size
  | strArr xs => some xs.size
  | _ => none

def intElem? (val : CabiValue) (e : UInt32) : Option Int32 :=
  match val with
  | intArr xs => xs.items[e.toNat]?
  | _ => none

def floatElem? (val : CabiValue) (e : UInt32) : Option UInt64 :=
  match val with
  | floatArr xs => xs.items[e.toNat]?
  | _ => none

def boolElem? (val : CabiValue) (e : UInt32) : Option Bool :=
  match val with
  | boolArr xs => xs.items[e.toNat]?
  | _ => none

def strElem? (val : CabiValue) (e : UInt32) : Option (List UInt8) :=
  match val with
  | strArr xs => (xs.items[e.toNat]?).map items
  | _ => none

end CabiValue

def View.text (v : View) (s : StrView) : List UInt8 := v.buffer.slice s.start s.size.toNat

variable {v : View} {i e : UInt32} {val : CabiValue}

/-- The item of a value, as `fxcabi_wire_locate` describes it. -/
structure Located.Of (v : View) (val : CabiValue) (wantsCount : Bool) (loc : Located) : Prop where
  type : loc.type = val.type.code
  payload : v.buffer.At loc.payload val.payload
  size : loc.size.toNat = val.payload.length
  count : wantsCount = true → ∀ c, val.arrCount? = some c → loc.arrayCount = c

/-- The value, if there is one, that is located at an index. -/
def Locates (v : View) (i : UInt32) : Option CabiValue → Prop
  | some val => ∀ wantsCount, ∃ loc, (wireLocate v i wantsCount).Ends v.buffer (some loc) ∧ loc.Of v val wantsCount
  | none => ∀ wantsCount, (wireLocate v i wantsCount).Ends v.buffer none

theorem skipItems_ends {it : Item} : ∀ (items : List Item) (k : ℕ) (off : UInt32),
    v.buffer.At off.toNat (items.flatMap Item.bytes) → items[k]? = some it →
    ∃ off' : UInt32, (skipItems v k off).Ends v.buffer (some off') ∧ v.buffer.At off'.toNat it.bytes
  | [], _, _, _, hit => absurd hit nofun
  | it' :: items, 0, off, hat, hit => by
      obtain rfl : it' = it := Option.some.inj hit
      exact ⟨off, ends_pure off, (at_items hat).1⟩
  | it' :: items, k + 1, off, hat, hit => by
      obtain ⟨hit', hitems, -⟩ := at_items hat
      obtain ⟨-, hlen, -⟩ := at_item hit'
      obtain ⟨off', hskip, hat'⟩ := skipItems_ends items k _ hitems hit
      exact ⟨off', (word_ends hlen).bind hskip, hat'⟩

/-- An array starts with the number of its elements, and its tag says that it is one. -/
theorem array_of_arrCount? {c : UInt32} (h : val.arrCount? = some c) :
    (∃ l, val.payload = uint32LE c ++ l) ∧ CabiType.arrInt.code ≤ val.type.code ∧ val.type.code ≤ CabiType.arrStr.code := by
  cases val with
  | intArr xs | floatArr xs | boolArr xs | strArr xs =>
    obtain rfl : xs.size = c := Option.some.inj h
    refine ⟨⟨_, rfl⟩, ?_⟩
    simp only [type]
    decide
  | _ => exact absurd h nofun

theorem not_array_of_arrCount? (h : val.arrCount? = none) :
    ¬(CabiType.arrInt.code ≤ val.type.code ∧ val.type.code ≤ CabiType.arrStr.code) := by
  cases val with
  | int _ | float _ | bool _ | str _ =>
    simp only [type]
    decide
  | _ => exact absurd h nofun

theorem locates_of_frame {items : List Item} (h : v.bytes = frame items) (i : UInt32) :
    Locates v i ((items[i.toNat]?).map Item.value) := by
  have hvalid := viewValidate_ends h
  have hcount := toNat_count h
  obtain ⟨-, -, -, hword, hat, -⟩ := at_frame h
  cases hit : items[i.toNat]? with
  | none =>
    intro wantsCount
    refine hvalid.bind ((word_ends hword).bind (ends_check_neg ?_))
    rw [UInt32.lt_iff_toNat_lt, hcount]
    exact Nat.not_lt.mpr (List.getElem?_eq_none_iff.mp hit)
  | some it =>
    intro wantsCount
    have hlt : i < UInt32.ofNat items.length := by
      rw [UInt32.lt_iff_toNat_lt, hcount]
      exact (List.getElem?_eq_some_iff.mp hit).1
    obtain ⟨off, hskip, hitem⟩ := skipItems_ends items i.toNat 12 hat hit
    obtain ⟨htag, hlen, hpay, hn⟩ := at_item hitem
    have hlocate : ∀ c, (arrayCountAt v wantsCount it.value.type.code off).Ends v.buffer (some c) →
        (wireLocate v i wantsCount).Ends v.buffer
          (some ⟨it.value.type.code, off.toNat + 8, .ofNat it.value.payload.length, c⟩) := fun c hc =>
      hvalid.bind ((word_ends hword).bind (ends_check_pos hlt (hskip.bind ((word_ends hlen).bind
        ((byteAt_ends htag).bind (hc.bind (ends_pure _)))))))
    cases hc : it.value.arrCount? with
    | none =>
      refine ⟨_, hlocate 0 ?_, rfl, hpay, hn, fun _ c hc' => absurd (hc.symm.trans hc') nofun⟩
      rw [arrayCountAt, if_neg fun h => not_array_of_arrCount? hc h.2]
      exact ends_pure 0
    | some c =>
      obtain ⟨⟨l, hl⟩, harr⟩ := array_of_arrCount? hc
      cases wantsCount with
      | false => exact ⟨_, hlocate 0 (ends_pure 0), rfl, hpay, hn, nofun⟩
      | true =>
        refine ⟨_, hlocate c ?_, rfl, hpay, hn, fun _ c' hc' => Option.some.inj (hc.symm.trans hc')⟩
        rw [arrayCountAt, if_pos ⟨rfl, harr⟩]
        rw [hl] at hpay
        exact word_ends hpay.split.1

theorem locates_of_refused (h : (viewValidate v).result = none) (i : UInt32) : Locates v i none :=
  fun _ => Scan.Ends.bind_none ⟨h, (viewValidate_meets v).1⟩

variable {val? : Option CabiValue}

theorem valueType_ends (h : Locates v i val?) : (valueType v i).Ends v.buffer (val?.map (·.type.code)) := by
  cases val? with
  | none => exact (h false).bind_none
  | some val =>
    obtain ⟨loc, hloc, hof⟩ := h false
    refine hloc.bind ?_
    rw [hof.type]
    exact ends_pure _

variable {t : CabiType} {α : Type}

theorem locateTyped_same (h : Locates v i (some val)) (ht : val.type = t) (wantsCount : Bool) :
    ∃ loc, (locateTyped v t i wantsCount).Ends v.buffer (some loc) ∧ loc.Of v val wantsCount := by
  obtain ⟨loc, hloc, hof⟩ := h wantsCount
  exact ⟨loc, hloc.bind (ends_check_pos (by rw [hof.type, ht]) (ends_pure loc)), hof⟩

theorem code_injective {t' : CabiType} (h : t.code = t'.code) : t = t' :=
  Option.some.inj ((ofCode?_code t).symm.trans (h ▸ ofCode?_code t'))

/-- No typed getter gets anything of a value of another type, or of no value. -/
theorem locateTyped_other (h : Locates v i val?) (ht : ∀ val, val? = some val → val.type ≠ t)
    (wantsCount : Bool) : (locateTyped v t i wantsCount).Ends v.buffer none := by
  cases val? with
  | none => exact (h wantsCount).bind_none
  | some val =>
    obtain ⟨loc, hloc, hof⟩ := h wantsCount
    refine hloc.bind (ends_check_neg fun hcode => ht val rfl (code_injective ?_))
    rw [← hof.type, hcode]

theorem getInt_ends (h : Locates v i val?) : (getInt v i).Ends v.buffer (val?.bind int?) := by
  rcases val? with _ | _ | _
  case some.int x =>
    obtain ⟨loc, hloc, hof⟩ := locateTyped_same h rfl false
    refine hloc.bind ((word_ends hof.payload).bind ?_)
    rw [Int32.toInt32_toUInt32]
    exact ends_pure x
  all_goals exact (locateTyped_other h (by simp [type]) false).bind_none

theorem getFloat_ends (h : Locates v i val?) : (getFloat v i).Ends v.buffer (val?.bind float?) := by
  rcases val? with _ | _ | _
  case some.float bits =>
    obtain ⟨loc, hloc, hof⟩ := locateTyped_same h rfl false
    exact hloc.bind (dword_ends hof.payload)
  all_goals exact (locateTyped_other h (by simp [type]) false).bind_none

theorem boolByte_ne_zero (x : Bool) : (boolByte x != 0) = x := by cases x <;> rfl

theorem getBool_ends (h : Locates v i val?) : (getBool v i).Ends v.buffer (val?.bind bool?) := by
  rcases val? with _ | _ | _
  case some.bool x =>
    obtain ⟨loc, hloc, hof⟩ := locateTyped_same h rfl false
    refine hloc.bind ((byteAt_ends hof.payload).bind ?_)
    rw [boolByte_ne_zero]
    exact ends_pure x
  all_goals exact (locateTyped_other h (by simp [type]) false).bind_none

/-- A getter of a string: where the string is, all inside the frame, and what it is. -/
def EndsWithText (v : View) (d : Scan StrView) (l? : Option (List UInt8)) : Prop :=
  ∃ s?, d.Ends v.buffer s? ∧ s?.map v.text = l? ∧ ∀ s ∈ s?, s.start + s.size.toNat ≤ v.size.toNat

theorem endsWithText_none {d : Scan StrView} (h : d.Ends v.buffer none) : EndsWithText v d none :=
  ⟨none, h, rfl, nofun⟩

theorem endsWithText_some {d : Scan StrView} {s : StrView} {l : List UInt8} (h : d.Ends v.buffer (some s))
    (hsize : s.size.toNat = l.length) (hat : v.buffer.At s.start l) : EndsWithText v d (some l) := by
  refine ⟨some s, h, ?_, fun s' hs' => ?_⟩
  · rw [Option.map_some, View.text, hsize, hat.2]
  · obtain rfl : s = s' := Option.some.inj hs'
    rw [hsize]
    exact hat.1

theorem getStr_ends (h : Locates v i val?) : EndsWithText v (getStr v i) (val?.bind str?) := by
  rcases val? with _ | _ | _
  case some.str s =>
    obtain ⟨loc, hloc, hof⟩ := locateTyped_same h rfl false
    exact endsWithText_some (hloc.bind (ends_pure _)) hof.size hof.payload
  all_goals exact endsWithText_none (locateTyped_other h (by simp [type]) false).bind_none

theorem getArrCount_ends (h : Locates v i val?) : (getArrCount v i).Ends v.buffer (val?.bind arrCount?) := by
  cases val? with
  | none => exact (h true).bind_none
  | some val =>
    obtain ⟨loc, hloc, hof⟩ := h true
    rw [Option.bind_some]
    cases hc : val.arrCount? with
    | none =>
      refine hloc.bind (ends_check_neg ?_)
      rw [hof.type]
      exact not_array_of_arrCount? hc
    | some c =>
      refine hloc.bind (ends_check_pos ?_ ?_)
      · rw [hof.type]
        exact (array_of_arrCount? hc).2
      · rw [hof.count rfl c hc]
        exact ends_pure c

theorem locateElem_other (h : Locates v i val?) (ht : ∀ val, val? = some val → val.type ≠ t) :
    (locateElem v t i e).Ends v.buffer none :=
  (locateTyped_other h ht true).bind_none

theorem locateElem_same (s : Sized α) (h : Locates v i (some val)) (ht : val.type = t)
    (hcount : val.arrCount? = some s.size) :
    (∃ a, s.items[e.toNat]? = some a ∧
      ∃ loc, (locateElem v t i e).Ends v.buffer (some loc) ∧ v.buffer.At loc.payload val.payload) ∨
    (s.items[e.toNat]? = none ∧ (locateElem v t i e).Ends v.buffer none) := by
  obtain ⟨loc, hloc, hof⟩ := locateTyped_same h ht true
  have harray := hof.count rfl _ hcount
  have hiff : e < loc.arrayCount ↔ e.toNat < s.items.length := by
    rw [harray, UInt32.lt_iff_toNat_lt, toNat_size]
  by_cases hlt : e.toNat < s.items.length
  · exact .inl ⟨_, List.getElem?_eq_getElem hlt, loc, hloc.bind (ends_check_pos (hiff.mpr hlt) (ends_pure loc)), hof.payload⟩
  · exact .inr ⟨List.getElem?_eq_none (Nat.not_lt.mp hlt), hloc.bind (ends_check_neg (mt hiff.mp hlt))⟩

theorem locateElem_ends (s : Sized α) (h : Locates v i (some val)) (ht : val.type = t)
    (hcount : val.arrCount? = some s.size) {get : Located → Scan α} (hget : ∀ loc a, v.buffer.At loc.payload val.payload →
      s.items[e.toNat]? = some a → (get loc).Ends v.buffer (some a)) :
    (locateElem v t i e >>= get).Ends v.buffer s.items[e.toNat]? := by
  rcases locateElem_same (e := e) s h ht hcount with ⟨a, ha, loc, hloc, hat⟩ | ⟨hnone, hloc⟩
  · rw [ha]
    exact hloc.bind (hget loc a hat ha)
  · rw [hnone]
    exact hloc.bind_none

theorem at_flatMap_const {enc : α → List UInt8} {w : ℕ} (hw : ∀ a, (enc a).length = w) {a : α} :
    ∀ {as : List α} {k pos : ℕ}, v.buffer.At pos (as.flatMap enc) → as[k]? = some a → v.buffer.At (pos + k * w) (enc a)
  | [], _, _, _, h => absurd h nofun
  | a' :: as, 0, pos, hat, h => by
      obtain rfl : a' = a := Option.some.inj h
      rw [Nat.zero_mul, Nat.add_zero]
      exact hat.split.1
  | a' :: as, k + 1, pos, hat, h => by
      have hrest := hat.split.2
      rw [hw] at hrest
      have h := at_flatMap_const hw hrest (k := k) h
      rwa [show pos + w + k * w = pos + (k + 1) * w by ring] at h

/-- Where an element of an array of fixed width is; its offset does not wrap around. -/
theorem at_elem {enc : α → List UInt8} {w : UInt32} (hw : ∀ a, (enc a).length = w.toNat) {a : α} {xs : Sized α} {pos : ℕ}
    (hat : v.buffer.At pos (uint32LE xs.size ++ xs.items.flatMap enc)) (ha : xs.items[e.toNat]? = some a) :
    v.buffer.At (pos + 4 + (e * w).toNat) (enc a) := by
  have h := at_flatMap_const hw hat.split.2 ha
  have hsize := at_size_lt h
  rw [length_uint32LE] at h hsize
  rwa [UInt32.toNat_mul, Nat.mod_eq_of_lt (by omega)]

theorem getIntArrValue_ends (h : Locates v i val?) (e : UInt32) :
    (getIntArrValue v i e).Ends v.buffer (val?.bind (·.intElem? e)) := by
  rcases val? with _ | _ | _
  case some.intArr xs =>
    refine locateElem_ends xs h rfl rfl fun loc x hat hx => ?_
    refine (word_ends (at_elem (w := 4) (fun y : Int32 => length_uint32LE y.toUInt32) hat hx)).bind ?_
    rw [Int32.toInt32_toUInt32]
    exact ends_pure _
  all_goals exact (locateElem_other h (by simp [type])).bind_none

theorem getFloatArrValue_ends (h : Locates v i val?) (e : UInt32) :
    (getFloatArrValue v i e).Ends v.buffer (val?.bind (·.floatElem? e)) := by
  rcases val? with _ | _ | _
  case some.floatArr xs =>
    exact locateElem_ends xs h rfl rfl fun loc x hat hx => dword_ends (at_elem (w := 8) length_uint64LE hat hx)
  all_goals exact (locateElem_other h (by simp [type])).bind_none

theorem getBoolArrValue_ends (h : Locates v i val?) (e : UInt32) :
    (getBoolArrValue v i e).Ends v.buffer (val?.bind (·.boolElem? e)) := by
  rcases val? with _ | _ | _
  case some.boolArr xs =>
    refine locateElem_ends xs h rfl rfl fun loc x hat hx => ?_
    have hat := at_elem (w := 1) (fun y : Bool => rfl) hat hx
    have hfit := at_size_lt hat
    rw [UInt32.mul_one] at hat hfit
    have hplace : (4 + e).toNat = 4 + e.toNat := toNat_add rfl rfl (by omega)
    rw [Nat.add_assoc, ← hplace] at hat
    refine (byteAt_ends hat).bind ?_
    rw [boolByte_ne_zero]
    exact ends_pure _
  all_goals exact (locateElem_other h (by simp [type])).bind_none

theorem skipStrs_ends {p : ℕ} {s : Sized UInt8} : ∀ (ss : List (Sized UInt8)) (k : ℕ) (off : UInt32),
    v.buffer.At (p + off.toNat) (ss.flatMap strBytes) → ss[k]? = some s →
    ∃ off' : UInt32, (skipStrs v p k off).Ends v.buffer (some off') ∧ v.buffer.At (p + off'.toNat) (strBytes s)
  | [], _, _, _, h => absurd h nofun
  | s' :: ss, 0, off, hat, h => by
      obtain rfl : s' = s := Option.some.inj h
      rw [List.flatMap_cons] at hat
      exact ⟨off, ends_pure off, hat.split.1⟩
  | s' :: ss, k + 1, off, hat, h => by
      rw [List.flatMap_cons] at hat
      obtain ⟨hs, hss⟩ := hat.split
      have hfit := at_size_lt hs
      rw [length_strBytes] at hss hfit
      have hnext : (off + 4 + s'.size).toNat = off.toNat + (4 + s'.items.length) := by
        rw [toNat_add (toNat_add rfl rfl (k := 4) (by omega)) (toNat_size s') (by omega)]
        omega
      obtain ⟨off', hskip, hat'⟩ := skipStrs_ends ss k (off + 4 + s'.size) (by rw [hnext, ← Nat.add_assoc]; exact hss) h
      exact ⟨off', (word_ends hs.split.1).bind hskip, hat'⟩

theorem getStrArrValue_ends (h : Locates v i val?) (e : UInt32) :
    EndsWithText v (getStrArrValue v i e) (val?.bind (·.strElem? e)) := by
  rcases val? with _ | _ | _
  case some.strArr xs =>
    rcases locateElem_same (e := e) xs h rfl rfl with ⟨s, hs, loc, hloc, hat⟩ | ⟨hs, hloc⟩
    · obtain ⟨off, hskip, hat⟩ := skipStrs_ends xs.items e.toNat 4 hat.split.2 hs
      have hfit := at_size_lt hat
      rw [length_strBytes] at hfit
      obtain ⟨hlen, htext⟩ := hat.split
      have hstart : (off + 4).toNat = off.toNat + 4 := toNat_add rfl rfl (by omega)
      rw [length_uint32LE, Nat.add_assoc, ← hstart] at htext
      have hval : (some (strArr xs)).bind (·.strElem? e) = some s.items := congrArg (Option.map items) hs
      rw [hval]
      exact endsWithText_some (hloc.bind (hskip.bind ((word_ends hlen).bind (ends_pure _)))) (toNat_size s) htext
    · have hval : (some (strArr xs)).bind (·.strElem? e) = none := congrArg (Option.map items) hs
      rw [hval]
      exact endsWithText_none hloc.bind_none
  all_goals exact endsWithText_none (locateElem_other h (by simp [type])).bind_none

end Getters
end Fluxa.Cabi
