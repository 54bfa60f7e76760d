import Fluxa.Base.Scan

/-! The clear wire format of the C ABI, from `cabi/fluxa_cabi_wire.c`: the functions that append values to
a message, the validator of a frame and the getters. Sizes and offsets are `uint32_t` and wrap around as
they do in C. The NULL checks are left out. -/

namespace Fluxa.Cabi

open Wire Cutoff
open Wire.Scan (check load)

/-- A pointer to elements and their number, which is a `uint32_t`. -/
structure Sized (α : Type) where
  items : List α
  fits : items.length < 2 ^ 32
  deriving DecidableEq

def Sized.size {α : Type} (s : Sized α) : UInt32 := .ofNat s.items.length

inductive CabiType where
  | int | float | bool | str | arrInt | arrFloat | arrBool | arrStr
  deriving DecidableEq

namespace CabiType

def code : CabiType → UInt8
  | int => 1 | float => 2 | bool => 3 | str => 4 | arrInt => 5 | arrFloat => 6 | arrBool => 7 | arrStr => 8

def ofCode? (c : UInt8) : Option CabiType :=
  [int, float, bool, str, arrInt, arrFloat, arrBool, arrStr].find? (·.code = c)

end CabiType

/-- What a message carries; a float is its 64 bits. -/
inductive CabiValue where
  | int (v : Int32)
  | float (bits : UInt64)
  | bool (v : Bool)
  | str (s : Sized UInt8)
  | intArr (v : Sized Int32)
  | floatArr (v : Sized UInt64)
  | boolArr (v : Sized Bool)
  | strArr (v : Sized (Sized UInt8))
  deriving DecidableEq

def CabiValue.type : CabiValue → CabiType
  | int _ => .int | float _ => .float | bool _ => .bool | str _ => .str
  | intArr _ => .arrInt | floatArr _ => .arrFloat | boolArr _ => .arrBool | strArr _ => .arrStr

section Words

def rd32 : List UInt8 → UInt32
  | [b₀, b₁, b₂, b₃] => b₀.toUInt32 ||| (b₁.toUInt32 <<< 8) ||| (b₂.toUInt32 <<< 16) ||| (b₃.toUInt32 <<< 24)
  | _ => 0

def wr32 (v : UInt32) : List UInt8 := [v.toUInt8, (v >>> 8).toUInt8, (v >>> 16).toUInt8, (v >>> 24).toUInt8]

def wr64 (v : UInt64) : List UInt8 := wr32 v.toUInt32 ++ wr32 (v >>> 32).toUInt32

def boolByte (v : Bool) : UInt8 := if v then 1 else 0

end Words

section Messages

/-- The memory from `data` on. `overrun` is not part of the C structure: it notes that a write went past the
capacity. -/
structure Message where
  data : ℕ → UInt8
  size : UInt32
  capacity : UInt32
  overrun : Bool

def messageInit : Message := ⟨fun _ => 0, 0, 0, false⟩

/-- What `realloc` answers when a block of one capacity is to get another: nothing, or memory that begins
with what the block held. -/
structure Allocator where
  realloc : (ℕ → UInt8) → UInt32 → UInt32 → Option (ℕ → UInt8)
  keeps : ∀ {data data' : ℕ → UInt8} {old new : UInt32}, realloc data old new = some data' →
    ∀ a < old.toNat, data' a = data a

def Allocator.ample : Allocator := ⟨fun data _ _ => some data, fun h _ _ => by rw [Option.some.inj h]⟩

/-- Steps on a message; being cut off is the answer 0. -/
abbrev Building := Cutoff Message

def write (pos : ℕ) (bs : List UInt8) : Building Unit := modify fun m =>
  { m with
    data := fun a => if pos ≤ a ∧ a < pos + bs.length then bs.getD (a - pos) 0 else m.data a
    overrun := m.overrun || decide (m.capacity.toNat < pos + bs.length) }

/-- The loop of `reserve` that doubles the capacity. -/
def growCapacity : ℕ → UInt32 → UInt32 → UInt32
  | 0, cap, _ => cap
  | rounds + 1, cap, need =>
    if cap < need then
      let next := if cap ≤ 0xFFFFFFFF / 2 then cap * 2 else need
      if next ≤ cap then need else growCapacity rounds next need
    else cap

/-- The capacity to ask for. One of at least 1 is doubled at most 32 times. -/
def newCapacity (capacity need : UInt32) : UInt32 := growCapacity 33 (if capacity = 0 then 256 else capacity) need

variable (alloc : Allocator)

/-- The part of `reserve` behind the check that the sum is a `uint32_t`. -/
def provide (need : UInt32) : Building Unit := do
  let m ← get
  if need ≤ m.capacity then pure ()
  else
    match alloc.realloc m.data m.capacity (newCapacity m.capacity need) with
    | none => cut
    | some data => modify fun m => { m with data := data, capacity := newCapacity m.capacity need }

def reserve (add : UInt32) : Building Unit := do
  let m ← get
  if 0xFFFFFFFF < m.size.toNat + add.toNat then cut else provide alloc (.ofNat (m.size.toNat + add.toNat))

/-- The characters of `FXCB`. -/
def magic : List UInt8 := [0x46, 0x58, 0x43, 0x42]

def ensureHeader : Building Unit := do
  let m ← get
  if m.size ≠ 0 then
    if 12 ≤ m.size then pure () else cut
  else
    reserve alloc 12
    write 0 magic
    write 4 [1]
    write 5 [0, 0, 0]
    write 8 (wr32 0)
    modify fun m => { m with size := 12 }

/-- The item that `fxcabi_wire_add_tagged_raw` copies to `p`. -/
def writeItem (tag : CabiType) (payload : Sized UInt8) (p : ℕ) : Building Unit := do
  write p [tag.code]
  write (p + 1) [0, 0, 0]
  write (p + 4) (wr32 payload.size)
  if payload.size ≠ 0 then write (p + 8) payload.items

def countItem : Building Unit := do
  let m ← get
  let count := rd32 ((Buffer.mk m.data m.capacity.toNat).slice 8 4)
  if count = 0xFFFFFFFF then cut else write 8 (wr32 (count + 1))

def addTaggedRaw (tag : CabiType) (payload : Sized UInt8) : Building Unit := do
  ensureHeader alloc
  reserve alloc (8 + payload.size)
  let m ← get
  writeItem tag payload m.size.toNat
  modify fun m => { m with size := m.size + (8 + payload.size) }
  countItem

def addInt (v : Int32) : Building Unit := addTaggedRaw alloc .int ⟨wr32 v.toUInt32, by show 4 < 2 ^ 32; decide⟩

def addFloat (bits : UInt64) : Building Unit := addTaggedRaw alloc .float ⟨wr64 bits, by show 8 < 2 ^ 32; decide⟩

def addBool (v : Bool) : Building Unit := addTaggedRaw alloc .bool ⟨[boolByte v], by show 1 < 2 ^ 32; decide⟩

def addStr (s : Sized UInt8) : Building Unit := addTaggedRaw alloc .str s

def onFresh (steps : Building Unit) : Building Message :=
  match steps messageInit with
  | (some _, t) => pure t
  | (none, _) => cut

/-- The first `size` bytes. -/
def Message.contents (m : Message) : Sized UInt8 :=
  ⟨(Buffer.mk m.data m.capacity.toNat).slice 0 m.size.toNat, by rw [Buffer.length_slice]; exact m.size.toNat_lt⟩

def writeElems {α : Type} (place : UInt32 → ℕ) (bytes : α → List UInt8) : UInt32 → List α → Building Unit
  | _, [] => pure ()
  | i, a :: as => do
      write (place i) (bytes a)
      writeElems place bytes (i + 1) as

/-- The payload of an array whose elements have one width. -/
def arrFixed {α : Type} (width : ℕ) (place : UInt32 → ℕ) (bytes : α → List UInt8) (vals : Sized α) : Building Unit := do
  let n64 := 4 + vals.size.toNat * width
  if 0xFFFFFFFF < n64 then cut
  else
    reserve alloc (.ofNat n64)
    modify fun t => { t with size := .ofNat n64 }
    write 0 (wr32 vals.size)
    writeElems place bytes 0 vals.items

def addArrFixed {α : Type} (tag : CabiType) (width : ℕ) (place : UInt32 → ℕ) (bytes : α → List UInt8)
    (vals : Sized α) : Building Unit := do
  let t ← onFresh (arrFixed alloc width place bytes vals)
  addTaggedRaw alloc tag t.contents

def addIntArr (v : Sized Int32) : Building Unit :=
  addArrFixed alloc .arrInt 4 (fun i => 4 + (i * 4).toNat) (fun x => wr32 x.toUInt32) v

def addFloatArr (v : Sized UInt64) : Building Unit :=
  addArrFixed alloc .arrFloat 8 (fun i => 4 + (i * 8).toNat) wr64 v

def addBoolArr (v : Sized Bool) : Building Unit :=
  addArrFixed alloc .arrBool 1 (fun i => (4 + i).toNat) (fun x => [boolByte x]) v

/-- The step for one string of a string array: its length, and its characters unless there are none. -/
def writeStr (s : Sized UInt8) : Building Unit := do
  reserve alloc (4 + s.size)
  let t ← get
  write t.size.toNat (wr32 s.size)
  modify fun t => { t with size := t.size + 4 }
  let t ← get
  if s.size ≠ 0 then
    write t.size.toNat s.items
    modify fun t => { t with size := t.size + s.size }

def writeStrs : List (Sized UInt8) → Building Unit
  | [] => pure ()
  | s :: ss => do
      writeStr alloc s
      writeStrs ss

def arrStr (v : Sized (Sized UInt8)) : Building Unit := do
  reserve alloc 4
  write 0 (wr32 v.size)
  modify fun t => { t with size := 4 }
  writeStrs alloc v.items

def addStrArr (v : Sized (Sized UInt8)) : Building Unit := do
  let t ← onFresh (arrStr alloc v)
  addTaggedRaw alloc .arrStr t.contents

def add : CabiValue → Building Unit
  | .int v => addInt alloc v
  | .float bits => addFloat alloc bits
  | .bool v => addBool alloc v
  | .str s => addStr alloc s
  | .intArr v => addIntArr alloc v
  | .floatArr v => addFloatArr alloc v
  | .boolArr v => addBoolArr alloc v
  | .strArr v => addStrArr alloc v

def addAll : List CabiValue → Building Unit
  | [] => pure ()
  | v :: vs => do
      add alloc v
      addAll vs

end Messages

section Views

/-- Memory from `data` on, of which the first `size` bytes are the frame. -/
structure View where
  byte : ℕ → UInt8
  size : UInt32

def Message.view (m : Message) : View := ⟨m.data, m.size⟩

namespace View

variable (v : View)

def buffer : Buffer := ⟨v.byte, v.size.toNat⟩

def bytes : List UInt8 := v.buffer.slice 0 v.size.toNat

def word (pos : ℕ) : Scan UInt32 := do
  let bs ← load v.buffer pos 4
  pure (rd32 bs)

/-- `rd64` -/
def dword (pos : ℕ) : Scan UInt64 := do
  let low ← v.word pos
  let high ← v.word (pos + 4)
  pure (low.toUInt64 ||| (high.toUInt64 <<< 32))

def byteAt (pos : ℕ) : Scan UInt8 := do
  let bs ← load v.buffer pos 1
  pure (bs.headD 0)

end View

variable (v : View)

/-- The loop over the elements of a bool array, from the `i`-th on. -/
def boolsValid (p : ℕ) : ℕ → UInt32 → Scan Unit
  | 0, _ => pure ()
  | left + 1, i => do
      let x ← v.byteAt (p + (4 + i).toNat)
      check (x ≤ 1)
      boolsValid p left (i + 1)

/-- The loop over the elements of a string array, with the offset behind the last of them. -/
def strsValid (p : ℕ) (n : UInt32) : ℕ → UInt32 → Scan UInt32
  | 0, off => pure off
  | left + 1, off => do
      check (off ≤ n ∧ 4 ≤ n - off)
      let l ← v.word (p + off.toNat)
      check (l ≤ n - (off + 4))
      strsValid p n left (off + 4 + l)

/-- The payload of `n` bytes at `p`. -/
def payloadValid (tag : UInt8) (p : ℕ) (n : UInt32) : Scan Unit :=
  match CabiType.ofCode? tag with
  | some .int => check (n = 4)
  | some .float => check (n = 8)
  | some .bool => do
      check (n = 1)
      let x ← v.byteAt p
      check (x ≤ 1)
  | some .str => pure ()
  | some .arrInt => do
      check (4 ≤ n)
      let c ← v.word p
      check (4 + c.toNat * 4 = n.toNat)
  | some .arrFloat => do
      check (4 ≤ n)
      let c ← v.word p
      check (4 + c.toNat * 8 = n.toNat)
  | some .arrBool => do
      check (4 ≤ n)
      let c ← v.word p
      check (4 + c.toNat = n.toNat)
      boolsValid v p c.toNat 0
  | some .arrStr => do
      check (4 ≤ n)
      let c ← v.word p
      let off ← strsValid v p n c.toNat 4
      check (off = n)
  | none => Scan.refuse

/-- The loop over the items, with the offset behind the last of them. The three bytes behind an item's tag
are not looked at. -/
def itemsValid : ℕ → UInt32 → Scan UInt32
  | 0, off => pure off
  | left + 1, off => do
      check (off ≤ v.size ∧ 8 ≤ v.size - off)
      let n ← v.word (off.toNat + 4)
      check (n ≤ v.size - off - 8)
      let tag ← v.byteAt off.toNat
      payloadValid v tag (off.toNat + 8) n
      itemsValid left (off + (8 + n))

def viewValidate : Scan Unit := do
  check (12 ≤ v.size)
  let m ← load v.buffer 0 4
  check (m = magic)
  let version ← v.byteAt 4
  check (version = 1)
  let reserved ← load v.buffer 5 3
  check (reserved = [0, 0, 0])
  let count ← v.word 8
  let off ← itemsValid v count.toNat 12
  check (off = v.size)

def valueCount : Scan UInt32 := do
  let ok ← (viewValidate v).succeeds
  if ok then v.word 8 else pure 0

/-- What `fxcabi_wire_locate` stores: the tag, where the payload is and its size, and the number of elements
of an array. -/
structure Located where
  type : UInt8
  payload : ℕ
  size : UInt32
  arrayCount : UInt32

def skipItems : ℕ → UInt32 → Scan UInt32
  | 0, off => pure off
  | left + 1, off => do
      let z ← v.word (off.toNat + 4)
      skipItems left (off + (8 + z))

/-- The number of elements of the item at an offset, which is read only for a caller that asks for it. -/
def arrayCountAt (wantsCount : Bool) (t : UInt8) (off : UInt32) : Scan UInt32 :=
  if wantsCount ∧ CabiType.arrInt.code ≤ t ∧ t ≤ CabiType.arrStr.code then v.word (off.toNat + 8) else pure 0

def wireLocate (idx : UInt32) (wantsCount : Bool) : Scan Located := do
  viewValidate v
  let count ← v.word 8
  check (idx < count)
  let off ← skipItems v idx.toNat 12
  let z ← v.word (off.toNat + 4)
  let t ← v.byteAt off.toNat
  let ac ← arrayCountAt v wantsCount t off
  pure ⟨t, off.toNat + 8, z, ac⟩

def valueType (i : UInt32) : Scan UInt8 := do
  let item ← wireLocate v i false
  pure item.type

/-- The start of every typed getter: the item, which must have the type. -/
def locateTyped (type : CabiType) (i : UInt32) (wantsCount : Bool) : Scan Located := do
  let item ← wireLocate v i wantsCount
  check (item.type = type.code)
  pure item

def getInt (i : UInt32) : Scan Int32 := do
  let item ← locateTyped v .int i false
  let x ← v.word item.payload
  pure x.toInt32

def getFloat (i : UInt32) : Scan UInt64 := do
  let item ← locateTyped v .float i false
  v.dword item.payload

def getBool (i : UInt32) : Scan Bool := do
  let item ← locateTyped v .bool i false
  let x ← v.byteAt item.payload
  pure (x != 0)

structure StrView where
  start : ℕ
  size : UInt32

def getStr (i : UInt32) : Scan StrView := do
  let item ← locateTyped v .str i false
  pure ⟨item.payload, item.size⟩

def getArrCount (i : UInt32) : Scan UInt32 := do
  let item ← wireLocate v i true
  check (CabiType.arrInt.code ≤ item.type ∧ item.type ≤ CabiType.arrStr.code)
  pure item.arrayCount

/-- The start of every element getter. -/
def locateElem (type : CabiType) (i e : UInt32) : Scan Located := do
  let item ← locateTyped v type i true
  check (e < item.arrayCount)
  pure item

def getIntArrValue (i e : UInt32) : Scan Int32 := do
  let item ← locateElem v .arrInt i e
  let x ← v.word (item.payload + 4 + (e * 4).toNat)
  pure x.toInt32

def getFloatArrValue (i e : UInt32) : Scan UInt64 := do
  let item ← locateElem v .arrFloat i e
  v.dword (item.payload + 4 + (e * 8).toNat)

def getBoolArrValue (i e : UInt32) : Scan Bool := do
  let item ← locateElem v .arrBool i e
  let x ← v.byteAt (item.payload + (4 + e).toNat)
  pure (x != 0)

/-- The loop over the strings before the one that is wanted, with that one's offset. -/
def skipStrs (p : ℕ) : ℕ → UInt32 → Scan UInt32
  | 0, off => pure off
  | left + 1, off => do
      let n ← v.word (p + off.toNat)
      skipStrs p left (off + 4 + n)

def getStrArrValue (i e : UInt32) : Scan StrView := do
  let item ← locateElem v .arrStr i e
  let off ← skipStrs v item.payload e.toNat 4
  let n ← v.word (item.payload + off.toNat)
  pure ⟨item.payload + (off + 4).toNat, n⟩

end Views

end Fluxa.Cabi
