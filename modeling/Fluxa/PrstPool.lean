import Fluxa.Base.Wire
import Fluxa.Value
import Mathlib.Data.List.TakeWhile

/-! The pool of `prst_pool.h` and its snapshots. The pool owns deep copies of its values, which are trees:
nothing is shared between two entries or with the runtime. Values that it only points to (functions,
Block instances, dyns) are not part of a snapshot. -/

namespace Fluxa

open Wire

/-- A C string: the bytes before its terminator. -/
structure CString where
  bytes : List UInt8
  noNul : 0 ∉ bytes
  deriving DecidableEq

namespace CString

/-- The string a buffer with a terminator behind it holds. -/
def ofBuffer (l : List UInt8) : CString :=
  ⟨l.takeWhile (· != 0), fun h => by simpa using (List.mem_takeWhile_imp h)⟩

def take (n : ℕ) (s : CString) : CString := ⟨s.bytes.take n, fun h => s.noNul (List.mem_of_mem_take h)⟩

end CString

/-- What fits into the `char name[256]` of an entry. -/
structure EntryName extends CString where
  short : bytes.length ≤ 255
  deriving DecidableEq

namespace EntryName

/-- The name under which a string is entered: its first 255 bytes. -/
def cut (s : CString) : EntryName := ⟨s.take 255, by simp [CString.take]⟩

/-- The name in 256 bytes of a snapshot, the last of which is made a terminator. -/
def ofBuffer (l : List UInt8) : EntryName :=
  ⟨.ofBuffer (l.take 255), (List.takeWhile_prefix _).length_le.trans (by simp)⟩

/-- The 256 bytes of the name; those behind the terminator were never written. -/
def buffer (name : EntryName) (slack : ℕ → UInt8) : List UInt8 :=
  name.bytes ++ 0 :: (List.range (255 - name.bytes.length)).map slack

end EntryName

/-- The kinds of pointers to what the pool does not own. -/
inductive RefKind where
  | func | blockInst | errStack | dyn | ptr
  deriving DecidableEq

def RefKind.type : RefKind → ValType
  | func => .func | blockInst => .blockInst | errStack => .errStack | dyn => .dyn | ptr => .ptr

/-- A value of the pool; a float is kept as its 64 bits and a bool as the `int` it is in C. -/
inductive Stored where
  | nil
  | int (i : Int64)
  | float (bits : UInt64)
  | bool (b : Int32)
  | str (s : CString)
  | arr (elems : List Stored)
  | ref (kind : RefKind) (addr : ℕ)

def Stored.type : Stored → ValType
  | nil => .nil | int _ => .int | float _ => .float | bool _ => .bool | str _ => .string | arr _ => .arr
  | ref kind _ => kind.type

/-- The number of a `ValType`. A variable of that type read from a snapshot holds any number. -/
def ValType.tag (t : ValType) : Int32 := .ofNat t.index

structure PoolEntry where
  name : EntryName
  value : Stored
  initValue : Stored
  declaredType : Int32
  stackOffset : Int32

abbrev PrstPool := List PoolEntry

section Operations

def prstPoolFind (p : PrstPool) (name : CString) : Option ℕ := p.findIdx? (·.name.toCString = name)

/-- The index of the entry, or `none` for a collision of types. -/
def prstPoolSet (p : PrstPool) (name : CString) (v : Stored) : PrstPool × Option ℕ :=
  match prstPoolFind p name with
  | some i =>
    if (p[i]?).any (·.declaredType != v.type.tag) then (p, none)
    else (p.modify i fun e => { e with value := v }, some i)
  | none => (p ++ [⟨.cut name, v, v, v.type.tag, -1⟩], some p.length)

def prstPoolSetOffset (p : PrstPool) (name : CString) (offset : Int32) : PrstPool :=
  match prstPoolFind p name with
  | some i => p.modify i fun e => { e with stackOffset := offset }
  | none => p

end Operations

section Serialize

namespace Stored

/-! The fields of a value's block: only the one of its type is filled. -/

def intVal : Stored → Int64
  | int i => i
  | _ => 0

def floatVal : Stored → UInt64
  | float bits => bits
  | _ => 0

def boolVal : Stored → Int32
  | bool b => b
  | _ => 0

def text : Stored → List UInt8
  | str s => s.bytes
  | _ => []

end Stored

/-- The length of a text is cast to `int32_t`, and nothing of a text whose length becomes negative is
written. -/
def prstSerScalars (v : Stored) : List UInt8 :=
  let slen := Int32.ofNat v.text.length
  int64LE v.intVal ++ (uint64LE v.floatVal ++ (int32LE v.boolVal ++
    (int32LE slen ++ v.text.take slen.toNatClampNeg)))

mutual

def prstSerValue : Stored → List UInt8
  | .arr elems => prstSerScalars (.arr elems) ++ (int32LE (.ofNat elems.length) ++ prstSerElems elems)
  | v => prstSerScalars v ++ int32LE 0

def prstSerElems : List Stored → List UInt8
  | [] => []
  | v :: vs => int32LE v.type.tag ++ prstSerValue v ++ prstSerElems vs

end

def prstSerEntry (slack : ℕ → UInt8) (e : PoolEntry) : List UInt8 :=
  e.name.buffer slack ++ (int32LE e.declaredType ++ (int32LE e.stackOffset ++
    (prstSerValue e.value ++ prstSerValue e.initValue)))

/-- `slack` is what the unused bytes of the names hold. -/
def prstSerEntries (slack : ℕ → ℕ → UInt8) : List PoolEntry → List UInt8
  | [] => []
  | e :: es => prstSerEntry (slack es.length) e ++ prstSerEntries slack es

def prstPoolSerialize (slack : ℕ → ℕ → UInt8) (p : PrstPool) : List UInt8 :=
  int32LE (.ofNat p.length) ++ prstSerEntries slack p

end Serialize

section Deserialize

/-- The `switch` on the declared type. -/
def scalarOf (dt : Int32) (iv : Int64) (fv : UInt64) (bv : Int32) (s : List UInt8) : Stored :=
  if dt = ValType.int.tag then .int iv
  else if dt = ValType.float.tag then .float fv
  else if dt = ValType.bool.tag then .bool bv
  else if dt = ValType.string.tag then .str (.ofBuffer s)
  else .nil

variable (b : Buffer)

/-- The text of a string; for another type its bytes are passed over. -/
def prstDeserText (dt : Int32) (n : ℕ) : Decoder (List UInt8) :=
  if dt = ValType.string.tag then bytes b n
  else do
    skip n
    pure []

/-- An element: its type and its block. -/
def prstDeserElem (value : Int32 → Decoder Stored) : Decoder Stored := do
  require b 4
  let etag ← int32 b
  value etag

def prstDeserValue : ℕ → Int32 → Decoder Stored
  | 0, _ => outOfFuel
  | fuel + 1, dt => do
      require b 24
      let iv ← int64 b
      let fv ← uint64 b
      let bv ← int32 b
      let sl ← int32 b
      if sl < 0 then Cutoff.cut
      else do
        require b sl.toNatClampNeg
        let s ← prstDeserText b dt sl.toNatClampNeg
        let v := scalarOf dt iv fv bv s
        -- a snapshot of the old format ends here
        if ← fits b 4 then do
          let arrCount ← int32 b
          if arrCount < 0 ∨ 65536 < arrCount then Cutoff.cut
          else do
            -- the elements of a value of another type are read and dropped
            let elems ← times arrCount.toNatClampNeg (prstDeserElem b (prstDeserValue fuel))
            pure (if 0 < arrCount ∧ dt = ValType.arr.tag then .arr elems else v)
        else pure v

def prstDeserEntry (fuel : ℕ) : Decoder PoolEntry := do
  require b 264
  let name ← bytes b 256
  let dt ← int32 b
  let so ← int32 b
  let v ← prstDeserValue b fuel dt
  let iv ← prstDeserValue b fuel dt
  pure ⟨.ofBuffer name, v, iv, dt, so⟩

/-- An entry is put back through `prst_pool_set`; one that collides is dropped. -/
def prstRestoreEntry (p : PrstPool) (e : PoolEntry) : PrstPool :=
  match prstPoolSet p e.name.toCString e.value with
  | (p, some i) =>
    p.modify i fun x =>
      { x with declaredType := e.declaredType, stackOffset := e.stackOffset, initValue := e.initValue }
  | (p, none) => p

def prstDeserEntries (fuel : ℕ) : ℕ → PrstPool → Decoder (Bool × PrstPool)
  | 0, p => pure (true, p)
  | n + 1, p => do
      match ← attempt (prstDeserEntry b fuel) with
      | none => pure (false, p)
      | some e => prstDeserEntries fuel n (prstRestoreEntry p e)

/-- The reader on a C stack with room for so many calls of `prst_deser_value`. The pool is given up only when the
count of the snapshot has been accepted. -/
def prstPoolDeserializeIn (frames : ℕ) (p : PrstPool) : Decoder (Bool × PrstPool) := do
  if ← fits b 4 then do
    let cnt ← int32 b
    if cnt < 0 ∨ 65536 < cnt then pure (false, p)
    else prstDeserEntries b frames cnt.toNatClampNeg []
  else pure (false, p)

/-- The reader on a stack that is large enough for every snapshot of this size. -/
def prstPoolDeserialize (p : PrstPool) : Decoder (Bool × PrstPool) := prstPoolDeserializeIn b (b.size + 1) p

end Deserialize

end Fluxa
