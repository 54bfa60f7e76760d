import Mathlib.Data.List.Basic
import Mathlib.Data.UInt
import Mathlib.Tactic.Ring

/-! The frames of the native websocket client: what `ws_send_frame` writes, and what successive calls of
`ws_recv_frame` make of the bytes of a connection. -/

namespace Fluxa.Websocket

/-- The opcodes of unfragmented frames, apart from that which closes the connection. -/
inductive Opcode
  | text | binary | ping | pong
  deriving DecidableEq

namespace Opcode

def code : Opcode → UInt8
  | text => 0x1 | binary => 0x2 | ping => 0x9 | pong => 0xA

def IsData : Opcode → Prop
  | text | binary => True
  | ping | pong => False

instance : DecidablePred IsData
  | text | binary => isTrue trivial
  | ping | pong => isFalse id

/-- The longest payload: control frames have no extended length, and longer data frames than these have the third
form of the length. -/
def maxPayload (op : Opcode) : ℕ := if op.IsData then 65535 else 125

end Opcode

abbrev MaskKey := { key : List UInt8 // key.length = 4 }

/-- A frame of RFC 6455 in one fragment. -/
structure Frame where
  opcode : Opcode
  mask : Option MaskKey
  payload : List UInt8
  length_le : payload.length ≤ opcode.maxPayload

def applyMask (key payload : List UInt8) : List UInt8 := payload.mapIdx fun i b => b ^^^ key.getD (i % 4) 0

/-- The second byte of a frame, and the extended length behind it. -/
def lengthBytes (masked : Bool) (n : ℕ) : List UInt8 :=
  let bit : UInt8 := if masked then 0x80 else 0
  if n < 126 then [bit ||| UInt8.ofNat n] else [bit ||| 126, UInt8.ofNat (n / 256), UInt8.ofNat n]

namespace Frame

def body (f : Frame) : List UInt8 :=
  match f.mask with
  | some key => key.1 ++ applyMask key.1 f.payload
  | none => f.payload

def encode (f : Frame) : List UInt8 :=
  (0x80 ||| f.opcode.code) :: (lengthBytes f.mask.isSome f.payload.length ++ f.body)

end Frame

section Send

def sendMask : List UInt8 := [0x12, 0x34, 0x56, 0x78]

/-- The loop of `ws_send_frame`. The mask starts again with every block. -/
def sendBlocks (data : List UInt8) : List UInt8 :=
  if data = [] then [] else applyMask sendMask (data.take 4096) ++ sendBlocks (data.drop 4096)
termination_by data.length
decreasing_by
  have := List.length_pos_of_ne_nil ‹_›
  simp only [List.length_drop]
  omega

/-- `ws_send_frame`: the bytes that it sends. -/
def wsSendFrame (data : List UInt8) (opcode : UInt8) : Option (List UInt8) :=
  if data.length < 126 then
    some ([0x80 ||| (opcode &&& 0x0F), 0x80 ||| UInt8.ofNat data.length] ++ sendMask ++ sendBlocks data)
  else if data.length < 65536 then
    some ([0x80 ||| (opcode &&& 0x0F), 0x80 ||| 126, UInt8.ofNat (data.length >>> 8 &&& 0xFF),
      UInt8.ofNat (data.length &&& 0xFF)] ++ sendMask ++ sendBlocks data)
  else none

end Send

section Receive

/-- What a call returns, what it leaves in `out`, and what it sends. -/
structure Received where
  ret : ℤ
  out : List UInt8
  sent : List UInt8

/-- The end of `ws_recv_frame`, from the mask on. A `recv` waits for all it asks for, and gets less only at the end of
the stream. -/
def recvPayload (maxout : ℕ) (masked : Bool) (plen : ℕ) (s : List UInt8) : Received × List UInt8 :=
  if masked ∧ s.length < 4 then (⟨-1, [], []⟩, [])
  else
    let mask := if masked then s.take 4 else [0, 0, 0, 0]
    let s := if masked then s.drop 4 else s
    let plen := if maxout ≤ plen then maxout - 1 else plen
    let out := s.take plen
    (if out = [] then ⟨-1, [], []⟩ else ⟨out.length, if masked then applyMask mask out else out, []⟩, s.drop plen)

/-- `ws_recv_frame` on the bytes that are still to come, and those it leaves. -/
def wsRecvFrame (maxout : ℕ) (stream : List UInt8) : Received × List UInt8 :=
  match stream with
  | b0 :: b1 :: s =>
    let opcode := b0 &&& 0x0F
    let masked := b1 >>> 7 &&& 1 == 1
    let plen := (b1 &&& 0x7F).toNat
    if opcode = 8 then (⟨-2, [], []⟩, s)
    -- The payload of a ping, and its mask, are left where they are.
    else if opcode = 9 then (⟨0, [], [0x8A, 0x00]⟩, s)
    else if plen = 126 then
      match s with
      | e0 :: e1 :: s => recvPayload maxout masked (e0.toNat <<< 8 ||| e1.toNat) s
      | _ => (⟨-1, [], []⟩, [])
    else if plen = 127 then (⟨-1, [], []⟩, s)
    else recvPayload maxout masked plen s
  | _ => (⟨-1, [], []⟩, [])

end Receive

/-- The size of the buffer of `ws.recv` -/
def recvBufferSize : ℕ := 65536

/-- What a call is to return for a frame: the payload of a data frame; and no payload for a control frame. -/
def Frame.Delivers (f : Frame) (r : Received) : Prop :=
  if f.opcode.IsData then r.ret = f.payload.length ∧ r.out = f.payload else r.ret ≤ 0

/-- Successive calls on the bytes of the frames: each consumes its frame and delivers it. -/
def InStep : List Frame → List UInt8 → Prop
  | [], _ => True
  | f :: fs, stream =>
    (wsRecvFrame recvBufferSize stream).2 = stream.drop f.encode.length ∧
      f.Delivers (wsRecvFrame recvBufferSize stream).1 ∧ InStep fs (wsRecvFrame recvBufferSize stream).2

/-- A payload of fewer than 65536 bytes is sent as one frame with that payload. -/
def SendsOneFrame : Prop :=
  ∀ op : Opcode, op.IsData → ∀ payload : List UInt8, payload.length < 65536 →
    ∃ f : Frame, f.opcode = op ∧ f.payload = payload ∧ wsSendFrame payload op.code = some f.encode

/-- The frames that are read: data frames that are not empty, pings without mask and payload, and pongs without
payload. -/
def Frame.readable (f : Frame) : Bool :=
  match f.opcode with
  | .text | .binary => !f.payload.isEmpty
  | .ping => f.payload.isEmpty && f.mask.isNone
  | .pong => f.payload.isEmpty

section Bytes

@[simp] theorem length_applyMask (key payload : List UInt8) : (applyMask key payload).length = payload.length :=
  List.length_mapIdx

theorem applyMask_applyMask (key payload : List UInt8) : applyMask key (applyMask key payload) = payload := by
  apply List.ext_getElem
  · simp
  · intro i _ _
    simp only [applyMask, List.getElem_mapIdx]
    rw [UInt8.xor_assoc, UInt8.xor_self, UInt8.xor_zero]

theorem applyMask_append (key : List UInt8) {l l' : List UInt8} (h : 4 ∣ l.length) :
    applyMask key (l ++ l') = applyMask key l ++ applyMask key l' := by
  have hmod (i : ℕ) : (i + l.length) % 4 = i % 4 := by omega
  rw [applyMask, List.mapIdx_append]
  simp only [hmod]
  rfl

theorem sendBlocks_eq (data : List UInt8) : sendBlocks data = applyMask sendMask data := by
  induction data using sendBlocks.induct with
  | case1 => simp [sendBlocks, applyMask]
  | case2 data hdata ih =>
    rw [sendBlocks, if_neg hdata, ih]
    by_cases hlong : 4096 ≤ data.length
    · rw [← applyMask_append _ (by rw [List.length_take_of_le hlong]; decide), List.take_append_drop]
    · rw [List.drop_eq_nil_of_le (by omega), List.take_of_length_le (by omega)]
      exact List.append_nil _

theorem second_byte : ∀ (masked : Bool) (n : Fin 127),
    (((if masked then 0x80 else 0 : UInt8) ||| UInt8.ofNat n) &&& 0x7F).toNat = n ∧
      (((if masked then 0x80 else 0 : UInt8) ||| UInt8.ofNat n) >>> 7 &&& 1 == 1) = masked := by decide +kernel

theorem extended_length {n : ℕ} (h : n < 65536) : (UInt8.ofNat (n / 256)).toNat <<< 8 ||| (UInt8.ofNat n).toNat = n := by
  have hlow : n % 256 < 2 ^ 8 := Nat.mod_lt n (by decide)
  rw [UInt8.toNat_ofNat', UInt8.toNat_ofNat', Nat.mod_eq_of_lt (by omega : n / 256 < 2 ^ 8),
    ← Nat.shiftLeft_add_eq_or_of_lt hlow, Nat.shiftLeft_eq]
  omega

end Bytes

variable {f : Frame} {rest : List UInt8}

theorem Frame.length_lt (f : Frame) : f.payload.length < 65536 := by
  have := f.length_le
  unfold Opcode.maxPayload at this
  split at this <;> omega

theorem recvPayload_body (f : Frame) (rest : List UInt8) :
    recvPayload recvBufferSize f.mask.isSome f.payload.length (f.body ++ rest) =
      (if f.payload = [] then ⟨-1, [], []⟩ else ⟨f.payload.length, f.payload, []⟩, rest) := by
  have hmax : ¬ recvBufferSize ≤ f.payload.length := not_le.mpr f.length_lt
  unfold recvPayload Frame.body
  cases f.mask with
  | none =>
    simp only [Option.isSome_none, Bool.false_eq_true, false_and, if_false, if_neg hmax, List.take_left,
      List.drop_left]
  | some key =>
    have htake : (key.1 ++ applyMask key.1 f.payload ++ rest).take 4 = key.1 := by
      rw [List.append_assoc, List.take_left' key.2]
    have hdrop : (key.1 ++ applyMask key.1 f.payload ++ rest).drop 4 = applyMask key.1 f.payload ++ rest := by
      rw [List.append_assoc, List.drop_left' key.2]
    have hshort : ¬ (key.1 ++ applyMask key.1 f.payload ++ rest).length < 4 := by
      simp only [List.length_append, key.2]
      omega
    have hempty : applyMask key.1 f.payload = [] ↔ f.payload = [] := by
      rw [← List.length_eq_zero_iff, length_applyMask, List.length_eq_zero_iff]
    simp only [Option.isSome_some, true_and, if_true, if_neg hshort, if_neg hmax, htake, hdrop,
      List.take_left' (length_applyMask _ _), List.drop_left' (length_applyMask _ _), hempty, length_applyMask,
      applyMask_applyMask]

/-- A frame that is not a ping is consumed, and its payload is returned unless it is empty. -/
theorem wsRecvFrame_encode (hop : f.opcode ≠ .ping) :
    wsRecvFrame recvBufferSize (f.encode ++ rest) =
      (if f.payload = [] then ⟨-1, [], []⟩ else ⟨f.payload.length, f.payload, []⟩, rest) := by
  have hcode : ¬ (0x80 ||| f.opcode.code) &&& 0x0F = 8 ∧ ¬ (0x80 ||| f.opcode.code) &&& 0x0F = 9 := by
    revert hop
    cases f.opcode <;> decide
  rw [Frame.encode, lengthBytes]
  split
  · rename_i hshort
    obtain ⟨hlen, hmask⟩ := second_byte f.mask.isSome ⟨f.payload.length, by omega⟩
    simp only [List.cons_append, List.nil_append, wsRecvFrame, if_neg hcode.1, if_neg hcode.2, hlen, hmask,
      if_neg (by omega : ¬ f.payload.length = 126), if_neg (by omega : ¬ f.payload.length = 127), recvPayload_body]
  · obtain ⟨hlen, hmask⟩ := second_byte f.mask.isSome ⟨126, by decide⟩
    simp only [UInt8.reduceOfNat] at hlen hmask
    simp only [List.cons_append, List.nil_append, wsRecvFrame, if_neg hcode.1, if_neg hcode.2]
    rw [if_pos hlen, hmask, extended_length f.length_lt, recvPayload_body]

theorem wsRecvFrame_ping (hop : f.opcode = .ping) :
    wsRecvFrame recvBufferSize (f.encode ++ rest) = (⟨0, [], [0x8A, 0x00]⟩, f.body ++ rest) := by
  have hlength : f.payload.length < 126 := by
    have := f.length_le
    rw [hop] at this
    exact Nat.lt_succ_of_le this
  rw [Frame.encode, lengthBytes, if_pos hlength, hop]
  rfl

theorem body_eq_nil_iff : f.body = [] ↔ f.payload = [] ∧ f.mask = none := by
  unfold Frame.body
  cases f.mask with
  | none => simp
  | some key =>
    have := key.2
    constructor
    · intro h
      have := congrArg List.length h
      simp only [List.length_append, List.length_nil] at this
      omega
    · rintro ⟨-, h⟩
      exact absurd h (Option.some_ne_none key)

theorem step_iff (f : Frame) (rest : List UInt8) :
    ((wsRecvFrame recvBufferSize (f.encode ++ rest)).2 = rest ∧
      f.Delivers (wsRecvFrame recvBufferSize (f.encode ++ rest)).1) ↔ f.readable = true := by
  cases hop : f.opcode with
  | ping =>
    rw [wsRecvFrame_ping hop, List.append_left_eq_self, body_eq_nil_iff]
    simp [Frame.Delivers, Frame.readable, hop, Opcode.IsData, Option.isNone_iff_eq_none]
  | _ =>
    rw [wsRecvFrame_encode (by simp [hop])]
    by_cases hempty : f.payload = [] <;> simp [Frame.Delivers, Frame.readable, hop, Opcode.IsData, hempty]

theorem inStep_iff (fs : List Frame) (rest : List UInt8) :
    InStep fs (fs.flatMap Frame.encode ++ rest) ↔ ∀ f ∈ fs, f.readable = true := by
  induction fs with
  | nil => simp [InStep]
  | cons f fs ih =>
    have hstream : (f :: fs).flatMap Frame.encode ++ rest = f.encode ++ (fs.flatMap Frame.encode ++ rest) := by
      rw [List.flatMap_cons, List.append_assoc]
    rw [hstream, InStep, List.drop_left, List.forall_mem_cons, ← and_assoc, ← step_iff f (fs.flatMap Frame.encode ++ rest)]
    refine and_congr_right fun h => ?_
    rw [h.1, ih]

/-- What `ws_send_frame` writes for a payload of fewer than 65536 bytes is one frame. -/
theorem sendsOneFrame : SendsOneFrame := by
  intro op hdata payload hlength
  refine ⟨⟨op, some ⟨sendMask, rfl⟩, payload, ?_⟩, rfl, rfl, ?_⟩
  · rw [Opcode.maxPayload, if_pos hdata]
    omega
  · have hcode : op.code &&& 0x0F = op.code := by cases op <;> decide
    rw [wsSendFrame, hcode, sendBlocks_eq, Frame.encode, lengthBytes]
    split
    · rfl
    · have hhigh : payload.length >>> 8 &&& 0xFF = payload.length / 256 := by
        rw [Nat.shiftRight_eq_div_pow]
        exact (Nat.and_two_pow_sub_one_eq_mod _ 8).trans (Nat.mod_eq_of_lt (by omega))
      have hlow : UInt8.ofNat (payload.length &&& 0xFF) = UInt8.ofNat payload.length := by
        apply UInt8.toNat.inj
        rw [UInt8.toNat_ofNat', UInt8.toNat_ofNat']
        exact (congrArg (· % 256) (Nat.and_two_pow_sub_one_eq_mod payload.length 8)).trans (Nat.mod_mod _ _)
      rw [hhigh, hlow]
      rfl

/-- **The reader stays in step with a sequence of frames exactly if they are all readable**; what the writer sends is
always one frame. -/
theorem reader_in_step_iff (fs : List Frame) (rest : List UInt8) :
    InStep fs (fs.flatMap Frame.encode ++ rest) ∧ SendsOneFrame ↔ ∀ f ∈ fs, f.readable = true := by
  rw [and_iff_left sendsOneFrame, inStep_iff]

/-- A ping with the payload `a`, and a text frame: the first call leaves the `a` in the stream, where the second takes
it for the head of a frame. -/
theorem ping_payload_puts_reader_out_of_step :
    let ping : Frame := ⟨.ping, none, [0x61], by decide⟩
    let text : Frame := ⟨.text, none, [0x62], by decide⟩
    ¬ InStep [ping, text] (ping.encode ++ text.encode) := by
  rintro ping text ⟨hconsumed, -⟩
  exact absurd hconsumed (by decide)

end Fluxa.Websocket
