import Fluxa.Runtime

/-! The IPC requests of `ipc_server.c`: what `dispatch` answers to a request it has read, and what the request
does to the process. A request is served as one step; the locks are left out. The bytes of a name are taken as
its characters. What is written to `stderr`, and the file that UPDATE writes, are left out. -/

namespace Fluxa.Ipc

open Binary64 (Double)

def ipcMagic : UInt16 := 0xF10A

def ipcVersion : UInt8 := 1

inductive Opcode where
  | ping | observe | set | logs | status | explain | update
  deriving DecidableEq

def Opcode.code : Opcode → UInt8
  | ping => 1 | observe => 2 | set => 3 | logs => 4 | status => 5 | explain => 6 | update => 7

def Opcode.ofCode? (c : UInt8) : Option Opcode :=
  [ping, observe, set, logs, status, explain, update].find? (·.code = c)

inductive TypeTag where
  | int | float | bool | str | nil
  deriving DecidableEq

def TypeTag.code : TypeTag → UInt8
  | int => 1 | float => 2 | bool => 3 | str => 4 | nil => 5

inductive Status where
  | ok | errUnknown | errNotFound | errType | errAuth | errMagic | explainVar | explainDone
  deriving DecidableEq

structure IpcRequest where
  magic : UInt16
  version : UInt8
  opcode : UInt8
  seq : UInt32
  name : List UInt8
  width : name.length = 64
  iVal : Int64
  fVal : Double
  typeTag : UInt8
  bVal : UInt8

namespace IpcRequest

/-- `ipc_request_valid`. -/
def valid (r : IpcRequest) : Bool := r.magic == ipcMagic && r.version == ipcVersion && r.name.contains 0

/-- The name up to its terminator. -/
def varName (r : IpcRequest) : Ident :=
  String.ofList ((r.name.takeWhile (· != 0)).map fun b => Char.ofNat b.toNat)

end IpcRequest

structure IpcResponse where
  magic : UInt16
  version : UInt8
  status : Status
  seq : UInt32
  name : Ident
  iVal : Int64
  fVal : Double
  typeTag : Option TypeTag
  bVal : UInt8
  message : String
  cycleCount : ℤ
  prstCount : ℤ
  errCount : ℤ
  mode : Mode
  dryRun : Bool

/-- A response after `memset`, with a status. -/
def IpcResponse.blank (status : Status) : IpcResponse where
  magic := ipcMagic
  version := 0
  status := status
  seq := 0
  name := ""
  iVal := 0
  fVal := .ofInt 0
  typeTag := none
  bVal := 0
  message := ""
  cycleCount := 0
  prstCount := 0
  errCount := 0
  mode := .script
  dryRun := false

structure PrstDep where
  prstName : Ident
  readerCtx : Ident

/-- What the server sees of the running runtime. -/
structure Live where
  rt : Runtime
  cycleCount : ℤ
  prstGraph : List PrstDep

/-- The snapshot of the last safe point. -/
structure IpcRtView where
  ready : Bool
  cycleCount : ℤ
  prstCount : ℤ
  errCount : ℤ
  mode : Mode
  dryRun : Bool
  prstSnapshot : List PrstEntry
  prstGraphSnapshot : List PrstDep
  errSnapshot : List ErrEntry

/-- A SET that waits for the next safe point. -/
structure PendingSet where
  name : Ident
  value : Value

/-- `live` is `none` between two runs. -/
structure Process where
  pid : ℤ
  view : IpcRtView
  live : Option Live
  pending : Option PendingSet

/-- What the answers need from outside: the text of a float and the line of an error, and for UPDATE the files and
whether the build asks for signatures. -/
structure Host where
  formatG : Double → String
  errLine : ErrEntry → ℤ
  isExecutable : String → Bool
  wantsSignature : Bool
  hasSignature : String → Bool
  serializes : Runtime → Bool
  writesSnapshot : Bool

section Texts

/-- What `snprintf` keeps of a text. -/
def cut (n : ℕ) (s : String) : String := String.ofList (s.toList.take n)

def hexDigit (n : ℕ) : Char := "0123456789abcdef".toList.getD n '0'

/-- `%02x` -/
def hex (b : UInt8) : String := String.ofList [hexDigit (b.toNat / 16), hexDigit (b.toNat % 16)]

end Texts

section Variables

/-- `prst_pool_get`. -/
def poolGet (pool : List PrstEntry) (name : Ident) : Option Value := (pool.find? (·.name == name)).map (·.value)

/-- The value OBSERVE answers with, from the live runtime: the slot recorded for the variable, if what it holds
has the type of the pool's value. -/
def observeLive (rt : Runtime) (name : Ident) : Option Value :=
  match rt.poolFind name with
  | none => none
  | some e =>
    match e.stackOffset with
    | some off =>
      if off < fluxaStackSize ∧ (rt.stack off).type = e.value.type then some (rt.stack off) else some e.value
    | none => some e.value

def observe (p : Process) (name : Ident) : Option Value :=
  match p.live with
  | some l => observeLive l.rt name
  | none => poolGet p.view.prstSnapshot name

/-- `prst_pool_set` without an error stack. -/
def poolSetQuiet (rt : Runtime) (name : Ident) (v : Value) : Runtime :=
  match rt.poolFind name with
  | some e => if e.declaredType ≠ v.type then rt else rt.poolUpdate name fun e => { e with value := v }
  | none => { rt with prstPool := rt.prstPool ++ [⟨name, v.type, v, v, none⟩] }

/-- The direct write of SET into the slot recorded for the variable. -/
def writeSlot (rt : Runtime) (name : Ident) (v : Value) : Runtime :=
  match (rt.poolFind name).bind (·.stackOffset) with
  | some off =>
    if off < fluxaStackSize then
      { rt with stack := Function.update rt.stack off v, stackSize := max rt.stackSize (off + 1) }
    else rt
  | none => rt

/-- What SET does to the live runtime: slot, pool, frame table and global table. -/
def setLive (rt : Runtime) (name : Ident) (v : Value) : Runtime :=
  let rt := poolSetQuiet (writeSlot rt name v) name v
  { rt with scope := rt.scope.set name v, globalTable := rt.globalTable.set name v }

/-- The value of a SET request; no other tag passes the check of the type. -/
def IpcRequest.value? (r : IpcRequest) : Option Value :=
  if r.typeTag = TypeTag.int.code then some (.int r.iVal)
  else if r.typeTag = TypeTag.float.code then some (.float r.fVal)
  else if r.typeTag = TypeTag.bool.code then some (.bool (r.bVal != 0))
  else none

end Variables

section Dispatch

variable (host : Host) (p : Process) (r : IpcRequest)

/-- The response to a valid request, with its number and its name. -/
def reply (status : Status) (message : String) : IpcResponse :=
  { IpcResponse.blank status with version := ipcVersion, seq := r.seq, name := r.varName, message := cut 127 message }

def boolText (b : Bool) : String := if b then "true" else "false"

def answerObserve : IpcResponse :=
  match observe p r.varName with
  | none => reply r .errNotFound ("prst var not found: " ++ cut 60 r.varName)
  | some (.int i) =>
    { reply r .ok (r.varName ++ " = " ++ toString i.toInt) with typeTag := some .int, iVal := i }
  | some (.float d) => { reply r .ok (r.varName ++ " = " ++ host.formatG d) with typeTag := some .float, fVal := d }
  | some (.bool b) =>
    { reply r .ok (r.varName ++ " = " ++ boolText b) with typeTag := some .bool, bVal := if b then 1 else 0 }
  | some _ => { reply r .ok (r.varName ++ " = nil") with typeTag := some .nil }

/-- SET is checked against the snapshot and applied to the live runtime. -/
def answerSet : IpcResponse × Process :=
  if r.typeTag = 0 ∨ TypeTag.str.code < r.typeTag then
    (reply r .errType ("invalid type tag: " ++ toString r.typeTag.toNat), p)
  else
    match poolGet p.view.prstSnapshot r.varName with
    | none => (reply r .errNotFound ("prst var not found: " ++ cut 60 r.varName), p)
    | some existing =>
      match r.value? with
      | some v =>
        if v.type = existing.type then
          match p.live with
          | some l =>
            (reply r .ok ("applied: " ++ cut 60 r.varName),
             { p with live := some { l with rt := setLive l.rt r.varName v }, pending := none })
          | none =>
            (reply r .ok ("queued: " ++ cut 60 r.varName ++ " (applied at next safe point)"),
             { p with pending := some ⟨r.varName, v⟩ })
        else (mismatch existing, p)
      | none => (mismatch existing, p)
where
  mismatch (existing : Value) : IpcResponse :=
    reply r .errType ("type mismatch for " ++ cut 60 r.varName ++ " (existing type=" ++
      toString existing.type.index ++ ", requested=" ++ toString r.typeTag.toNat ++ ")")

def kindText : ErrKind → String
  | .fluxa => "ERR_FLUXA"
  | .cFfi => "ERR_C_FFI"
  | .reload => "ERR_RELOAD"

def answerLogs : IpcResponse :=
  match p.view.errSnapshot with
  | [] => reply r .ok "(no errors)"
  | e :: rest =>
    { reply r .ok ("[" ++ kindText e.kind ++ "] " ++ e.error.message ++ " (line " ++ toString (host.errLine e) ++ ")") with
      errCount := (e :: rest).length }

def answerStatus : IpcResponse :=
  { reply r .ok ("cycle=" ++ toString p.view.cycleCount ++ " prst=" ++ toString p.view.prstCount ++ " errs=" ++
      toString p.view.errCount ++ " mode=" ++ if p.view.mode = .project then "project" else "script") with
    cycleCount := p.view.cycleCount
    prstCount := p.view.prstCount
    errCount := p.view.errCount
    mode := p.view.mode
    dryRun := p.view.dryRun }

/-- The value EXPLAIN shows of an entry of the live pool: its slot, if that lies in the frame and holds something. -/
def explainValue (rt : Runtime) (e : PrstEntry) : Value := ((e.stackOffset.bind rt.slotValue)).getD e.value

def explainVar (name : Ident) (v : Value) : IpcResponse :=
  let packet (tag : TypeTag) (text : String) : IpcResponse :=
    { IpcResponse.blank .explainVar with
      version := ipcVersion, seq := r.seq, name := cut 63 name, typeTag := some tag
      message := cut 127 (cut 50 name ++ text) }
  match v with
  | .int i => { packet .int ("  int  = " ++ toString i.toInt) with iVal := i }
  | .float d => { packet .float ("  float  = " ++ host.formatG d) with fVal := d }
  | .bool b => { packet .bool ("  bool  = " ++ boolText b) with bVal := if b then 1 else 0 }
  | .str s => packet .str ("  str  = \"" ++ cut 50 s ++ "\"")
  | _ => packet .nil "  nil"

def depsText (deps : List PrstDep) : String :=
  if deps.isEmpty then "none — state is consistent with the code"
  else cut 126 (String.intercalate ", " (deps.map fun d => d.prstName ++ " <- " ++ d.readerCtx))

def explainDone (cycleCount prstCount errCount : ℤ) (mode : Mode) (dryRun : Bool) (deps : List PrstDep) : IpcResponse :=
  { IpcResponse.blank .explainDone with
    version := ipcVersion, seq := r.seq, message := depsText deps
    cycleCount := cycleCount, prstCount := prstCount, errCount := errCount, mode := mode, dryRun := dryRun }

/-- One packet for each variable, and a last one. -/
def answerExplain : List IpcResponse :=
  match p.live with
  | some l =>
    (l.rt.prstPool.map fun e => explainVar host r e.name (explainValue l.rt e)) ++
      [explainDone r l.cycleCount l.rt.prstPool.length l.rt.errStack.length l.rt.mode l.rt.dryRun l.prstGraph]
  | none =>
    (p.view.prstSnapshot.map fun e => explainVar host r e.name e.value) ++
      [explainDone r p.view.cycleCount p.view.prstSnapshot.length p.view.errCount p.view.mode p.view.dryRun
        p.view.prstGraphSnapshot]

/-- Whether a text has two dots in a row. -/
def hasDotDot : List Char → Bool
  | '.' :: '.' :: _ => true
  | _ :: rest => hasDotDot rest
  | [] => false

/-- UPDATE up to the `execve`. The connection's user has been checked before. -/
def answerUpdate : IpcResponse :=
  let path := cut 63 r.varName
  if path = "" then reply r .errUnknown "update: invalid request"
  else if path.toList.head? ≠ some '/' ∨ hasDotDot path.toList then reply r .errUnknown "update: invalid binary path"
  else if !host.isExecutable path then reply r .errUnknown "update: binary validation failed"
  else
    match p.live with
    | none => reply r .errUnknown "update: runtime not ready"
    | some l =>
      if l.rt.callDepth ≠ 0 ∨ l.rt.dangerDepth ≠ 0 then reply r .errUnknown "update: not at safe point — retry"
      else if host.wantsSignature ∧ !host.hasSignature path then
        reply r .errUnknown "update: signature verification failed"
      else if !host.serializes l.rt then reply r .errUnknown "update: prst pool serialization failed"
      else if !host.writesSnapshot then reply r .errUnknown "update: snapshot write failed"
      else reply r .ok "update: executing new binary, snapshot written"

/-- `dispatch` from the point where a valid request has been read: the packets that are sent, and the process. -/
def answer : List IpcResponse × Process :=
  match Opcode.ofCode? r.opcode with
  | some .ping => ([reply r .ok ("pong pid=" ++ toString p.pid)], p)
  | op =>
    if !p.view.ready then ([reply r .errUnknown "runtime not ready yet"], p)
    else
      match op with
      | some .observe => ([answerObserve host p r], p)
      | some .set => ([(answerSet p r).1], (answerSet p r).2)
      | some .logs => ([answerLogs host p r], p)
      | some .status => ([answerStatus p r], p)
      | some .explain => (answerExplain host p r, p)
      | some .update => ([answerUpdate host p r], p)
      | _ => ([reply r .errUnknown ("unknown opcode: 0x" ++ hex r.opcode)], p)

end Dispatch

end Fluxa.Ipc
