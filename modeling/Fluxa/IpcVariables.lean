import Fluxa.IpcServer
import Fluxa.Reload

/-! What OBSERVE and SET do to the variables of a running program. The server writes to the frame that is running,
while the frames of the callers wait in the calls: both requests address the variable if no call is active, and
not otherwise. -/

namespace Fluxa.Ipc

open Fluxa.Runtime

/-- What a suspended frame finds when the calls above it return at once. The callers are the states in which the
frames were left, the last one first. -/
def resume (rt : Runtime) (callers : List Runtime) : Runtime := callers.foldl leaveFrame rt

/-- A frame of the call chain, counted from the running one. -/
def frameAt (rt : Runtime) (callers : List Runtime) (k : ℕ) : Runtime := resume rt (callers.take k)

/-- A `prst` scalar of the top level, where it has the value `w`. A variable without a slot, which is one that the
full table of the resolver has no room for, has none in the pool either. -/
structure TopLevelScalar (rt : Runtime) (callers : List Runtime) (x : Ident) (e : PrstEntry) (ref : Ref) (w : Value) :
    Prop where
  entry : rt.poolFind x = some e
  scalar : e.declaredType = .int ∨ e.declaredType = .float ∨ e.declaredType = .bool
  pooled : e.value.type = e.declaredType
  held : w.type = e.declaredType
  top : (resume rt callers).AtTop
  slot : ∀ off ∈ ref.off, off < fluxaStackSize ∧ (resume rt callers).slotValue off = some w
  slotless : ref.off = none → e.stackOffset = none ∧ (resume rt callers).scope.get? x = some w

/-- The variable has got the value, for the frame of the top level as for the functions it calls next, which read it
from the table of the globals, and in the pool; and no other variable, parameter, local, field or pool entry has
changed. -/
structure SetsVariable (rt rt' : Runtime) (callers : List Runtime) (x : Ident) (ref : Ref) (v : Value) : Prop where
  read : (resume rt' callers).lookup ref x = some v
  called : rt'.globalTable.get? x = some v
  pooled : (rt'.poolFind x).map (·.value) = some v
  slots : ∀ k ≤ callers.length, ∀ i < (frameAt rt callers k).stackSize, ¬(k = callers.length ∧ ref.off = some i) →
    (frameAt rt' callers k).stack i = (frameAt rt callers k).stack i
  scopes : ∀ k ≤ callers.length, ∀ y ≠ x, (frameAt rt' callers k).scope.get? y = (frameAt rt callers k).scope.get? y
  globals : ∀ y ≠ x, rt'.globalTable.get? y = rt.globalTable.get? y
  pool : ∀ y ≠ x, rt'.poolFind y = rt.poolFind y
  heap : rt'.instances = rt.instances ∧ rt'.arrs = rt.arrs ∧ rt'.dyns = rt.dyns

/-- The packet as a request for the value of the variable it names. -/
def IpcRequest.observing (r : IpcRequest) : IpcRequest := { r with opcode := Opcode.observe.code }

/-- The packet as a request to give the variable a scalar value. -/
def IpcRequest.setting (r : IpcRequest) (v : Value) : IpcRequest :=
  let r := { r with opcode := Opcode.set.code }
  match v with
  | .int i => { r with typeTag := TypeTag.int.code, iVal := i }
  | .float d => { r with typeTag := TypeTag.float.code, fVal := d }
  | .bool b => { r with typeTag := TypeTag.bool.code, bVal := if b then 1 else 0 }
  | _ => { r with typeTag := TypeTag.nil.code }

/-- The scalar that a response brings. -/
def IpcResponse.value? (resp : IpcResponse) : Option Value :=
  match resp.typeTag with
  | some .int => some (.int resp.iVal)
  | some .float => some (.float resp.fVal)
  | some .bool => some (.bool (resp.bVal != 0))
  | _ => none

/-- OBSERVE and SET of the variable that the packet names, as steps of a process whose program runs. -/
structure Addresses (host : Host) (p : Process) (live : Live) (callers : List Runtime) (r : IpcRequest)
    (t : ValType) (ref : Ref) (w : Value) : Prop where
  observes : ∃ resp, answer host p r.observing = ([resp], p) ∧ resp.status = .ok ∧ resp.value? = some w
  sets : ∀ v, v.type = t → ∃ live', (answer host p (r.setting v)).2.live = some live' ∧
    SetsVariable live.rt live'.rt callers r.varName ref v

section Requests

variable {host : Host} {p : Process} {live : Live} {r : IpcRequest}

@[simp] theorem varName_setting (r : IpcRequest) (v : Value) : (r.setting v).varName = r.varName := by
  cases v <;> rfl

@[simp] theorem opcode_setting (r : IpcRequest) (v : Value) : (r.setting v).opcode = Opcode.set.code := by
  cases v <;> rfl

theorem value_setting {v : Value} (hv : v.type = .int ∨ v.type = .float ∨ v.type = .bool) :
    ¬((r.setting v).typeTag = 0 ∨ TypeTag.str.code < (r.setting v).typeTag) ∧ (r.setting v).value? = some v := by
  cases v with
  | int x | float x => exact ⟨by simp [IpcRequest.setting]; decide, rfl⟩
  | bool b => exact ⟨by simp [IpcRequest.setting]; decide, by cases b <;> rfl⟩
  | _ => simp [Value.type] at hv

/-- A SET is applied if the snapshot has the variable with the type of the value, and does nothing otherwise. -/
theorem answer_setting {v : Value} (hlive : p.live = some live)
    (hv : v.type = .int ∨ v.type = .float ∨ v.type = .bool) :
    (answer host p (r.setting v)).2 =
      if p.view.ready = true ∧ (poolGet p.view.prstSnapshot r.varName).map (·.type) = some v.type then
        { p with live := some { live with rt := setLive live.rt r.varName v }, pending := none }
      else p := by
  obtain ⟨htag, hvalue⟩ := value_setting (r := r) hv
  have hop : Opcode.ofCode? (r.setting v).opcode = some .set := by rw [opcode_setting]; rfl
  simp only [answer, hop]
  cases hready : p.view.ready with
  | false => simp
  | true =>
    simp only [Bool.not_true, Bool.false_eq_true, if_false, true_and, answerSet, if_neg htag, varName_setting, hvalue, hlive]
    cases hsnap : poolGet p.view.prstSnapshot r.varName with
    | none => simp
    | some existing =>
      simp only [Option.map_some, Option.some.injEq, eq_comm (a := v.type)]
      split <;> rfl

theorem answer_observing {u : Value} (hlive : p.live = some live) (hu : observeLive live.rt r.varName = some u)
    (hscalar : u.type = .int ∨ u.type = .float ∨ u.type = .bool) :
    ∃ resp, answer host p r.observing = ([resp], p) ∧
      (resp.status = .ok ↔ p.view.ready = true) ∧ (p.view.ready = true → resp.value? = some u) := by
  have hop : Opcode.ofCode? r.observing.opcode = some .observe := rfl
  have hobs : observe p r.observing.varName = some u := by
    simp only [observe, hlive]
    exact hu
  simp only [answer, hop]
  cases hready : p.view.ready with
  | false => exact ⟨_, rfl, by simp [reply, IpcResponse.blank], nofun⟩
  | true =>
    refine ⟨_, rfl, ?_⟩
    unfold answerObserve
    rw [hobs]
    cases u with
    | int x | float x => exact ⟨by simp [reply, IpcResponse.blank], fun _ => rfl⟩
    | bool b => exact ⟨by simp [reply, IpcResponse.blank], fun _ => by cases b <;> rfl⟩
    | _ => simp [Value.type] at hscalar

end Requests

section SetLive

variable {rt : Runtime} {x : Ident} {e : PrstEntry} {v : Value}

@[simp] theorem poolFind_writeSlot (rt : Runtime) (x y : Ident) (v : Value) :
    (writeSlot rt x v).poolFind y = rt.poolFind y := by
  unfold writeSlot
  split
  · split <;> rfl
  · rfl

theorem writeSlot_eq (he : rt.poolFind x = some e) :
    ∃ size, rt.stackSize ≤ size ∧ writeSlot rt x v = { rt with
      stack := fun i => if e.stackOffset = some i ∧ i < fluxaStackSize then v else rt.stack i
      stackSize := size } := by
  unfold writeSlot
  rw [he, Option.bind_some]
  cases hoff : e.stackOffset with
  | none => exact ⟨rt.stackSize, Nat.le_refl _, by simp⟩
  | some off =>
    dsimp only
    split
    · next hlt =>
      refine ⟨max rt.stackSize (off + 1), le_max_left _ _, ?_⟩
      congr 1
      funext i
      by_cases hi : off = i
      · subst hi
        simp [hlt]
      · rw [Function.update_of_ne (Ne.symm hi), if_neg (by simp [hi])]
    · next hlt =>
      have hstack : (fun i => if some off = some i ∧ i < fluxaStackSize then v else rt.stack i) = rt.stack := by
        funext i
        rw [if_neg]
        rintro ⟨hi, hi'⟩
        exact hlt (Option.some.inj hi ▸ hi')
      exact ⟨rt.stackSize, Nat.le_refl _, by rw [hstack]⟩

/-- The four writes of SET to a variable that the pool has, with a value of its type. -/
theorem setLive_eq (he : rt.poolFind x = some e) (hv : v.type = e.declaredType) :
    ∃ size, rt.stackSize ≤ size ∧ setLive rt x v =
      { rt.poolUpdate x fun e => { e with value := v } with
        stack := fun i => if e.stackOffset = some i ∧ i < fluxaStackSize then v else rt.stack i
        stackSize := size
        scope := rt.scope.set x v
        globalTable := rt.globalTable.set x v } := by
  obtain ⟨size, hsize, hwrite⟩ := writeSlot_eq (v := v) he
  have hpool : poolSetQuiet (writeSlot rt x v) x v = (writeSlot rt x v).poolUpdate x fun e => { e with value := v } := by
    rw [poolSetQuiet, poolFind_writeSlot, he]
    exact if_neg (by simp [hv])
  refine ⟨size, hsize, ?_⟩
  rw [setLive, hpool, hwrite]
  rfl

end SetLive

section Frames

variable {rt : Runtime} {callers : List Runtime}

theorem slotValue_eq_some {off : ℕ} {w : Value} :
    rt.slotValue off = some w ↔ off < rt.stackSize ∧ rt.stack off = w ∧ w ≠ .nil := by
  unfold slotValue
  split
  · next h => simpa [h.1] using fun hw : rt.stack off = w => hw ▸ (by simpa using h.2)
  · next h =>
    refine iff_of_false (by simp) ?_
    rintro ⟨hlt, rfl, hnil⟩
    exact h ⟨hlt, by simpa using hnil⟩

/-- A caller finds its place, its table and its own slots as it left them, whatever the calls did. -/
theorem resume_caller (rt' : Runtime) (hne : callers ≠ []) :
    ((resume rt callers).AtTop → (resume rt' callers).AtTop) ∧
      (resume rt' callers).scope = (resume rt callers).scope ∧
      ∀ off < fluxaStackSize, (resume rt' callers).slotValue off = (resume rt callers).slotValue off := by
  obtain ⟨inner, top, rfl⟩ := (List.eq_nil_or_concat' callers).resolve_left hne
  simp only [resume, List.foldl_append, List.foldl_cons, List.foldl_nil]
  refine ⟨fun h => ⟨h.depth, h.running⟩, rfl, fun off hoff => ?_⟩
  by_cases hsize : off < top.stackSize
  · have hown : off < min top.stackSize fluxaStackSize := lt_min hsize hoff
    simp only [slotValue, leaveFrame, if_pos hown]
  · simp [slotValue, leaveFrame, hsize]

theorem exists_other {t : ValType} (ht : t = .int ∨ t = .float ∨ t = .bool) (w : Value) :
    ∃ v : Value, v.type = t ∧ v ≠ w := by
  rcases ht with rfl | rfl | rfl
  · by_cases h : w = .int 0
    · exact ⟨.int 1, rfl, by rw [h]; simp⟩
    · exact ⟨.int 0, rfl, Ne.symm h⟩
  · by_cases h : w = .float (.ofInt 0)
    · exact ⟨.float (.ofInt 1), rfl, by rw [h, ne_eq, Value.float.injEq]; decide⟩
    · exact ⟨.float (.ofInt 0), rfl, Ne.symm h⟩
  · by_cases h : w = .bool true
    · exact ⟨.bool false, rfl, by rw [h]; simp⟩
    · exact ⟨.bool true, rfl, Ne.symm h⟩

end Frames

section Addressed

variable {rt : Runtime} {callers : List Runtime} {x : Ident} {e : PrstEntry} {ref : Ref} {w : Value}

theorem lookup_of_slot {off : ℕ} (htop : rt.AtTop) (hoff : ref.off = some off) (h : rt.slotValue off = some w) :
    rt.lookup ref x = some w := by
  rw [htop.lookup, hoff, Option.bind_some, h, Option.some_or]

theorem lookup_of_scope (htop : rt.AtTop) (hoff : ref.off = none) (h : rt.scope.get? x = some w) :
    rt.lookup ref x = some w := by
  rw [htop.lookup, hoff, Option.bind_none, Option.none_or, h]

namespace TopLevelScalar

theorem read (h : TopLevelScalar rt callers x e ref w) : (resume rt callers).lookup ref x = some w := by
  cases hoff : ref.off with
  | some off => exact lookup_of_slot h.top hoff (h.slot off hoff).2
  | none => exact lookup_of_scope h.top hoff (h.slotless hoff).2

theorem value_scalar (h : TopLevelScalar rt callers x e ref w) {v : Value} (hv : v.type = e.declaredType) :
    v.type = .int ∨ v.type = .float ∨ v.type = .bool := by
  rw [hv]
  exact h.scalar

theorem ne_nil (h : TopLevelScalar rt callers x e ref w) {v : Value} (hv : v.type = e.declaredType) : v ≠ .nil := by
  rintro rfl
  rcases h.value_scalar hv with ht | ht | ht <;> cases ht

theorem observed (h : TopLevelScalar rt callers x e ref w) :
    ∃ u, observeLive rt x = some u ∧ u.type = e.declaredType ∧ (e.stackOffset = none → u = e.value) := by
  simp only [observeLive, h.entry]
  split
  · next off hoff =>
    split
    · next hin => exact ⟨_, rfl, hin.2.trans h.pooled, by simp [hoff]⟩
    · exact ⟨_, rfl, h.pooled, fun _ => rfl⟩
  · exact ⟨_, rfl, h.pooled, fun _ => rfl⟩

theorem observeLive_top (h : TopLevelScalar rt [] x e ref w) (hoff : e.stackOffset = ref.off)
    (hpool : ref.off = none → e.value = w) : observeLive rt x = some w := by
  simp only [observeLive, h.entry, hoff]
  cases href : ref.off with
  | some off =>
    obtain ⟨hlt, hslot⟩ := h.slot off href
    obtain ⟨-, hheld, -⟩ := slotValue_eq_some.mp hslot
    change rt.stack off = w at hheld
    exact (if_pos ⟨hlt, by rw [hheld, h.held, h.pooled]⟩).trans (congrArg some hheld)
  | none => exact congrArg some (hpool href)

/-- Unless no call is active and the slot is the recorded one, the write is lost on the variable. -/
theorem read_setLive (h : TopLevelScalar rt callers x e ref w) {v : Value} (hv : v.type = e.declaredType)
    (hout : ¬(callers = [] ∧ e.stackOffset = ref.off)) : (resume (setLive rt x v) callers).lookup ref x = some w := by
  by_cases hne : callers = []
  · subst hne
    obtain ⟨size, hsize, hset⟩ := setLive_eq h.entry hv
    have htop : (setLive rt x v).AtTop := by
      rw [hset]
      exact ⟨h.top.depth, h.top.running⟩
    cases hoff : ref.off with
    | none => exact absurd ⟨rfl, (h.slotless hoff).1.trans hoff.symm⟩ hout
    | some off =>
      refine lookup_of_slot htop hoff ?_
      obtain ⟨hin, hheld, hnil⟩ := slotValue_eq_some.mp (h.slot off hoff).2
      have hkept : (setLive rt x v).stack off = rt.stack off := by
        rw [hset]
        exact if_neg fun h' => hout ⟨rfl, h'.1.trans hoff.symm⟩
      exact slotValue_eq_some.mpr ⟨by rw [hset]; exact Nat.lt_of_lt_of_le hin hsize, hkept.trans hheld, hnil⟩
  · obtain ⟨htop, hscope, hslots⟩ := @resume_caller rt _ (setLive rt x v) hne
    cases hoff : ref.off with
    | some off =>
      obtain ⟨hlt, hheld⟩ := h.slot off hoff
      exact lookup_of_slot (htop h.top) hoff (by rw [hslots off hlt]; exact hheld)
    | none => exact lookup_of_scope (htop h.top) hoff (by rw [hscope]; exact (h.slotless hoff).2)

theorem setsVariable (h : TopLevelScalar rt [] x e ref w) (hoff : e.stackOffset = ref.off) {v : Value}
    (hv : v.type = e.declaredType) : SetsVariable rt (setLive rt x v) [] x ref v := by
  obtain ⟨size, hsize, hset⟩ := setLive_eq h.entry hv
  have hnil := h.ne_nil hv
  have htop : (setLive rt x v).AtTop := by
    rw [hset]
    exact ⟨h.top.depth, h.top.running⟩
  have hframe (rt : Runtime) (k : ℕ) : frameAt rt [] k = rt := by simp [frameAt, resume]
  refine ⟨?_, by rw [hset]; exact Table.get?_set_self _ _ _, ?_, fun k hk i hi hne => ?_, fun k _ y hy => ?_,
    fun y hy => ?_, fun y hy => ?_, by rw [hset]; exact ⟨rfl, rfl, rfl⟩⟩
  · show (setLive rt x v).lookup ref x = some v
    cases href : ref.off with
    | some off =>
      refine lookup_of_slot htop href ?_
      obtain ⟨hlt, hslot⟩ := h.slot off href
      have hin : off < rt.stackSize := (slotValue_eq_some.mp hslot).1
      have hwritten : (setLive rt x v).stack off = v := by
        rw [hset]
        exact if_pos ⟨hoff.trans href, hlt⟩
      exact slotValue_eq_some.mpr ⟨by rw [hset]; exact Nat.lt_of_lt_of_le hin hsize, hwritten, hnil⟩
    | none => exact lookup_of_scope htop href (by rw [hset]; exact Table.get?_set_self _ _ _)
  · rw [hset]
    have hfind : (rt.poolUpdate x fun e => { e with value := v }).poolFind x = _ := poolFind_poolUpdate (by intro e; rfl)
    rw [if_pos rfl, h.entry] at hfind
    exact congrArg (Option.map (·.value)) hfind
  · simp only [hframe] at hi ⊢
    rw [hset]
    exact if_neg fun hi' => hne ⟨Nat.le_zero.mp hk, hoff ▸ hi'.1⟩
  · simp only [hframe]
    rw [hset]
    exact Table.get?_set_of_ne _ _ hy
  · rw [hset]
    exact Table.get?_set_of_ne _ _ hy
  · rw [hset]
    exact (poolFind_poolUpdate (by intro e; rfl)).trans (if_neg hy)

end TopLevelScalar

/-- OBSERVE and SET address the variable in exactly the states in which no call is active, the pool has the slot by
which the top level names it, or its value if it has no slot, and the snapshot of the last safe point has it with
its type. -/
theorem addresses_iff (host : Host) (p : Process) (live : Live) (callers : List Runtime) (r : IpcRequest)
    (e : PrstEntry) (ref : Ref) (w : Value) (hlive : p.live = some live)
    (h : TopLevelScalar live.rt callers r.varName e ref w) :
    Addresses host p live callers r e.declaredType ref w ↔
      (callers = [] ∧ e.stackOffset = ref.off ∧ (ref.off = none → e.value = w)) ∧
      p.view.ready = true ∧ (poolGet p.view.prstSnapshot r.varName).map (·.type) = some e.declaredType := by
  obtain ⟨u, hu, htype, hvalue⟩ := h.observed
  obtain ⟨resp, hresp, hok, hbrings⟩ := @answer_observing host _ _ _ _ hlive hu (h.value_scalar htype)
  constructor
  · rintro ⟨⟨resp', hresp', hok', hbrings'⟩, hsets⟩
    obtain rfl : resp = resp' := by simpa [hresp] using hresp'
    have hready := hok.mp hok'
    obtain ⟨v, hv, hne⟩ := exists_other h.scalar w
    obtain ⟨live', hlive', hset⟩ := hsets v hv
    rw [answer_setting hlive (h.value_scalar hv)] at hlive'
    split at hlive'
    · next hsnap =>
      cases hlive'
      have hin : callers = [] ∧ e.stackOffset = ref.off := by
        by_contra hout
        exact hne (Option.some.inj (hset.read.symm.trans (h.read_setLive hv hout)))
      refine ⟨⟨hin.1, hin.2, fun hoff => ?_⟩, hready, hv ▸ hsnap.2⟩
      rw [← hvalue (h.slotless hoff).1]
      exact Option.some.inj ((hbrings hready).symm.trans hbrings')
    · rw [hlive] at hlive'
      cases hlive'
      exact absurd (Option.some.inj (hset.read.symm.trans h.read)) hne
  · rintro ⟨⟨rfl, hoff, hpool⟩, hready, hsnap⟩
    refine ⟨⟨resp, hresp, hok.mpr hready, ?_⟩, fun v hv => ?_⟩
    · rw [hbrings hready, ← hu]
      exact h.observeLive_top hoff hpool
    · rw [answer_setting hlive (h.value_scalar hv), if_pos ⟨hready, by rw [hsnap, hv]⟩]
      exact ⟨_, rfl, h.setsVariable hoff hv⟩

section Call

/-- `prst int a = 5` has run. -/
def declared : Runtime := (start .project []).declarePrst .int ⟨some 0, false⟩ "a" (.int 5)

/-- The entry of `a`. -/
def entryA : PrstEntry := ⟨"a", .int, .int 5, .int 5, some 0⟩

/-- A call of `fn f(int b) nil` with the argument 7 has started. -/
def calling : Runtime :=
  (declared.enterFrame none true).startBody ⟨0, "f", [("b", ⟨.int, false⟩)], .nil, []⟩ [.int 7] declared.stackSize

/-- A packet that names `a`. -/
def naming : IpcRequest := ⟨ipcMagic, ipcVersion, 0, 1, 97 :: List.replicate 63 0, rfl, 0, .ofInt 0, 0, 0⟩

/-- What the server sees of the process, with the snapshot of the safe point after the declaration. -/
def running (rt : Runtime) : Process :=
  ⟨1, ⟨true, 1, 1, 0, .project, false, declared.prstPool, [], []⟩, some ⟨rt, 1, []⟩, none⟩

theorem topLevelScalar_declared : TopLevelScalar declared [] naming.varName entryA ⟨some 0, false⟩ (.int 5) where
  entry := rfl
  scalar := .inl rfl
  pooled := rfl
  held := rfl
  top := ⟨rfl, rfl⟩
  slot := by rintro _ ⟨⟩; exact ⟨by decide, rfl⟩
  slotless := nofun

theorem topLevelScalar_calling : TopLevelScalar calling [declared] naming.varName entryA ⟨some 0, false⟩ (.int 5) where
  entry := rfl
  scalar := .inl rfl
  pooled := rfl
  held := rfl
  top := ⟨rfl, rfl⟩
  slot := by rintro _ ⟨⟩; exact ⟨by decide, rfl⟩
  slotless := nofun

/-- At the top level the variable is addressed. -/
theorem declared_addressed :
    Addresses bareHost (running declared) ⟨declared, 1, []⟩ [] naming .int ⟨some 0, false⟩ (.int 5) :=
  (addresses_iff bareHost (running declared) ⟨declared, 1, []⟩ [] naming entryA ⟨some 0, false⟩ (.int 5) rfl
    topLevelScalar_declared).mpr ⟨⟨rfl, rfl, nofun⟩, rfl, rfl⟩

/-- During the call OBSERVE answers with the parameter, and SET changes the parameter and not the variable. -/
theorem parameter_addressed :
    TopLevelScalar calling [declared] naming.varName entryA ⟨some 0, false⟩ (.int 5) ∧
    (answer bareHost (running calling) naming.observing).1.map (·.value?) = [some (.int 7)] ∧
    ∃ live', (answer bareHost (running calling) (naming.setting (.int 9))).2.live = some live' ∧
      live'.rt.lookup ⟨some 0, true⟩ "b" = some (.int 9) ∧
      (resume live'.rt [declared]).lookup ⟨some 0, false⟩ "a" = some (.int 5) :=
  ⟨topLevelScalar_calling, rfl, _, rfl, rfl, rfl⟩

end Call

end Addressed

end Fluxa.Ipc
