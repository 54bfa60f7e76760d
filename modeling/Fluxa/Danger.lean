import Fluxa.Fixed

/-! Errors inside `danger`. A block captures what is raised in its extent as long as no other block is entered there:
the depth is a flag, which the end of an inner block takes back, and the start of one empties the error stack. Some
errors are reported past the flag. -/

namespace Fluxa

open Machine

section Reports

/-- `errstack_push` of several entries, the last one of the list first. -/
def pushAll (new st : List ErrEntry) : List ErrEntry := new.foldr (fun e st => (e :: st).take errStackCap) st

theorem pushAll_append (new new' st : List ErrEntry) : pushAll (new ++ new') st = pushAll new (pushAll new' st) :=
  List.foldr_append

namespace Runtime

/-- The error stack has got the entries. -/
def Logs (new : List ErrEntry) (rt rt' : Runtime) : Prop := rt'.errStack = pushAll new rt.errStack

/-- Entries may have come to the error stack, but `had_error` is as it was. -/
structure Unbroken (rt rt' : Runtime) : Prop where
  flag : rt'.hadError = rt.hadError
  logs : ∃ new, Logs new rt rt'

def errs (rt : Runtime) : Bool × List ErrEntry := (rt.hadError, rt.errStack)

variable {rt rt' rt'' : Runtime}

theorem Unbroken.of_errs (h : rt'.errs = rt.errs) : Unbroken rt rt' :=
  ⟨congrArg Prod.fst h, [], congrArg Prod.snd h⟩

theorem Unbroken.refl (rt : Runtime) : Unbroken rt rt := .of_errs rfl

theorem Unbroken.trans (h : Unbroken rt rt') (h' : Unbroken rt' rt'') : Unbroken rt rt'' := by
  obtain ⟨new, hnew⟩ := h.logs
  obtain ⟨new', hnew'⟩ := h'.logs
  refine ⟨h'.flag.trans h.flag, new' ++ new, ?_⟩
  unfold Logs at hnew hnew' ⊢
  rw [hnew', hnew, pushAll_append]

variable (rt) (ref : Ref) (name : Ident) (v : Value)

@[simp] theorem errs_set : (rt.set ref name v).errs = rt.errs := by
  unfold set
  split
  · rfl
  · split <;> rfl

@[simp] theorem errs_cloneValue : (rt.cloneValue v).2.errs = rt.errs := by
  obtain ⟨more, h⟩ := rt.cloneValue_arrs v
  rw [h]
  rfl

@[simp] theorem errs_cloneInstance (i : ℕ) : (rt.cloneInstance i).errs = rt.errs := by
  rcases rt.cloneInstance_spec i with h | ⟨b, copies, fields, -, h, -, -⟩
  · rw [h]
  · rw [h]
    rfl

@[simp] theorem errs_adopt : (rt.adopt v).2.errs = rt.errs := by
  unfold adopt
  split
  · split <;> rfl
  · split <;> simp
  · rfl

theorem errs_declareFunc (fn : FuncDecl) : (rt.declareFunc fn).errs = rt.errs := by
  unfold declareFunc
  dsimp only
  split <;> rfl

theorem errs_declareArr (data : List Value) : (rt.declareArr name data).errs = rt.errs := by
  unfold declareArr
  dsimp only
  split <;> rfl

theorem errs_storeElem (a idx : ℕ) : (rt.storeElem name a idx v).errs = rt.errs := by
  unfold storeElem
  dsimp only
  split
  · split <;> rfl
  · rfl

theorem unbroken_poolSet : Unbroken rt (rt.poolSet name v).1 := by
  unfold poolSet
  split
  · split
    · exact ⟨rfl, [_], rfl⟩
    · exact .of_errs (errs_cloneValue rt v)
  · exact .of_errs ((errs_cloneValue _ v).trans (errs_cloneValue rt v))

theorem unbroken_poolStore : Unbroken rt (rt.poolStore name v) := (rt.unbroken_poolSet name v).trans (.of_errs rfl)

theorem unbroken_syncPool : Unbroken rt rt.syncPool := by
  unfold syncPool
  split
  · refine List.foldlRecOn (motive := fun rt' => Unbroken rt rt') rt.prstPool _ (.refl rt) fun rt' h e _ => ?_
    split
    · split
      · exact h.trans (rt'.unbroken_poolStore _ _)
      · exact h
    · exact h
  · exact .refl rt

theorem unbroken_restorePrst (e : PrstEntry) (src : Option Value) : Unbroken rt (rt.restorePrst ref name e src) := by
  unfold restorePrst
  dsimp only
  split
  · exact (rt.unbroken_poolSet name _).trans (.of_errs (errs_set _ ref name _))
  · exact (rt.unbroken_poolSet name _).trans (.of_errs (errs_set _ ref name _))

theorem unbroken_persistArr (a : ℕ) : Unbroken rt (rt.persistArr name a) := by
  unfold persistArr
  split
  · split
    · exact rt.unbroken_poolSet name _
    · exact .of_errs rfl
    · exact .refl rt
  · exact .refl rt

end Runtime

end Reports

section Steps

namespace Runtime

/-- The state in another place: inside or outside `danger`, with the flag set or not. -/
def under (rt : Runtime) (depth : ℕ) (flag : Bool) : Runtime := { rt with dangerDepth := depth, hadError := flag }

/-- The step is no error, wherever it is made; or it is one, and inside `danger` it is recorded. -/
def Uniform (f : Runtime → Runtime) (rt : Runtime) : Prop :=
  (∀ d h, Unbroken (rt.under d h) (f (rt.under d h))) ∨
    ∀ d h, 0 < d → ∃ new, new ≠ [] ∧ Logs new (rt.under d h) (f (rt.under d h))

variable {rt rt' rt'' : Runtime} {new new' : List ErrEntry} {f g : Runtime → Runtime}

theorem Logs.trans (h : Logs new rt rt') (h' : Logs new' rt' rt'') : Logs (new' ++ new) rt rt'' := by
  unfold Logs at h h' ⊢
  rw [h', h, pushAll_append]

theorem logs_raise (h : 0 < rt.dangerDepth) (e : RtError) :
    Logs [⟨.fluxa, e, rt.instanceName rt.currentInstance⟩] rt (rt.raise e) := by
  rw [Logs, raise, if_pos h]
  rfl

theorem Uniform.of_unbroken (h : ∀ rt, Unbroken rt (f rt)) (rt : Runtime) : Uniform f rt := .inl fun _ _ => h _

theorem Uniform.congr (h : Uniform g rt) (hfg : ∀ d h, f (rt.under d h) = g (rt.under d h)) : Uniform f rt := by
  refine h.imp (fun h d flag => ?_) fun h d flag hd => ?_
  · rw [hfg]
    exact h d flag
  · rw [hfg]
    exact h d flag hd

theorem Uniform.logs (h : Uniform f rt) (hd : 0 < rt.dangerDepth) : ∃ new, Logs new rt (f rt) := by
  rcases h with h | h
  · exact (h rt.dangerDepth rt.hadError).logs
  · obtain ⟨new, -, hnew⟩ := h rt.dangerDepth rt.hadError hd
    exact ⟨new, hnew⟩

theorem uniform_raise (e : RtError) (rt : Runtime) : Uniform (·.raise e) rt :=
  .inr fun d h hd => ⟨_, by simp, logs_raise (show 0 < (rt.under d h).dangerDepth from hd) e⟩

variable (ref : Ref) (name : Ident) (v : Value)

theorem uniform_set (rt : Runtime) : Uniform (·.set ref name v) rt :=
  .of_unbroken (fun rt => .of_errs (rt.errs_set ref name v)) rt

theorem uniform_storeAssign (rt : Runtime) : Uniform (·.storeAssign name ref v) rt := by
  cases howner : rt.fieldOwner name with
  | some i =>
    refine (Uniform.of_unbroken (f := (·.setInstanceField i name v)) (fun _ => .of_errs rfl) rt).congr fun d h => ?_
    show (rt.under d h).storeAssign name ref v = _
    rw [storeAssign, show (rt.under d h).fieldOwner name = some i from howner]
  | none =>
    by_cases hscope : ref.off.isNone ∧ !rt.scope.has name
    · refine (uniform_raise (.undeclaredAssign name) rt).congr fun d h => ?_
      show (rt.under d h).storeAssign name ref v = _
      rw [storeAssign, show (rt.under d h).fieldOwner name = none from howner]
      exact if_pos hscope
    · refine .inl fun d h => ?_
      show Unbroken _ ((rt.under d h).storeAssign name ref v)
      rw [storeAssign, show (rt.under d h).fieldOwner name = none from howner]
      dsimp only
      rw [if_neg (show ¬(ref.off.isNone ∧ !(rt.under d h).scope.has name) from hscope)]
      split
      · exact (Unbroken.of_errs (errs_set _ ref name v)).trans (unbroken_poolStore _ name v)
      · exact .of_errs (errs_set _ ref name v)

theorem uniform_assignVar (n : ℕ) (rt : Runtime) : Uniform (·.assignVar name ref v n) rt := by
  by_cases hlen : rt.errStack.length = n
  · cases hcur : rt.lookup ref name with
    | none =>
      refine .inr fun d h hd => ?_
      have hraise := logs_raise (show 0 < (rt.under d h).dangerDepth from hd) (.undefinedVariable name)
      have hdepth : 0 < ((rt.under d h).raise (.undefinedVariable name)).dangerDepth := by
        rw [raise, if_pos (show 0 < (rt.under d h).dangerDepth from hd)]
        exact hd
      obtain ⟨new, hnew⟩ := (uniform_storeAssign ref name v _).logs hdepth
      have hassign : (rt.under d h).assignVar name ref v n =
          ((rt.under d h).raise (.undefinedVariable name)).storeAssign name ref v := by
        rw [assignVar, if_pos (show (rt.under d h).errStack.length = n from hlen),
          show (rt.under d h).lookup ref name = none from hcur]
      have hboth := hraise.trans hnew
      rw [← hassign] at hboth
      exact ⟨_, by simp, hboth⟩
    | some cur =>
      have hassign (d : ℕ) (h : Bool) : (rt.under d h).assignVar name ref v n =
          if cur.type ≠ .nil ∧ cur.type ≠ v.type then (rt.under d h).raise (.assignType name cur.type v.type)
          else (rt.under d h).storeAssign name ref v := by
        rw [assignVar, if_pos (show (rt.under d h).errStack.length = n from hlen),
          show (rt.under d h).lookup ref name = some cur from hcur]
      by_cases htype : cur.type ≠ .nil ∧ cur.type ≠ v.type
      · exact (uniform_raise (.assignType name cur.type v.type) rt).congr fun d h => (hassign d h).trans (if_pos htype)
      · exact (uniform_storeAssign ref name v rt).congr fun d h => (hassign d h).trans (if_neg htype)
  · exact (uniform_storeAssign ref name v rt).congr fun d h => if_neg (show ¬(rt.under d h).errStack.length = n from hlen)

theorem uniform_declareVar (t : TypeName) (n : ℕ) (rt : Runtime) : Uniform (·.declareVar t ref name v n) rt := by
  by_cases hlen : n < rt.errStack.length
  · exact (uniform_set ref name v rt).congr fun d h => if_pos hlen
  · by_cases htype : typeOk t v = true
    · exact (uniform_set ref name v rt).congr fun d h => (if_neg hlen).trans (if_pos htype)
    · exact (uniform_raise (.declaredType name t v.type) rt).congr fun d h => (if_neg hlen).trans (if_neg htype)

theorem uniform_declarePrst (t : TypeName) (rt : Runtime) : Uniform (·.declarePrst t ref name v) rt := by
  by_cases htype : typeOk t v = true
  · refine .of_unbroken (fun rt => ?_) rt
    rw [declarePrst, if_pos htype]
    dsimp only
    split
    · exact (rt.unbroken_poolSet name v).trans (.of_errs (errs_set _ ref name v))
    · exact rt.unbroken_poolSet name v
  · exact (uniform_raise (.declaredType name t v.type) rt).congr fun d h => if_neg htype

theorem uniform_rebuildPrst (t : TypeName) (rt : Runtime) : Uniform (·.rebuildPrst t ref name v) rt := by
  by_cases htype : typeOk t v = true
  · refine .of_unbroken (fun rt => ?_) rt
    rw [rebuildPrst, if_pos htype]
    let retyped := rt.poolUpdate name fun e => { e with declaredType := v.type }
    have hretyped : Unbroken rt retyped := .of_errs rfl
    exact (hretyped.trans (retyped.unbroken_poolSet name v)).trans (.of_errs (errs_set _ ref name v))
  · exact (uniform_raise (.declaredType name t v.type) rt).congr fun d h => if_neg htype

theorem uniform_storeDyn (d idx : ℕ) (rt : Runtime) : Uniform (·.storeDyn d idx v) rt := by
  by_cases hdyn : ∃ e, v = .dyn e
  · obtain ⟨e, rfl⟩ := hdyn
    refine .inr fun depth h hd => ?_
    let grown := { rt.under depth h with dyns := (rt.under depth h).dyns.set d ((rt.under depth h).dynItems d ++
      List.replicate (idx + 1 - ((rt.under depth h).dynItems d).length) Value.nil) }
    exact ⟨_, by simp, logs_raise (show 0 < grown.dangerDepth from hd) .dynInDyn⟩
  · refine .of_unbroken (fun rt => .of_errs ?_) rt
    unfold storeDyn
    dsimp only
    split
    · next e => exact absurd ⟨e, rfl⟩ hdyn
    · exact errs_adopt _ v

theorem uniform_freeVar (rt : Runtime) : Uniform (·.freeVar ref name) rt := by
  by_cases hmissing : (ref.off.bind fun off => (rt.slotValue off).map fun _ => off) = none ∧ rt.fieldOwner name = none ∧
      ¬rt.scope.has name ∧ ¬(0 < rt.callDepth ∧ rt.globalTable.has name)
  · obtain ⟨hslot, howner, hscope, hglobal⟩ := hmissing
    refine (uniform_raise (.freeUndefined name) rt).congr fun d h => ?_
    show (rt.under d h).freeVar ref name = _
    rw [freeVar, show (ref.off.bind fun off => ((rt.under d h).slotValue off).map fun _ => off) = none from hslot]
    dsimp only
    rw [show (rt.under d h).fieldOwner name = none from howner]
    exact (if_neg hscope).trans (if_neg hglobal)
  · refine .inl fun d h => ?_
    show Unbroken _ ((rt.under d h).freeVar ref name)
    unfold freeVar
    split
    · exact .of_errs rfl
    · next hslot =>
      split
      · exact .of_errs rfl
      · next howner =>
        split
        · exact .of_errs rfl
        · next hscope =>
          split
          · exact .of_errs rfl
          · next hglobal => exact absurd ⟨hslot, howner, hscope, hglobal⟩ hmissing

end Runtime

namespace Update

open Fluxa.Runtime

/-- Outside `danger` the step would end the program: it raises an error. -/
def fails (u : Update) (rt : Runtime) : Bool := (u.apply (rt.under 0 false)).hadError

/-- The errors that are reported past `danger`: those of `len` and `str_alloc`, of compiled code that calls them, of
`free` on a `prst` variable, and a library call that fails without a message. -/
def bypasses : Update → Bool
  | raiseHard _ => true
  | libReport r => r.failed && r.errors.isEmpty
  | _ => false

/-- The step only adds to the error stack, and if it raises an error, it adds something. -/
def Records (u : Update) (rt : Runtime) : Prop :=
  ∃ new, Logs new rt (u.apply rt) ∧ (u.fails rt = true → new ≠ [])

variable {rt : Runtime}

theorem Records.of_uniform {u : Update} (h : Uniform u.apply rt) (hd : 0 < rt.dangerDepth) : u.Records rt := by
  rcases h with h | h
  · obtain ⟨new, hnew⟩ := (h rt.dangerDepth rt.hadError).logs
    refine ⟨new, hnew, fun hfails => ?_⟩
    rw [fails, (h 0 false).flag] at hfails
    cases hfails
  · obtain ⟨new, hne, hnew⟩ := h rt.dangerDepth rt.hadError hd
    exact ⟨new, hnew, fun _ => hne⟩

theorem records_libReport (r : LibResult) (hd : 0 < rt.dangerDepth) (hr : ¬(r.failed = true ∧ r.errors = [])) :
    (libReport r).Records rt := by
  let entry (m : String) : ErrEntry := ⟨r.kind, .library m, r.context⟩
  have hstack : (rt.libReport r).errStack = pushAll (r.errors.map entry).reverse rt.errStack := by
    rw [Runtime.libReport, if_neg (by omega), pushAll, List.foldr_reverse, List.foldl_map]
  refine ⟨_, hstack, fun hfails hnil => ?_⟩
  have herrors : r.errors = [] := by simpa using hnil
  have hfailed : r.failed = true := by simpa [fails, apply, Runtime.libReport, herrors, under] using hfails
  exact hr ⟨hfailed, herrors⟩

/-- **Inside `danger` a step that raises an error records it**, unless it bypasses the block. -/
theorem records_apply (u : Update) (hd : 0 < rt.dangerDepth) (hu : u.bypasses = false) : u.Records rt := by
  have hplain (h : ∀ rt, (u.apply rt).errs = rt.errs) : u.Records rt :=
    .of_uniform (.of_unbroken (fun rt => .of_errs (h rt)) rt) hd
  cases u with
  | raise e => exact .of_uniform (uniform_raise e rt) hd
  | raiseHard e => cases hu
  | clearError => exact ⟨[], rfl, nofun⟩
  | declareVar t ref name v n => exact .of_uniform (uniform_declareVar ref name v t n rt) hd
  | declarePrst t ref name v => exact .of_uniform (uniform_declarePrst ref name v t rt) hd
  | rebuildPrst t ref name v => exact .of_uniform (uniform_rebuildPrst ref name v t rt) hd
  | restorePrst ref name e src =>
    exact .of_uniform (.of_unbroken (fun rt => rt.unbroken_restorePrst ref name e src) rt) hd
  | assignVar name ref v n => exact .of_uniform (uniform_assignVar ref name v n rt) hd
  | persistArr name a => exact .of_uniform (.of_unbroken (fun rt => rt.unbroken_persistArr name a) rt) hd
  | storeDyn d idx v => exact .of_uniform (uniform_storeDyn v d idx rt) hd
  | freeVar ref name => exact .of_uniform (uniform_freeVar ref name rt) hd
  | syncPool => exact .of_uniform (.of_unbroken (fun rt => rt.unbroken_syncPool) rt) hd
  | libReport r => exact records_libReport r hd (by simpa [bypasses] using hu)
  | bindVar ref name v => exact hplain fun rt => rt.errs_set ref name v
  | adopt v => exact hplain fun rt => rt.errs_adopt v
  | declareFunc fn => exact hplain fun rt => rt.errs_declareFunc fn
  | declareArr name data => exact hplain fun rt => rt.errs_declareArr name data
  | storeElem name a idx v => exact hplain fun rt => rt.errs_storeElem name v a idx
  | _ => exact hplain fun rt => rfl

end Update

end Steps

section Extents

/-- `runtime_is_safe_point`. -/
def Runtime.isSafePoint (rt : Runtime) : Bool := rt.callDepth == 0 && rt.dangerDepth == 0

/-- What is recorded of a run: the `danger` blocks it is in, whether all steps inside such blocks were as they should be
(`calm`), and whether the blocks captured what was raised (`captured`). -/
structure Extent where
  nest : ℕ := 0
  calm : Bool := true
  captured : Prop := True

namespace Extent

/-- Inside a block no safe point is reported. -/
def look (w : Extent) (rt : Runtime) : Extent :=
  { w with captured := w.captured ∧ (0 < w.nest → rt.isSafePoint = false) }

/-- Inside a block every error is recorded. -/
def step (w : Extent) (u : Update) (rt : Runtime) : Extent :=
  { w with
    calm := w.calm && (w.nest == 0 || !u.bypasses)
    captured := w.captured ∧ (0 < w.nest → u.Records rt) }

/-- No block is entered inside a block. -/
def enter (w : Extent) : Bracket → Extent
  | .danger => { w with nest := w.nest + 1, calm := w.calm && w.nest == 0 }
  | _ => w

/-- An error inside the block does not get out of it. -/
def leave (b : Bracket) (s t : Runtime × Extent) : Extent :=
  { t.2.look t.1 with
    nest := s.2.nest
    captured := (t.2.look t.1).captured ∧ (b = .danger → (b.leave s.1 t.1).hadError = false) }

end Extent

def extents : Observer Runtime Update Bracket Extent where
  apply u rt w := (w.look rt).step u rt
  note rt w := w.look rt
  exhaust rt w := w.look rt
  enter b rt w := (w.look rt).enter b
  leave := Extent.leave

variable {s t u : Runtime × Extent}

/-- All was captured so far, and inside a block the flag is up. -/
structure Fine (s : Runtime × Extent) : Prop where
  captured : s.2.captured
  up : 0 < s.2.nest → 0 < s.1.dangerDepth

theorem Fine.look (h : Fine s) : (s.2.look s.1).captured := by
  refine ⟨h.captured, fun hnest => ?_⟩
  have hup := h.up hnest
  simp only [Runtime.isSafePoint, Bool.and_eq_false_iff, beq_eq_false_iff_ne]
  exact .inr (by omega)

/-- A finished run is in the blocks it was in, and where its steps were calm all is fine again. -/
structure StaysFine (s t : Runtime × Extent) : Prop where
  nest : t.2.nest = s.2.nest
  fine : t.2.calm = true → s.2.calm = true ∧ (Fine s → Fine t)

def CutFine (s t : Runtime × Extent) : Prop := t.2.calm = true → s.2.calm = true ∧ (Fine s → t.2.captured)

theorem staysFine_apply (env : Env) (u : Update) (s : Runtime × Extent) :
    StaysFine s (((interp env).observe extents).apply u s) where
  nest := rfl
  fine hcalm := by
    obtain ⟨hcalm, hu⟩ := Bool.and_eq_true_iff.mp hcalm
    refine ⟨hcalm, fun h => ⟨⟨h.look, fun hnest => ?_⟩, fun hnest => ?_⟩⟩
    · have hbypass : u.bypasses = false := by
        have hnest : 0 < s.2.nest := hnest
        have hne : (s.2.nest == 0) = false := by simpa using Nat.ne_of_gt hnest
        have hu : (s.2.nest == 0 || !u.bypasses) = true := hu
        rw [hne, Bool.false_or] at hu
        simpa using hu
      exact u.records_apply (h.up hnest) hbypass
    · have hfixed := u.fixed_apply s.1
      simp only [Runtime.fixed, Runtime.Fixed.mk.injEq] at hfixed
      show 0 < (u.apply s.1).dangerDepth
      rw [hfixed.2.2.2]
      exact h.up hnest

theorem fine_enter {b : Bracket} (h : Fine s) : Fine (b.enter s.1, (s.2.look s.1).enter b) := by
  cases b with
  | danger => exact ⟨h.look, fun _ => Nat.one_pos⟩
  | _ => exact ⟨h.look, h.up⟩

theorem calm_of_enter {b : Bracket} {w : Extent} (h : (w.enter b).calm = true) :
    w.calm = true ∧ (b = .danger → w.nest = 0) := by
  cases b with
  | danger =>
    obtain ⟨hcalm, hnest⟩ := Bool.and_eq_true_iff.mp h
    exact ⟨hcalm, fun _ => by simpa using hnest⟩
  | _ => exact ⟨h, nofun⟩

theorem staysFine_bracket (env : Env) {b : Bracket} (h : StaysFine (((interp env).observe extents).enter b s) t) :
    StaysFine s (((interp env).observe extents).leave b s t) where
  nest := rfl
  fine hcalm := by
    obtain ⟨henter, hfine⟩ := h.fine hcalm
    obtain ⟨hs, hnest⟩ := calm_of_enter henter
    refine ⟨hs, fun hf => ?_⟩
    have ht := hfine (fine_enter hf)
    refine ⟨⟨ht.look, ?_⟩, fun hpos => ?_⟩
    · rintro rfl
      rfl
    · have hpos : 0 < s.2.nest := hpos
      cases b with
      | danger => exact absurd (hnest rfl) (Nat.ne_of_gt hpos)
      | _ => exact ht.up (by rw [h.nest]; exact hpos)

theorem closed_extents (env : Env) : ((interp env).observe extents).Closed StaysFine CutFine (fun _ => True) where
  refl s := ⟨rfl, fun h => ⟨h, id⟩⟩
  trans h h' := ⟨h'.nest.trans h.nest, fun hu => by
    obtain ⟨ht, h₂⟩ := h'.fine hu
    obtain ⟨hs, h₁⟩ := h.fine ht
    exact ⟨hs, h₂ ∘ h₁⟩⟩
  deep _ _ := trivial
  apply := staysFine_apply env
  note _ := ⟨rfl, fun h => ⟨h, fun hf => ⟨hf.look, hf.up⟩⟩⟩
  bracket _ _ h := staysFine_bracket env h
  opens _ _ _ := trivial
  exhaust _ h := ⟨h, Fine.look⟩
  later h h' hu := by
    obtain ⟨ht, h₂⟩ := h' hu
    obtain ⟨hs, h₁⟩ := h.fine ht
    exact ⟨hs, h₂ ∘ h₁⟩
  inside _ _ h ht := by
    obtain ⟨henter, hfine⟩ := h ht
    exact ⟨(calm_of_enter henter).1, hfine ∘ fine_enter⟩

/-- A run with the record of its `danger` blocks. -/
def extentRuns {α : Type} (env : Env) (n : ℕ) (p : RtProg false α) (s : Runtime) : Option α × Runtime × Extent :=
  ((interp env).observe extents).runs n (observed p) (s, {})

/-- `fn two() int { int b = true  return 2 }` and `danger { int r = two()  int c = 1 / 0 }`. -/
def guardedErrors : List Stmt :=
  [.funcDecl 0 "two" [] .int [.varDecl .int "b" (.boolLit true) false {}, .returnStmt (some (.intLit 2))],
   .danger [.varDecl .int "r" (.funcCall "two" []) false {},
    .varDecl .int "c" (.binary .div (.intLit 1) (.intLit 0)) false {}]]

end Extents

end Fluxa
