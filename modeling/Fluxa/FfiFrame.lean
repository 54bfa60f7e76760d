import Fluxa.Base.Outcome
import Fluxa.Ffi

/-! What a call of a C function that stores nothing does to the variables and arrays that were passed. -/

namespace Fluxa.Ffi

open StdLib RawValue

section RoundTrip

namespace RawValue

theorem setWord_word (v : RawValue) : v.setWord v.word = v := by
  cases v with
  | bool b => simp [setWord, word]
  | string | arr => exact if_pos rfl
  | _ => rfl

/-- The types whose value is the whole word. -/
def Wide (v : RawValue) : Prop := v ≠ .nil ∧ ∀ b, v ≠ .bool b

theorem shown_setWord {v : RawValue} (hv : v.Wide) {w : Word} : (v.setWord w).shown = v.shown ↔ w = v.word := by
  cases v with
  | nil => exact absurd rfl hv.1
  | int x | float x => simp [setWord, word, shown]
  | bool b => exact absurd rfl (hv.2 b)
  | string | arr =>
    rw [setWord]
    split
    · simp_all [word]
    · simp_all [word, shown]
  | pointer type addr => simp [setWord, word, shown]

theorem setWord_eq_nil {v : RawValue} {w : Word} : v.setWord w = .nil ↔ v = .nil := by
  cases v with
  | string | arr =>
    rw [setWord]
    split <;> simp
  | _ => simp [setWord]

theorem setString_eq {v : RawValue} (h : ∀ addr text, v ≠ .string addr text) (addr : Word) (text : CString) :
    v.setString addr text = v.setWord addr := by
  cases v with
  | string a t => exact absurd rfl (h a t)
  | _ => rfl

theorem setString_eq_nil {v : RawValue} {addr : Word} {text : CString} : v.setString addr text = .nil ↔ v = .nil := by
  cases v with
  | string a t => simp [setString]
  | _ =>
    rw [setString_eq (by simp)]
    exact setWord_eq_nil

end RawValue

/-- A word that is the sign extension of its low half is a number of 32 bits. -/
theorem signExtend_setWidth {w : Word} : (w.setWidth 32).signExtend 64 = w ↔ -2 ^ 31 ≤ w.toInt ∧ w.toInt < 2 ^ 31 := by
  have hw := w.isLt
  rw [← BitVec.toInt_inj, BitVec.toInt_signExtend_of_le (by decide), BitVec.toInt_setWidth, BitVec.toInt_eq_toNat_cond,
    Int.bmod_def]
  omega

theorem setWidth_signExtend (b : BitVec 32) : (b.signExtend 64).setWidth 32 = b := by
  ext i hi
  rw [BitVec.getElem_setWidth, BitVec.getLsbD_signExtend, BitVec.getLsbD_eq_getElem hi]
  simp [hi, Nat.lt_trans hi]

theorem append_setWidth (w : Word) : w.extractLsb' 32 32 ++ w.setWidth 32 = w := by
  ext i hi
  rw [BitVec.getElem_append]
  split
  · rw [BitVec.getElem_setWidth, BitVec.getLsbD_eq_getElem]
  · rw [BitVec.getElem_extractLsb', BitVec.getLsbD_eq_getElem (by omega)]
    congr 1
    omega

theorem cString_eq_self {t : Bytes} (h : 0 ∉ t) : cString t = t := by
  refine List.takeWhile_eq_self_iff.mpr fun b hb => ?_
  rw [bne_iff_ne]
  rintro rfl
  exact h hb

theorem bufferText_cut (size : ℕ) (t : CString) :
    (bufferText size (t.1.take (size - 1) ++ [0])).1 = t.1.take (size - 1) := by
  have hcut : 0 ∉ t.1.take (size - 1) := fun h => t.2 (List.mem_of_mem_take h)
  change cString ((t.1.take (size - 1) ++ [0]).take (size - 1)) = _
  by_cases hlen : size - 1 ≤ (t.1.take (size - 1)).length
  · rw [List.take_append_of_le_length hlen, List.take_take, Nat.min_self, cString_eq_self hcut]
  · have hfull : (t.1.take (size - 1) ++ [0]).take (size - 1) = t.1.take (size - 1) ++ [0] := by
      rw [List.take_of_length_le]
      rw [List.length_append, List.length_singleton]
      omega
    rw [hfull, cString, List.takeWhile_append_of_pos]
    · simp
    · intro b hb
      rw [bne_iff_ne]
      rintro rfl
      exact hcut hb

/-- The values that an argument keeps through the cell of its kind. -/
def Fits (size : ℕ) : ParamKind → RawValue → Prop
  | .ptrInt, .nil => True
  | .ptrInt, .bool _ => True
  | .ptrInt, v => -2 ^ 31 ≤ v.word.toInt ∧ v.word.toInt < 2 ^ 31
  | .str, .string _ text => text.1.length < size
  | .str, _ => False
  | _, _ => True

variable {size : ℕ} {st : State} {k : ParamKind} {v : RawValue} {cell : Cell}

theorem fits_ptrInt (hv : v.Wide) : Fits size .ptrInt v ↔ -2 ^ 31 ≤ v.word.toInt ∧ v.word.toInt < 2 ^ 31 := by
  cases v with
  | nil => exact absurd rfl hv.1
  | bool b => exact absurd rfl (hv.2 b)
  | _ => rw [Fits] <;> simp

theorem fits_ptrInt_of_not (hv : ¬ v.Wide) : Fits size .ptrInt v := by
  cases v with
  | nil => trivial
  | bool b => trivial
  | _ => exact absurd ⟨by simp, by simp⟩ hv

theorem shown_setString (hsize : 0 < size) {text : Bytes} (hchars : v.chars = some text)
    (fresh : { a : Word // a ≠ 0 }) :
    (v.setString fresh (bufferText size (text.take (size - 1) ++ [0]))).shown = v.shown ↔ Fits size .str v := by
  cases v with
  | string addr t =>
    cases hchars
    rw [setString, shown, shown, string.injEq, Subtype.ext_iff, bufferText_cut,
      List.take_eq_self_iff, Fits, and_iff_right rfl]
    omega
  | nil => cases hchars
  | bool b => cases hchars
  | _ =>
    change (if word _ = 0 then some [] else none) = some text at hchars
    split at hchars
    · rename_i hnull
      rw [setString_eq (by simp), shown_setWord ⟨by simp, by simp⟩]
      exact iff_of_false (fun h => fresh.2 (h.trans hnull)) id
    · cases hchars

theorem shown_writeBack (hsize : 0 < size) (hk : k.writes) (hcell : marshal size st k v = .ok cell)
    (fresh : { a : Word // a ≠ 0 }) : (writeBack size fresh k cell v).shown = v.shown ↔ Fits size k v := by
  cases k with
  | ptrInt =>
    cases hcell
    rw [writeBack]
    by_cases hv : v.Wide
    · rw [shown_setWord hv, fits_ptrInt hv, signExtend_setWidth]
    · refine iff_of_true ?_ (fits_ptrInt_of_not hv)
      cases v with
      | nil => rfl
      | bool b => simp [setWord, word, setWidth_signExtend]
      | _ => exact absurd ⟨by simp, by simp⟩ hv
  | ptrFlt =>
    cases hcell
    rw [writeBack, setWord_word]
    simp [Fits]
  | ptrBool =>
    cases hcell
    rw [writeBack, append_setWidth, setWord_word]
    simp [Fits]
  | str =>
    rw [marshal] at hcell
    split at hcell
    · rename_i text hchars
      cases hcell
      exact shown_setString hsize hchars fresh
    · cases hcell
  | value | arr | dyn => cases hk

theorem writeBack_eq_nil (fresh : Word) : writeBack size fresh k cell v = .nil ↔ v = .nil := by
  rw [writeBack.eq_def]
  split
  · exact setWord_eq_nil
  · exact setWord_eq_nil
  · exact setWord_eq_nil
  · exact setString_eq_nil
  · exact Iff.rfl

end RoundTrip

section Variables

variable {st : State} {x y : Var} {u v : RawValue}

namespace State

/-- `rt_get` does not look where `rt_set` stores: a `prst` variable in a function or a thread. -/
def Hidden (st : State) (x : Var) : Prop :=
  ¬ (x.ref.warm ∧ x.ref.off.isSome) ∧ (st.pool x.name).isSome ∧ (st.shared ∨ 0 < st.callDepth ∧ x.ref.off.isSome)

theorem hidden_rtSet : (st.rtSet y v).Hidden x ↔ st.Hidden x := by
  rw [rtSet]
  split
  · exact Iff.rfl
  · split <;> exact Iff.rfl

/-- A variable has a value, and its slot holds nothing yet if the stack has not reached it. -/
structure Holds (st : State) (x : Var) (u : RawValue) : Prop where
  get : st.rtGet x = some u
  unused : ∀ off, x.ref.off = some off → st.stackSize ≤ off → st.stack off = .nil

theorem rtGet_hidden (h : st.Hidden x) :
    st.rtGet x =
      if st.shared then st.pool x.name
      else some ((((st.scope x.name).filter (· ≠ .nil)).or (st.globals x.name)).getD .nil) := by
  obtain ⟨hwarm, hpool, hread⟩ := h
  rw [rtGet, if_neg hwarm]
  by_cases hshared : st.shared = true
  · rw [if_pos ⟨hshared, hpool⟩, if_pos hshared]
  · rw [if_neg (fun h => hshared h.1), if_neg hshared, if_pos]
    obtain ⟨hdepth, hoff⟩ := hread.resolve_left hshared
    exact ⟨hdepth, hoff, hpool⟩

theorem unused_rtSet (hunused : ∀ off, x.ref.off = some off → st.stackSize ≤ off → st.stack off = .nil) (y : Var)
    (v : RawValue) : ∀ off, x.ref.off = some off → (st.rtSet y v).stackSize ≤ off → (st.rtSet y v).stack off = .nil := by
  intro off hoff hle
  rw [rtSet] at hle ⊢
  cases hy : y.ref.off with
  | none =>
    rw [hy] at hle
    dsimp only at hle ⊢
    split at hle
    · rw [if_pos ‹_›]
      exact hunused off hoff hle
    · rw [if_neg ‹_›]
      exact hunused off hoff hle
  | some off' =>
    rw [hy] at hle
    have hmax : max st.stackSize (off' + 1) ≤ off := hle
    change Function.update st.stack off' v off = .nil
    rw [Function.update_of_ne (by omega)]
    exact hunused off hoff (by omega)

theorem slotValue_setSlot (off : ℕ) (v : RawValue) :
    (st.setSlot off v).slotValue off = if v = .nil then none else some v := by
  rw [slotValue, setSlot]
  simp only [Function.update_self]
  by_cases hv : v = .nil
  · rw [if_neg (fun h => h.2 hv), if_pos hv]
  · rw [if_pos ⟨by omega, hv⟩, if_neg hv]

theorem slotValue_setSlot_of_ne {off off' : ℕ} (hne : off ≠ off') (hunused : st.stackSize ≤ off → st.stack off = .nil)
    (v : RawValue) : (st.setSlot off' v).slotValue off = st.slotValue off := by
  rw [slotValue, slotValue, setSlot]
  simp only [Function.update_of_ne hne]
  by_cases hlt : off < st.stackSize
  · rw [if_congr (and_congr_left' (iff_of_true (by omega) hlt)) rfl rfl]
  · have hnil := hunused (by omega)
    rw [if_neg (fun h => h.2 hnil), if_neg (fun h => h.2 hnil)]

theorem slotValue_ne_nil (off : ℕ) : st.slotValue off ≠ some .nil := by
  intro h
  rw [slotValue] at h
  split at h
  · rename_i hslot
    exact hslot.2 (Option.some.inj h)
  · cases h

/-- Where `rt_get` looks if the slot holds nothing. -/
def beyondSlot (st : State) (x : Var) : Option RawValue :=
  if x.ref.warm ∧ x.ref.off.isSome then st.scope x.name
  else (st.fields x.name).or <| (st.scope x.name).or <| if 0 < st.callDepth then st.globals x.name else none

theorem rtGet_of_not_hidden (h : ¬ st.Hidden x) : st.rtGet x = (x.ref.off.bind st.slotValue).or (st.beyondSlot x) := by
  rw [rtGet, beyondSlot]
  by_cases hwarm : x.ref.warm ∧ x.ref.off.isSome
  · rw [if_pos hwarm, if_pos hwarm]
  · rw [if_neg hwarm, if_neg hwarm, if_neg (fun hs => h ⟨hwarm, hs.2, .inl hs.1⟩),
      if_neg (fun hs => h ⟨hwarm, hs.2.2, .inr ⟨hs.1, hs.2.1⟩⟩)]

theorem Holds.rtSet_hidden (h : st.Holds x u) (hhidden : st.Hidden x) (v : RawValue) : (st.rtSet x v).Holds x u := by
  refine ⟨?_, unused_rtSet h.unused x v⟩
  rw [← h.get, rtGet_hidden (hidden_rtSet.mpr hhidden), rtGet_hidden hhidden, rtSet]
  cases hx : x.ref.off with
  | some off => rfl
  | none =>
    -- without a slot the variable is read from the shared pool
    have hshared : st.shared = true := hhidden.2.2.resolve_right (by rw [hx]; simp)
    rw [if_pos hshared]
    dsimp only
    split <;> rfl

theorem Holds.rtSet_self (h : st.Holds x u) (hhidden : ¬ st.Hidden x) (hnil : v = .nil → u = .nil) :
    (st.rtSet x v).Holds x v := by
  refine ⟨?_, unused_rtSet h.unused x v⟩
  have hget := h.get
  rw [rtGet_of_not_hidden hhidden] at hget
  rw [rtGet_of_not_hidden (mt hidden_rtSet.mp hhidden), rtSet]
  cases hx : x.ref.off with
  | some off =>
    rw [hx] at hget
    change ((st.setSlot off v).slotValue off).or (st.beyondSlot x) = _
    rw [slotValue_setSlot]
    by_cases hv : v = .nil
    · -- both values are nil, so the slot held nothing before
      rw [if_pos hv, hv]
      rw [hnil hv] at hget
      rcases Option.or_eq_some_iff.mp hget with hslot | ⟨-, hbeyond⟩
      · exact absurd hslot (slotValue_ne_nil off)
      · exact hbeyond
    · rw [if_neg hv]
      rfl
  | none =>
    dsimp only [Option.bind_none, Option.none_or]
    split
    · simp [beyondSlot, hx]
    · rename_i hfields
      simp [beyondSlot, hx, Option.not_isSome_iff_eq_none.mp hfields]

theorem rtGet_rtSet_other (hunused : ∀ off, x.ref.off = some off → st.stackSize ≤ off → st.stack off = .nil)
    (hname : x.name ≠ y.name) (hoff : x.ref.off = y.ref.off → x.ref.off = none) (v : RawValue) :
    (st.rtSet y v).rtGet x = st.rtGet x := by
  rw [rtSet]
  cases hy : y.ref.off with
  | none =>
    dsimp only
    split
    · simp only [rtGet, Function.update_of_ne hname]
      rfl
    · simp only [rtGet, Function.update_of_ne hname]
      rfl
  | some off' =>
    have hslot : x.ref.off.bind (st.setSlot off' v).slotValue = x.ref.off.bind st.slotValue := by
      cases hx : x.ref.off with
      | none => rfl
      | some off =>
        refine slotValue_setSlot_of_ne ?_ (hunused off hx) v
        rintro rfl
        have := hoff (hx.trans hy.symm)
        rw [hx] at this
        cases this
    simp only [rtGet, hslot]
    rfl

theorem Holds.rtSet_other (h : st.Holds x u) (hname : x.name ≠ y.name) (hoff : x.ref.off = y.ref.off → x.ref.off = none)
    (v : RawValue) : (st.rtSet y v).Holds x u :=
  ⟨(rtGet_rtSet_other h.unused hname hoff v).trans h.get, unused_rtSet h.unused y v⟩

end State

end Variables

section WriteBack

variable {st : State} {x : Var} {u : RawValue} {args : List (ParamKind × Arg)}

/-- What a variable holds behind a list of stores: the last of them that went to it. -/
def lastValue (x : Var) : List (ParamKind × Arg) → RawValue → RawValue
  | [], u => u
  | (k, a) :: args, u => lastValue x args (if a.node = some x ∧ k.writes then a.value else u)

/-- Other variables that are stored to have other names and slots. -/
def Apart (x : Var) (args : List (ParamKind × Arg)) : Prop :=
  ∀ p ∈ args, p.1.writes → ∀ y ∈ p.2.node, x ≠ y → x.name ≠ y.name ∧ (x.ref.off = y.ref.off → x.ref.off = none)

theorem Apart.tail {p : ParamKind × Arg} (h : Apart x (p :: args)) : Apart x args :=
  fun q hq => h q (List.mem_cons_of_mem p hq)

theorem holds_writeVars_hidden (hapart : Apart x args) (hhidden : st.Hidden x) (h : st.Holds x u) :
    (writeVars args st).Holds x u := by
  induction args generalizing st with
  | nil => exact h
  | cons p args ih =>
    rw [writeVars]
    cases hnode : p.2.node with
    | none => exact ih hapart.tail hhidden h
    | some y =>
      dsimp only
      split
      · next hwrites =>
        apply ih hapart.tail (State.hidden_rtSet.mpr hhidden)
        by_cases hxy : x = y
        · rw [← hxy]
          exact h.rtSet_hidden hhidden _
        · obtain ⟨hname, hoff⟩ := hapart p List.mem_cons_self hwrites y hnode hxy
          exact h.rtSet_other hname hoff _
      · exact ih hapart.tail hhidden h

/-- A variable that is not stored to keeps what it had. -/
theorem rtGet_writeVars (hapart : Apart x args) (hother : ∀ p ∈ args, p.1.writes → p.2.node ≠ some x)
    (hunused : (∃ p ∈ args, p.1.writes ∧ p.2.node.isSome) →
      ∀ off, x.ref.off = some off → st.stackSize ≤ off → st.stack off = .nil) :
    (writeVars args st).rtGet x = st.rtGet x := by
  induction args generalizing st with
  | nil => rfl
  | cons p args ih =>
    obtain ⟨hp, hargs⟩ := List.forall_mem_cons.mp hother
    have hrest : (writeVars args st).rtGet x = st.rtGet x := by
      refine ih hapart.tail hargs ?_
      rintro ⟨q, hq, h⟩
      exact hunused ⟨q, List.mem_cons_of_mem p hq, h⟩
    rw [writeVars]
    cases hnode : p.2.node with
    | none => exact hrest
    | some y =>
      dsimp only
      split
      · next hwrites =>
        have hxy : x ≠ y := fun h => hp hwrites (h ▸ hnode)
        obtain ⟨hname, hoff⟩ := hapart p List.mem_cons_self hwrites y hnode hxy
        have hnil := hunused ⟨p, List.mem_cons_self, hwrites, by rw [hnode]; rfl⟩
        refine (ih hapart.tail hargs fun _ => State.unused_rtSet hnil y _).trans ?_
        exact State.rtGet_rtSet_other hnil hname hoff _
      · exact hrest

theorem holds_writeVars (hapart : Apart x args)
    (hnil : ∀ p ∈ args, p.1.writes → p.2.node = some x → (p.2.value = .nil ↔ u = .nil))
    (hhidden : ¬ st.Hidden x) (h : st.Holds x u) : (writeVars args st).Holds x (lastValue x args u) := by
  induction args generalizing st u with
  | nil => exact h
  | cons p args ih =>
    obtain ⟨hp, hargs⟩ := List.forall_mem_cons.mp hnil
    rw [writeVars, lastValue]
    cases hnode : p.2.node with
    | none =>
      rw [if_neg (by simp)]
      exact ih hapart.tail hargs hhidden h
    | some y =>
      dsimp only
      by_cases hwrites : p.1.writes = true
      · rw [if_pos hwrites]
        by_cases hxy : x = y
        · rw [← hxy] at hnode ⊢
          rw [if_pos ⟨rfl, hwrites⟩]
          have hu := hp hwrites hnode
          refine ih hapart.tail (fun q hq hw hx => (hargs q hq hw hx).trans hu.symm) (mt State.hidden_rtSet.mp hhidden) ?_
          exact h.rtSet_self hhidden hu.mp
        · obtain ⟨hname, hoff⟩ := hapart p List.mem_cons_self hwrites y hnode hxy
          rw [if_neg (fun h => hxy (Option.some.inj h.1).symm)]
          exact ih hapart.tail hargs (mt State.hidden_rtSet.mp hhidden) (h.rtSet_other hname hoff _)
      · rw [if_neg hwrites, if_neg (fun h => hwrites h.2)]
        exact ih hapart.tail hargs hhidden h

theorem arrays_rtSet (st : State) (x : Var) (v : RawValue) : (st.rtSet x v).arrays = st.arrays := by
  rw [State.rtSet]
  split
  · rfl
  · split <;> rfl

theorem arrays_writeVars : (writeVars args st).arrays = st.arrays := by
  induction args generalizing st with
  | nil => rfl
  | cons p args ih =>
    rw [writeVars]
    cases p.2.node with
    | none => exact ih
    | some y =>
      dsimp only
      split
      · exact ih.trans (arrays_rtSet st y p.2.value)
      · exact ih

end WriteBack

section Marshalling

variable {size : ℕ} {st : State} {args : List (ParamKind × Arg)} {cells : List Cell}

abbrev Marshalled (size : ℕ) (st : State) : List (ParamKind × Arg) → List Cell → Prop :=
  List.Forall₂ fun p c => marshal size st p.1 p.2.value = .ok c

theorem marshalAll_ok (h : marshalAll size st args = .ok cells) : Marshalled size st args cells := by
  induction args generalizing cells with
  | nil =>
    cases h
    exact .nil
  | cons p args ih =>
    obtain ⟨cell, hcell, h⟩ := Except.bind_eq_ok.mp h
    obtain ⟨rest, hrest, h⟩ := Except.bind_eq_ok.mp h
    cases h
    exact .cons hcell (ih hrest)

/-- The types that a parameter passed by value may have. -/
def Supported (v : RawValue) : Prop := v.type = .int ∨ v.type = .float ∨ v.type = .bool ∨ v.type = .string

/-- The C function is called, unless the behaviour is undefined. -/
structure Called (found : Bool) (args : List (ParamKind × Arg)) : Prop where
  few : args.length ≤ 32
  found : found = true
  supported : ∀ p ∈ args, p.1 = .value → Supported p.2.value

theorem marshal_supported {v : RawValue} (h : Supported v) : marshal size st .value v = .ok (.value v) := by
  rw [marshal]
  rcases h with h | h | h | h <;> rw [h]

theorem marshal_arr (d : Word) :
    marshal size st .arr (.arr d) =
      if d ≠ 0 ∧ st.arrays d ≠ [] then .ok (.bytes ((st.arrays d).map (·.byte))) else .ok (.pointer 0) := rfl

/-- A supported argument stops the call only where a `char*` parameter gets no string. -/
theorem marshal_cases (size : ℕ) (st : State) {k : ParamKind} {v : RawValue} (hvalue : k = .value → Supported v) :
    (∃ c, marshal size st k v = .ok c) ∧ (k = .str → v.chars.isSome) ∨
      marshal size st k v = .error .undefined ∧ k = .str ∧ v.chars = none := by
  cases k with
  | value => exact .inl ⟨⟨_, marshal_supported (hvalue rfl)⟩, nofun⟩
  | ptrInt | ptrFlt | ptrBool => exact .inl ⟨⟨_, rfl⟩, nofun⟩
  | str =>
    rw [marshal]
    cases v.chars with
    | none => exact .inr ⟨rfl, rfl, rfl⟩
    | some text => exact .inl ⟨⟨_, rfl⟩, fun _ => rfl⟩
  | arr =>
    refine .inl ⟨?_, nofun⟩
    cases v with
    | arr d =>
      rw [marshal_arr]
      split
      · exact ⟨_, rfl⟩
      · exact ⟨_, rfl⟩
    | _ => exact ⟨_, rfl⟩
  | dyn => exact .inl ⟨⟨_, rfl⟩, nofun⟩

theorem marshalAll_cases (size : ℕ) (st : State) (hvalue : ∀ p ∈ args, p.1 = .value → Supported p.2.value) :
    (∃ cells, marshalAll size st args = .ok cells) ∧ (∀ p ∈ args, p.1 = .str → p.2.value.chars.isSome) ∨
      marshalAll size st args = .error .undefined ∧ ∃ p ∈ args, p.1 = .str ∧ p.2.value.chars = none := by
  induction args with
  | nil => exact .inl ⟨⟨[], rfl⟩, fun p hp => absurd hp List.not_mem_nil⟩
  | cons p args ih =>
    obtain ⟨hp, hargs⟩ := List.forall_mem_cons.mp hvalue
    rw [marshalAll]
    rcases marshal_cases size st hp with ⟨⟨c, hc⟩, hsome⟩ | ⟨hc, hstr, hnone⟩
    · rw [hc, Except.ok_bind]
      rcases ih hargs with ⟨⟨cells, hcells⟩, hall⟩ | ⟨herr, q, hq, hbad⟩
      · rw [hcells]
        exact .inl ⟨⟨c :: cells, rfl⟩, List.forall_mem_cons.mpr ⟨hsome, hall⟩⟩
      · rw [herr]
        exact .inr ⟨rfl, q, List.mem_cons_of_mem p hq, hbad⟩
    · rw [hc]
      exact .inr ⟨rfl, p, List.mem_cons_self, hstr, hnone⟩

end Marshalling

section Arrays

variable {size : ℕ} {st : State} {arrays : Word → List RawValue} {k : ParamKind} {v : RawValue} {c : Cell}

/-- The elements that an array passed as bytes gets. -/
def bytesOf (l : List RawValue) : List RawValue := l.map fun e => .int (e.byte.toBitVec.setWidth 64)

theorem length_bytesOf (l : List RawValue) : (bytesOf l).length = l.length := List.length_map _

theorem marshal_bytes {buf : List UInt8} (hc : marshal size st k v = .ok (.bytes buf)) :
    k = .arr ∧ ∃ d, v = .arr d ∧ d ≠ 0 ∧ buf = (st.arrays d).map (·.byte) := by
  cases k with
  | value | str =>
    rw [marshal] at hc
    split at hc <;> cases hc
  | arr =>
    cases v with
    | arr d =>
      rw [marshal_arr] at hc
      split at hc
      · rename_i hd
        cases hc
        exact ⟨rfl, d, rfl, hd.1, rfl⟩
      · cases hc
    | _ => cases hc
  | _ => cases hc

theorem scatter_of_not_bytes (h : ∀ buf, c ≠ .bytes buf) : scatter arrays c v = arrays := by
  cases c with
  | bytes buf => exact absurd rfl (h buf)
  | _ => rfl

theorem scatter_bytes (hlen : ∀ d, (arrays d).length = (st.arrays d).length) (d : Word) :
    scatter arrays (.bytes ((st.arrays d).map (·.byte))) (.arr d) = Function.update arrays d (bytesOf (st.arrays d)) := by
  have hmin : min ((st.arrays d).map (·.byte)).length (arrays d).length = (arrays d).length := by
    rw [List.length_map, hlen, Nat.min_self]
  rw [scatter, hmin, List.drop_length, List.append_nil, List.take_of_length_le (by rw [List.length_map, hlen]), List.map_map]
  rfl

theorem scatter_eq (hlen : ∀ d, (arrays d).length = (st.arrays d).length) (hc : marshal size st k v = .ok c) (d : Word) :
    scatter arrays c v d = if k = .arr ∧ v = .arr d ∧ d ≠ 0 then bytesOf (st.arrays d) else arrays d := by
  by_cases hbytes : ∃ buf, c = .bytes buf
  · obtain ⟨buf, rfl⟩ := hbytes
    obtain ⟨rfl, d', rfl, hd', rfl⟩ := marshal_bytes hc
    rw [scatter_bytes hlen]
    by_cases hd : d = d'
    · rw [hd, Function.update_self, if_pos ⟨rfl, rfl, hd'⟩]
    · rw [Function.update_of_ne hd, if_neg]
      exact fun h => hd (arr.inj h.2.1).symm
  · rw [scatter_of_not_bytes fun buf h => hbytes ⟨buf, h⟩]
    split
    · -- an empty array stays empty
      rename_i harr
      obtain ⟨rfl, rfl, hd⟩ := harr
      rw [marshal_arr] at hc
      have hnil : st.arrays d = [] := by
        by_contra hne
        rw [if_pos ⟨hd, hne⟩] at hc
        exact hbytes ⟨_, (Except.ok.inj hc).symm⟩
      have hlen := hlen d
      rw [hnil] at hlen ⊢
      exact List.eq_nil_of_length_eq_zero hlen
    · rfl

variable {args : List (ParamKind × Arg)} {cells : List Cell}

theorem foldl_scatter (hcells : Marshalled size st args cells)
    (hlen : ∀ d, (arrays d).length = (st.arrays d).length) (d : Word) :
    (args.zip cells).foldl (fun arrays c => scatter arrays c.2 c.1.2.value) arrays d =
      if ∃ p ∈ args, p.1 = .arr ∧ p.2.value = .arr d ∧ d ≠ 0 then bytesOf (st.arrays d) else arrays d := by
  induction hcells generalizing arrays with
  | nil => exact (if_neg (by simp)).symm
  | @cons p c args cells hc hcells ih =>
    have hstep := scatter_eq hlen hc
    rw [List.zip_cons_cons, List.foldl_cons, ih]
    · simp only [List.exists_mem_cons_iff, hstep]
      by_cases hp : p.1 = .arr ∧ p.2.value = .arr d ∧ d ≠ 0
      · rw [if_pos hp, ite_self, if_pos (Or.inl hp)]
      · rw [if_neg hp]
        exact if_congr (or_iff_right hp).symm rfl rfl
    · intro d'
      rw [hstep]
      split
      · exact length_bytesOf _
      · exact hlen d'

def IsByte (e : RawValue) : Prop := ∃ n : Word, e = .int n ∧ n.toNat < 256

theorem shown_byte (e : RawValue) : (int (e.byte.toBitVec.setWidth 64)).shown = e.shown ↔ IsByte e := by
  cases e with
  | int n =>
    have hn : (BitVec.setWidth 64 (BitVec.setWidth 8 n)) = n ↔ n.toNat < 256 := by
      rw [← BitVec.toNat_inj, BitVec.toNat_setWidth, BitVec.toNat_setWidth]
      have := n.isLt
      omega
    constructor
    · intro h
      exact ⟨n, rfl, hn.mp (int.inj h)⟩
    · rintro ⟨m, hm, hlt⟩
      cases hm
      exact congrArg int (hn.mpr hlt)
  | _ => simp [shown, IsByte]

theorem shown_bytesOf (l : List RawValue) : (bytesOf l).map (·.shown) = l.map (·.shown) ↔ ∀ e ∈ l, IsByte e := by
  rw [bytesOf, List.map_map, List.map_inj_left]
  exact forall₂_congr fun e _ => shown_byte e

end Arrays

section Result

variable {size : ℕ} {st : State} {x : Var} {u : RawValue} {args : List (ParamKind × Arg)} {cells : List Cell}

def lastKind (x : Var) : List (ParamKind × Arg) → Option ParamKind
  | [] => none
  | (k, a) :: args => (lastKind x args).or (if a.node = some x ∧ k.writes then some k else none)

theorem lastValue_collect (hcells : Marshalled size st args cells)
    (hvalue : ∀ p ∈ args, p.1.writes → p.2.node = some x → p.2.value = u) (w : RawValue) :
    (lastKind x args = none ∧ lastValue x (collect size st (args.zip cells)).args w = w) ∨
      ∃ k c, ∃ fresh : { a : Word // a ≠ 0 }, lastKind x args = some k ∧ k.writes ∧ marshal size st k u = .ok c ∧
        lastValue x (collect size st (args.zip cells)).args w = writeBack size fresh k c u := by
  induction hcells generalizing w with
  | nil => exact .inl ⟨rfl, rfl⟩
  | @cons p c args cells hc hcells ih =>
    obtain ⟨hp, hargs⟩ := List.forall_mem_cons.mp hvalue
    have hlast : lastValue x (collect size st ((p :: args).zip (c :: cells))).args w =
        lastValue x (collect size st (args.zip cells)).args
          (if p.2.node = some x ∧ p.1.writes then writeBack size p.2.fresh p.1 c p.2.value else w) := rfl
    rw [hlast, lastKind]
    rcases ih hargs (if p.2.node = some x ∧ p.1.writes then writeBack size p.2.fresh p.1 c p.2.value else w) with
      ⟨hnone, hrest⟩ | ⟨k, c', fresh, hk, hkind⟩
    · rw [hnone, hrest, Option.none_or]
      by_cases hx : p.2.node = some x ∧ p.1.writes
      · rw [if_pos hx, if_pos hx, hp hx.2 hx.1]
        rw [hp hx.2 hx.1] at hc
        exact .inr ⟨p.1, c, p.2.fresh, rfl, hx.2, hc, rfl⟩
      · rw [if_neg hx, if_neg hx]
        exact .inl ⟨rfl, rfl⟩
    · rw [hk]
      exact .inr ⟨k, c', fresh, rfl, hkind⟩

theorem lastValue_self (hvalue : ∀ p ∈ args, p.1.writes → p.2.node = some x → p.2.value = u) :
    lastValue x args u = u := by
  induction args with
  | nil => rfl
  | cons p args ih =>
    obtain ⟨hp, hargs⟩ := List.forall_mem_cons.mp hvalue
    have hlast : (if p.2.node = some x ∧ p.1.writes then p.2.value else u) = u := by
      split
      · next hx => exact hp hx.2 hx.1
      · rfl
    rw [lastValue, hlast]
    exact ih hargs

/-- A variable that is stored to has the value of its argument and shares name and slot with no other variable that is
passed; and if something is stored, the slots of the variables that are passed hold nothing where the stack has not
reached them. -/
structure Separate (st : State) (args : List (ParamKind × Arg)) : Prop where
  holds : ∀ p ∈ args, p.1.writes → ∀ x, p.2.node = some x → st.rtGet x = some p.2.value
  apart : ∀ p ∈ args, ∀ x, p.2.node = some x → Apart x args
  unused : (∃ p ∈ args, p.1.writes ∧ p.2.node.isSome) → ∀ p ∈ args, ∀ x, p.2.node = some x →
    ∀ off, x.ref.off = some off → st.stackSize ≤ off → st.stack off = .nil

/-- The arguments that come back as they were: `char*` parameters get strings or null pointers, an array passed as bytes holds
bytes, and a variable that is stored through a pointer, and read where it is stored, fits the cell it is stored from last. -/
structure Harmless (size : ℕ) (st : State) (args : List (ParamKind × Arg)) : Prop where
  strings : ∀ p ∈ args, p.1 = .str → p.2.value.chars.isSome
  bytes : ∀ p ∈ args, p.1 = .arr → ∀ d, p.2.value = .arr d → d ≠ 0 → ∀ e ∈ st.arrays d, IsByte e
  fits : ∀ p ∈ args, p.1.writes → ∀ x, p.2.node = some x → ¬ st.Hidden x →
    ∀ k, lastKind x args = some k → Fits size k p.2.value

/-- The variables and the arrays that were passed look as before. -/
def Unchanged (st st' : State) (args : List (ParamKind × Arg)) : Prop :=
  ∀ p ∈ args, (∀ x, p.2.node = some x → (st'.rtGet x).map (·.shown) = (st.rtGet x).map (·.shown)) ∧
    ∀ d, p.2.value = .arr d → (st'.arrays d).map (·.shown) = (st.arrays d).map (·.shown)

theorem Separate.value_eq (h : Separate st args) {p : ParamKind × Arg} (hp : p ∈ args) (hw : p.1.writes)
    (hx : p.2.node = some x) : ∀ q ∈ args, q.1.writes → q.2.node = some x → q.2.value = p.2.value := by
  intro q hq hqw hqx
  have hget := h.holds q hq hqw x hqx
  rw [h.holds p hp hw x hx] at hget
  exact (Option.some.inj hget).symm

theorem Separate.stored (h : Separate st args) {p : ParamKind × Arg} (hp : p ∈ args) (hw : p.1.writes)
    (hx : p.2.node = some x) : st.Holds x p.2.value :=
  ⟨h.holds p hp hw x hx, h.unused ⟨p, hp, hw, by rw [hx]; rfl⟩ p hp x hx⟩

theorem mem_collect {q : ParamKind × Arg} (hq : q ∈ (collect size st (args.zip cells)).args) :
    ∃ p ∈ args, q.1 = p.1 ∧ q.2.node = p.2.node ∧ ∃ k c fresh, q.2.value = writeBack size fresh k c p.2.value := by
  obtain ⟨c, hc, rfl⟩ := List.mem_map.mp hq
  exact ⟨c.1, (List.of_mem_zip hc).1, rfl, rfl, _, _, _, rfl⟩

theorem apart_collect (h : Apart x args) : Apart x (collect size st (args.zip cells)).args := by
  intro q hq hw y hy
  obtain ⟨r, hr, hkind, hnode, -⟩ := mem_collect hq
  rw [hnode] at hy
  exact h r hr (hkind ▸ hw) y hy

/-- A variable that is passed by value only is not touched. -/
theorem get_collect (hsep : Separate st args) (arrays : Word → List RawValue) {p : ParamKind × Arg} (hp : p ∈ args)
    (hx : p.2.node = some x) (hother : ∀ q ∈ args, q.1.writes → q.2.node ≠ some x) :
    (writeVars (collect size st (args.zip cells)).args { st with arrays := arrays }).rtGet x = st.rtGet x := by
  refine (rtGet_writeVars (apart_collect (hsep.apart p hp x hx)) (fun q hq hw => ?_) ?_).trans rfl
  · obtain ⟨r, hr, hkind, hnode, -⟩ := mem_collect hq
    rw [hnode]
    exact hother r hr (hkind ▸ hw)
  · rintro ⟨q, hq, hw, hsome⟩
    obtain ⟨r, hr, hkind, hnode, -⟩ := mem_collect hq
    exact hsep.unused ⟨r, hr, hkind ▸ hw, hnode ▸ hsome⟩ p hp x hx

theorem shown_collect (hsep : Separate st args) (hsize : 0 < size)
    (hcells : Marshalled size st args cells) (arrays : Word → List RawValue)
    {p : ParamKind × Arg} (hp : p ∈ args) (hw : p.1.writes) (hx : p.2.node = some x) :
    ((writeVars (collect size st (args.zip cells)).args { st with arrays := arrays }).rtGet x).map (·.shown) =
      (st.rtGet x).map (·.shown) ↔ (¬ st.Hidden x → ∀ k, lastKind x args = some k → Fits size k p.2.value) := by
  have hst : ({ st with arrays := arrays } : State).Holds x p.2.value :=
    ⟨(hsep.stored hp hw hx).get, (hsep.stored hp hw hx).unused⟩
  have hapart : Apart x (collect size st (args.zip cells)).args := apart_collect (hsep.apart p hp x hx)
  rw [(hsep.stored hp hw hx).get]
  by_cases hhidden : ({ st with arrays := arrays } : State).Hidden x
  · rw [(holds_writeVars_hidden hapart hhidden hst).get]
    exact iff_of_true rfl fun h => absurd hhidden h
  · have hnil : ∀ q ∈ (collect size st (args.zip cells)).args, q.1.writes → q.2.node = some x →
        (q.2.value = .nil ↔ p.2.value = .nil) := by
      intro q hq hqw hqx
      obtain ⟨r, hr, hkind, hnode, k, c, fresh, hvalue⟩ := mem_collect hq
      rw [hvalue, writeBack_eq_nil, hsep.value_eq hp hw hx r hr (hkind ▸ hqw) (hnode.symm.trans hqx)]
    rw [(holds_writeVars hapart hnil hhidden hst).get, Option.map_some, Option.map_some, Option.some.injEq]
    rw [imp_iff_right (show ¬ st.Hidden x from hhidden)]
    rcases lastValue_collect hcells (hsep.value_eq hp hw hx) p.2.value with
      ⟨hnone, hlast⟩ | ⟨k, c, fresh, hk, hwrites, hc, hlast⟩
    · rw [hlast, hnone]
      exact iff_of_true rfl nofun
    · rw [hlast, hk, shown_writeBack hsize hwrites hc]
      exact ⟨fun h k' hk' => Option.some.inj hk' ▸ h, fun h => h k rfl⟩

theorem arrays_collect (hcells : Marshalled size st args cells) (d : Word) :
    ((collect size st (args.zip cells)).arrays d).map (·.shown) = (st.arrays d).map (·.shown) ↔
      ((∃ p ∈ args, p.1 = .arr ∧ p.2.value = .arr d ∧ d ≠ 0) → ∀ e ∈ st.arrays d, IsByte e) := by
  have hfold : (collect size st (args.zip cells)).arrays d = _ := foldl_scatter hcells (fun _ => rfl) d
  rw [hfold]
  split
  · rename_i hpassed
    rw [shown_bytesOf, imp_iff_right hpassed]
  · rename_i hpassed
    exact iff_of_true rfl fun h => absurd h hpassed

/-- A call that was made changes nothing if and only if its arguments are harmless. -/
theorem unchanged_collect (hsep : Separate st args) (hsize : 0 < size)
    (hcells : Marshalled size st args cells)
    (hstrings : ∀ p ∈ args, p.1 = .str → p.2.value.chars.isSome) :
    Unchanged st (writeVars (collect size st (args.zip cells)).args
      { st with arrays := (collect size st (args.zip cells)).arrays }) args ↔ Harmless size st args := by
  constructor
  · intro h
    refine ⟨hstrings, fun p hp hk d hd hne => ?_, fun p hp hw x hx => ?_⟩
    · have harr := (h p hp).2 d hd
      rw [arrays_writeVars] at harr
      exact (arrays_collect hcells d).mp harr ⟨p, hp, hk, hd, hne⟩
    · exact (shown_collect hsep hsize hcells _ hp hw hx).mp ((h p hp).1 x hx)
  · intro h p hp
    refine ⟨fun x hx => ?_, fun d hd => ?_⟩
    · by_cases hstored : ∃ q ∈ args, q.1.writes ∧ q.2.node = some x
      · obtain ⟨q, hq, hqw, hqx⟩ := hstored
        exact (shown_collect hsep hsize hcells _ hq hqw hqx).mpr (h.fits q hq hqw x hqx)
      · push Not at hstored
        rw [get_collect hsep _ hp hx hstored]
    · rw [arrays_writeVars]
      refine (arrays_collect hcells d).mpr ?_
      rintro ⟨q, hq, hk, hqd, hne⟩
      exact h.bytes q hq hk d hqd hne

theorem unchanged_refused (hsep : Separate st args) : Unchanged st (writeVars args st) args := by
  intro p hp
  refine ⟨fun x hx => ?_, fun d _ => by rw [arrays_writeVars]⟩
  by_cases hstored : ∃ q ∈ args, q.1.writes ∧ q.2.node = some x
  · obtain ⟨q, hq, hqw, hqx⟩ := hstored
    have hst := hsep.stored hq hqw hqx
    have hvalue := hsep.value_eq hq hqw hqx
    rw [hst.get]
    by_cases hhidden : st.Hidden x
    · rw [(holds_writeVars_hidden (hsep.apart q hq x hqx) hhidden hst).get]
    · have hlast := holds_writeVars (hsep.apart q hq x hqx) (fun r hr hrw hrx => by rw [hvalue r hr hrw hrx]) hhidden hst
      rw [lastValue_self hvalue] at hlast
      rw [hlast.get]
  · push Not at hstored
    rw [rtGet_writeVars (hsep.apart p hp x hx) hstored fun hany => hsep.unused hany p hp x hx]

theorem strBufSize_pos (configured : ℤ) : 0 < strBufSize configured := by
  rw [strBufSize]
  split
  · decide
  · split
    · decide
    · omega

/-- The call leaves the variables and arrays that were passed as they were. -/
def KeepsPassed (st : State) (f : List Cell → List Cell) (found : Bool) (configured : ℤ) (sig : Sig)
    (args : List Arg) : Prop :=
  ∃ st', ffiCall st f found configured sig args = some st' ∧ Unchanged st st' (withKinds sig.kinds args)

theorem fluxaFfiCall_called {f : List Cell → List Cell} {found : Bool} (h : Called found args) :
    fluxaFfiCall size st f found args = (do
      let cells ← marshalAll size st args
      return collect size st (args.zip (f cells))) := by
  rw [fluxaFfiCall, if_neg (by have := h.few; omega), h.found]
  rfl

/-- A frame in which a variable at slot 0 holds a number, with nothing else. -/
def oneInt (n : Word) : State where
  stack off := if off = 0 then .int n else .nil
  stackSize := 1
  scope _ := none
  fields _ := none
  globals _ := none
  pool _ := none
  shared := false
  callDepth := 0
  arrays _ := []
  dyns _ := []

def slotZero : Var := ⟨⟨some 0, false⟩, "x"⟩

def passVar (n : Word) : Arg := ⟨some slotZero, .int n, ⟨1, by decide⟩⟩

theorem separate_oneInt (n : Word) : Separate (oneInt n) (withKinds (Sig.kinds (some ["int*"])) [passVar n]) := by
  have hkinds : withKinds (Sig.kinds (some ["int*"])) [passVar n] = [(.ptrInt, passVar n)] := rfl
  rw [hkinds]
  refine ⟨fun p hp _ x hx => ?_, fun p hp x hx q hq _ y hy hne => ?_, fun _ p hp x hx off hoff hle => ?_⟩
  · cases List.mem_singleton.mp hp
    cases hx
    simp [State.rtGet, oneInt, slotZero, State.slotValue, passVar]
  · cases List.mem_singleton.mp hp
    cases List.mem_singleton.mp hq
    cases hx
    cases hy
    exact absurd rfl hne
  · cases List.mem_singleton.mp hp
    cases hx
    cases hoff
    exact absurd hle (Nat.not_succ_le_zero 0)

end Result

end Fluxa.Ffi
