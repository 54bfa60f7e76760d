import Fluxa.JsonMap

/-! The map law of `std.json` objects. Pairs without quotation marks and backslashes are read back from the text that
`json.set` makes of them, and the first pair with such a byte is not. -/

namespace Fluxa.StdJson

open StdLib Escaped
open Json (quotation backslash)
open HeaderText (isSpace isDigit strtol)
open Escaped (scan Plain)
open Decimal (intText)

/-- A pair that the reader gets back. -/
structure Sound (kv : Bytes × Val) : Prop where
  key : Plain kv.1
  val : kv.2.Plain
  keyFits : kv.1.length < jsonMaxKey
  valFits : kv.2.text.length < jsonMaxStr - 1

section Written

/-- The pairs with a comma in front of each. -/
def entriesText (ps : List (Bytes × Val)) : Bytes := ps.flatMap fun p => 44 :: pairText p.1 p.2.text

def written (ps : List (Bytes × Val)) : Bytes := 123 :: (entriesText ps).tail ++ [125]

variable {ps : List (Bytes × Val)} {key : Bytes}

theorem entriesText_cons (p : Bytes × Val) (ps : List (Bytes × Val)) :
    entriesText (p :: ps) = 44 :: pairText p.1 p.2.text ++ entriesText ps := by
  simp only [entriesText, List.flatMap_cons]

theorem entriesText_nil : entriesText [] = [] := rfl

theorem entriesText_append (ps qs : List (Bytes × Val)) : entriesText (ps ++ qs) = entriesText ps ++ entriesText qs :=
  List.flatMap_append

theorem delim_entriesText (ps : List (Bytes × Val)) {p : Bytes} (hp : Delim p) : Delim (entriesText ps ++ p) := by
  cases ps with
  | nil => exact hp
  | cons q ps => exact ⟨44, _, rfl, .inl rfl⟩

theorem findKeyLoop_entriesText_cons {p : Bytes × Val} (hp : Sound p) {q : Bytes} (hq : Delim q) :
    findKeyLoop key (entriesText (p :: ps) ++ q) =
      if p.1 = key then some (p.2.text ++ (entriesText ps ++ q)) else findKeyLoop key (entriesText ps ++ q) := by
  rw [entriesText_cons, List.cons_append, List.cons_append, findKeyLoop_comma, List.append_assoc,
    findKeyLoop_pair hp.key hp.keyFits hp.valFits, skipValue_text hp.val hp.valFits (delim_entriesText ps hq)]

theorem findKeyLoop_entriesText_none (hps : ∀ p ∈ ps, Sound p) (hkey : key ∉ ps.map (·.1)) {q : Bytes} (hq : Delim q) :
    findKeyLoop key (entriesText ps ++ q) = findKeyLoop key q := by
  induction ps with
  | nil => rfl
  | cons p ps ih =>
    obtain ⟨hp, hps⟩ := List.forall_mem_cons.mp hps
    obtain ⟨hne, hkey⟩ := not_or.mp (mt List.mem_cons.mpr hkey)
    rw [findKeyLoop_entriesText_cons hp hq, if_neg (Ne.symm hne), ih hps hkey]

theorem findKeyLoop_entriesText_some (hps : ∀ p ∈ ps, Sound p) {v : Val} (hkey : ps.lookup key = some v) {q : Bytes}
    (hq : Delim q) : ∃ r, Delim r ∧ findKeyLoop key (entriesText ps ++ q) = some (v.text ++ r) := by
  induction ps with
  | nil => cases hkey
  | cons p ps ih =>
    obtain ⟨hp, hps⟩ := List.forall_mem_cons.mp hps
    rw [findKeyLoop_entriesText_cons hp hq]
    by_cases h : p.1 = key
    · rw [List.lookup_cons, h, beq_self_eq_true] at hkey
      cases hkey
      rw [if_pos h]
      exact ⟨_, delim_entriesText ps hq, rfl⟩
    · rw [List.lookup_cons, beq_false_of_ne (Ne.symm h)] at hkey
      rw [if_neg h]
      exact ih hps hkey

theorem jsonFindKey_written (ps : List (Bytes × Val)) (key : Bytes) :
    jsonFindKey (written ps) key = findKeyLoop key (entriesText ps ++ [125]) := by
  rw [jsonFindKey, written, List.cons_append, jsonSkipWs_cons (by decide)]
  dsimp only
  rw [if_pos rfl]
  cases ps with
  | nil => rfl
  | cons p ps =>
    rw [entriesText_cons, List.cons_append, List.cons_append, findKeyLoop_comma]
    rfl

theorem delim_close : Delim [125] := ⟨125, [], rfl, .inr rfl⟩

def setPair (ps : List (Bytes × Val)) (kv : Bytes × Val) : List (Bytes × Val) := ps.filter (·.1 ≠ kv.1) ++ [kv]

theorem rebuildLoop_cons {c : UInt8} (hc : isSpace c = false) (first : Bool) (q : Bytes) :
    rebuildLoop key first (c :: q) = if c = 125 then ([], first) else if c = 44 then rebuildLoop key first q else
      match readKey (c :: q) with
      | none => ([], first)
      | some (kbuf, v) =>
        if kbuf = key then rebuildLoop key first (jsonSkipWs (skipValue v))
        else match rebuildLoop key false (jsonSkipWs (skipValue v)) with
          | (out, first') =>
            ((if first then [] else [44]) ++ pairText kbuf (v.take (v.length - (skipValue v).length)) ++ out,
              first') := by
  rw [rebuildLoop]
  split
  · rfl
  · split
    · rfl
    · split
      · rename_i h
        rw [jsonSkipWs_cons hc] at h
        rw [h]
      · rename_i h
        rw [jsonSkipWs_cons hc] at h
        rw [h]

/-- The comma that is missing in front of the first pair. -/
def separated (first : Bool) (p : Bytes) : Bytes := if first then p.tail else p

theorem jsonSkipWs_delim {p : Bytes} (hp : Delim p) : jsonSkipWs p = p := by
  obtain ⟨c, q, rfl, rfl | rfl⟩ := hp <;> rfl

theorem rebuildLoop_pair {k : Bytes} {v : Val} (hp : Sound (k, v)) {q : Bytes} (hq : Delim q) (first : Bool) :
    rebuildLoop key first (pairText k v.text ++ q) =
      if k = key then rebuildLoop key first q
      else (separated first (44 :: pairText k v.text) ++ (rebuildLoop key false q).1, (rebuildLoop key false q).2) := by
  have hread := readKey_pair hp.key hp.keyFits (v.text ++ q)
  rw [jsonSkipWs_text hp.valFits] at hread
  have hskip : skipValue (v.text ++ q) = q := skipValue_text hp.val hp.valFits hq
  have htake : (v.text ++ q).take ((v.text ++ q).length - q.length) = v.text := by
    rw [List.length_append, Nat.add_sub_cancel, List.take_left]
  rw [pairText_append]
  rw [pairText, List.cons_append] at hread ⊢
  rw [rebuildLoop_cons (by decide), if_neg (by decide), if_neg (by decide), hread]
  dsimp only
  rw [hskip, htake, jsonSkipWs_delim hq]
  cases first <;> rfl

theorem rebuildLoop_entriesText (hps : ∀ p ∈ ps, Sound p) (first : Bool) :
    rebuildLoop key first (entriesText ps ++ [125]) =
      (separated first (entriesText (ps.filter (·.1 ≠ key))), first && (ps.filter (·.1 ≠ key)).isEmpty) := by
  induction ps generalizing first with
  | nil =>
    rw [entriesText, List.flatMap_nil, List.nil_append, rebuildLoop_cons (by decide), if_pos rfl]
    cases first <;> rfl
  | cons p ps ih =>
    obtain ⟨hp, hps⟩ := List.forall_mem_cons.mp hps
    rw [entriesText_cons, List.cons_append, List.cons_append, rebuildLoop_cons (by decide), if_neg (by decide),
      if_pos rfl, List.append_assoc, rebuildLoop_pair hp (delim_entriesText ps delim_close)]
    by_cases h : p.1 = key
    · rw [if_pos h, ih hps, List.filter_cons_of_neg (by simp [h])]
    · rw [if_neg h, ih hps, List.filter_cons_of_pos (by simp [h]), entriesText_cons]
      cases first <;> rfl

theorem beforeLast_concat (c : UInt8) (p : Bytes) : beforeLast c (p ++ [c]) = some p := by
  rw [beforeLast, List.reverse_append, List.reverse_singleton, List.singleton_append,
    List.dropWhile_cons_of_neg (by simp)]
  exact congrArg some (List.reverse_reverse p)

theorem tail_entriesText_append (ps : List (Bytes × Val)) (p : Bytes × Val) :
    (entriesText (ps ++ [p])).tail =
      (entriesText ps).tail ++ (if ps.isEmpty then [] else [44]) ++ pairText p.1 p.2.text := by
  rw [entriesText_append, entriesText_cons]
  cases ps with
  | nil => simp [entriesText]
  | cons q ps => simp [entriesText_cons, entriesText_nil]

theorem jsonFindKey_eq_none (hps : ∀ p ∈ ps, Sound p) (hkey : key ∉ ps.map (·.1)) :
    jsonFindKey (written ps) key = none := by
  rw [jsonFindKey_written, findKeyLoop_entriesText_none hps hkey delim_close, findKeyLoop_close]

theorem lookup_isSome : (ps.lookup key).isSome ↔ key ∈ ps.map (·.1) := by
  rw [List.lookup_isSome_iff, List.mem_map]
  simp only [beq_iff_eq, eq_comm (a := key)]

theorem jsonFindKey_isSome (hps : ∀ p ∈ ps, Sound p) : (jsonFindKey (written ps) key).isSome ↔ key ∈ ps.map (·.1) := by
  rw [← lookup_isSome]
  cases h : ps.lookup key with
  | none =>
    have hkey : key ∉ ps.map (·.1) := fun hmem => by
      rw [← lookup_isSome, h] at hmem
      cases hmem
    simp [jsonFindKey_eq_none hps hkey]
  | some v =>
    obtain ⟨r, -, hr⟩ := findKeyLoop_entriesText_some hps h delim_close
    simp [jsonFindKey_written, hr]

theorem set_brace (p key val : Bytes) :
    set (123 :: p) key val =
      if (jsonFindKey (123 :: p) key).isSome then
        .ok (123 :: (rebuildLoop key true (jsonSkipWs p)).1 ++
          (if (rebuildLoop key true (jsonSkipWs p)).2 then [] else [44]) ++ pairText key val ++ [125])
      else
        match beforeLast 125 ((123 :: p).take (jsonMaxStr * 2 - 1)) with
        | none => .error (jsonErr "set" (ascii "json.set: malformed JSON object"))
        | some front =>
          if (jsonSkipWs ((123 :: p).take (jsonMaxStr * 2 - 1)).tail).head? = some 125 then
            .ok (123 :: pairText key val ++ [125])
          else .ok (front ++ 44 :: pairText key val ++ [125]) := rfl

/-- One call, on an object whose pairs the reader gets back. The new pair can be any. -/
theorem set_written (hps : ∀ p ∈ ps, Sound p) (hlen : (written ps).length < jsonMaxStr * 2 - 1) (kv : Bytes × Val) :
    set (written ps) kv.1 kv.2.text = .ok (written (setPair ps kv)) := by
  have hwritten : written (setPair ps kv) = 123 :: ((entriesText (ps.filter (·.1 ≠ kv.1))).tail ++
      (if (ps.filter (·.1 ≠ kv.1)).isEmpty then [] else [44]) ++ pairText kv.1 kv.2.text) ++ [125] := by
    rw [written, setPair, tail_entriesText_append]
  have hset := set_brace ((entriesText ps).tail ++ [125]) kv.1 kv.2.text
  rw [← List.cons_append, ← written] at hset
  rw [hset, hwritten]
  split
  · -- the pair is written anew
    have hbody : rebuildLoop kv.1 true (jsonSkipWs ((entriesText ps).tail ++ [125])) =
        rebuildLoop kv.1 true (entriesText ps ++ [125]) := by
      cases ps with
      | nil => rfl
      | cons p ps =>
        rw [entriesText_cons, List.cons_append, List.cons_append, rebuildLoop_cons (by decide), if_neg (by decide),
          if_pos rfl]
        rfl
    rw [hbody, rebuildLoop_entriesText hps, Bool.true_and]
    simp [separated]
  · -- the pair is appended
    rename_i hnone
    have hkey : kv.1 ∉ ps.map (·.1) := fun hmem => hnone ((jsonFindKey_isSome hps).mpr hmem)
    have hfilter : ps.filter (·.1 ≠ kv.1) = ps := by
      apply List.filter_eq_self.mpr
      intro p hp
      exact decide_eq_true fun h : p.1 = kv.1 => hkey (h ▸ List.mem_map_of_mem hp)
    rw [List.take_of_length_le (Nat.le_of_lt hlen), hfilter, written, beforeLast_concat]
    cases ps with
    | nil => rfl
    | cons p ps =>
      simp only [List.isEmpty_cons, entriesText_cons]
      rw [if_neg]
      · simp
      · intro h
        have hquote : quotation = 125 := Option.some.inj h
        exact absurd hquote (by decide)

end Written

section Law

variable {ps kvs : List (Bytes × Val)} {k : Bytes} {v : Val} {o : Bytes}

theorem valueAt_ok (fn : String) (h : jsonFindKey o k = some (v.text ++ p)) (hv : v.text.length < jsonMaxStr - 1) :
    valueAt fn o k = .ok (v.text ++ p) := by
  rw [valueAt, h]
  exact congrArg Except.ok (jsonSkipWs_text hv p)

theorem getInt_eq {vp : Bytes} (h : valueAt "get_int" o k = .ok vp) :
    getInt o k =
      if converts vp then .ok (strtol vp) else .error (jsonErr "get_int" (ascii "value is not an integer")) := by
  rw [getInt, h]
  rfl

theorem getBool_eq {vp : Bytes} (h : valueAt "get_bool" o k = .ok vp) :
    getBool o k =
      if trueText <+: vp then .ok true
      else if falseText <+: vp then .ok false
      else .error (jsonErr "get_bool" (ascii "value is not a boolean")) := by
  rw [getBool, h]
  rfl

theorem getStr_eq {vp s q : Bytes} (h : valueAt "get_str" o k = .ok vp)
    (hread : jsonReadString jsonMaxStr vp = some (s, q)) : getStr o k = .ok s := by
  rw [getStr, h]
  change (match jsonReadString jsonMaxStr vp with | none => _ | some (vbuf, _) => _) = _
  rw [hread]

theorem converts_intText (i : ℤ) (p : Bytes) : converts (intText i ++ p) := by
  obtain ⟨d, ds, hds⟩ := List.exists_cons_of_ne_nil (Decimal.natText_ne_nil i.natAbs)
  have hd : isDigit d := Decimal.isDigit_of_mem_natText (hds ▸ List.mem_cons_self)
  rw [intText, hds]
  split
  · exact hd
  · rw [List.cons_append, converts, hd, Bool.true_or]

theorem readFrom_of_find (hv : v.Plain) (hlen : v.text.length < jsonMaxStr - 1) {p : Bytes} (hp : Delim p)
    (h : jsonFindKey o k = some (v.text ++ p)) : v.ReadFrom o k := by
  cases v with
  | int n =>
    have hdigit : ∀ d ∈ p.head?, isDigit d = false := by
      obtain ⟨c, q, rfl, rfl | rfl⟩ := hp <;> simp <;> decide
    rw [Val.ReadFrom, getInt_eq (valueAt_ok "get_int" h hlen), Val.text, fromInt, if_pos (converts_intText _ p),
      Decimal.strtol_intText n.le_toInt n.toInt_lt hdigit]
  | bool b =>
    rw [Val.ReadFrom, getBool_eq (valueAt_ok "get_bool" h hlen)]
    cases b with
    | true => exact if_pos (List.prefix_append _ _)
    | false =>
      have hne : ¬ trueText <+: falseText ++ p := by simp [trueText, falseText]
      exact (if_neg hne).trans (if_pos (List.prefix_append _ _))
  | str s =>
    obtain ⟨htext, hshort⟩ := fromStr_eq hlen
    have hread : jsonReadString jsonMaxStr ((Val.str s).text ++ p) = some (s, p) := by
      rw [Val.text, htext, List.append_assoc, List.singleton_append]
      exact jsonReadString_plain hv (by omega) p
    exact getStr_eq (valueAt_ok "get_str" h hlen) hread

def entries (kvs : List (Bytes × Val)) : List (Bytes × Val) := kvs.foldl setPair []

theorem entries_concat (kvs : List (Bytes × Val)) (kv : Bytes × Val) :
    entries (kvs ++ [kv]) = setPair (entries kvs) kv := List.foldl_concat _ _ _ _

theorem lookup_filter_ne {j : Bytes} (hj : j ≠ k) (ps : List (Bytes × Val)) :
    (ps.filter (·.1 ≠ k)).lookup j = ps.lookup j := by
  induction ps with
  | nil => rfl
  | cons p ps ih =>
    by_cases hp : p.1 = k
    · rw [List.filter_cons_of_neg (by simp [hp]), ih, List.lookup_cons, hp, beq_false_of_ne hj]
    · rw [List.filter_cons_of_pos (by simp [hp]), List.lookup_cons, List.lookup_cons, ih]

theorem lookup_filter_self (ps : List (Bytes × Val)) : (ps.filter (·.1 ≠ k)).lookup k = none := by
  rw [← Option.not_isSome_iff_eq_none, lookup_isSome, List.mem_map]
  rintro ⟨p, hp, rfl⟩
  simp at hp

theorem lookup_setPair (ps : List (Bytes × Val)) (kv : Bytes × Val) (j : Bytes) :
    (setPair ps kv).lookup j = if j = kv.1 then some kv.2 else ps.lookup j := by
  rw [setPair, List.lookup_append]
  split
  · rename_i h
    rw [h, lookup_filter_self, List.lookup_cons, beq_self_eq_true]
    rfl
  · rename_i h
    rw [lookup_filter_ne h, List.lookup_cons, beq_false_of_ne h]
    exact Option.or_none

theorem latest_concat (kvs : List (Bytes × Val)) (kv : Bytes × Val) (j : Bytes) :
    latest (kvs ++ [kv]) j = if j = kv.1 then some kv.2 else latest kvs j := by
  rw [latest, List.reverse_append, List.reverse_singleton, List.singleton_append, List.lookup_cons]
  split <;> simp_all [latest]

theorem lookup_entries (kvs : List (Bytes × Val)) (j : Bytes) : (entries kvs).lookup j = latest kvs j := by
  induction kvs using List.reverseRecOn with
  | nil => rfl
  | append_singleton kvs kv ih => rw [entries_concat, lookup_setPair, latest_concat, ih]

theorem mem_keys_iff : k ∈ (entries kvs).map (·.1) ↔ k ∈ kvs.map (·.1) := by
  rw [← lookup_isSome, lookup_entries, latest, lookup_isSome]
  simp

theorem mem_of_mem_entries {p : Bytes × Val} (hp : p ∈ entries kvs) : p ∈ kvs := by
  induction kvs using List.reverseRecOn with
  | nil => cases hp
  | append_singleton kvs kv ih =>
    rw [entries_concat, setPair, List.mem_append] at hp
    rcases hp with hp | hp
    · exact List.mem_append_left _ (ih (List.mem_filter.mp hp).1)
    · exact List.mem_append_right _ hp

theorem setAll_concat (o : Bytes) (kvs : List (Bytes × Val)) (kv : Bytes × Val) :
    setAll o (kvs ++ [kv]) = setAll o kvs >>= fun o => set o kv.1 kv.2.text := by
  induction kvs generalizing o with
  | nil =>
    simp only [List.nil_append, setAll]
    exact bind_pure _
  | cons p kvs ih =>
    simp only [List.cons_append, setAll, bind_assoc, ih]

theorem setAll_concat_written (hkvs : ∀ p ∈ kvs, Sound p) (hrun : setAll object kvs = .ok (written (entries kvs)))
    (hlen : (written (entries kvs)).length < jsonMaxStr * 2 - 1) (kv : Bytes × Val) :
    setAll object (kvs ++ [kv]) = .ok (written (entries (kvs ++ [kv]))) := by
  have hsound : ∀ p ∈ entries kvs, Sound p := fun p hp => hkvs p (mem_of_mem_entries hp)
  rw [setAll_concat, hrun, entries_concat, ← set_written hsound hlen kv]
  rfl

theorem setAll_written (hkvs : ∀ kv ∈ kvs, Sound kv)
    (hobj : ∀ pre, pre <+: kvs → ∀ o, setAll object pre = .ok o → o.length < jsonMaxStr * 2 - 1) :
    setAll object kvs = .ok (written (entries kvs)) := by
  induction kvs using List.reverseRecOn with
  | nil => rfl
  | append_singleton kvs kv ih =>
    have hbefore : ∀ p ∈ kvs, Sound p := fun p hp => hkvs p (List.mem_append_left _ hp)
    have hrun := ih hbefore fun pre hpre => hobj pre (hpre.trans (List.prefix_append _ _))
    exact setAll_concat_written hbefore hrun (hobj kvs (List.prefix_append _ _) _ hrun) kv

theorem represents_written (hkvs : ∀ kv ∈ kvs, Sound kv) : Represents (written (entries kvs)) kvs := by
  have hsound : ∀ p ∈ entries kvs, Sound p := fun p hp => hkvs p (mem_of_mem_entries hp)
  intro k
  constructor
  · rw [has, jsonFindKey_isSome hsound, mem_keys_iff]
  · intro v hv
    rw [← lookup_entries] at hv
    obtain ⟨r, hr, hfind⟩ := findKeyLoop_entriesText_some hsound hv delim_close
    obtain ⟨l₁, l₂, hsplit, -⟩ := List.lookup_eq_some_iff.mp hv
    have hkv : Sound (k, v) := hsound (k, v) (hsplit ▸ List.mem_append_right l₁ List.mem_cons_self)
    exact readFrom_of_find hkv.val hkv.valFits hr ((jsonFindKey_written _ k).trans hfind)

end Law

section Broken

variable {k t : Bytes} {v : Val}

theorem clear_text (hv : v.text.length < jsonMaxStr - 1) {p : Bytes} (hp : Clear p) :
    Clear (v.text ++ p) := by
  rcases text_cases v hv with ⟨-, hbare⟩ | ⟨s, -, hs, -⟩
  · apply clear_append _ hp
    exact fun h => (isBare_ne (hbare _ h)).2.2.1 rfl
  · rw [hs]
    exact clear_quotation _

theorem clear_colon (hv : v.text.length < jsonMaxStr - 1) : Clear (58 :: v.text ++ [125]) :=
  clear_cons (by decide) (clear_text hv (clear_cons (by decide) clear_nil))

theorem getStr_ok {o s : Bytes} (h : getStr o k = .ok s) :
    ∃ vp r, jsonFindKey o k = some vp ∧ jsonSkipWs vp = quotation :: r ∧ s = (scan (jsonMaxStr - 1) r).1 := by
  cases hfind : jsonFindKey o k with
  | none =>
    rw [getStr, valueAt, hfind] at h
    cases h
  | some vp =>
    cases hread : jsonReadString jsonMaxStr (jsonSkipWs vp) with
    | none =>
      have herr : getStr o k = .error (jsonErr "get_str" (ascii "key '" ++ k ++ ascii "' is not a string")) := by
        rw [getStr, valueAt, hfind]
        change (match jsonReadString jsonMaxStr (jsonSkipWs vp) with | none => _ | some (vbuf, _) => _) = _
        rw [hread]
      rw [herr] at h
      cases h
    | some sq =>
      have hok : getStr o k = .ok sq.1 := getStr_eq (by rw [valueAt, hfind]) hread
      rw [hok] at h
      cases h
      obtain ⟨r, hr, hs, -⟩ := jsonReadString_suffix hread
      exact ⟨vp, r, rfl, hr, hs⟩

theorem val_plain_of_readFrom {o : Bytes} (hv : v.text.length < jsonMaxStr - 1)
    (hfind : jsonFindKey o k = some (v.text ++ [125])) (hread : v.ReadFrom o k) : v.Plain := by
  rcases text_cases v hv with ⟨-, hbare⟩ | ⟨s, rfl, hs, -⟩
  · cases v with
    | int n => trivial
    | bool b => trivial
    | str s =>
      have hmem : quotation ∈ (Val.str s).text := by
        rw [Val.text, (fromStr_eq hv).1]
        exact List.mem_cons_self
      exact absurd rfl (isBare_ne (hbare quotation hmem)).2.1
  · obtain ⟨vp, r, hvp, hskip, hscan⟩ := getStr_ok hread
    rw [hfind] at hvp
    cases hvp
    rw [jsonSkipWs_text hv, hs, List.append_assoc] at hskip
    have hr : r = s ++ quotation :: [125] := (List.cons.inj hskip).2.symm
    rw [hr] at hscan
    have hclose : Clear [125] := clear_cons (by decide) clear_nil
    exact plain_of_scan hclose List.suffix_rfl hscan.symm

theorem key_plain_of_readFrom {o vp : Bytes} (hv : v.text.length < jsonMaxStr - 1) (hvp : jsonFindKey o k = some vp)
    (hfind : findKeyLoop k (pairText k v.text ++ [125]) = some vp) (hread : v.ReadFrom o k) : Plain k := by
  by_contra hk
  obtain ⟨r, ⟨p, hp⟩, hscan, hlen⟩ := findKeyLoop_some hfind
  have hcolon : r ≠ 58 :: v.text ++ [125] := by
    rintro rfl
    exact hk (hscan ▸ plain_scan _ (clear_colon hv))
  rw [pairText, List.append_assoc] at hp
  -- the string that is read as the key begins in the key, behind it, or in the value
  rcases List.append_eq_append_iff.mp hp with ⟨as, hkey, hr⟩ | ⟨bs, -, hrest⟩
  · cases as with
    | nil => exact hcolon (List.cons.inj hr).2
    | cons c r' =>
      obtain ⟨rfl, rfl⟩ := List.cons.inj hr
      have hsuffix : quotation :: r' <:+ quotation :: k := ⟨p, hkey.symm⟩
      have hr' : r' <:+ k := by
        rcases List.suffix_cons_iff.mp hsuffix with h | h
        · rw [(List.cons.inj h).2]
        · exact (List.suffix_cons _ r').trans h
      exact hk (plain_of_scan (clear_colon hv) hr' hscan)
  · cases bs with
    | nil => exact hcolon (List.cons.inj hrest).2.symm
    | cons b bs =>
      cases bs with
      | nil => exact absurd (List.cons.inj (List.cons.inj hrest).2).1 (by decide)
      | cons c bs =>
        have hin : v.text ++ [125] = bs ++ quotation :: r := (List.cons.inj (List.cons.inj hrest).2).2
        rcases text_cases v hv with ⟨-, hbare⟩ | ⟨s, rfl, hs, -⟩
        · have hmem : quotation ∈ v.text ++ [125] := hin ▸ List.mem_append_right _ List.mem_cons_self
          rcases List.mem_append.mp hmem with h | h
          · exact (isBare_ne (hbare _ h)).2.1 rfl
          · exact absurd (List.mem_singleton.mp h) (by decide)
        · -- the string that is read is shorter than the one that was set
          obtain ⟨vp', w, hvp', hskip, hw⟩ := getStr_ok hread
          rw [hvp] at hvp'
          cases hvp'
          have hkne : k ≠ [] := by
            rintro rfl
            exact hk plain_nil
          have h₁ := List.length_pos_of_ne_nil hkne
          have h₂ := congrArg List.length hin
          have h₃ := (jsonSkipWs_suffix vp).length_le
          have h₄ := length_scan (jsonMaxStr - 1) w
          rw [hs] at h₂
          rw [hskip] at h₃
          rw [← hw] at h₄
          simp only [List.length_append, List.length_cons, List.length_nil] at h₂ h₃
          omega

end Broken

section Main

variable {kvs : List (Bytes × Val)}

theorem plain_of_represents {kv : Bytes × Val} (hkvs : ∀ kv ∈ kvs, Sound kv) (hkey : kv.1.length < jsonMaxKey)
    (hval : kv.2.text.length < jsonMaxStr - 1) (h : Represents (written (entries (kvs ++ [kv]))) (kvs ++ [kv])) :
    Plain kv.1 ∧ kv.2.Plain := by
  obtain ⟨hhas, hread⟩ := h kv.1
  have hread := hread kv.2 (by rw [latest_concat, if_pos rfl])
  have hsome : has (written (entries (kvs ++ [kv]))) kv.1 := hhas.mpr (by simp)
  obtain ⟨vp, hvp⟩ := Option.isSome_iff_exists.mp hsome
  have hothers : ∀ p ∈ (entries kvs).filter (·.1 ≠ kv.1), Sound p :=
    fun p hp => hkvs p (mem_of_mem_entries (List.mem_filter.mp hp).1)
  have hnot : kv.1 ∉ ((entries kvs).filter (·.1 ≠ kv.1)).map (·.1) := by
    rw [List.mem_map]
    rintro ⟨p, hp, heq⟩
    exact of_decide_eq_true (List.mem_filter.mp hp).2 heq
  have hfind : findKeyLoop kv.1 (pairText kv.1 kv.2.text ++ [125]) = some vp := by
    have hdelim : Delim (entriesText [kv] ++ [125]) := ⟨44, _, rfl, .inl rfl⟩
    rw [← hvp, entries_concat, setPair, jsonFindKey_written, entriesText_append, List.append_assoc,
      findKeyLoop_entriesText_none hothers hnot hdelim, entriesText_cons, entriesText_nil, List.append_nil,
      List.cons_append, findKeyLoop_comma]
  have hplain := key_plain_of_readFrom hval hvp hfind hread
  rw [findKeyLoop_pair hplain hkey hval, if_pos rfl] at hfind
  exact ⟨hplain, val_plain_of_readFrom hval (hvp.trans hfind.symm) hread⟩

theorem WithinLimits.of_prefix (h : WithinLimits kvs) {pre : List (Bytes × Val)} (hpre : pre <+: kvs) :
    WithinLimits pre where
  key kv hkv := h.key kv (hpre.subset hkv)
  val kv hkv := h.val kv (hpre.subset hkv)
  obj p hp := h.obj p (hp.trans hpre)

theorem WithinLimits.sound (h : WithinLimits kvs) (hplain : ∀ kv ∈ kvs, Plain kv.1 ∧ kv.2.Plain) :
    ∀ kv ∈ kvs, Sound kv := by
  intro kv hkv
  exact ⟨(hplain kv hkv).1, (hplain kv hkv).2, (h.key kv hkv).2, (h.val kv hkv).2⟩

theorem isMap_of_plain (h : WithinLimits kvs) (hplain : ∀ kv ∈ kvs, Plain kv.1 ∧ kv.2.Plain) : IsMap kvs :=
  ⟨_, setAll_written (h.sound hplain) h.obj, represents_written (h.sound hplain)⟩

theorem plain_of_isMap {kv : Bytes × Val} (h : WithinLimits (kvs ++ [kv]))
    (hplain : ∀ kv ∈ kvs, Plain kv.1 ∧ kv.2.Plain) (hmap : IsMap (kvs ++ [kv])) : Plain kv.1 ∧ kv.2.Plain := by
  have hpre := h.of_prefix (List.prefix_append kvs [kv])
  have hsound := hpre.sound hplain
  have hrun := setAll_written hsound hpre.obj
  have hkv : kv ∈ kvs ++ [kv] := List.mem_append_right _ List.mem_cons_self
  obtain ⟨o, ho, hrep⟩ := hmap
  rw [setAll_concat_written hsound hrun (hpre.obj kvs List.prefix_rfl _ hrun)] at ho
  cases ho
  exact plain_of_represents hsound (h.key kv hkv).2 (h.val kv hkv).2 hrep

/-- The objects of a sequence of `json.set` calls behave as maps if and only if no key and no string that is set holds a
quotation mark or a backslash. -/
theorem objects_are_maps_iff (h : WithinLimits kvs) :
    (∀ pre, pre <+: kvs → IsMap pre) ↔ ∀ kv ∈ kvs, Plain kv.1 ∧ kv.2.Plain := by
  constructor
  · intro hmap
    induction kvs using List.reverseRecOn with
    | nil => exact fun kv hkv => nomatch hkv
    | append_singleton kvs kv ih =>
      have hpre := List.prefix_append kvs [kv]
      have hplain := ih (h.of_prefix hpre) fun pre hp => hmap pre (hp.trans hpre)
      intro p hp
      rcases List.mem_append.mp hp with hp | hp
      · exact hplain p hp
      · rw [List.mem_singleton.mp hp]
        exact plain_of_isMap h hplain (hmap _ List.prefix_rfl)
  · intro hplain pre hpre
    exact isMap_of_plain (h.of_prefix hpre) fun kv hkv => hplain kv (hpre.subset hkv)

theorem withinLimits_of_inits (hkey : ∀ kv ∈ kvs, 0 ∉ kv.1 ∧ kv.1.length < jsonMaxKey)
    (hval : ∀ kv ∈ kvs, 0 ∉ kv.2.text ∧ kv.2.text.length < jsonMaxStr - 1)
    (hobj : ∀ pre ∈ kvs.inits, ∀ o ∈ (setAll object pre).toOption, o.length < jsonMaxStr * 2 - 1) :
    WithinLimits kvs where
  key := hkey
  val := hval
  obj pre hpre o ho := hobj pre ((List.mem_inits pre kvs).mpr hpre) o (by rw [ho]; rfl)

def twoCalls : List (Bytes × Val) := [(ascii "a", .int 5), (ascii "a", .str (ascii "x"))]

theorem two_calls_are_map : WithinLimits twoCalls ∧ ∀ pre, pre <+: twoCalls → IsMap pre := by
  have h : WithinLimits twoCalls := withinLimits_of_inits (by decide +kernel) (by decide +kernel) (by decide +kernel)
  refine ⟨h, (objects_are_maps_iff h).mpr ?_⟩
  intro kv hkv
  rcases List.mem_pair.mp hkv with rfl | rfl
  · exact ⟨by decide +kernel, trivial⟩
  · exact ⟨by decide +kernel, show Plain (ascii "x") by decide +kernel⟩

def quotedCall : List (Bytes × Val) := [(ascii "a", .str (ascii "x\"y"))]

/-- It is read back without what stands behind the mark. -/
theorem quoted_string_is_cut : WithinLimits quotedCall ∧ ¬ IsMap quotedCall := by
  refine ⟨withinLimits_of_inits (by decide +kernel) (by decide +kernel) (by decide +kernel), ?_⟩
  rintro ⟨o, ho, hrep⟩
  have hrun : setAll object quotedCall = .ok (ascii "\x7b\"a\":\"x\"y\"\x7d") := by decide +kernel
  rw [hrun] at ho
  cases ho
  have hread : getStr (ascii "\x7b\"a\":\"x\"y\"\x7d") (ascii "a") = .ok (ascii "x\"y") :=
    (hrep (ascii "a")).2 (.str (ascii "x\"y")) (by decide +kernel)
  exact absurd hread (by decide +kernel)

end Main

end Fluxa.StdJson
