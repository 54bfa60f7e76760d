import Fluxa.WsHttp

/-! Where the requests of a connection end according to RFC 9112, and for which heads the reader of `WsHttp` agrees. -/

namespace Fluxa.Wserver

open HeaderText

/-- Method, target and version of a request line. -/
def requestLine (line : Bytes) : Option (Bytes × Bytes × Bytes) :=
  match line.dropWhile (· != 32) with
  | [] => none
  | _ :: ps =>
    match ps.dropWhile (· != 32) with
    | [] => none
    | _ :: version => some (line.takeWhile (· != 32), ps.takeWhile (· != 32), version)

/-- Every `Content-Length` field states the length `n`. RFC 9112 allows the same number several times. -/
def StatesLength (lc : Bytes) (n : ℕ) : Prop :=
  ∀ f ∈ fields lc, fieldName f = ascii "content-length" →
    ∃ v, f = ascii "content-length:" ++ v ∧ ∀ e ∈ elements v, number e = some n

/-- A connection is kept by default in version 1.1, and in no other. -/
def keeps (version connection : Bytes) : Bool :=
  if lower version = ascii "http/1.1" then !regionHas connection "close" else regionHas connection "keep-alive"

/-- A request has the extent that its head gives it. -/
structure Framed (head : Bytes) (req : Request) : Prop where
  line : ∃ version, requestLine (takeLine head) = some (req.method, req.path, version) ∧
    req.keepAlive = keeps version (connection (lower head))
  plain : ∀ f ∈ fields (lower head), fieldName f ≠ ascii "transfer-encoding"
  stated : StatesLength (lower head) req.body.length
  absent : (∀ f ∈ fields (lower head), fieldName f ≠ ascii "content-length") → req.body = []

/-- The stream begins with the request: a head up to the first blank line, and the body. -/
def Follows (s : Bytes) (req : Request) (rest : Bytes) : Prop :=
  ∃ head, s = head ++ blankLine ++ req.body ++ rest ∧ (∀ k < head.length, ¬ blankLine <+: s.drop k) ∧ Framed head req

def headOf (s : Bytes) : Bytes := s.take ((find blankLine s).getD s.length)

/-- A head that the reader understands. The text `HTTP/1.1` elsewhere than in the version does no harm if the
`Connection` field has either `close` or `keep-alive`. -/
structure Proper (head : Bytes) : Prop where
  line : ∃ method path version, requestLine (takeLine head) = some (method, path, version) ∧
    (lower version = ascii "http/1.1" ∨ ¬ ascii "http/1.1" <:+: lower head ∨
      regionHas (connection (lower head)) "close" ≠ regionHas (connection (lower head)) "keep-alive")
  plain : ∀ f ∈ fields (lower head), fieldName f ≠ ascii "transfer-encoding"
  stated : ∃ n, StatesLength (lower head) n

section Lengths

variable {lc : Bytes} {n : ℕ}

theorem mem_fields {f : Bytes} : f ∈ fields lc ↔ ∃ t ∈ lineStarts lc, startsBlank t = false ∧ logical t = f := by
  simp [fields, and_assoc]

theorem fields_of_find {cl : ℕ} (h : find (crlf ++ ascii "content-length:") lc = some cl) :
    ascii "content-length:" ++ logical (lc.drop (cl + 17)) ∈ fields lc := by
  obtain ⟨hmem, r, hr⟩ := find_line_eq_some h
  have hdrop : lc.drop (cl + 17) = r := by
    have hlen : (ascii "content-length:").length = 15 := by decide +kernel
    have hdrop : (ascii "content-length:" ++ r).drop (ascii "content-length:").length = r := List.drop_left
    rw [hr, hlen, List.drop_drop] at hdrop
    exact hdrop
  rw [← hr] at hmem
  refine mem_fields.mpr ⟨_, hmem, ?_, ?_⟩
  · have hhead : (ascii "content-length:").head? = some 99 := by decide +kernel
    rw [startsBlank, List.head?_append, hhead]
    rfl
  · rw [hdrop]
    exact logical_append (by decide +kernel) r

theorem fieldName_contentLength (v : Bytes) : fieldName (ascii "content-length:" ++ v) = ascii "content-length" := by
  have hsplit : ascii "content-length:" = ascii "content-length" ++ [58] := by decide +kernel
  have hplain : ∀ b ∈ ascii "content-length", (b != 58) = true := by decide +kernel
  have htrim : trim (ascii "content-length") = ascii "content-length" := by decide +kernel
  rw [fieldName, hsplit, List.append_assoc, List.takeWhile_append_of_pos hplain, List.singleton_append,
    List.takeWhile_cons_of_neg (by decide), List.append_nil, htrim]

theorem find_of_fields {v : Bytes} (h : ascii "content-length:" ++ v ∈ fields lc) :
    find (crlf ++ ascii "content-length:") lc ≠ none := by
  obtain ⟨t, ht, -, hlog⟩ := mem_fields.mp h
  intro hnone
  have hplain : ∀ b ∈ ascii "content-length:", ¬ isBlank b := by decide +kernel
  exact find_line_eq_none.mp hnone t ht (prefix_of_logical hplain ⟨v, hlog.symm⟩)

theorem contentLength_cases (h : StatesLength lc n) :
    contentLength lc = min (2 ^ 63 - 1) (n : ℤ) ∧ (∃ f ∈ fields lc, fieldName f = ascii "content-length") ∨
      contentLength lc = 0 ∧ ∀ f ∈ fields lc, fieldName f ≠ ascii "content-length" := by
  unfold contentLength
  cases hfind : find (crlf ++ ascii "content-length:") lc with
  | none =>
    refine .inr ⟨rfl, ?_⟩
    intro f hf hname
    obtain ⟨v, rfl, -⟩ := h f hf hname
    exact find_of_fields hf hfind
  | some cl =>
    have hf := fields_of_find hfind
    have hname := fieldName_contentLength (logical (lc.drop (cl + 17)))
    obtain ⟨v, hv, hnumber⟩ := h _ hf hname
    obtain ⟨es, hes⟩ := elements_eq_cons v
    have hfirst := hnumber _ (hes ▸ List.mem_cons_self)
    rw [← List.append_cancel_left hv] at hfirst
    exact .inl ⟨strtol_eq_number hfirst, _, hf, hname⟩

end Lengths

section Heads

variable {lim : Limits} {head : Bytes} {parsed : Head}

theorem parseHead_eq_some (h : parseHead lim head = some parsed) :
    ∃ sp ps, head.dropWhile (· != 32) = sp :: ps ∧ parsed.method = head.takeWhile (· != 32) ∧
      parsed.path = ps.takeWhile (· != 32) ∧
      parsed.keepAlive = (if (find (ascii "http/1.1") (lower head)).isSome
        then !regionHas (connection (lower head)) "close" else regionHas (connection (lower head)) "keep-alive") ∧
      (0 ≤ contentLength (lower head) → parsed.clen = contentLength (lower head)) ∧ parsed.clen ≤ lim.maxBodyBytes := by
  unfold parseHead at h
  split at h
  · cases h
  · rename_i sp ps hsp
    obtain ⟨-, h⟩ := Option.ite_none_left_eq_some.mp h
    split at h
    · cases h
    · obtain ⟨hmax, h⟩ := Option.ite_none_left_eq_some.mp h
      cases h
      refine ⟨sp, ps, hsp, rfl, rfl, rfl, ?_, ?_⟩
      · intro hnonneg
        simp only [if_neg (not_lt.mpr hnonneg), Int.toNat_of_nonneg hnonneg]
      · exact Int.toNat_le.mpr (not_lt.mp hmax)

theorem dropWhile_append {p : UInt8 → Bool} {l r t : Bytes} {x : UInt8} (h : l.dropWhile p = x :: r) :
    (l ++ t).dropWhile p = x :: (r ++ t) ∧ (l ++ t).takeWhile p = l.takeWhile p := by
  induction l with
  | nil => cases h
  | cons b l ih =>
    by_cases hb : p b
    · rw [List.dropWhile_cons_of_pos hb] at h
      obtain ⟨hdrop, htake⟩ := ih h
      rw [List.cons_append, List.dropWhile_cons_of_pos hb, List.takeWhile_cons_of_pos hb,
        List.takeWhile_cons_of_pos hb, htake]
      exact ⟨hdrop, rfl⟩
    · rw [List.dropWhile_cons_of_neg hb] at h
      cases h
      rw [List.cons_append, List.dropWhile_cons_of_neg hb, List.takeWhile_cons_of_neg hb,
        List.takeWhile_cons_of_neg hb]
      exact ⟨rfl, rfl⟩

theorem requestLine_of_prefix {line method path version ps : Bytes} {sp : UInt8}
    (h : requestLine line = some (method, path, version)) (hline : line <+: head)
    (hps : head.dropWhile (· != 32) = sp :: ps) :
    head.takeWhile (· != 32) = method ∧ ps.takeWhile (· != 32) = path ∧ version <:+: head := by
  obtain ⟨tail, rfl⟩ := hline
  unfold requestLine at h
  split at h
  · cases h
  · rename_i sp₁ ps₁ h₁
    split at h
    · cases h
    · rename_i sp₂ rest h₂
      cases h
      obtain ⟨hdrop, htake⟩ := dropWhile_append (t := tail) h₁
      rw [hdrop] at hps
      cases hps
      obtain ⟨-, htake'⟩ := dropWhile_append (t := tail) h₂
      refine ⟨htake, htake', ?_⟩
      have hsuffix : version <:+ line := by
        calc version <:+ sp₂ :: version := List.suffix_cons _ _
          _ <:+ ps₁ := h₂ ▸ List.dropWhile_suffix _
          _ <:+ sp :: ps₁ := List.suffix_cons _ _
          _ <:+ line := h₁ ▸ List.dropWhile_suffix _
      exact hsuffix.isInfix.trans (List.prefix_append _ _).isInfix

theorem keeps_iff {version : Bytes} (hwithin : version <:+: head) (close keep : Bool) :
    (if (find (ascii "http/1.1") (lower head)).isSome then !close else keep) =
        (if lower version = ascii "http/1.1" then !close else keep) ↔
      lower version = ascii "http/1.1" ∨ ¬ ascii "http/1.1" <:+: lower head ∨ close ≠ keep := by
  have hocc : (find (ascii "http/1.1") (lower head)).isSome ↔ ascii "http/1.1" <:+: lower head := by
    rw [← Option.ne_none_iff_isSome, Ne, find_eq_none (by decide +kernel), not_not]
  by_cases hv : lower version = ascii "http/1.1"
  · have hin : ascii "http/1.1" <:+: lower head := hv ▸ hwithin.map toLower
    simp [hv, hocc.mpr hin]
  · by_cases hin : ascii "http/1.1" <:+: lower head
    · rw [if_pos (hocc.mpr hin), if_neg hv]
      cases close <;> cases keep <;> simp [hv, hin]
    · rw [if_neg (mt hocc.mp hin), if_neg hv]
      exact iff_of_true rfl (.inr (.inl hin))

theorem framed_iff_proper (req : Request) (h : parseHead lim head = some parsed) (hmethod : req.method = parsed.method)
    (hpath : req.path = parsed.path) (hkeep : req.keepAlive = parsed.keepAlive) (hlen : req.body.length = parsed.clen) :
    Framed head req ↔ Proper head := by
  obtain ⟨sp, ps, hps, hm, hp, hk, hc, hmax⟩ := parseHead_eq_some h
  constructor
  · intro hf
    obtain ⟨version, hline, hkeeps⟩ := hf.line
    obtain ⟨-, -, hwithin⟩ := requestLine_of_prefix hline (takeLine_isPrefixOf head) hps
    refine ⟨⟨req.method, req.path, version, hline, ?_⟩, hf.plain, req.body.length, hf.stated⟩
    rw [hkeep, hk] at hkeeps
    exact (keeps_iff hwithin _ _).mp hkeeps
  · intro hproper
    obtain ⟨method, path, version, hline, hversion⟩ := hproper.line
    obtain ⟨hmethod', hpath', hwithin⟩ := requestLine_of_prefix hline (takeLine_isPrefixOf head) hps
    have hline' : ∃ version, requestLine (takeLine head) = some (req.method, req.path, version) ∧
        req.keepAlive = keeps version (connection (lower head)) := by
      refine ⟨version, ?_, ?_⟩
      · rw [hline, hmethod, hpath, hm, hp, hmethod', hpath']
      · rw [hkeep, hk]
        exact (keeps_iff hwithin _ _).mpr hversion
    obtain ⟨n, hn⟩ := hproper.stated
    rcases contentLength_cases hn with ⟨hcl, f, hf, hname⟩ | ⟨hcl, hnone⟩
    · have hsize : req.body.length = n := by
        have hc := hc (by omega)
        have := lim.maxBodyBytes_lt
        omega
      exact ⟨hline', hproper.plain, hsize ▸ hn, fun habsent => absurd hname (habsent f hf)⟩
    · have hsize : req.body.length = 0 := by
        have hc := hc (by omega)
        omega
      exact ⟨hline', hproper.plain, fun f hf hname => absurd hname (hnone f hf),
        fun _ => List.eq_nil_of_length_eq_zero hsize⟩

end Heads

section Connections

variable {lim : Limits} {rd rd' : WsRd} {segs segs' : List Bytes} {s rest : Bytes} {req : Request}

theorem readStream_eq_some (h : readStream lim s = some (req, rest)) :
    ∃ hdrLen parsed, find blankLine s = some hdrLen ∧ parseHead lim (s.take hdrLen) = some parsed ∧
      parsed.total hdrLen < lim.hardCap ∧ parsed.total hdrLen ≤ s.length ∧ req = parsed.request hdrLen s ∧
      rest = s.drop (parsed.total hdrLen) := by
  unfold readStream at h
  split at h
  · cases h
  · rename_i hdrLen hfind
    obtain ⟨-, h⟩ := Option.ite_none_left_eq_some.mp h
    split at h
    · cases h
    · rename_i parsed hparse
      obtain ⟨hle, h⟩ := Option.ite_none_left_eq_some.mp h
      cases h
      exact ⟨hdrLen, parsed, hfind, hparse, by omega, by omega, rfl, rfl⟩

theorem extent_of_find {hdrLen : ℕ} (hfind : find blankLine s = some hdrLen) (parsed : Head) :
    s = s.take hdrLen ++ blankLine ++ (parsed.request hdrLen s).body ++ s.drop (parsed.total hdrLen) := by
  obtain ⟨⟨tail, htail⟩, -, -⟩ := find_eq_some hfind
  have hdrop : s.drop (hdrLen + 4) = tail := by
    have h : (blankLine ++ tail).drop blankLine.length = tail := List.drop_left
    rw [htail, List.drop_drop] at h
    exact h
  calc s = s.take hdrLen ++ s.drop hdrLen := (List.take_append_drop _ _).symm
    _ = s.take hdrLen ++ blankLine ++ s.drop (hdrLen + 4) := by rw [← htail, hdrop, List.append_assoc]
    _ = s.take hdrLen ++ blankLine ++
          ((s.drop (hdrLen + 4)).take parsed.clen ++ (s.drop (hdrLen + 4)).drop parsed.clen) := by
        rw [List.take_append_drop]
    _ = _ := by
        rw [List.drop_drop, List.append_assoc _ _ (s.drop (parsed.total hdrLen))]
        rfl

theorem length_eq_of_find {hdrLen : ℕ} {head tail : Bytes} (hfind : find blankLine s = some hdrLen)
    (hs : s = head ++ blankLine ++ tail) (hfirst : ∀ k < head.length, ¬ blankLine <+: s.drop k) :
    head = s.take hdrLen := by
  obtain ⟨hpre, -, hbefore⟩ := find_eq_some hfind
  have hhead : blankLine <+: s.drop head.length := by
    rw [hs, List.append_assoc, List.drop_left]
    exact List.prefix_append _ _
  have hlen : hdrLen = head.length := by
    rcases Nat.lt_trichotomy hdrLen head.length with hlt | heq | hgt
    · exact absurd hpre (hfirst hdrLen hlt)
    · exact heq
    · exact absurd hhead (hbefore head.length hgt)
  rw [hlen, hs, List.append_assoc, List.take_left]

theorem follows_iff_proper (h : readStream lim s = some (req, rest)) : Follows s req rest ↔ Proper (headOf s) := by
  obtain ⟨hdrLen, parsed, hfind, hparse, -, hle, rfl, rfl⟩ := readStream_eq_some h
  have hbody : (parsed.request hdrLen s).body.length = parsed.clen := by
    change ((s.drop (hdrLen + 4)).take parsed.clen).length = parsed.clen
    unfold Head.total at hle
    rw [List.length_take, List.length_drop]
    omega
  have hhead : headOf s = s.take hdrLen := by rw [headOf, hfind, Option.getD_some]
  have hframed := framed_iff_proper (parsed.request hdrLen s) hparse rfl rfl rfl hbody
  obtain ⟨-, hlen, hfirst⟩ := find_eq_some hfind
  rw [hhead]
  constructor
  · rintro ⟨head, hs, hfirst', hf⟩
    rw [List.append_assoc (head ++ blankLine)] at hs
    rw [length_eq_of_find hfind hs hfirst'] at hf
    exact hframed.mp hf
  · intro hproper
    refine ⟨s.take hdrLen, extent_of_find hfind parsed, ?_, hframed.mpr hproper⟩
    rw [List.length_take]
    intro k hk
    exact hfirst k (by omega)

/-- The connection as the worker sees it between two requests. -/
inductive Serves (lim : Limits) : WsRd → List Bytes → Prop
  | accepted (rd : WsRd) (segs : List Bytes) (hready : rd.Ready lim) (hbuf : rd.buf = []) : Serves lim rd segs
  | kept {rd rd' : WsRd} {segs segs' : List Bytes} {req : Request} (h : Serves lim rd segs)
      (hread : readRequest lim rd segs = some (req, rd', segs')) (hkeep : req.keepAlive) : Serves lim rd' segs'

theorem Serves.ready (h : Serves lim rd segs) : rd.Ready lim := by
  induction h with
  | accepted rd segs hready hbuf => exact hready
  | @kept rd rd' segs segs' req h hread hkeep ih =>
    have hspec := readRequest_spec segs ih
    rw [hread] at hspec
    exact .inr hspec.1

theorem readRequest_of_readStream (hready : rd.Ready lim) (h : readStream lim (pending rd segs) = some (req, rest)) :
    ∃ rd' segs', readRequest lim rd segs = some (req, rd', segs') ∧ pending rd' segs' = rest := by
  have hspec := readRequest_spec segs hready
  cases hread : readRequest lim rd segs with
  | none =>
    rw [hread] at hspec
    exact absurd (h.symm.trans hspec) (Option.some_ne_none _)
  | some r =>
    obtain ⟨req', rd', segs'⟩ := r
    rw [hread] at hspec
    have heq := h.symm.trans hspec.2
    cases heq
    exact ⟨rd', segs', rfl, rfl⟩

/-- On every connection, each request that is accepted has the extent that RFC 9112 gives it exactly if its head is
proper, however the bytes arrive. -/
theorem request_framed_iff (lim : Limits) (rd rd' : WsRd) (segs segs' : List Bytes) (req : Request)
    (hserves : Serves lim rd segs) (hread : readRequest lim rd segs = some (req, rd', segs')) :
    Follows (pending rd segs) req (pending rd' segs') ↔ Proper (headOf (pending rd segs)) := by
  have hspec := readRequest_spec segs hserves.ready
  rw [hread] at hspec
  exact follows_iff_proper hspec.2

section Requests

/-- Successive calls with one reader, up to the first that fails: what each gives, and what is then still to be gone
through. -/
def readRequests (lim : Limits) : ℕ → WsRd → List Bytes → List (Option (Request × Bytes))
  | 0, _, _ => []
  | n + 1, rd, segs =>
    match readRequest lim rd segs with
    | none => [none]
    | some (req, rd, segs) => some (req, pending rd segs) :: readRequests lim n rd segs

/-- The requests lie one behind the other at the start of the stream, each with a range of its own that alone gives
the request. -/
def Consecutive (lim : Limits) : Bytes → List (Option (Request × Bytes)) → Prop
  | s, some (req, rest) :: rs =>
    ∃ range, s = range ++ rest ∧ readStream lim range = some (req, []) ∧ Consecutive lim rest rs
  | _, _ => True

theorem readStream_range (h : readStream lim s = some (req, rest)) :
    ∃ range, s = range ++ rest ∧ readStream lim range = some (req, []) := by
  obtain ⟨hdrLen, parsed, hfind, hparse, hcap, hlen, rfl, rfl⟩ := readStream_eq_some h
  have hhead : hdrLen + 4 ≤ parsed.total hdrLen := Nat.le_add_right _ _
  refine ⟨s.take (parsed.total hdrLen), (List.take_append_drop _ _).symm, ?_⟩
  have hfind' : find blankLine (s.take (parsed.total hdrLen)) = some hdrLen :=
    (find_take (by decide) _).mpr ⟨hfind, hhead⟩
  have hparse' : parseHead lim ((s.take (parsed.total hdrLen)).take hdrLen) = some parsed := by
    rw [List.take_take, min_eq_left (by omega), hparse]
  have hbody : parsed.request hdrLen (s.take (parsed.total hdrLen)) = parsed.request hdrLen s := by
    unfold Head.request Head.total
    rw [List.drop_take, Nat.add_sub_cancel_left, List.take_take, min_self]
  have hall : (s.take (parsed.total hdrLen)).length = parsed.total hdrLen := List.length_take_of_le hlen
  simp only [readStream, hfind', if_neg (by omega : ¬ hdrLen + 4 ≥ lim.hardCap), hparse', hbody]
  rw [if_neg (by omega), List.drop_eq_nil_of_le hall.le]

/-- **However the bytes of a connection are cut into pieces, successive calls give the same requests, up to the same
failure, and the requests lie one behind the other in the stream**, whatever a reader has taken in already. -/
theorem reading_depends_only_on_bytes (lim : Limits) (rd rd' : WsRd) (segs segs' : List Bytes) (hready : rd.Ready lim)
    (hready' : rd'.Ready lim) (hsame : pending rd segs = pending rd' segs') (n : ℕ) :
    readRequests lim n rd segs = readRequests lim n rd' segs' ∧
      Consecutive lim (pending rd segs) (readRequests lim n rd segs) := by
  induction n generalizing rd rd' segs segs' with
  | zero => exact ⟨rfl, trivial⟩
  | succ n ih =>
    have hspec := readRequest_spec segs hready
    unfold readRequests
    cases hread : readRequest lim rd segs with
    | none =>
      rw [hread] at hspec
      have hspec' := readRequest_spec segs' hready'
      rw [← hsame] at hspec'
      cases hread' : readRequest lim rd' segs' with
      | none => exact ⟨rfl, trivial⟩
      | some r =>
        rw [hread'] at hspec'
        exact absurd (hspec.symm.trans hspec'.2) nofun
    | some r =>
      obtain ⟨req, rd₁, segs₁⟩ := r
      rw [hread] at hspec
      obtain ⟨rd₂, segs₂, hread', hpending⟩ := readRequest_of_readStream hready' (hsame ▸ hspec.2)
      have hready₂ : rd₂.Ready lim := by
        have hspec' := readRequest_spec segs' hready'
        rw [hread'] at hspec'
        exact .inr hspec'.1
      obtain ⟨heq, hconsecutive⟩ := ih _ _ _ _ (.inr hspec.1) hready₂ hpending.symm
      obtain ⟨range, hrange, hown⟩ := readStream_range hspec.2
      rw [hread']
      refine ⟨?_, range, hrange, hown, hconsecutive⟩
      dsimp only
      rw [hpending, heq]

/-- A request that arrives at once, or in two pieces with an interruption between them. -/
theorem two_pieces_read_as_one :
    readRequests ⟨100, 100, by decide⟩ 2 ⟨[], 0⟩ [ascii "GET / HTTP/1.1\r\n", [], ascii "\r\n"] =
      readRequests ⟨100, 100, by decide⟩ 2 ⟨[], 0⟩ [ascii "GET / HTTP/1.1\r\n" ++ ascii "\r\n"] :=
  (reading_depends_only_on_bytes _ _ _ _ _ (.inl ⟨rfl, rfl⟩) (.inl ⟨rfl, rfl⟩) (by simp [pending]) 2).1

end Requests

def smallLimits : Limits := ⟨1000, 1000, by decide⟩

/-- A request that arrives in two segments, the second of which begins the next request. -/
def twoSegments : List Bytes :=
  [ascii "POST /a HTTP/1.1\r\nContent-Length: 5\r\n\r\nhe", ascii "lloGET /"]

theorem twoSegments_framed :
    ∃ req rd' segs', Serves smallLimits ⟨[], 0⟩ twoSegments ∧
      readRequest smallLimits ⟨[], 0⟩ twoSegments = some (req, rd', segs') ∧
      (Follows (pending ⟨[], 0⟩ twoSegments) req (pending rd' segs') ↔
        Proper (headOf (pending ⟨[], 0⟩ twoSegments))) := by
  have hready : WsRd.Ready smallLimits ⟨[], 0⟩ := .inl ⟨rfl, rfl⟩
  have hserves := Serves.accepted ⟨[], 0⟩ twoSegments hready rfl
  have hstream : readStream smallLimits (pending ⟨[], 0⟩ twoSegments) =
      some (⟨ascii "POST", ascii "/a", ascii "hello", true⟩, ascii "GET /") := by decide +kernel
  obtain ⟨rd', segs', hread, -⟩ := readRequest_of_readStream hready hstream
  exact ⟨_, rd', segs', hserves, hread, request_framed_iff _ _ _ _ _ _ hserves hread⟩

def chunked : List Bytes := [ascii "POST / HTTP/1.1\r\nTransfer-Encoding: chunked\r\n\r\n5\r\nhello\r\n0\r\n\r\n"]

/-- The chunks stay in the buffer for the next request. -/
theorem chunked_not_framed :
    ∃ req rd' segs', Serves smallLimits ⟨[], 0⟩ chunked ∧
      readRequest smallLimits ⟨[], 0⟩ chunked = some (req, rd', segs') ∧ req.keepAlive ∧
      pending rd' segs' = ascii "5\r\nhello\r\n0\r\n\r\n" ∧
      ¬ Follows (pending ⟨[], 0⟩ chunked) req (pending rd' segs') := by
  have hready : WsRd.Ready smallLimits ⟨[], 0⟩ := .inl ⟨rfl, rfl⟩
  have hserves := Serves.accepted ⟨[], 0⟩ chunked hready rfl
  have hstream : readStream smallLimits (pending ⟨[], 0⟩ chunked) =
      some (⟨ascii "POST", ascii "/", [], true⟩, ascii "5\r\nhello\r\n0\r\n\r\n") := by decide +kernel
  obtain ⟨rd', segs', hread, hpending⟩ := readRequest_of_readStream hready hstream
  refine ⟨_, rd', segs', hserves, hread, rfl, hpending, ?_⟩
  rw [hpending, follows_iff_proper hstream]
  intro hproper
  have hfield : ∃ f ∈ fields (lower (headOf (pending ⟨[], 0⟩ chunked))), fieldName f = ascii "transfer-encoding" := by
    decide +kernel
  obtain ⟨f, hf, hname⟩ := hfield
  exact hproper.plain f hf hname

end Connections

end Fluxa.Wserver
