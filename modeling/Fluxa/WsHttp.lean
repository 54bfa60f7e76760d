import Fluxa.Base.HeaderText

/-! The HTTP reader of the direct mode of `std.wserver` (`ws_http_read_request` in `fluxa_std_wserver.h`): a buffer that
is filled from a connection until it holds a request. The head of the request is searched for texts and is not parsed
line by line. -/

namespace Fluxa.Wserver

open HeaderText

def ascii (s : String) : Bytes := s.toUTF8.toList

structure Limits where
  maxHeaderBytes : ℕ
  maxBodyBytes : ℕ
  maxBodyBytes_lt : maxBodyBytes < 2 ^ 31

def Limits.hardCap (lim : Limits) : ℕ := lim.maxHeaderBytes + lim.maxBodyBytes + 1024

/-- The reader of a worker: what it has received and not consumed, and the size of its buffer. -/
structure WsRd where
  buf : Bytes
  cap : ℕ

structure Request where
  method : Bytes
  path : Bytes
  body : Bytes
  keepAlive : Bool
  deriving DecidableEq

/-- `recv` on a connection that delivers the given segments and then ends, or fails. An empty segment stands for an
interrupted call, which is repeated. -/
def recv (room : ℕ) : List Bytes → Option (Bytes × List Bytes)
  | [] => none
  | [] :: segs => recv room segs
  | seg :: segs =>
    if room = 0 then none
    else some (seg.take room, if seg.length ≤ room then segs else seg.drop room :: segs)

theorem recv_eq_some {room : ℕ} {segs rest : List Bytes} {got : Bytes} (h : recv room segs = some (got, rest)) :
    segs.flatten = got ++ rest.flatten ∧ got ≠ [] ∧ got.length ≤ room := by
  induction segs with
  | nil => cases h
  | cons seg segs ih =>
    cases seg with
    | nil => exact ih h
    | cons b seg =>
      obtain ⟨hroom, h⟩ := Option.ite_none_left_eq_some.mp h
      cases h
      refine ⟨?_, by simp [hroom], List.length_take_le _ _⟩
      split
      · rename_i hle
        rw [List.take_of_length_le hle, List.flatten_cons]
      · rw [List.flatten_cons, List.flatten_cons, ← List.append_assoc, List.take_append_drop]

theorem recv_eq_none {room : ℕ} {segs : List Bytes} (hroom : room ≠ 0) (h : recv room segs = none) :
    segs.flatten = [] := by
  induction segs with
  | nil => rfl
  | cons seg segs ih =>
    cases seg with
    | nil => exact ih h
    | cons b seg =>
      rw [recv, if_neg hroom] at h
      · cases h
      · exact List.cons_ne_nil b seg

theorem recv_lt {room : ℕ} {segs rest : List Bytes} {got : Bytes} (h : recv room segs = some (got, rest)) :
    rest.flatten.length < segs.flatten.length := by
  obtain ⟨hflat, hne, -⟩ := recv_eq_some h
  have hpos := List.length_pos_of_ne_nil hne
  rw [hflat, List.length_append]
  omega

def blankLine : Bytes := crlf ++ crlf

/-- The size of the buffer for the next `recv`: doubled if it is full. -/
def growCap (lim : Limits) (rd : WsRd) : ℕ :=
  if rd.buf.length + 1 ≥ rd.cap then min (rd.cap * 2) lim.hardCap else rd.cap

/-- The first loop: the length of the head, when the buffer holds it. -/
def readHead (lim : Limits) (rd : WsRd) (segs : List Bytes) : Option (ℕ × WsRd × List Bytes) :=
  match find blankLine rd.buf with
  | some hdrLen => some (hdrLen, rd, segs)
  | none =>
    if rd.buf.length + 1 ≥ rd.cap ∧ rd.cap ≥ lim.hardCap then none
    else
      match _hrecv : recv (growCap lim rd - 1 - rd.buf.length) segs with
      | none => none
      | some (got, segs') => readHead lim ⟨rd.buf ++ got, growCap lim rd⟩ segs'
  termination_by segs.flatten.length
  decreasing_by exact recv_lt _hrecv

/-- The second loop: the buffer has room for the request. -/
def readBody (total : ℕ) (rd : WsRd) (segs : List Bytes) : Option (WsRd × List Bytes) :=
  if total ≤ rd.buf.length then some (rd, segs)
  else
    match _hrecv : recv (rd.cap - rd.buf.length) segs with
    | none => none
    | some (got, segs') => readBody total { rd with buf := rd.buf ++ got } segs'
  termination_by segs.flatten.length
  decreasing_by exact recv_lt _hrecv

def toLower (c : UInt8) : UInt8 := if 65 ≤ c ∧ c ≤ 90 then c - 65 + 97 else c

def lower (s : Bytes) : Bytes := s.map toLower

def regionHas (hay : Bytes) (lit : String) : Bool := (find (ascii lit) (lower hay)).isSome

/-- The value of the first `Connection` field, up to the end of its line. -/
def connection (lc : Bytes) : Bytes :=
  match find (crlf ++ ascii "connection:") lc with
  | none => []
  | some cn => takeLine (lc.drop (cn + 13))

/-- The length that the first `Content-Length` field states. -/
def contentLength (lc : Bytes) : ℤ :=
  match find (crlf ++ ascii "content-length:") lc with
  | none => 0
  | some cl => strtol (lc.drop (cl + 17))

structure Head where
  method : Bytes
  path : Bytes
  keepAlive : Bool
  clen : ℕ

/-- What the reader takes from the bytes before the first blank line. -/
def parseHead (lim : Limits) (head : Bytes) : Option Head :=
  let method := head.takeWhile (· != 32)
  match head.dropWhile (· != 32) with
  | [] => none
  | _ :: ps =>
    if method.length = 0 ∨ method.length > 15 then none
    else
      match ps.dropWhile (· != 32) with
      | [] => none
      | _ :: _ =>
        let lc := lower head
        let http11 := (find (ascii "http/1.1") lc).isSome
        let connClose := regionHas (connection lc) "close"
        let connKeep := regionHas (connection lc) "keep-alive"
        let clen := if contentLength lc < 0 then 0 else contentLength lc
        if clen > lim.maxBodyBytes then none
        else some ⟨method, ps.takeWhile (· != 32), if http11 then !connClose else connKeep, clen.toNat⟩

/-- Where a request with a head of the given length ends. -/
def Head.total (head : Head) (hdrLen : ℕ) : ℕ := hdrLen + 4 + head.clen

/-- The request at the start of `s`. -/
def Head.request (head : Head) (hdrLen : ℕ) (s : Bytes) : Request :=
  ⟨head.method, head.path, (s.drop (hdrLen + 4)).take head.clen, head.keepAlive⟩

/-- After the head: the body, and what is left for the next request. -/
def finishRequest (lim : Limits) (hdrLen : ℕ) (head : Head) (rd : WsRd) (segs : List Bytes) :
    Option (Request × WsRd × List Bytes) :=
  let total := head.total hdrLen
  if total + 1 > rd.cap ∧ total + 1 > lim.hardCap then none
  else match readBody total { rd with cap := max rd.cap (total + 1) } segs with
    | none => none
    | some (rd, segs) => some (head.request hdrLen rd.buf, { rd with buf := rd.buf.drop total }, segs)

/-- The reader after its buffer has been allocated. -/
def WsRd.allocated (lim : Limits) (rd : WsRd) : WsRd := if rd.cap = 0 then ⟨[], lim.maxHeaderBytes + 1024⟩ else rd

/-- `ws_http_read_request`: the request, and the reader with the bytes that come after it. There is no difference here
between a connection that ended and a request that is refused: the caller closes the connection in both cases. -/
def readRequest (lim : Limits) (rd : WsRd) (segs : List Bytes) : Option (Request × WsRd × List Bytes) :=
  match readHead lim (rd.allocated lim) segs with
  | none => none
  | some (hdrLen, rd, segs) =>
    match parseHead lim (rd.buf.take hdrLen) with
    | none => none
    | some head => finishRequest lim hdrLen head rd segs

section Stream

variable {lim : Limits} {rd rd' : WsRd} {segs segs' : List Bytes} {n : ℕ}

/-- What the reader still has to go through: the buffer and what has not arrived. -/
def pending (rd : WsRd) (segs : List Bytes) : Bytes := rd.buf ++ segs.flatten

/-- The buffer is within its size, and its size within the limit. -/
def WsRd.Fits (lim : Limits) (rd : WsRd) : Prop := rd.buf.length + 1 ≤ rd.cap ∧ rd.cap ≤ lim.hardCap

theorem find_pending (segs : List Bytes) (h : find blankLine rd.buf = some n) :
    find blankLine (pending rd segs) = some n ∧ n + 4 ≤ rd.buf.length := by
  have htake : (pending rd segs).take rd.buf.length = rd.buf := List.take_left
  rw [← htake] at h
  exact (find_take (by decide) _).mp h

theorem pending_recv {room cap : ℕ} {got : Bytes} (h : recv room segs = some (got, segs')) :
    pending ⟨rd.buf ++ got, cap⟩ segs' = pending rd segs := by
  unfold pending
  rw [(recv_eq_some h).1, List.append_assoc]

/-- There is room for another `recv` unless the buffer has its largest size and is full. -/
theorem growCap_room (hfits : rd.Fits lim) (hfull : ¬(rd.buf.length + 1 ≥ rd.cap ∧ rd.cap ≥ lim.hardCap)) :
    rd.buf.length + 1 < growCap lim rd ∧ growCap lim rd ≤ lim.hardCap := by
  obtain ⟨hlen, hcap⟩ := hfits
  unfold growCap
  split <;> omega

theorem fits_recv {got : Bytes} (hfits : rd.Fits lim) (hfull : ¬(rd.buf.length + 1 ≥ rd.cap ∧ rd.cap ≥ lim.hardCap))
    (h : recv (growCap lim rd - 1 - rd.buf.length) segs = some (got, segs')) :
    WsRd.Fits lim ⟨rd.buf ++ got, growCap lim rd⟩ := by
  obtain ⟨hlen, hcap⟩ := growCap_room hfits hfull
  have hgot := (recv_eq_some h).2.2
  refine ⟨?_, hcap⟩
  change (rd.buf ++ got).length + 1 ≤ growCap lim rd
  rw [List.length_append]
  omega

theorem readHead_recv (hfind : find blankLine rd.buf = none)
    (hfull : ¬(rd.buf.length + 1 ≥ rd.cap ∧ rd.cap ≥ lim.hardCap)) :
    readHead lim rd segs = (recv (growCap lim rd - 1 - rd.buf.length) segs).bind fun r =>
      readHead lim ⟨rd.buf ++ r.1, growCap lim rd⟩ r.2 := by
  rw [readHead, hfind]
  simp only [if_neg hfull]
  split
  · rename_i h
    rw [h]
    rfl
  · rename_i h
    rw [h]
    rfl

/-- The loop finds the first blank line of the connection if it lies within the limit. -/
theorem readHead_spec (segs : List Bytes) (hfits : rd.Fits lim) :
    match readHead lim rd segs with
    | some (hdrLen, rd', segs') =>
      rd'.Fits lim ∧ pending rd' segs' = pending rd segs ∧ find blankLine rd'.buf = some hdrLen
    | none => ∀ hdrLen, find blankLine (pending rd segs) = some hdrLen → lim.hardCap ≤ hdrLen + 4 := by
  induction rd, segs using readHead.induct lim with
  | case1 rd segs n hfind =>
    rw [readHead, hfind]
    exact ⟨hfits, rfl, hfind⟩
  | case2 rd segs hfind hfull =>
    rw [readHead, hfind]
    simp only [if_pos hfull]
    intro hdrLen h
    -- otherwise the blank line would be in the buffer
    by_contra hlt
    obtain ⟨hlen, hcap⟩ := hfits
    have htake : (pending rd segs).take rd.buf.length = rd.buf := List.take_left
    have hbuf := (find_take (by decide) rd.buf.length).mpr ⟨h, (by simp [blankLine, crlf]; omega)⟩
    rw [htake, hfind] at hbuf
    cases hbuf
  | case3 rd segs hfind hfull hrecv =>
    rw [readHead_recv hfind hfull, hrecv]
    intro hdrLen h
    obtain ⟨hlen, -⟩ := growCap_room hfits hfull
    rw [pending, recv_eq_none (by omega) hrecv, List.append_nil, hfind] at h
    cases h
  | case4 rd segs hfind hfull got segs' hrecv ih =>
    have ih := ih (fits_recv hfits hfull hrecv)
    rw [pending_recv hrecv] at ih
    rw [readHead_recv hfind hfull, hrecv]
    exact ih

theorem readBody_recv {total : ℕ} (hlt : ¬ total ≤ rd.buf.length) :
    readBody total rd segs = (recv (rd.cap - rd.buf.length) segs).bind fun r =>
      readBody total { rd with buf := rd.buf ++ r.1 } r.2 := by
  rw [readBody, if_neg hlt]
  split
  · rename_i h
    rw [h]
    rfl
  · rename_i h
    rw [h]
    rfl

/-- The loop ends with the whole request in the buffer if the connection delivers it. -/
theorem readBody_spec (rd : WsRd) (segs : List Bytes) {total : ℕ} (hcap : total + 1 ≤ rd.cap)
    (hlen : rd.buf.length ≤ rd.cap) :
    match readBody total rd segs with
    | some (rd', segs') =>
      pending rd' segs' = pending rd segs ∧ total ≤ rd'.buf.length ∧ rd'.buf.length ≤ rd'.cap ∧ rd'.cap = rd.cap
    | none => (pending rd segs).length < total := by
  induction rd, segs using readBody.induct total with
  | case1 rd segs hle =>
    rw [readBody, if_pos hle]
    exact ⟨rfl, hle, hlen, rfl⟩
  | case2 rd segs hlt hrecv =>
    rw [readBody_recv hlt, hrecv]
    change (pending rd segs).length < total
    rw [pending, recv_eq_none (by omega) hrecv, List.append_nil]
    omega
  | case3 rd segs hlt got segs' hrecv ih =>
    have hgot := (recv_eq_some hrecv).2.2
    have ih := ih hcap (by change (rd.buf ++ got).length ≤ rd.cap; rw [List.length_append]; omega)
    rw [pending_recv hrecv] at ih
    rw [readBody_recv hlt, hrecv]
    exact ih

/-- The reader on the bytes of a connection, however they arrive. -/
def readStream (lim : Limits) (s : Bytes) : Option (Request × Bytes) :=
  match find blankLine s with
  | none => none
  | some hdrLen =>
    if hdrLen + 4 ≥ lim.hardCap then none
    else match parseHead lim (s.take hdrLen) with
      | none => none
      | some head =>
        if head.total hdrLen + 1 > lim.hardCap ∨ s.length < head.total hdrLen then none
        else some (head.request hdrLen s, s.drop (head.total hdrLen))

theorem finishRequest_spec (hdrLen : ℕ) (head : Head) (segs : List Bytes) (hfits : rd.Fits lim) :
    match finishRequest lim hdrLen head rd segs with
    | some (req, rd', segs') =>
      rd'.Fits lim ∧ head.total hdrLen + 1 ≤ lim.hardCap ∧ head.total hdrLen ≤ (pending rd segs).length ∧
        req = head.request hdrLen (pending rd segs) ∧ pending rd' segs' = (pending rd segs).drop (head.total hdrLen)
    | none => head.total hdrLen + 1 > lim.hardCap ∨ (pending rd segs).length < head.total hdrLen := by
  obtain ⟨hlen, hcap⟩ := hfits
  have htotal : 4 ≤ head.total hdrLen := by
    unfold Head.total
    omega
  generalize htot : head.total hdrLen = total at htotal
  unfold finishRequest
  simp only [htot]
  by_cases hbig : total + 1 > rd.cap ∧ total + 1 > lim.hardCap
  · rw [if_pos hbig]
    exact .inl hbig.2
  have hbody := readBody_spec { rd with cap := max rd.cap (total + 1) } segs (le_max_right _ _)
    (by change rd.buf.length ≤ max rd.cap (total + 1); omega)
  have hsame : pending { rd with cap := max rd.cap (total + 1) } segs = pending rd segs := rfl
  rw [hsame] at hbody
  rw [if_neg hbig]
  cases hread : readBody total { rd with cap := max rd.cap (total + 1) } segs with
  | none =>
    rw [hread] at hbody
    exact .inr hbody
  | some r =>
    obtain ⟨rd', segs'⟩ := r
    rw [hread] at hbody
    obtain ⟨hpending, hle, hle', hcap'⟩ := hbody
    have hcap' : rd'.cap = max rd.cap (total + 1) := hcap'
    have hlong : (pending rd' segs').length = rd'.buf.length + segs'.flatten.length := List.length_append
    rw [← hpending]
    refine ⟨⟨?_, ?_⟩, by omega, by omega, ?_, ?_⟩
    · change (rd'.buf.drop total).length + 1 ≤ rd'.cap
      rw [List.length_drop]
      omega
    · change rd'.cap ≤ lim.hardCap
      omega
    · have hclen : head.clen ≤ (rd'.buf.drop (hdrLen + 4)).length := by
        rw [List.length_drop]
        unfold Head.total at htot
        omega
      unfold Head.request pending
      rw [List.drop_append_of_le_length (by unfold Head.total at htot; omega),
        List.take_append_of_le_length hclen]
    · unfold pending
      rw [List.drop_append_of_le_length hle]

/-- The reader at the start of a call: a new one has no buffer yet. -/
def WsRd.Ready (lim : Limits) (rd : WsRd) : Prop := rd.cap = 0 ∧ rd.buf = [] ∨ rd.Fits lim

theorem WsRd.Ready.allocated (h : rd.Ready lim) (segs : List Bytes) :
    (rd.allocated lim).Fits lim ∧ pending (rd.allocated lim) segs = pending rd segs := by
  unfold WsRd.allocated
  rcases h with ⟨hcap, hbuf⟩ | hfits
  · rw [if_pos hcap]
    refine ⟨⟨?_, ?_⟩, ?_⟩
    · change 0 + 1 ≤ lim.maxHeaderBytes + 1024
      omega
    · change lim.maxHeaderBytes + 1024 ≤ lim.hardCap
      unfold Limits.hardCap
      omega
    · rw [pending, pending, hbuf]
  · have hcap : rd.cap ≠ 0 := by
      have := hfits.1
      omega
    rw [if_neg hcap]
    exact ⟨hfits, rfl⟩

theorem readRequest_spec (segs : List Bytes) (hready : rd.Ready lim) :
    match readRequest lim rd segs with
    | some (req, rd', segs') => rd'.Fits lim ∧ readStream lim (pending rd segs) = some (req, pending rd' segs')
    | none => readStream lim (pending rd segs) = none := by
  obtain ⟨hfits, hpending⟩ := hready.allocated segs
  have hhead := readHead_spec segs hfits
  rw [hpending] at hhead
  unfold readRequest readStream
  cases hread : readHead lim (rd.allocated lim) segs with
  | none =>
    rw [hread] at hhead
    cases hfind : find blankLine (pending rd segs) with
    | none => rfl
    | some n => exact if_pos (hhead n hfind)
  | some r =>
    obtain ⟨hdrLen, rd₂, segs₂⟩ := r
    rw [hread] at hhead
    obtain ⟨hfits₂, hpending₂, hfind₂⟩ := hhead
    rw [← hpending₂]
    obtain ⟨hfind, hle⟩ := find_pending segs₂ hfind₂
    have htake : (pending rd₂ segs₂).take hdrLen = rd₂.buf.take hdrLen :=
      List.take_append_of_le_length (by omega)
    have hlt : ¬ hdrLen + 4 ≥ lim.hardCap := by
      have := hfits₂.1
      have := hfits₂.2
      omega
    simp only [hfind, if_neg hlt, htake]
    cases hparse : parseHead lim (rd₂.buf.take hdrLen) with
    | none => rfl
    | some head =>
      have hfinish := finishRequest_spec hdrLen head segs₂ hfits₂
      simp only
      cases hreq : finishRequest lim hdrLen head rd₂ segs₂ with
      | none =>
        rw [hreq] at hfinish
        exact if_pos hfinish
      | some r =>
        obtain ⟨req, rd₃, segs₃⟩ := r
        rw [hreq] at hfinish
        obtain ⟨hfits₃, hcap, hlen, rfl, hpending₃⟩ := hfinish
        refine ⟨hfits₃, ?_⟩
        rw [if_neg (by omega), hpending₃]

end Stream

end Fluxa.Wserver
