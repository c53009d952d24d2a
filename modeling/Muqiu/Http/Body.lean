import Muqiu.Http.Session

/-!
# Bodies

What `recvBody` does with the bytes of the buffer and of the connection, by the length that
the header declares, and what a whole call of `recvRequest` comes to.  A body that is in the
buffer is cut out of it and the bytes behind it are lost with the buffer.  One that is not is
completed from the connection, when the missing number is positive as an `int`.
-/

namespace Muqiu.Http

variable {μ : Type} {E : Env μ}

theorem headers_withBody (req : HttpRequest μ) (body : Bytes) :
    (withBody E req body).m_headers = req.m_headers :=
  HttpRequest.headers_init _

theorem body_withBody (req : HttpRequest μ) (body : Bytes) : (withBody E req body).m_body = body :=
  HttpRequest.body_init _

/-- A request without a body is its own. -/
theorem withBody_nil {req : HttpRequest μ} (h : req.m_body = []) :
    withBody E req [] = req.init E.map := by
  rw [withBody, ← h]

/-- The length of the body is read off the headers. -/
theorem bodyLength_congr {req req' : HttpRequest μ} (h : req.m_headers = req'.m_headers) :
    bodyLength E req = bodyLength E req' := by
  rw [bodyLength, bodyLength, getContentLength, getContentLength, getHeaderAs, getHeaderAs, h]

/-! ## The code behind the loop -/

section

variable {s : Filling μ} {size : Nat}

/-- Headers that declare no length. -/
theorem recvBody_none (h : bodyLength E s.parser.m_data ≤ 0) :
    recvBody E s =
      ⟨.request (s.parser.m_data.init E.map), s.conn, s.calls, s.data.take s.offset, none⟩ := by
  rw [recvBody]
  exact if_pos h

/-- A length that the string of the body does not take. -/
theorem recvBody_throws (hsize : bodyLength E s.parser.m_data = size) (hpos : 0 < size)
    (hheap : E.heap < size) :
    recvBody E s = ⟨.stopped .throws, s.conn, s.calls, [], some size⟩ := by
  rw [recvBody]
  simp only [hsize, Int.toNat_natCast]
  rw [if_neg (by omega), if_pos hheap]

/-- A body that is in the buffer. -/
theorem recvBody_buffered (hsize : bodyLength E s.parser.m_data = size) (hpos : 0 < size)
    (hheap : size ≤ E.heap) (hle : size ≤ s.offset) :
    recvBody E s =
      ⟨.request (withBody E s.parser.m_data (s.data.take size)), s.conn, s.calls,
        (s.data.take s.offset).drop size, some size⟩ := by
  rw [recvBody]
  simp only [hsize, Int.toNat_natCast]
  rw [if_neg (by omega), if_neg (by omega), if_pos (by omega)]

/-- A body whose rest is on the connection. -/
theorem recvBody_rest (hs : s.Ok) (hsize : bodyLength E s.parser.m_data = size)
    (hheap : size ≤ E.heap) (hlt : s.offset < size)
    (hrest : size - s.offset ≤ s.conn.pending.length) :
    recvBody E s =
      if Conn.toInt32 (size - s.offset) ≤ 0 then
        ⟨.null, (s.conn.skip (size - s.offset)).close, s.calls, [], some size⟩
      else
        ⟨.request (withBody E s.parser.m_data
            (s.data.take s.offset ++ s.conn.pending.take (size - s.offset))),
          s.conn.skip (size - s.offset), s.calls, [], some size⟩ := by
  rw [recvBody]
  simp only [hsize, Int.toNat_natCast]
  rw [if_neg (by omega), if_neg (by omega), if_neg (by omega),
    Conn.readFixSize_spec hs.isOpen, if_pos hrest]

/-- A body whose rest does not come. -/
theorem recvBody_short (hs : s.Ok) (hsize : bodyLength E s.parser.m_data = size)
    (hheap : size ≤ E.heap) (hlt : s.offset < size)
    (hrest : s.conn.pending.length < size - s.offset) :
    (recvBody E s).allocated = some size ∧ (recvBody E s).calls = s.calls ∧
      ((∃ stop, (recvBody E s).outcome = .stopped stop) ∨ (recvBody E s).outcome = .null) := by
  rw [recvBody]
  simp only [hsize, Int.toNat_natCast]
  rw [if_neg (by omega), if_neg (by omega), if_neg (by omega),
    Conn.readFixSize_spec hs.isOpen, if_neg (by omega)]
  cases s.conn.ending with
  | eof => exact ⟨rfl, rfl, .inl ⟨_, rfl⟩⟩
  | error => exact ⟨rfl, rfl, .inr rfl⟩

/-- Up to the length of the buffer the body is its front and what is unread the rest. -/
theorem recvBody_within (hs : s.Ok) (hsize : bodyLength E s.parser.m_data = size)
    (hheap : size ≤ E.heap) (hle : size ≤ s.offset) :
    (recvBody E s).outcome =
        .request (withBody E s.parser.m_data ((s.data.take s.offset).take size)) ∧
      (recvBody E s).conn = s.conn ∧
      (recvBody E s).unread = (s.data.take s.offset).drop size := by
  rcases Nat.eq_zero_or_pos size with hzero | hpos
  · subst hzero
    rw [recvBody_none (by omega), List.take_zero, withBody_nil hs.body]
    exact ⟨rfl, rfl, rfl⟩
  · rw [recvBody_buffered hsize hpos hheap hle, List.take_take, Nat.min_eq_left hle]
    exact ⟨rfl, rfl, rfl⟩

/-- The cases of the code. -/
theorem recvBody_cases (hs : s.Ok) :
    (bodyLength E s.parser.m_data ≤ 0 ∧ recvBody E s =
      ⟨.request (s.parser.m_data.init E.map), s.conn, s.calls, s.data.take s.offset, none⟩) ∨
    (∃ size : Nat, bodyLength E s.parser.m_data = size ∧ 0 < size ∧
      (recvBody E s).allocated = some size ∧ (recvBody E s).calls = s.calls ∧
      ((∃ stop, (recvBody E s).outcome = .stopped stop) ∨ (recvBody E s).outcome = .null ∨
        ∃ body, (recvBody E s).outcome = .request (withBody E s.parser.m_data body) ∧
          body.length = size ∧ size ≤ s.offset + s.conn.pending.length ∧
          ∃ k, (recvBody E s).conn = s.conn.skip k)) := by
  refine (Int.lt_or_le 0 (bodyLength E s.parser.m_data)).symm.imp
    (fun hneg => ⟨hneg, recvBody_none hneg⟩) fun hlength => ?_
  obtain ⟨size, hsize⟩ := Int.eq_ofNat_of_zero_le (Int.le_of_lt hlength)
  have hpos : 0 < size := by omega
  have hoffset : s.offset ≤ s.data.length := by rw [hs.data]; exact Nat.le_of_lt hs.offset
  refine ⟨size, hsize, hpos, ?_⟩
  rcases Nat.lt_or_ge E.heap size with hheap | hheap
  · rw [recvBody_throws hsize hpos hheap]
    exact ⟨rfl, rfl, .inl ⟨_, rfl⟩⟩
  rcases Nat.lt_or_ge s.offset size with hlt | hle
  · rcases Nat.lt_or_ge s.conn.pending.length (size - s.offset) with hrest | hrest
    · obtain ⟨hallocated, hcalls, hout⟩ := recvBody_short hs hsize hheap hlt hrest
      exact ⟨hallocated, hcalls, hout.imp_right .inl⟩
    · rw [recvBody_rest hs hsize hheap hlt hrest]
      rcases Int.lt_or_le 0 (Conn.toInt32 (size - s.offset)) with hcount | hcount
      · rw [if_neg (Int.not_le.mpr hcount)]
        refine ⟨rfl, rfl, .inr (.inr ⟨_, rfl, ?_, by omega, _, rfl⟩)⟩
        rw [List.length_append, List.length_take_of_le hoffset, List.length_take_of_le hrest]
        omega
      · rw [if_pos hcount]
        exact ⟨rfl, rfl, .inr (.inl rfl)⟩
  · have hbody : (s.data.take size).length = size :=
      List.length_take_of_le (Nat.le_trans hle hoffset)
    rw [recvBody_buffered hsize hpos hheap hle]
    exact ⟨rfl, rfl, .inr (.inr ⟨_, rfl, hbody, by omega, 0, (Conn.skip_zero _).symm⟩)⟩

/-- A request that is received has a body of the length in its headers, from the buffer and
the connection. -/
theorem recvBody_request (hs : s.Ok) {req : HttpRequest μ}
    (h : (recvBody E s).outcome = .request req) :
    req.m_headers = s.parser.m_data.m_headers ∧
      req.m_body.length = (bodyLength E s.parser.m_data).toNat ∧
      (bodyLength E s.parser.m_data).toNat ≤ s.offset + s.conn.pending.length ∧
      ∃ k, (recvBody E s).conn = s.conn.skip k := by
  rcases recvBody_cases (E := E) hs with ⟨hneg, heq⟩ | ⟨size, hsize, -, -, -, hcases⟩
  · rw [heq] at h ⊢
    cases h
    have hzero := Int.toNat_of_nonpos hneg
    refine ⟨HttpRequest.headers_init _, ?_, by omega, 0, (Conn.skip_zero _).symm⟩
    rw [HttpRequest.body_init, hs.body, hzero]
    rfl
  · rcases hcases with ⟨stop, hstop⟩ | hnull | ⟨body, hreq, hlen, hle, hconn⟩
    · rw [hstop] at h
      cases h
    · rw [hnull] at h
      cases h
    · rw [hreq] at h
      cases h
      rw [headers_withBody, body_withBody, hsize, Int.toNat_natCast]
      exact ⟨rfl, hlen, hle, hconn⟩

end

/-! ## Whole calls -/

theorem recvRequest_parsed {buffer : Buffer} {conn : Conn} {s : Filling μ}
    (h : recvLoop E buffer conn = .parsed s) : recvRequest E buffer conn = recvBody E s := by
  rw [recvRequest, h]

/-- A request comes from behind a header block. -/
theorem recvRequest_request {buffer : Buffer} {conn : Conn} (hopen : conn.closed = false)
    {req : HttpRequest μ} (h : (recvRequest E buffer conn).outcome = .request req) :
    ∃ s, recvLoop E buffer conn = .parsed s ∧ (recvBody E s).outcome = .request req := by
  rw [recvRequest] at h
  cases hloop : recvLoop E buffer conn with
  | returned outcome conn' calls =>
      rw [hloop] at h
      exact absurd h ((recvHeader_returned (Filling.start_ok buffer hopen) hloop).1 req)
  | parsed s =>
      rw [hloop] at h
      exact ⟨s, rfl, h⟩

/-- No call of the parser reports more than its length. -/
theorem recvRequest_calls (buffer : Buffer) {conn : Conn} (hopen : conn.closed = false) :
    ∀ call ∈ (recvRequest E buffer conn).calls, call.Within := by
  rw [recvRequest]
  cases hloop : recvLoop E buffer conn with
  | returned outcome conn' calls =>
      exact (recvHeader_returned (Filling.start_ok buffer hopen) hloop).2
  | parsed s =>
      obtain ⟨-, hs, -⟩ := recvLoop_parsed hloop
      have hcalls : (recvBody E s).calls = s.calls := by
        rcases recvBody_cases (E := E) hs with ⟨-, heq⟩ | ⟨_, -, -, -, hcalls, -⟩
        · rw [heq]
        · exact hcalls
      simp only [hcalls]
      exact hs.calls

/-- A request that is received leaves an open connection with fewer bytes. -/
theorem recvRequest_progress {buffer : Buffer} {conn : Conn} (hopen : conn.closed = false)
    {req : HttpRequest μ} (h : (recvRequest E buffer conn).outcome = .request req) :
    (recvRequest E buffer conn).conn.closed = false ∧
      (recvRequest E buffer conn).conn.pending.length < conn.pending.length := by
  obtain ⟨s, hloop, hreq⟩ := recvRequest_request hopen h
  obtain ⟨-, hs, hlt⟩ := recvLoop_parsed hloop
  obtain ⟨-, -, -, k, hconn⟩ := recvBody_request hs hreq
  rw [recvRequest_parsed hloop, hconn, Conn.closed_skip, Conn.pending_skip, List.length_drop]
  exact ⟨hs.isOpen, by omega⟩

/-! ## The server -/

/-- A kept connection goes on behind its request. -/
theorem handleLoop_request {m_isKeepalive : Bool} (rounds : Nat) {buffers : Nat → Buffer}
    {conn : Conn} {req : HttpRequest μ}
    (h : (recvRequest E (buffers 0) conn).outcome = .request req)
    (hkeep : (!m_isKeepalive || req.m_close) = false) :
    handleLoop E m_isKeepalive (rounds + 1) buffers conn =
      let rest := handleLoop E m_isKeepalive rounds (fun i => buffers (i + 1))
        (recvRequest E (buffers 0) conn).conn
      ⟨req :: rest.requests, (recvRequest E (buffers 0) conn).unread ++ rest.unread,
        rest.conn⟩ := by
  rw [handleLoop]
  simp only [h, hkeep]
  rfl

/-- Any other ends in the round. -/
theorem handleLoop_last {m_isKeepalive : Bool} (rounds : Nat) {buffers : Nat → Buffer} {conn : Conn}
    (h : ∀ req, (recvRequest E (buffers 0) conn).outcome = .request req →
      (!m_isKeepalive || req.m_close) = true) :
    handleLoop E m_isKeepalive (rounds + 1) buffers conn =
      ⟨match (recvRequest E (buffers 0) conn).outcome with
        | .request req => [req]
        | _ => [],
        (recvRequest E (buffers 0) conn).unread,
        match (recvRequest E (buffers 0) conn).outcome with
        | .stopped _ => (recvRequest E (buffers 0) conn).conn
        | _ => (recvRequest E (buffers 0) conn).conn.close⟩ := by
  rw [handleLoop]
  cases hout : (recvRequest E (buffers 0) conn).outcome with
  | stopped stop => rfl
  | null => rfl
  | request req =>
      simp only [h req hout]
      rfl

/-- More rounds than bytes change nothing. -/
theorem handleLoop_rounds {m_isKeepalive : Bool} {rounds : Nat} {buffers : Nat → Buffer}
    {conn : Conn} (hopen : conn.closed = false) (h : conn.pending.length < rounds) :
    handleLoop E m_isKeepalive (rounds + 1) buffers conn =
      handleLoop E m_isKeepalive rounds buffers conn := by
  induction rounds generalizing buffers conn with
  | zero => omega
  | succ rounds ih =>
      by_cases hlast : ∀ req, (recvRequest E (buffers 0) conn).outcome = .request req →
          (!m_isKeepalive || req.m_close) = true
      · rw [handleLoop_last _ hlast, handleLoop_last _ hlast]
      · rw [not_forall] at hlast
        obtain ⟨req, hlast⟩ := hlast
        obtain ⟨hreq, hkeep⟩ := Classical.not_imp.mp hlast
        have hkeep := Bool.eq_false_of_not_eq_true hkeep
        obtain ⟨hopen', hlt⟩ := recvRequest_progress hopen hreq
        rw [handleLoop_request _ hreq hkeep, handleLoop_request _ hreq hkeep,
          ih hopen' (by omega)]

end Muqiu.Http
