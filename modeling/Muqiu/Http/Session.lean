import Muqiu.Http.Decimal
import Muqiu.Http.HeaderBlock

/-!
# Sessions

`HttpSession::recvRequest` and the loop of `HttpServer::handleClient`.  `recvRound` is a round
of the loop that fills the buffer until the parser is finished, `recvBody` what follows the
loop.  A request is received with what the model needs to speak about it: what each call of
the parser reports, the bytes that are left in the buffer when it is freed, and the size of
the body that was allocated.

The servlet and the response do not read from the connection.
-/

namespace Muqiu.Http

open Window (window overwrite)

variable {μ : Type}

/-- What a call of `recvRequest` comes to. -/
inductive Outcome (μ : Type) where
  | request (req : HttpRequest μ)
  | null
  | stopped (stop : Stop)
deriving DecidableEq, Repr

/-- A call of `HttpRequestParser::execute` that has returned. -/
structure Call where
  nparse : Nat
  len : Nat
deriving DecidableEq, Repr

/-- It has not reported more than its length. -/
def Call.Within (call : Call) : Prop := call.nparse ≤ call.len

/-- A buffer as `new char[buff_size]` gives it, with any bytes in it. -/
def Buffer : Type := { data : Bytes // data.length = http_request_buffer_size }

/-! ## The loop over the header -/

/-- The variables of the loop. -/
structure Filling (μ : Type) where
  data : Bytes
  offset : Nat
  parser : HttpRequestParser μ
  conn : Conn
  calls : List Call
deriving DecidableEq

/-- How the loop ends: with a return, or behind a header block. -/
inductive HeaderRead (μ : Type) where
  | returned (outcome : Outcome μ) (conn : Conn) (calls : List Call)
  | parsed (s : Filling μ)
deriving DecidableEq

/-- What a round of the loop comes to. -/
inductive Round (μ : Type) where
  | leaves (result : HeaderRead μ)
  | repeats (s : Filling μ)
deriving DecidableEq

variable (E : Env μ)

/-- The body of `do ... while (1)`. -/
def recvRound (s : Filling μ) : Round μ :=
  match s.conn.read (http_request_buffer_size - s.offset) with
  | (len, got, conn) =>
      if len ≤ 0 then .leaves (.returned .null conn.close s.calls)
      else
        let len := len.toNat + s.offset
        match s.parser.execute E (overwrite s.data s.offset got) len with
        | .error stop => .leaves (.returned (.stopped stop) conn s.calls)
        | .ok (parser, data, nparse) =>
            let calls := s.calls ++ [⟨nparse, len⟩]
            let offset := len - nparse
            if parser.hasError then .leaves (.returned .null conn.close calls)
            else if offset = http_request_buffer_size then
              .leaves (.returned .null conn.close calls)
            else if parser.isFinished ≠ 0 then
              .leaves (.parsed ⟨data, offset, parser, conn, calls⟩)
            else .repeats ⟨data, offset, parser, conn, calls⟩

/-- The loop.  A round that repeats has read a byte, so there are no more rounds than bytes,
and one (`recvHeader_rounds`). -/
def recvHeader : Nat → Filling μ → HeaderRead μ
  | 0, s => .returned (.stopped .hang) s.conn s.calls
  | rounds + 1, s =>
      match recvRound E s with
      | .leaves result => result
      | .repeats s' => recvHeader rounds s'

/-! ## The body -/

/-- A call of `recvRequest` and what it leaves behind. -/
structure Received (μ : Type) where
  outcome : Outcome μ
  conn : Conn
  calls : List Call
  /-- the bytes in the buffer behind the body -/
  unread : Bytes
  /-- the size of the body that was allocated -/
  allocated : Option Nat
deriving DecidableEq

/-- `setBody` and `init` -/
def withBody (req : HttpRequest μ) (body : Bytes) : HttpRequest μ :=
  ({ req with m_body := body } : HttpRequest μ).init E.map

/-- `int64_t length = parser->getContentLength()` -/
def bodyLength (req : HttpRequest μ) : Int := toInt64 (getContentLength E req)

/-- The code behind the loop. -/
def recvBody (s : Filling μ) : Received μ :=
  let length := bodyLength E s.parser.m_data
  if length ≤ 0 then
    ⟨.request (s.parser.m_data.init E.map), s.conn, s.calls, s.data.take s.offset, none⟩
  else
    let size := length.toNat
    if E.heap < size then ⟨.stopped .throws, s.conn, s.calls, [], some size⟩
    else if length ≤ s.offset then
      ⟨.request (withBody E s.parser.m_data (s.data.take size)), s.conn, s.calls,
        (s.data.take s.offset).drop size, some size⟩
    else
      match s.conn.readFixSize (size - s.offset) with
      | .error stop => ⟨.stopped stop, s.conn, s.calls, [], some size⟩
      | .ok (rt, got, conn) =>
          if rt ≤ 0 then ⟨.null, conn.close, s.calls, [], some size⟩
          else
            ⟨.request (withBody E s.parser.m_data (s.data.take s.offset ++ got)), conn, s.calls,
              [], some size⟩

/-- The variables before the loop. -/
def Filling.start (buffer : Buffer) (conn : Conn) : Filling μ where
  data := buffer.val
  offset := 0
  parser := .new E
  conn := conn
  calls := []

/-- The whole loop of a call. -/
def recvLoop (buffer : Buffer) (conn : Conn) : HeaderRead μ :=
  recvHeader E (conn.pending.length + 1) (.start E buffer conn)

/-- `HttpSession::recvRequest` -/
def recvRequest (buffer : Buffer) (conn : Conn) : Received μ :=
  match recvLoop E buffer conn with
  | .returned outcome conn calls => ⟨outcome, conn, calls, [], none⟩
  | .parsed s => recvBody E s

/-! ## The server -/

/-- The requests that a connection was served, and the bytes lost on the way. -/
structure Served (μ : Type) where
  requests : List (HttpRequest μ)
  unread : Bytes
  conn : Conn
deriving DecidableEq

/-- The loop of `HttpServer::handleClient`, with the buffers its calls get.  A request that is
received has taken a byte. -/
def handleLoop (m_isKeepalive : Bool) : Nat → (Nat → Buffer) → Conn → Served μ
  | 0, _, conn => ⟨[], [], conn⟩
  | rounds + 1, buffers, conn =>
      let received := recvRequest E (buffers 0) conn
      match received.outcome with
      | .stopped _ => ⟨[], received.unread, received.conn⟩
      | .null => ⟨[], received.unread, received.conn.close⟩
      | .request req =>
          if !m_isKeepalive || req.m_close then ⟨[req], received.unread, received.conn.close⟩
          else
            let rest := handleLoop m_isKeepalive rounds (fun i => buffers (i + 1)) received.conn
            ⟨req :: rest.requests, received.unread ++ rest.unread, rest.conn⟩

/-- `HttpServer::handleClient` -/
def handleClient (m_isKeepalive : Bool) (buffers : Nat → Buffer) (conn : Conn) : Served μ :=
  handleLoop E m_isKeepalive (conn.pending.length + 1) buffers conn

/-! ## Rounds -/

variable {E}

/-- `execute` of the class is the call of the parser and a `memmove`. -/
theorem execute_eq_ok {parser parser' : HttpRequestParser μ} {data data' : Bytes} {len n : Nat} :
    parser.execute E data len = .ok (parser', data', n) ↔
      http_parser_execute E data len parser = .ok (parser', n) ∧
        data' = overwrite data 0 (window data n (len - n)) := by
  rw [HttpRequestParser.execute, Fallible.bind_ok_iff]
  constructor
  · rintro ⟨⟨parser₁, m⟩, h, ⟨⟩⟩
    exact ⟨h, rfl⟩
  · rintro ⟨h, rfl⟩
    exact ⟨_, h, rfl⟩

/-- What holds of the variables at the head of the loop. -/
structure Filling.Ok (s : Filling μ) : Prop where
  data : s.data.length = http_request_buffer_size
  offset : s.offset < http_request_buffer_size
  body : s.parser.m_data.m_body = []
  isOpen : s.conn.closed = false
  calls : ∀ call ∈ s.calls, call.Within

/-- How a round goes on, when it has read `n` bytes and the parser has taken `nparse` of
those in the buffer. -/
structure Filling.Next (E : Env μ) (s : Filling μ) (n nparse : Nat) (s' : Filling μ) : Prop where
  read : n = s.conn.taken (http_request_buffer_size - s.offset)
  pos : 0 < n
  execute : http_parser_execute E (overwrite s.data s.offset (s.conn.pending.take n))
    (n + s.offset) s.parser = .ok (s'.parser, nparse)
  no_error : s'.parser.hasError = false
  offset : s'.offset = n + s.offset - nparse
  room : s'.offset ≠ http_request_buffer_size
  data : s'.data = overwrite (overwrite s.data s.offset (s.conn.pending.take n)) 0
    (window (overwrite s.data s.offset (s.conn.pending.take n)) nparse s'.offset)
  conn : s'.conn = s.conn.skip n
  calls : s'.calls = s.calls ++ [⟨nparse, n + s.offset⟩]

/-- A round with bytes to read. -/
theorem recvRound_eq {s : Filling μ} (hs : s.Ok) (hp : s.conn.pending ≠ []) {n : Nat}
    (hn : n = s.conn.taken (http_request_buffer_size - s.offset)) :
    recvRound E s =
      match s.parser.execute E (overwrite s.data s.offset (s.conn.pending.take n))
          (n + s.offset) with
      | .error stop => .leaves (.returned (.stopped stop) (s.conn.skip n) s.calls)
      | .ok (parser, data, nparse) =>
          let calls := s.calls ++ [⟨nparse, n + s.offset⟩]
          let offset := n + s.offset - nparse
          if parser.hasError then .leaves (.returned .null (s.conn.skip n).close calls)
          else if offset = http_request_buffer_size then
            .leaves (.returned .null (s.conn.skip n).close calls)
          else if parser.isFinished ≠ 0 then
            .leaves (.parsed ⟨data, offset, parser, s.conn.skip n, calls⟩)
          else .repeats ⟨data, offset, parser, s.conn.skip n, calls⟩ := by
  have hpos := Conn.taken_pos hp (Nat.sub_pos_of_lt hs.offset)
  rw [recvRound, Conn.read_of_pending hs.isOpen hp, ← hn]
  rw [← hn] at hpos
  simp only [Int.toNat_natCast]
  rw [if_neg (by omega)]

theorem recvRound_no_pending {s : Filling μ} (hs : s.Ok) (hp : s.conn.pending = []) :
    recvRound E s = .leaves (.returned .null s.conn.close s.calls) := by
  have hend : s.conn.ending.result ≤ 0 := by cases s.conn.ending <;> decide
  rw [recvRound, Conn.read_of_no_pending hs.isOpen hp]
  simp only [if_pos hend]

/-- A round from good variables returns no request, or goes on. -/
theorem recvRound_cases {s : Filling μ} (hs : s.Ok) :
    (∃ outcome conn calls, recvRound E s = .leaves (.returned outcome conn calls) ∧
      (∀ req, outcome ≠ .request req) ∧ ∀ call ∈ calls, call.Within) ∨
    ∃ s' n nparse, s.Next E n nparse s' ∧
      recvRound E s = if s'.parser.isFinished ≠ 0 then .leaves (.parsed s') else .repeats s' := by
  by_cases hp : s.conn.pending = []
  · exact .inl ⟨_, _, _, recvRound_no_pending hs hp, fun _ => by simp, hs.calls⟩
  · obtain ⟨n, hn⟩ : ∃ n, n = s.conn.taken (http_request_buffer_size - s.offset) := ⟨_, rfl⟩
    have hpos := Conn.taken_pos hp (Nat.sub_pos_of_lt hs.offset)
    rw [← hn] at hpos
    rw [recvRound_eq hs hp hn]
    cases hexec : s.parser.execute E (overwrite s.data s.offset (s.conn.pending.take n))
        (n + s.offset) with
    | error stop => exact .inl ⟨_, _, _, rfl, fun _ => by simp, hs.calls⟩
    | ok result =>
        obtain ⟨parser, data, nparse⟩ := result
        obtain ⟨hcall, hdata⟩ := execute_eq_ok.mp hexec
        have hcalls : ∀ call ∈ s.calls ++ [⟨nparse, n + s.offset⟩], call.Within := by
          intro call hmem
          cases List.mem_append.mp hmem with
          | inl hold => exact hs.calls call hold
          | inr hnew =>
              rw [List.mem_singleton.mp hnew]
              have hlen : n + s.offset ≠ 0 := by omega
              exact execute_le hlen hcall
        simp only
        by_cases herr : parser.hasError = true
        · rw [if_pos herr]
          exact .inl ⟨_, _, _, rfl, fun _ => by simp, hcalls⟩
        · rw [if_neg herr]
          by_cases hfull : n + s.offset - nparse = http_request_buffer_size
          · rw [if_pos hfull]
            exact .inl ⟨_, _, _, rfl, fun _ => by simp, hcalls⟩
          · rw [if_neg hfull]
            refine .inr ⟨⟨data, n + s.offset - nparse, parser, s.conn.skip n,
              s.calls ++ [⟨nparse, n + s.offset⟩]⟩, n, nparse, ?_, rfl⟩
            exact ⟨hn, hpos, hcall, Bool.eq_false_of_not_eq_true herr, rfl, hfull, hdata, rfl, rfl⟩

/-- A round goes on to what it reads. -/
theorem recvRound_of_next {s s' : Filling μ} {n nparse : Nat} (hs : s.Ok)
    (hp : s.conn.pending ≠ []) (h : s.Next E n nparse s') :
    recvRound E s = if s'.parser.isFinished ≠ 0 then .leaves (.parsed s') else .repeats s' := by
  obtain ⟨data, offset, parser, conn, calls⟩ := s'
  obtain ⟨hn, hpos, hexec, herr, hoff, hroom, hdata, hconn, hcalls⟩ := h
  simp only at hexec herr hoff hroom hdata hconn hcalls ⊢
  have hcall := execute_eq_ok.mpr ⟨hexec, rfl⟩
  rw [← hoff, ← hdata] at hcall
  rw [recvRound_eq hs hp hn, hcall]
  simp only [herr, ← hoff]
  rw [if_neg Bool.false_ne_true, if_neg hroom, hconn, hcalls]

namespace Filling.Next

variable {s s' : Filling μ} {n nparse : Nat}

theorem length_read (h : s.Next E n nparse s') : (s.conn.pending.take n).length = n := by
  rw [h.read]
  exact List.length_take_of_le (s.conn.taken_le_pending _)

theorem nparse_le (h : s.Next E n nparse s') : nparse ≤ n + s.offset := by
  have hlen : n + s.offset ≠ 0 := by
    have := h.pos
    omega
  exact execute_le hlen h.execute

theorem length_overwrite (hs : s.Ok) (h : s.Next E n nparse s') :
    (overwrite s.data s.offset (s.conn.pending.take n)).length = http_request_buffer_size := by
  have hlen := h.length_read
  have htaken := s.conn.taken_le (http_request_buffer_size - s.offset)
  have hdata := hs.data
  have hoffset := hs.offset
  rw [← h.read] at htaken
  rw [Window.length_overwrite (by omega), hdata]

theorem length_window (hs : s.Ok) (h : s.Next E n nparse s') :
    (window (overwrite s.data s.offset (s.conn.pending.take n)) nparse s'.offset).length =
      s'.offset := by
  have htaken := s.conn.taken_le (http_request_buffer_size - s.offset)
  have hoffset := hs.offset
  have hle := h.nparse_le
  have hoff := h.offset
  rw [← h.read] at htaken
  exact Window.length_window (by rw [h.length_overwrite hs]; omega)

/-- The variables stay good. -/
theorem ok (hs : s.Ok) (h : s.Next E n nparse s') : s'.Ok := by
  have hpos := h.pos
  have htaken := s.conn.taken_le (http_request_buffer_size - s.offset)
  have hoffset := hs.offset
  have hoff := h.offset
  have hroom := h.room
  have hread := h.length_overwrite hs
  have hlen : n + s.offset ≠ 0 := by omega
  rw [← h.read] at htaken
  refine ⟨?_, ?_, ?_, ?_, ?_⟩
  · rw [h.data, Window.length_overwrite, hread]
    rw [h.length_window hs, hread]
    omega
  · omega
  · exact (execute_body hlen h.execute).trans hs.body
  · rw [h.conn]
    exact hs.isOpen
  · intro call hmem
    rw [h.calls] at hmem
    cases List.mem_append.mp hmem with
    | inl hold => exact hs.calls call hold
    | inr hnew =>
        rw [List.mem_singleton.mp hnew]
        exact h.nparse_le

theorem length_pending (h : s.Next E n nparse s') :
    s'.conn.pending.length + n = s.conn.pending.length := by
  have hle := s.conn.taken_le_pending (http_request_buffer_size - s.offset)
  rw [← h.read] at hle
  rw [h.conn, Conn.pending_skip, List.length_drop]
  omega

/-- What a later round finds in the buffer. -/
theorem take_data (hs : s.Ok) (h : s.Next E n nparse s') :
    s'.data.take s'.offset =
      window (overwrite s.data s.offset (s.conn.pending.take n)) nparse s'.offset := by
  rw [h.data, overwrite, List.take_zero, List.nil_append]
  exact List.take_left' (h.length_window hs)

end Filling.Next

/-! ## The loop -/

theorem recvHeader_returned {rounds : Nat} {s : Filling μ} (hs : s.Ok) {outcome : Outcome μ}
    {conn : Conn} {calls : List Call} (h : recvHeader E rounds s = .returned outcome conn calls) :
    (∀ req, outcome ≠ .request req) ∧ ∀ call ∈ calls, call.Within := by
  induction rounds generalizing s with
  | zero =>
      cases h
      exact ⟨fun _ => by simp, hs.calls⟩
  | succ rounds ih =>
      rw [recvHeader] at h
      rcases recvRound_cases (E := E) hs with
        ⟨outcome', conn', calls', heq, hreq, hcalls⟩ | ⟨s', n, nparse, hnext, heq⟩
      · rw [heq] at h
        cases h
        exact ⟨hreq, hcalls⟩
      · by_cases hfin : s'.parser.isFinished ≠ 0
        · rw [heq, if_pos hfin] at h
          cases h
        · rw [heq, if_neg hfin] at h
          exact ih (hnext.ok hs) h

/-- Behind a header block the variables are good and bytes have been read. -/
theorem recvHeader_parsed {rounds : Nat} {s s' : Filling μ} (hs : s.Ok)
    (h : recvHeader E rounds s = .parsed s') :
    s'.Ok ∧ s'.conn.pending.length < s.conn.pending.length := by
  induction rounds generalizing s with
  | zero => cases h
  | succ rounds ih =>
      rw [recvHeader] at h
      rcases recvRound_cases (E := E) hs with
        ⟨outcome, conn, calls, heq, -⟩ | ⟨s₁, n, nparse, hnext, heq⟩
      · rw [heq] at h
        cases h
      · have hok := hnext.ok hs
        have hlen := hnext.length_pending
        have hpos := hnext.pos
        by_cases hfin : s₁.parser.isFinished ≠ 0
        · rw [heq, if_pos hfin] at h
          cases h
          exact ⟨hok, by omega⟩
        · rw [heq, if_neg hfin] at h
          obtain ⟨hok', hlt⟩ := ih hok h
          exact ⟨hok', by omega⟩

/-- More rounds than bytes change nothing. -/
theorem recvHeader_rounds {rounds : Nat} {s : Filling μ} (hs : s.Ok)
    (h : s.conn.pending.length < rounds) : recvHeader E (rounds + 1) s = recvHeader E rounds s := by
  induction rounds generalizing s with
  | zero => omega
  | succ rounds ih =>
      rw [recvHeader, recvHeader]
      rcases recvRound_cases (E := E) hs with
        ⟨outcome, conn, calls, heq, -⟩ | ⟨s₁, n, nparse, hnext, heq⟩
      · rw [heq]
      · have hlen := hnext.length_pending
        have hpos := hnext.pos
        by_cases hfin : s₁.parser.isFinished ≠ 0
        · rw [heq, if_pos hfin]
        · rw [heq, if_neg hfin]
          exact ih (hnext.ok hs) (by omega)

theorem Filling.start_ok (buffer : Buffer) {conn : Conn} (hopen : conn.closed = false) :
    (Filling.start E buffer conn).Ok :=
  ⟨buffer.property, show 0 < http_request_buffer_size by decide, rfl, hopen,
    fun _ h => absurd h List.not_mem_nil⟩

/-- When the first read brings the whole header block, the loop ends behind it with the rest
of the read in the buffer. -/
theorem recvLoop_first {h : Bytes} {parser : HttpRequestParser μ} (hb : HeaderBlock E h parser)
    {conn : Conn} (hopen : conn.closed = false) (hstart : h <+: conn.pending)
    (hfirst : h.length ≤ conn.taken http_request_buffer_size) (buffer : Buffer) :
    ∃ s, recvLoop E buffer conn = .parsed s ∧ s.Ok ∧ s.parser = parser ∧
      s.offset = conn.taken http_request_buffer_size - h.length ∧
      s.conn = conn.skip (conn.taken http_request_buffer_size) ∧
      s.data.take s.offset =
        (conn.pending.take (conn.taken http_request_buffer_size)).drop h.length := by
  obtain ⟨n, hn⟩ : ∃ n, n = conn.taken http_request_buffer_size := ⟨_, rfl⟩
  have hpos : 0 < h.length := Nat.pos_of_ne_zero hb.length_ne_zero
  have hle : n ≤ http_request_buffer_size := hn ▸ conn.taken_le _
  have hlen : (conn.pending.take n).length = n :=
    List.length_take_of_le (hn ▸ conn.taken_le_pending _)
  rw [← hn] at hfirst ⊢
  obtain ⟨t, ht⟩ := hstart
  have hp : conn.pending ≠ [] := by
    rw [← ht]
    exact List.append_ne_nil_of_left_ne_nil (List.ne_nil_of_length_pos hpos) t
  have hsum : h.length + (n - h.length) = n := Nat.add_sub_of_le hfirst
  -- what the read brings is the block and `more`
  obtain ⟨more, hmore⟩ : ∃ more, more = t.take (n - h.length) := ⟨_, rfl⟩
  have hread : conn.pending.take n = h ++ more := by
    rw [hmore, ← ht, ← hsum, List.take_length_add_append, Nat.add_sub_cancel_left]
  have hmorelen : more.length = n - h.length := by
    rw [hread, List.length_append] at hlen
    omega
  have hbuffer : overwrite buffer.val 0 (conn.pending.take n) =
      h ++ (more ++ buffer.val.drop n) := by
    rw [overwrite, hlen, hread, List.take_zero, List.nil_append, List.append_assoc, Nat.zero_add]
  have hexec := hb.execute (more ++ buffer.val.drop n) (n - h.length)
  rw [hsum, ← hbuffer] at hexec
  have hwin : window (overwrite buffer.val 0 (conn.pending.take n)) h.length (n - h.length) =
      more := by
    rw [hbuffer, window, List.drop_left, ← hmorelen, List.take_left]
  obtain ⟨data, hdata⟩ : ∃ data, data = overwrite (overwrite buffer.val 0 (conn.pending.take n)) 0
      (window (overwrite buffer.val 0 (conn.pending.take n)) h.length (n - h.length)) := ⟨_, rfl⟩
  have hs : (Filling.start E buffer conn).Ok := Filling.start_ok buffer hopen
  have hnext : (Filling.start E buffer conn).Next E n h.length
      ⟨data, n - h.length, parser, conn.skip n, [⟨h.length, n⟩]⟩ :=
    ⟨hn, Nat.lt_of_lt_of_le hpos hfirst, hexec, hb.no_error, rfl, by simp only; omega, hdata, rfl,
      rfl⟩
  have hfin : parser.isFinished ≠ 0 := by rw [hb.finished]; decide
  refine ⟨_, ?_, hnext.ok hs, rfl, rfl, rfl, ?_⟩
  · rw [recvLoop, recvHeader, recvRound_of_next hs hp hnext, if_pos hfin]
  · rw [hnext.take_data hs, hread, List.drop_left]
    exact hwin

/-- A loop that ends behind a header block started on an open connection and has read. -/
theorem recvLoop_parsed {buffer : Buffer} {conn : Conn} {s : Filling μ}
    (h : recvLoop E buffer conn = .parsed s) :
    conn.closed = false ∧ s.Ok ∧ s.conn.pending.length < conn.pending.length := by
  cases hopen : conn.closed with
  | false => exact ⟨rfl, recvHeader_parsed (Filling.start_ok buffer hopen) h⟩
  | true =>
      have hread : ∀ n, conn.read n = (-1, [], conn) := fun n => by
        rw [Conn.read, hopen, if_pos rfl]
      rw [recvLoop, recvHeader, recvRound, Filling.start, hread] at h
      cases h

end Muqiu.Http
