import Muqiu.Http.Request

/-!
# Requests in pieces

A request should be received the same however the network cuts it.  `SameAsWhole` says so of
one cut.

`nread` adds up over the calls of the parser, and the offset that a call reports is counted
from the start of its own buffer.  A header block that takes a second read so either fails
the assertion on `nread`, or as many bytes behind it are skipped as the first read has
brought, and the body lacks them (`length_of_cut`).  `sameAsWhole_iff` says that the first
read has to bring the block.
-/

namespace Muqiu.Http

open Window (window overwrite)

variable {μ : Type} {E : Env μ}

/-! ## A header block in two reads -/

theorem isFinished_eq_zero {parser : HttpRequestParser μ} (herr : parser.hasError = false)
    (hcs : parser.mParser.cs < http_parser_first_final) : parser.isFinished = 0 := by
  rw [HttpRequestParser.hasError, Bool.or_eq_false_iff] at herr
  rw [HttpRequestParser.isFinished, if_neg (of_decide_eq_false herr.2),
    if_neg (Nat.not_le_of_lt hcs)]

theorem take_read {s s' : Filling μ} {n nparse : Nat} (h : s.Next E n nparse s')
    (hoff : s.offset = 0) :
    (overwrite s.data s.offset (s.conn.pending.take n)).take (n + s.offset) =
      s.conn.pending.take n := by
  rw [hoff, Nat.add_zero, overwrite, List.take_zero, List.nil_append]
  exact List.take_left' h.length_read

/-- A round on the first bytes of a block: all of them are taken, and the loop goes on. -/
theorem next_walk {s s' : Filling μ} {n nparse : Nat} (h : s.Next E n nparse s')
    (hoff : s.offset = 0) {front back : Bytes}
    (hends : E.machine.Ends s.parser.mParser.cs (front ++ back)) (hback : back ≠ [])
    (hcs : s.parser.mParser.cs < http_parser_first_final)
    (hread : s.conn.pending.take n = front) :
    nparse = s.parser.mParser.nread + n ∧ s'.parser.mParser.nread = nparse ∧
      s'.parser.isFinished = 0 ∧ E.machine.Ends s'.parser.mParser.cs back ∧
      s'.parser.mParser.cs < http_parser_first_final := by
  obtain ⟨c, hwalk, hends'⟩ := hends.split hback
  have hlen : n + s.offset ≠ 0 := by
    have := h.pos
    omega
  have htake := (take_read h hoff).trans hread
  have hfront : front.length = n := by rw [← hread]; exact h.length_read
  have hwalk' := hwalk
  rw [← htake] at hwalk'
  obtain ⟨hn, hc, hnread⟩ := execute_walk hlen hwalk' h.execute
  rw [htake, hfront] at hn
  have hcs' := Machine.walk_not_final hcs hwalk
  rw [← hc] at hcs' hends'
  exact ⟨hn, hnread, isFinished_eq_zero h.no_error hcs', hends', hcs'⟩

/-- A later round ends the block or fails: where it ends, the bytes that earlier rounds have
taken are skipped once more. -/
theorem length_of_later {rounds : Nat} {s s' : Filling μ} (hs : s.Ok) (hoff : s.offset = 0)
    (hnread : 0 < s.parser.mParser.nread) {back : Bytes}
    (hends : E.machine.Ends s.parser.mParser.cs back)
    (hcs : s.parser.mParser.cs < http_parser_first_final) (hstart : back <+: s.conn.pending)
    (hloop : recvHeader E rounds s = .parsed s') :
    s'.offset + s'.conn.pending.length + s.parser.mParser.nread + back.length =
      s.conn.pending.length := by
  cases rounds with
  | zero => cases hloop
  | succ rounds =>
      rw [recvHeader] at hloop
      rcases recvRound_cases (E := E) hs with
        ⟨_, _, _, heq, -⟩ | ⟨s₁, n, nparse, hnext, heq⟩
      · rw [heq] at hloop
        cases hloop
      · have hpos := hnext.pos
        have hle := hnext.nparse_le
        have hpending := hnext.length_pending
        obtain ⟨t, ht⟩ := hstart
        by_cases hshort : n < back.length
        · have hread : s.conn.pending.take n = back.take n := by
            rw [← ht, List.take_append_of_le_length (Nat.le_of_lt hshort)]
          rw [← List.take_append_drop n back] at hends
          have hback : back.drop n ≠ [] := by
            rw [ne_eq, List.drop_eq_nil_iff]
            omega
          have := (next_walk hnext hoff hends hback hcs hread).1
          omega
        · have hlen : n + s.offset ≠ 0 := by omega
          have hread : s.conn.pending.take n = back ++ t.take (n - back.length) := by
            rw [← ht, List.take_append, List.take_of_length_le (Nat.le_of_not_lt hshort)]
          obtain ⟨hn, hfin⟩ :=
            execute_ends hlen hends ((take_read hnext hoff).trans hread) hnext.execute
          rw [heq, if_pos (by rw [hfin]; decide)] at hloop
          cases hloop
          have hoffset := hnext.offset
          omega

/-- When the block takes a second read, the bytes that are left for the body are fewer by
those of the first. -/
theorem length_of_cut {h : Bytes} {parser : HttpRequestParser μ} (hb : HeaderBlock E h parser)
    {conn : Conn} (hopen : conn.closed = false) (hstart : h <+: conn.pending)
    (hcut : conn.taken http_request_buffer_size < h.length) {buffer : Buffer} {s : Filling μ}
    (hloop : recvLoop E buffer conn = .parsed s) :
    s.offset + s.conn.pending.length + conn.taken http_request_buffer_size + h.length =
      conn.pending.length := by
  have hs : (Filling.start E buffer conn).Ok := Filling.start_ok buffer hopen
  obtain ⟨t, ht⟩ := hstart
  rw [recvLoop, recvHeader] at hloop
  rcases recvRound_cases (E := E) hs with
    ⟨_, _, _, heq, -⟩ | ⟨s₁, n, nparse, hnext, heq⟩
  · rw [heq] at hloop
    cases hloop
  · have hn : n = conn.taken http_request_buffer_size := hnext.read
    rw [← hn] at hcut ⊢
    have hread : conn.pending.take n = h.take n := by
      rw [← ht, List.take_append_of_le_length (Nat.le_of_lt hcut)]
    have hends := hb.ends
    rw [← List.take_append_drop n h] at hends
    have hback : h.drop n ≠ [] := by
      rw [ne_eq, List.drop_eq_nil_iff]
      omega
    obtain ⟨hnparse, hnread, hfin, hends₁, hcs₁⟩ := next_walk hnext rfl hends hback
      (show http_parser_start < http_parser_first_final by decide) hread
    have hnparse : nparse = n := hnparse.trans (Nat.zero_add n)
    have hpos := hnext.pos
    have hoff : s₁.offset = 0 := by
      rw [hnext.offset, hnparse]
      exact Nat.sub_self n
    have hstart₁ : h.drop n <+: s₁.conn.pending := by
      rw [hnext.conn, Conn.pending_skip]
      exact ⟨t, by rw [← List.drop_append_of_le_length (Nat.le_of_lt hcut), ht]; rfl⟩
    rw [heq, if_neg (not_not.mpr hfin)] at hloop
    have hlater := length_of_later (hnext.ok hs) hoff (by omega) hends₁ hcs₁ hstart₁ hloop
    have hpending : s₁.conn.pending.length + n = conn.pending.length := hnext.length_pending
    rw [List.length_drop, hnread, hnparse] at hlater
    omega

/-- A request that takes a second read for its header block is not received. -/
theorem not_received_of_cut {h body : Bytes} {parser : HttpRequestParser μ}
    (hb : HeaderBlock E h parser) {conn : Conn} (hopen : conn.closed = false)
    (htext : conn.pending = h ++ body) (hcut : conn.taken http_request_buffer_size < h.length)
    (buffer : Buffer) {req : HttpRequest μ} (hbody : req.m_body = body) :
    (recvRequest E buffer conn).outcome ≠ .request req := by
  intro hreq
  obtain ⟨s, hloop, hrecv⟩ := recvRequest_request hopen hreq
  obtain ⟨-, hs, -⟩ := recvLoop_parsed hloop
  have hstart : h <+: conn.pending := by rw [htext]; exact List.prefix_append _ _
  have hlen := length_of_cut hb hopen hstart hcut hloop
  obtain ⟨-, hsize, hle, -⟩ := recvBody_request hs hrecv
  have hpos : 0 < conn.taken http_request_buffer_size := by
    refine Conn.taken_pos ?_ (by decide)
    rw [← List.length_pos_iff, htext, List.length_append]
    have := hb.length_ne_zero
    omega
  rw [htext, List.length_append] at hlen
  rw [← hsize, hbody] at hle
  omega

/-! ## Every cut -/

/-- A connection that brings what comes in some pieces. -/
def arriving (pieces : Pieces UInt8) (ending : Ending) : Conn := ⟨pieces, ending, false⟩

/-- The request is received from the pieces of a cut as it is from one piece, and no call of
the parser reports more than it was given.  A failed assertion would be no request. -/
structure SameAsWhole (r : ValidRequest E) (cut : Pieces UInt8) (ending ending' : Ending)
    (buffer buffer' : Buffer) : Prop where
  request : ∃ req,
    (recvRequest E buffer (arriving (.one r.text) ending)).outcome = .request req ∧
    (recvRequest E buffer' (arriving cut ending')).outcome = .request req
  calls : ∀ call ∈ (recvRequest E buffer' (arriving cut ending')).calls, call.nparse ≤ call.len

/-- The first read of pieces. -/
theorem firstRead_arriving (pieces : Pieces UInt8) (ending : Ending) :
    ValidRequest.firstRead (arriving pieces ending) =
      min http_request_buffer_size pieces.front.length :=
  Conn.taken_eq (by decide)

/-- A request that is received from some pieces is received as it is, from a first read that
brings the header block and leaves a body that can be completed. -/
theorem received_iff (r : ValidRequest E) {cut : Pieces UInt8} (hcut : cut.all = r.text)
    (ending : Ending) (buffer : Buffer) :
    (recvRequest E buffer (arriving cut ending)).outcome = .request r.value ↔
      r.header.length ≤ cut.front.length ∧
        Counted (r.text.length - min http_request_buffer_size cut.front.length) := by
  have hfirst := firstRead_arriving cut ending
  have hpending : (arriving cut ending).pending = r.text := hcut
  have hstart : r.text <+: (arriving cut ending).pending := hpending ▸ List.prefix_rfl
  have hshort := r.block.short
  constructor
  · intro hreq
    have hheader : r.header.length ≤ ValidRequest.firstRead (arriving cut ending) := by
      by_contra hlt
      exact not_received_of_cut r.block rfl hpending (Nat.lt_of_not_le hlt) buffer
        (body_withBody _ _) hreq
    refine ⟨by omega, ?_⟩
    by_contra hcount
    rw [← hfirst] at hcount
    rw [ValidRequest.recv_uncounted rfl hstart hheader hcount] at hreq
    cases hreq
  · rintro ⟨hheader, hcount⟩
    rw [← hfirst] at hcount
    have hle : ValidRequest.firstRead (arriving cut ending) ≤ r.text.length := by
      have := Pieces.length_front_le cut
      rw [hcut] at this
      omega
    exact (ValidRequest.recv_within rfl hstart (by omega) hle hcount buffer).1

/-- What is received behind a header block in the first read. -/
theorem request_of_block {h body : Bytes} {parser : HttpRequestParser μ}
    (hb : HeaderBlock E h parser) {conn : Conn} (hopen : conn.closed = false)
    (hstart : h <+: conn.pending) (hfirst : h.length ≤ conn.taken http_request_buffer_size)
    {buffer : Buffer} {req : HttpRequest μ} (hbody : req.m_body = body)
    (hreq : (recvRequest E buffer conn).outcome = .request req) :
    req = withBody E parser.m_data body ∧ (bodyLength E parser.m_data).toNat = body.length ∧
      body.length ≤ E.heap := by
  obtain ⟨s, hloop, hs, hparser, -⟩ := recvLoop_first hb hopen hstart hfirst buffer
  rw [recvRequest_parsed hloop] at hreq
  obtain ⟨-, hlength, -⟩ := recvBody_request hs hreq
  rw [hbody] at hlength
  have hnone := hs.body
  rcases recvBody_cases (E := E) hs with ⟨hneg, heq⟩ | ⟨size, hsize, hpos, -, -, hcases⟩
  · have hzero := Int.toNat_of_nonpos hneg
    have hnil : body = [] := List.eq_nil_of_length_eq_zero (hlength.trans hzero)
    rw [heq] at hreq
    cases hreq
    rw [hparser] at hlength hnone ⊢
    rw [hnil, withBody_nil hnone, ← hnil]
    exact ⟨rfl, hlength.symm, by rw [hnil]; exact Nat.zero_le _⟩
  · have hheap : size ≤ E.heap := by
      by_contra hheap
      rw [recvBody_throws hsize hpos (Nat.lt_of_not_le hheap)] at hreq
      cases hreq
    rw [hsize, Int.toNat_natCast] at hlength
    rcases hcases with ⟨stop, hstop⟩ | hnull | ⟨body', hrecv, -⟩
    · rw [hstop] at hreq
      cases hreq
    · rw [hnull] at hreq
      cases hreq
    · rw [hrecv] at hreq
      cases hreq
      rw [body_withBody] at hbody
      rw [hbody, ← hparser, hsize, Int.toNat_natCast]
      exact ⟨rfl, hlength.symm, by omega⟩

/-- A header block that declares no length, at the end of what comes. -/
theorem received_bare {h : Bytes} {parser : HttpRequestParser μ} (hb : HeaderBlock E h parser)
    {conn : Conn} (hopen : conn.closed = false) (hstart : h <+: conn.pending)
    (hfirst : h.length ≤ conn.taken http_request_buffer_size)
    (hlength : bodyLength E parser.m_data ≤ 0) (buffer : Buffer) :
    (recvRequest E buffer conn).outcome = .request (withBody E parser.m_data []) := by
  obtain ⟨s, hloop, hs, hparser, -⟩ := recvLoop_first hb hopen hstart hfirst buffer
  have hnone := hs.body
  rw [recvRequest_parsed hloop, recvBody_none (by rw [hparser]; exact hlength), hparser]
  rw [hparser] at hnone
  rw [withBody_nil hnone]

/-- A request with a given body is received from some pieces of a header block and this body
when it is the one that the block describes, whatever length the headers of the block declare:
it has to be that of the body. -/
theorem received_block_iff {h body : Bytes} {parser : HttpRequestParser μ}
    (hb : HeaderBlock E h parser) {cut : Pieces UInt8} (hcut : cut.all = h ++ body)
    (ending : Ending) (buffer : Buffer) (req : HttpRequest μ) (hbody : req.m_body = body) :
    (recvRequest E buffer (arriving cut ending)).outcome = .request req ↔
      req = withBody E parser.m_data body ∧
        (bodyLength E parser.m_data).toNat = body.length ∧ body.length ≤ E.heap ∧
        h.length ≤ cut.front.length ∧
        Counted ((h ++ body).length - min http_request_buffer_size cut.front.length) := by
  have hfirst := firstRead_arriving cut ending
  have hpending : (arriving cut ending).pending = h ++ body := hcut
  have hstart : h <+: (arriving cut ending).pending := by
    rw [hpending]
    exact List.prefix_append _ _
  have hshort := hb.short
  have hfront : cut.front.length ≤ (h ++ body).length := hcut ▸ Pieces.length_front_le cut
  rw [List.length_append] at hfront
  -- what is received comes from a first read that brings the block
  have hread (hreq : (recvRequest E buffer (arriving cut ending)).outcome = .request req) :
      h.length ≤ ValidRequest.firstRead (arriving cut ending) := by
    by_contra hlt
    exact not_received_of_cut hb rfl hpending (Nat.lt_of_not_le hlt) buffer hbody hreq
  cases body with
  | nil =>
      constructor
      · intro hreq
        have hheader := hread hreq
        obtain ⟨hvalue, hlength, hheap⟩ := request_of_block hb rfl hstart hheader hbody hreq
        refine ⟨hvalue, hlength, hheap, by omega, Or.inl ?_⟩
        rw [List.append_nil]
        omega
      · rintro ⟨rfl, hlength, -, hheader, -⟩
        have hheader : h.length ≤ ValidRequest.firstRead (arriving cut ending) := by omega
        exact received_bare hb rfl hstart hheader (Int.toNat_eq_zero.mp hlength) buffer
  | cons b body =>
      have hexact (hlength : (bodyLength E parser.m_data).toNat = (b :: body).length) :
          bodyLength E parser.m_data = (b :: body).length := by
        rw [List.length_cons] at hlength ⊢
        omega
      constructor
      · intro hreq
        obtain ⟨hvalue, hlength, hheap⟩ :=
          request_of_block hb rfl hstart (hread hreq) hbody hreq
        have hiff := received_iff ⟨h, b :: body, parser, hb, hexact hlength, hheap⟩ hcut ending
          buffer
        rw [hvalue] at hreq
        exact ⟨hvalue, hlength, hheap, hiff.mp hreq⟩
      · rintro ⟨rfl, hlength, hheap, hrest⟩
        have hiff := received_iff ⟨h, b :: body, parser, hb, hexact hlength, hheap⟩ hcut ending
          buffer
        exact hiff.mpr hrest

/-- A request is received the same from a cut exactly when its first read brings the whole
header block, and the bytes of the body that are left behind the first read, of the cut and
of one piece, are none or positive as an `int`. -/
theorem sameAsWhole_iff (r : ValidRequest E) {cut : Pieces UInt8} (hcut : cut.all = r.text)
    (ending ending' : Ending) (buffer buffer' : Buffer) :
    SameAsWhole r cut ending ending' buffer buffer' ↔
      r.header.length ≤ cut.front.length ∧
        Counted (r.text.length - min http_request_buffer_size cut.front.length) ∧
        Counted (r.text.length - min http_request_buffer_size r.text.length) := by
  have hone := received_iff r (Pieces.all_one r.text) ending buffer
  have hpieces := received_iff r hcut ending' buffer'
  have hstart : r.text <+: (arriving (.one r.text) ending).pending := by
    rw [Conn.pending, arriving, Pieces.all_one]
  have hheader : r.header.length ≤ r.text.length := by
    have := r.length_text
    omega
  rw [Pieces.front_one] at hone
  constructor
  · rintro ⟨⟨req, hwhole, hreq⟩, -⟩
    have hcount : Counted (r.text.length - min http_request_buffer_size r.text.length) := by
      by_contra hcount
      have hfirst := firstRead_arriving (.one r.text) ending
      rw [Pieces.front_one] at hfirst
      have hshort := r.block.short
      rw [← hfirst] at hcount
      rw [ValidRequest.recv_uncounted rfl hstart (by omega) hcount] at hwhole
      cases hwhole
    rw [hone.mpr ⟨hheader, hcount⟩] at hwhole
    cases hwhole
    obtain ⟨hfront, hcount'⟩ := hpieces.mp hreq
    exact ⟨hfront, hcount', hcount⟩
  · rintro ⟨hfront, hcount', hcount⟩
    exact ⟨⟨_, hone.mpr ⟨hheader, hcount⟩, hpieces.mpr ⟨hfront, hcount'⟩⟩,
      recvRequest_calls buffer' rfl⟩

/-- The header block in one piece and the body in another. -/
def headerThenBody : Pieces UInt8 := ⟨[plainRequest.header, plainRequest.body], by decide⟩

theorem sameAsWhole_headerThenBody :
    SameAsWhole plainRequest headerThenBody .eof .eof zeroBuffer zeroBuffer :=
  (sameAsWhole_iff plainRequest (show headerThenBody.all = plainRequest.text by decide) .eof .eof
    zeroBuffer zeroBuffer).mpr ⟨by decide, by decide, by decide⟩

/-- The request line in a piece of its own. -/
def cutAfterLine : Pieces UInt8 :=
  ⟨[plainRequest.text.take 16, plainRequest.text.drop 16], by decide⟩

/-- The second call of the parser fails the assertion on `nread`. -/
theorem not_sameAsWhole_cutAfterLine :
    ¬SameAsWhole plainRequest cutAfterLine .eof .eof zeroBuffer zeroBuffer := by
  rintro ⟨⟨req, -, hreq⟩, -⟩
  have habort : (recvRequest plainEnv zeroBuffer (arriving cutAfterLine .eof)).outcome =
      .stopped .abort := by decide +kernel
  rw [habort] at hreq
  cases hreq

end Muqiu.Http
