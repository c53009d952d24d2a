import Muqiu.Http.Body

/-!
# Valid requests

A `ValidRequest` is a header block that the parser accepts and a body of the length that it
declares.  `value` is the request that its bytes describe.

The lemmas are about a connection on which it comes next, when the first read brings the
whole header block.  The request is received, but for a body whose missing bytes are no
positive `int`, and the connection is behind it, but for a read that has gone further.
-/

namespace Muqiu.Http

variable {μ : Type}

/-- A complete request. -/
structure ValidRequest (E : Env μ) where
  header : Bytes
  body : Bytes
  parser : HttpRequestParser μ
  block : HeaderBlock E header parser
  length : bodyLength E parser.m_data = body.length
  memory : body.length ≤ E.heap

/-- What `readFixSize` of so many bytes reports is taken for a success, or there is nothing
to read. -/
def Counted (n : Nat) : Prop := n = 0 ∨ 0 < Conn.toInt32 n

instance (n : Nat) : Decidable (Counted n) := inferInstanceAs (Decidable (_ ∨ _))

namespace ValidRequest

variable {E : Env μ} (r : ValidRequest E)

/-- The bytes of the request. -/
def text : Bytes := r.header ++ r.body

/-- What they describe. -/
def value : HttpRequest μ := withBody E r.parser.m_data r.body

theorem length_text : r.text.length = r.header.length + r.body.length := List.length_append

/-- The bytes that the first read brings. -/
def firstRead (conn : Conn) : Nat := conn.taken http_request_buffer_size

/-! ## The bytes of a read -/

section

variable {r} {conn : Conn} {n : Nat}

/-- In a read that does not go beyond the request, the bytes behind the header block. -/
theorem drop_take_within (hstart : r.text <+: conn.pending) (hge : r.header.length ≤ n)
    (hle : n ≤ r.text.length) :
    (conn.pending.take n).drop r.header.length = r.body.take (n - r.header.length) := by
  obtain ⟨t, ht⟩ := hstart
  rw [← ht, List.take_append_of_le_length hle, text, List.take_append, List.take_of_length_le hge,
    List.drop_left]

/-- The bytes of the request that such a read leaves. -/
theorem take_drop_within (hstart : r.text <+: conn.pending) (hge : r.header.length ≤ n)
    (hle : n ≤ r.text.length) :
    (conn.pending.drop n).take (r.text.length - n) = r.body.drop (n - r.header.length) := by
  obtain ⟨t, ht⟩ := hstart
  have hlen := r.length_text
  rw [← ht, List.drop_append_of_le_length hle, text, List.drop_append,
    List.drop_eq_nil_of_le hge, List.nil_append]
  refine List.take_left' ?_
  rw [List.length_drop, List.length_append]
  omega

/-- In a read that brings all of it, the body and what comes behind. -/
theorem drop_take_beyond (hstart : r.text <+: conn.pending) (hge : r.text.length ≤ n) :
    (conn.pending.take n).drop r.header.length =
      r.body ++ (conn.pending.take n).drop r.text.length := by
  obtain ⟨t, ht⟩ := hstart
  have htake : conn.pending.take n = r.header ++ (r.body ++ t.take (n - r.text.length)) := by
    rw [← ht, List.take_append, List.take_of_length_le hge, text, List.append_assoc]
  have htext : r.header ++ (r.body ++ t.take (n - r.text.length)) =
      r.text ++ t.take (n - r.text.length) := by
    rw [text, List.append_assoc]
  rw [htake, List.drop_left, htext, List.drop_left]

end

/-! ## A call whose first read brings the header block -/

section

variable {r} {conn : Conn} (hopen : conn.closed = false) (hstart : r.text <+: conn.pending)
  (hfirst : r.header.length ≤ firstRead conn)
include hopen hstart hfirst

/-- What the code behind the loop finds. -/
theorem parsed_first (buffer : Buffer) :
    ∃ s, recvRequest E buffer conn = recvBody E s ∧ s.Ok ∧ s.parser = r.parser ∧
      s.offset = firstRead conn - r.header.length ∧ s.conn = conn.skip (firstRead conn) ∧
      s.data.take s.offset = (conn.pending.take (firstRead conn)).drop r.header.length := by
  have hheader : r.header <+: conn.pending := (List.prefix_append _ _).trans hstart
  obtain ⟨s, hloop, hs, hrest⟩ := recvLoop_first r.block hopen hheader hfirst buffer
  exact ⟨s, recvRequest_parsed hloop, hs, hrest⟩

/-- A read that ends in the body, which is completed from the connection. -/
theorem recvBody_first (hlt : firstRead conn < r.text.length) (buffer : Buffer) :
    ∃ calls, recvRequest E buffer conn =
      if Conn.toInt32 (r.text.length - firstRead conn) ≤ 0 then
        ⟨.null, (conn.skip r.text.length).close, calls, [], some r.body.length⟩
      else ⟨.request r.value, conn.skip r.text.length, calls, [], some r.body.length⟩ := by
  obtain ⟨s, heq, hs, hparser, hoff, hconn, hdata⟩ := parsed_first hopen hstart hfirst buffer
  have hlen := r.length_text
  have hpending := hstart.length_le
  have hsize : bodyLength E s.parser.m_data = r.body.length := by rw [hparser]; exact r.length
  have hrest : r.body.length - s.offset = r.text.length - firstRead conn := by omega
  have hleft : r.body.length - s.offset ≤ s.conn.pending.length := by
    rw [hconn, Conn.pending_skip, List.length_drop]
    omega
  have hsum : firstRead conn + (r.text.length - firstRead conn) = r.text.length := by omega
  have hvalue : withBody E s.parser.m_data (s.data.take s.offset ++
      s.conn.pending.take (r.text.length - firstRead conn)) = r.value := by
    rw [hdata, hconn, Conn.pending_skip, drop_take_within hstart hfirst (Nat.le_of_lt hlt),
      take_drop_within hstart hfirst (Nat.le_of_lt hlt), List.take_append_drop, hparser, value]
  refine ⟨s.calls, ?_⟩
  rw [heq, recvBody_rest hs hsize r.memory (by omega) hleft, hrest, hvalue, hconn,
    Conn.skip_skip, hsum]

/-- A read that brings all of the body. -/
theorem recvBody_whole (hge : r.text.length ≤ firstRead conn) (buffer : Buffer) :
    (recvRequest E buffer conn).outcome = .request r.value ∧
      (recvRequest E buffer conn).conn = conn.skip (firstRead conn) ∧
      (recvRequest E buffer conn).unread =
        (conn.pending.take (firstRead conn)).drop r.text.length := by
  obtain ⟨s, heq, hs, hparser, hoff, hconn, hdata⟩ := parsed_first hopen hstart hfirst buffer
  have hlen := r.length_text
  have hsize : bodyLength E s.parser.m_data = r.body.length := by rw [hparser]; exact r.length
  obtain ⟨hreq, hconn', hunread⟩ := recvBody_within hs hsize r.memory (by omega)
  rw [hdata, drop_take_beyond hstart hge] at hreq hunread
  rw [List.take_left, hparser] at hreq
  rw [List.drop_left] at hunread
  rw [heq]
  exact ⟨hreq, hconn'.trans hconn, hunread⟩

/-- A read that does not go beyond the request, and a body that can be completed. -/
theorem recv_within (hle : firstRead conn ≤ r.text.length)
    (hcount : Counted (r.text.length - firstRead conn)) (buffer : Buffer) :
    (recvRequest E buffer conn).outcome = .request r.value ∧
      (recvRequest E buffer conn).conn = conn.skip r.text.length ∧
      (recvRequest E buffer conn).unread = [] := by
  by_cases hlt : firstRead conn < r.text.length
  · obtain ⟨calls, heq⟩ := recvBody_first hopen hstart hfirst hlt buffer
    have hpos : 0 < Conn.toInt32 (r.text.length - firstRead conn) :=
      hcount.resolve_left (by omega)
    rw [if_neg (by omega)] at heq
    rw [heq]
    exact ⟨rfl, rfl, rfl⟩
  · have heq : firstRead conn = r.text.length := by omega
    obtain ⟨hreq, hconn, hunread⟩ := recvBody_whole hopen hstart hfirst (by omega) buffer
    rw [heq] at hconn hunread
    refine ⟨hreq, hconn, ?_⟩
    rw [hunread, List.drop_eq_nil_of_le (List.length_take_le _ _)]

/-- One that cannot. -/
theorem recv_uncounted (hcount : ¬Counted (r.text.length - firstRead conn)) (buffer : Buffer) :
    (recvRequest E buffer conn).outcome = .null := by
  obtain ⟨hne, hpos⟩ := not_or.mp hcount
  obtain ⟨calls, heq⟩ := recvBody_first hopen hstart hfirst (by omega) buffer
  rw [if_pos (by omega)] at heq
  rw [heq]

end

end ValidRequest

/-! ## A plain request -/

/-- A row of a table: what bytes `lo` to `hi` do in a state. -/
structure Row where
  cs : Nat
  lo : UInt8
  hi : UInt8
  acts : List Action
  next : Nat
deriving DecidableEq, Repr

/-- The row is about the byte in the state. -/
def Row.covers (cs : Nat) (b : UInt8) (row : Row) : Bool :=
  row.cs = cs && row.lo ≤ b && b ≤ row.hi

/-- The table with some rows. -/
def Machine.ofRows (rows : List Row)
    (h : ∀ row ∈ rows, .done ∈ row.acts ↔ http_parser_first_final ≤ row.next) : Machine where
  step cs b := (rows.find? (Row.covers cs b)).map fun row => (row.acts, row.next)
  done_iff := by
    intro cs b acts cs' hstep
    obtain ⟨row, hrow, heq⟩ := Option.map_eq_some_iff.mp hstep
    cases heq
    exact h row (List.mem_of_find?_eq_some hrow)

/-- The transitions of the compiled table that a `GET` of `/` with plain headers takes. -/
def plainRows : List Row :=
  [⟨1, 65, 90, [.mark], 2⟩,
   ⟨2, 65, 90, [], 175⟩,
   ⟨175, 65, 90, [], 176⟩,
   ⟨176, 32, 32, [.request_method], 3⟩,
   ⟨3, 47, 47, [.mark], 33⟩,
   ⟨33, 32, 32, [.request_path, .request_uri], 4⟩,
   ⟨4, 72, 72, [.mark], 5⟩,
   ⟨5, 84, 84, [], 6⟩,
   ⟨6, 84, 84, [], 7⟩,
   ⟨7, 80, 80, [], 8⟩,
   ⟨8, 47, 47, [], 9⟩,
   ⟨9, 49, 49, [], 10⟩,
   ⟨10, 46, 46, [], 11⟩,
   ⟨11, 48, 49, [], 12⟩,
   ⟨12, 13, 13, [.http_version], 17⟩,
   ⟨17, 10, 10, [], 13⟩,
   ⟨13, 97, 122, [.start_field], 14⟩,
   ⟨13, 13, 13, [.start_field], 18⟩,
   ⟨14, 45, 45, [], 14⟩,
   ⟨14, 97, 122, [], 14⟩,
   ⟨14, 58, 58, [.write_field], 15⟩,
   ⟨15, 32, 32, [.start_value], 15⟩,
   ⟨15, 33, 126, [.start_value], 16⟩,
   ⟨16, 13, 13, [.write_value], 17⟩,
   ⟨16, 32, 126, [], 16⟩,
   ⟨18, 10, 10, [.done], 348⟩]

/-- An environment with these transitions. -/
def plainEnv : Env (List (Bytes × Bytes)) where
  machine := .ofRows plainRows (by decide)
  map := OrderedMap.assoc Bytes Bytes CaseInsensitiveLess
  lexical_cast := castDecimal
  heap := http_request_max_body_size
  query_start := 0

theorem no_body_fits : ([] : Bytes).length ≤ plainEnv.heap := by decide

/-- The parser behind a header block. -/
def parserBehind (E : Env μ) (h : Bytes) : HttpRequestParser μ :=
  match http_parser_execute E h h.length (.new E) with
  | .ok (parser, _) => parser
  | .error _ => .new E

/-- A `GET` with some header lines. -/
def plainHeader (lines : String) : Bytes :=
  bytes "GET / HTTP/1.1\r\n" ++ bytes lines ++ bytes "\r\n"

/-- A buffer of zeros. -/
def zeroBuffer : Buffer := ⟨List.replicate http_request_buffer_size 0, List.length_replicate⟩

/-- A request with a body of three bytes. -/
def plainRequest : ValidRequest plainEnv where
  header := plainHeader "content-length: 3\r\n"
  body := bytes "abc"
  parser := parserBehind plainEnv (plainHeader "content-length: 3\r\n")
  block := ⟨by decide, by decide +kernel, by decide +kernel, by decide +kernel⟩
  length := by decide +kernel
  memory := by decide

end Muqiu.Http
