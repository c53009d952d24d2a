import Muqiu.Lib.Window
import Muqiu.Http.Message
import Muqiu.Net.Socket

/-!
# The request parser

`http11_parser.cc` as it is compiled, and the callbacks of `http_parser.cc`.  The transition
table is a parameter (`Machine`): a state and a byte give the actions of the transition and
the next state.  The actions, the code around the table and what it keeps in the parser
between two calls are as in the source: `nread` adds up over the calls, and `mark`,
`field_start` and `query_start` are offsets into the buffer of the call that set them.

A buffer is the bytes that may be read.  A length that has wrapped around is more than a
`std::string` takes and throws.  The callbacks that log build the text they log.
-/

namespace Muqiu.Http

open OrderedMap (Ops)
open Window (window overwrite)

/-- The size of the buffer of a request. -/
def http_request_buffer_size : Nat := 4 * 1024

/-- The largest body of a request, 64 MiB. -/
def http_request_max_body_size : Nat := 64 * 1024 * 1024

/-! ## The table -/

/-- The actions of the grammar. -/
inductive Action where
  | mark
  | start_field
  | write_field
  | start_value
  | write_value
  | request_method
  | request_uri
  | fragment
  | start_query
  | query_string
  | http_version
  | request_path
  | xml
  | json
  | done
deriving DecidableEq, Repr

/-- The state of a new parser. -/
def http_parser_start : Nat := 1

/-- The least final state. -/
def http_parser_first_final : Nat := 348

/-- The state of a text that is not in the grammar. -/
def http_parser_error : Nat := 0

/-- A transition table.  No transition is the one to the error state. -/
structure Machine where
  step : Nat → UInt8 → Option (List Action × Nat)
  /-- The final states are entered by `done`, which leaves the loop. -/
  done_iff : ∀ {cs b acts cs'}, step cs b = some (acts, cs') →
    (.done ∈ acts ↔ http_parser_first_final ≤ cs')

/-- What is not in the repository, and what the machine leaves open: the table, the header
map, `boost::lexical_cast<uint64_t>`, the largest body there is memory for, and the value of
`query_start`, which `http_parser_init` does not set. -/
structure Env (μ : Type) where
  machine : Machine
  map : Ops Bytes Bytes μ
  lexical_cast : Bytes → Option UInt64
  heap : Nat
  query_start : Nat

/-- `http_parser` -/
structure HttpParser where
  cs : Nat
  body_start : Nat
  nread : Nat
  mark : Nat
  field_start : Nat
  field_len : Nat
  query_start : Nat
  xml_sent : Bool
  json_sent : Bool
deriving DecidableEq, Repr

/-- `HttpRequestParser` -/
structure HttpRequestParser (μ : Type) where
  mParser : HttpParser
  m_data : HttpRequest μ
  m_error : Nat
deriving DecidableEq, Repr

variable {μ : Type} (E : Env μ)

/-- The constructor, with `http_parser_init`. -/
def HttpRequestParser.new : HttpRequestParser μ where
  mParser :=
    { cs := http_parser_start, body_start := 0, nread := 0, mark := 0, field_start := 0
      field_len := 0, query_start := E.query_start, xml_sent := false, json_sent := false }
  m_data := HttpRequest.new E.map 0x11 true
  m_error := 0

/-! ## Reading the buffer -/

/-- `LEN`: the bytes from a mark to `p`, as a `size_t`. -/
def LEN (mark p : Nat) : Nat := if mark ≤ p then p - mark else p + 18446744073709551616 - mark

/-- `std::string(buffer + pos, length)` -/
def stringAt (buffer : Bytes) (pos length : Nat) : Except Stop Bytes :=
  if 9223372036854775807 < length then .error .throws
  else if (window buffer pos length).length = length then .ok (window buffer pos length)
  else .error .wild

/-- `strncmp(s, at, n) == 0` -/
def strncmp : Bytes → Bytes → Nat → Except Stop Bool
  | _, _, 0 => .ok true
  | a :: s, b :: t, n + 1 =>
      if a = b then if a = 0 then .ok true else strncmp s t n else .ok false
  | _, _, _ + 1 => .error .wild

/-- A literal with its NUL. -/
def literal (s : String) : Bytes := bytes s ++ [0]

/-- The first method of a table whose text is where `m` points. -/
def charsToMethod (m : Bytes) : List (HttpMethod × String) → Except Stop HttpMethod
  | [] => .ok .INVALID_METHOD
  | (name, string) :: rest => do
      if ← strncmp (literal string) m string.length then return name
      charsToMethod m rest

/-- The method whose text is where `m` points. -/
def CharsToHttpMethod (m : Bytes) : Except Stop HttpMethod := charsToMethod m HTTP_METHOD_MAP

/-! ## The callbacks -/

/-- The method, or the error 1000. -/
def on_request_method (buffer : Bytes) (pos length : Nat) (parser : HttpRequestParser μ) :
    Except Stop (HttpRequestParser μ) := do
  let m ← CharsToHttpMethod (buffer.drop pos)
  if m = .INVALID_METHOD then
    let _ ← stringAt buffer pos length
    return { parser with m_error := 1000 }
  return { parser with m_data.m_method := m }

/-- The fragment. -/
def on_request_fragment (buffer : Bytes) (pos length : Nat) (parser : HttpRequestParser μ) :
    Except Stop (HttpRequestParser μ) := do
  return { parser with m_data.m_fragment := ← stringAt buffer pos length }

/-- The path. -/
def on_request_path (buffer : Bytes) (pos length : Nat) (parser : HttpRequestParser μ) :
    Except Stop (HttpRequestParser μ) := do
  return { parser with m_data.m_path := ← stringAt buffer pos length }

/-- The query. -/
def on_request_query (buffer : Bytes) (pos length : Nat) (parser : HttpRequestParser μ) :
    Except Stop (HttpRequestParser μ) := do
  return { parser with m_data.m_query := ← stringAt buffer pos length }

/-- The version, or the error 1001. -/
def on_request_version (buffer : Bytes) (pos length : Nat) (parser : HttpRequestParser μ) :
    Except Stop (HttpRequestParser μ) := do
  if ← strncmp (literal "HTTP/1.1") (buffer.drop pos) length then
    return { parser with m_data.m_version := 0x11 }
  if ← strncmp (literal "HTTP/1.0") (buffer.drop pos) length then
    return { parser with m_data.m_version := 0x10 }
  let _ ← stringAt buffer pos length
  return { parser with m_error := 1001 }

/-- A header line.  One with the name `connection` also says whether the connection is kept. -/
def on_request_http_field (buffer : Bytes) (pos flen value vlen : Nat)
    (parser : HttpRequestParser μ) : Except Stop (HttpRequestParser μ) := do
  let name ← stringAt buffer pos flen
  let val ← stringAt buffer value vlen
  if flen = 0 then return parser
  let data :=
    if sameKey name (bytes "connection") ∧ sameKey val (bytes "keep-alive") then
      { parser.m_data with m_close := false }
    else parser.m_data
  return { parser with m_data := data.setHeader E.map name val }

/-! ## The loop over the bytes -/

/-- An action at `p`. `on_request_uri` and `on_request_header_done` do nothing. -/
def act (buffer : Bytes) (p : Nat) (parser : HttpRequestParser μ) :
    Action → Except Stop (HttpRequestParser μ)
  | .mark => .ok { parser with mParser.mark := p }
  | .start_field => .ok { parser with mParser.field_start := p }
  | .write_field => .ok { parser with mParser.field_len := LEN parser.mParser.field_start p }
  | .start_value => .ok { parser with mParser.mark := p }
  | .write_value =>
      on_request_http_field E buffer parser.mParser.field_start parser.mParser.field_len
        parser.mParser.mark (LEN parser.mParser.mark p) parser
  | .request_method =>
      on_request_method buffer parser.mParser.mark (LEN parser.mParser.mark p) parser
  | .request_uri => .ok parser
  | .fragment =>
      on_request_fragment buffer parser.mParser.mark (LEN parser.mParser.mark p) parser
  | .start_query => .ok { parser with mParser.query_start := p }
  | .query_string =>
      on_request_query buffer parser.mParser.query_start (LEN parser.mParser.query_start p)
        parser
  | .http_version =>
      on_request_version buffer parser.mParser.mark (LEN parser.mParser.mark p) parser
  | .request_path =>
      on_request_path buffer parser.mParser.mark (LEN parser.mParser.mark p) parser
  | .xml => .ok { parser with mParser.xml_sent := true }
  | .json => .ok { parser with mParser.json_sent := true }
  | .done =>
      if parser.mParser.xml_sent ∨ parser.mParser.json_sent then
        .ok { parser with mParser.body_start := parser.mParser.mark }
      else .ok { parser with mParser.body_start := p + 1 }

/-- The bytes from `p` on: the parser where the loop is left, and `p` there. -/
def exec (buffer : Bytes) :
    Bytes → Nat → HttpRequestParser μ → Except Stop (HttpRequestParser μ × Nat)
  | [], p, parser => .ok (parser, p)
  | b :: bs, p, parser =>
      match E.machine.step parser.mParser.cs b with
      | none => .ok ({ parser with mParser.cs := http_parser_error }, p)
      | some (acts, cs) => do
          let parser ← acts.foldlM (act E buffer p) parser
          let parser := { parser with mParser.cs := cs }
          if .done ∈ acts then return (parser, p + 1)
          exec buffer bs (p + 1) parser

/-- The assertions behind the loop. -/
def HttpParser.inBounds (parser : HttpParser) (len : Nat) : Prop :=
  parser.nread ≤ len ∧ parser.body_start ≤ len ∧ parser.mark < len ∧ parser.field_len ≤ len ∧
    parser.field_start < len

instance (parser : HttpParser) (len : Nat) : Decidable (parser.inBounds len) :=
  inferInstanceAs (Decidable (_ ∧ _))

/-- `http_parser_execute` with `off` 0. -/
def http_parser_execute (buffer : Bytes) (len : Nat) (parser : HttpRequestParser μ) :
    Except Stop (HttpRequestParser μ × Nat) := do
  if len = 0 then return (parser, 0)
  let (parser, p) ← exec E buffer (buffer.take len) 0 parser
  let parser := { parser with mParser.nread := parser.mParser.nread + p }
  if parser.mParser.inBounds len then return (parser, parser.mParser.nread)
  throw .abort

namespace HttpRequestParser

/-- `execute`: the parser, the buffer after `memmove`, and the bytes consumed. -/
def execute (data : Bytes) (len : Nat) (parser : HttpRequestParser μ) :
    Except Stop (HttpRequestParser μ × Bytes × Nat) := do
  let (parser, offset) ← http_parser_execute E data len parser
  return (parser, overwrite data 0 (window data offset (len - offset)), offset)

/-- `http_parser_finish`: -1 for an error, 1 at the end and 0 before it. -/
def isFinished (parser : HttpRequestParser μ) : Int :=
  if parser.mParser.cs = http_parser_error then -1
  else if http_parser_first_final ≤ parser.mParser.cs then 1
  else 0

/-- An error of a callback or of the table. -/
def hasError (parser : HttpRequestParser μ) : Bool :=
  parser.m_error ≠ 0 || parser.mParser.cs = http_parser_error

end HttpRequestParser

/-- `getHeaderAs<uint64_t>(key, 0)` -/
def getHeaderAs (req : HttpRequest μ) (key : Bytes) : UInt64 :=
  match E.map.find key req.m_headers with
  | none => 0
  | some val =>
      match E.lexical_cast val with
      | some v => v
      | none => 0

/-- The length that the headers declare for the body. -/
def getContentLength (req : HttpRequest μ) : UInt64 := getHeaderAs E req (bytes "content-length")

end Muqiu.Http
