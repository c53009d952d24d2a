import Mathlib.Algebra.Group.Nat.Defs
import Muqiu.Http.Decimal
import Muqiu.Http.Parser
import Muqiu.Http.Response
import Muqiu.Util.Url

/-!
# The response parser

`httpclient_parser.cc` as it is compiled, and the callbacks of `http_parser.cc`.  The transition
table is a parameter (`ResponseMachine`); the actions, the loop over the bytes, and the code in
front of it and behind it are as in the source.  `nread` adds up over the calls that do not
initialise the parser, and behind a header it is one more than what the loop took.
-/

namespace Muqiu

open OrderedMap (Ops)

namespace Http

open StringUtil (isxdigit xdigit)
open Window (window overwrite)

/-! ## Numbers in the buffer -/

/-- The characters that `strtol` skips. -/
def isspace (c : UInt8) : Bool := c = 32 || (9 ≤ c && c ≤ 13)

/-- A digit of a base. -/
def isDigitOf (base : Nat) (c : UInt8) : Bool := isxdigit c && (xdigit c).toNat < base

/-- The `0x` that `strtol` skips in base 16. -/
def hasHexPrefix : Bytes → Bool
  | 48 :: x :: d :: _ => (x = 120 || x = 88) && isxdigit d
  | _ => false

/-- `strtol(s, NULL, base)`, which reads on to the first byte that is no digit. -/
def strtol (base : Nat) (s : Bytes) : Except Stop Int :=
  let s := s.dropWhile isspace
  let negative := isNegative s
  let s := unsigned s
  let s := if base = 16 && hasHexPrefix s then s.drop 2 else s
  let digits := s.takeWhile (isDigitOf base)
  if digits.length = s.length then .error .wild
  else
    let v : Int := digits.foldl (fun v c => base * v + (xdigit c).toNat) 0
    .ok (max (-2 ^ 63) (min (2 ^ 63 - 1) (if negative then -v else v)))

/-- A `long` kept in an `int`. -/
def longToInt (v : Int) : Int := (BitVec.ofInt 32 v).toInt

/-! ## The table -/

/-- The actions of the grammar. -/
inductive ResponseAction where
  | mark
  | start_field
  | write_field
  | start_value
  | write_content_len
  | write_connection_close
  | write_value
  | reason_phrase
  | status_code
  | http_version
  | chunk_size
  | trans_chunked
  | done
deriving DecidableEq, Repr

/-- The state of a new parser. -/
def httpclient_parser_start : Nat := 1

/-- The least final state. -/
def httpclient_parser_first_final : Nat := 120

/-- The state of a text that is not in the grammar. -/
def httpclient_parser_error : Nat := 0

/-- A transition table.  No transition is the one to the error state. -/
structure ResponseMachine where
  step : Nat → UInt8 → Option (List ResponseAction × Nat)
  /-- The final states are entered by `done`, which leaves the loop. -/
  done_iff : ∀ {cs b acts cs'}, step cs b = some (acts, cs') →
    (.done ∈ acts ↔ httpclient_parser_first_final ≤ cs')
  /-- `done` comes on a newline. -/
  done_newline : ∀ {cs b acts cs'}, step cs b = some (acts, cs') → .done ∈ acts → b = 10

/-- What is not in the repository, and what the machine leaves open: the table, the header map,
and the value of `status`, which `httpclient_parser_init` does not set. -/
structure ResponseEnv (μ : Type) where
  machine : ResponseMachine
  map : Ops Bytes Bytes μ
  status : Int

/-- `httpclient_parser` -/
structure HttpClientParser where
  cs : Nat
  body_start : UInt64
  content_len : Int
  status : Int
  chunked : Bool
  chunks_done : Bool
  close : Bool
  nread : UInt64
  mark : UInt64
  field_start : UInt64
  field_len : UInt64
deriving DecidableEq, Repr

/-- The fields that a new parser starts with. -/
def httpclient_parser_init (parser : HttpClientParser) : HttpClientParser :=
  { parser with
    cs := httpclient_parser_start
    body_start := 0
    content_len := -1
    chunked := false
    chunks_done := false
    mark := 0
    nread := 0
    field_len := 0
    field_start := 0
    close := false }

/-- `HttpResponseParser` -/
structure HttpResponseParser (μ : Type) where
  mParser : HttpClientParser
  m_data : FullResponse μ
  m_error : Nat

variable {μ : Type} (E : ResponseEnv μ)

/-- The constructor. -/
def HttpResponseParser.new : HttpResponseParser μ where
  mParser :=
    { cs := httpclient_parser_start, body_start := 0, content_len := -1, status := E.status
      chunked := false, chunks_done := false, close := false, nread := 0, mark := 0
      field_start := 0, field_len := 0 }
  m_data := FullResponse.new E.map 0x11 true
  m_error := 0

/-! ## The callbacks -/

/-- `LEN`, as a `size_t`. -/
def lengthFrom (mark : UInt64) (p : Nat) : UInt64 := UInt64.ofNat p - mark

/-- The reason. -/
def on_response_reason (buffer : Bytes) (pos length : Nat) (parser : HttpResponseParser μ) :
    Except Stop (HttpResponseParser μ) := do
  return { parser with m_data.m_reason := ← stringAt buffer pos length }

/-- `atoi` is `strtol` to the base 10, as an `int`. -/
def on_response_status (buffer : Bytes) (pos : Nat) (parser : HttpResponseParser μ) :
    Except Stop (HttpResponseParser μ) := do
  let v ← strtol 10 (buffer.drop pos)
  return { parser with m_data.m_status := UInt32.ofInt (longToInt v) }

/-- The version, or the error 1001. -/
def on_response_version (buffer : Bytes) (pos length : Nat) (parser : HttpResponseParser μ) :
    Except Stop (HttpResponseParser μ) := do
  if ← strncmp (literal "HTTP/1.1") (buffer.drop pos) length then
    return { parser with m_data.m_version := 0x11 }
  if ← strncmp (literal "HTTP/1.0") (buffer.drop pos) length then
    return { parser with m_data.m_version := 0x10 }
  let _ ← stringAt buffer pos length
  return { parser with m_error := 1001 }

/-- A header line. -/
def on_response_http_field (buffer : Bytes) (field flen value vlen : Nat)
    (parser : HttpResponseParser μ) : Except Stop (HttpResponseParser μ) := do
  if flen = 0 then return parser
  let key ← stringAt buffer field flen
  let val ← stringAt buffer value vlen
  return { parser with m_data := parser.m_data.setHeader E.map key val }

/-! ## The loop over the bytes -/

/-- An action at `p`.  The callbacks for a chunk, the last chunk and the end of the header do
nothing. -/
def respond (buffer : Bytes) (p : Nat) (parser : HttpResponseParser μ) :
    ResponseAction → Except Stop (HttpResponseParser μ)
  | .mark => .ok { parser with mParser.mark := UInt64.ofNat p }
  | .start_field => .ok { parser with mParser.field_start := UInt64.ofNat p }
  | .write_field =>
      .ok { parser with mParser.field_len := lengthFrom parser.mParser.field_start p }
  | .start_value => .ok { parser with mParser.mark := UInt64.ofNat p }
  | .write_content_len => do
      let v ← strtol 10 (buffer.drop parser.mParser.mark.toNat)
      return { parser with mParser.content_len := longToInt v }
  | .write_connection_close => .ok { parser with mParser.close := true }
  | .write_value =>
      on_response_http_field E buffer parser.mParser.field_start.toNat
        parser.mParser.field_len.toNat parser.mParser.mark.toNat
        (lengthFrom parser.mParser.mark p).toNat parser
  | .reason_phrase =>
      on_response_reason buffer parser.mParser.mark.toNat (lengthFrom parser.mParser.mark p).toNat
        parser
  | .status_code => do
      let v ← strtol 10 (buffer.drop parser.mParser.mark.toNat)
      on_response_status buffer parser.mParser.mark.toNat
        { parser with mParser.status := longToInt v }
  | .http_version =>
      on_response_version buffer parser.mParser.mark.toNat
        (lengthFrom parser.mParser.mark p).toNat parser
  | .chunk_size => do
      let v ← strtol 16 (buffer.drop parser.mParser.mark.toNat)
      return { parser with
        mParser.chunked := true
        mParser.content_len := longToInt v
        mParser.chunks_done := longToInt v ≤ 0 }
  | .trans_chunked => .ok { parser with mParser.chunked := true }
  | .done => .ok { parser with mParser.body_start := UInt64.ofNat (p + 1) }

/-- The bytes from `p` on: the parser where the loop is left, and `p` there. -/
def scan (buffer : Bytes) :
    Bytes → Nat → HttpResponseParser μ → Except Stop (HttpResponseParser μ × Nat)
  | [], p, parser => .ok (parser, p)
  | b :: bs, p, parser =>
      match E.machine.step parser.mParser.cs b with
      | none => .ok ({ parser with mParser.cs := httpclient_parser_error }, p)
      | some (acts, cs) => do
          let parser ← acts.foldlM (respond E buffer p) parser
          let parser := { parser with mParser.cs := cs }
          if .done ∈ acts then return (parser, p + 1)
          scan buffer bs (p + 1) parser

/-! ## The code around the loop -/

/-- `parser->nread += p - (buffer + off)` -/
def counted (p : Nat) (parser : HttpResponseParser μ) : HttpResponseParser μ :=
  { parser with mParser.nread := parser.mParser.nread + UInt64.ofNat p }

/-- The assertions behind the loop. -/
def HttpClientParser.Asserted (parser : HttpClientParser) (p len : Nat) : Prop :=
  p ≤ len ∧ parser.nread.toNat ≤ len ∧ parser.body_start.toNat ≤ len

instance (parser : HttpClientParser) (p len : Nat) : Decidable (parser.Asserted p len) :=
  inferInstanceAs (Decidable (_ ∧ _))

/-- The checks behind them. -/
def HttpClientParser.Checked (parser : HttpClientParser) (len : Nat) : Prop :=
  parser.mark.toNat < len ∧ parser.field_len.toNat ≤ len ∧ parser.field_start.toNat < len

instance (parser : HttpClientParser) (len : Nat) : Decidable (parser.Checked len) :=
  inferInstanceAs (Decidable (_ ∧ _))

/-- What is behind the assertions: the checks, and one more for `nread` behind a header. -/
def leave (len : Nat) (parser : HttpResponseParser μ) : HttpResponseParser μ × Int :=
  if ¬ parser.mParser.Checked len then (parser, -1)
  else
    let parser :=
      if parser.mParser.body_start ≠ 0 then
        { parser with mParser.nread := parser.mParser.nread + 1 }
      else parser
    (parser, Conn.toInt32 parser.mParser.nread.toNat)

/-- `httpclient_parser_execute` with `off` 0. -/
def httpclient_parser_execute (buffer : Bytes) (len : Nat) (parser : HttpResponseParser μ) :
    Except Stop (HttpResponseParser μ × Int) := do
  match buffer[len]? with
  | none => throw .wild
  | some b => if b ≠ 0 then throw .abort
  if Conn.toInt32 len ≠ len then throw .abort
  let (parser, p) ← scan E buffer (buffer.take len) 0 parser
  if ¬ (counted p parser).mParser.Asserted p len then throw .abort
  return leave len (counted p parser)

/-- `memmove(data, data + src, n)`, for bytes of the buffer. -/
def memmove (data : Bytes) (src n : Nat) : Option Bytes :=
  if src + n ≤ data.length then some (overwrite data 0 (window data src n)) else none

/-- A call of `execute`: what it returns, the length it gives to `memmove`, and the buffer
behind that, unless it reached outside. -/
structure Executed (μ : Type) where
  parser : HttpResponseParser μ
  offset : UInt64
  moved : UInt64
  data : Option Bytes

namespace HttpResponseParser

/-- The parser at the start of a call. -/
def starts (parser : HttpResponseParser μ) (chunck : Bool) : HttpResponseParser μ :=
  if chunck then { parser with mParser := httpclient_parser_init parser.mParser } else parser

/-- A call of the parser, and `memmove` of what it has left to the front. -/
def execute (data : Bytes) (len : Nat) (chunck : Bool) (parser : HttpResponseParser μ) :
    Except Stop (Executed μ) := do
  let (parser, rt) ← httpclient_parser_execute E data len (parser.starts chunck)
  let offset := UInt64.ofInt rt
  let n := UInt64.ofNat len - offset
  return { parser, offset, moved := n, data := memmove data offset.toNat n.toNat }

end HttpResponseParser

end Http

end Muqiu
