import Muqiu.Lib.OrderedMap

/-!
# HTTP messages

`http.h` and `http.cc`: the method table, the comparator of the header maps and the header
operations of `HttpRequest` and `HttpResponse`.  A `std::string` is a list of bytes and may
hold NULs; what takes a `char *` sees it up to the first one (`c_str`).  The map type of the
headers is a parameter with its operations, as `std::map` is not code of this repository.
-/

namespace Muqiu

open OrderedMap (Ops Update)

/-- A `std::string`. -/
abbrev Bytes := List UInt8

namespace Http

/-- The bytes of a literal. -/
def bytes (s : String) : Bytes := s.toList.map fun c => UInt8.ofNat c.toNat

/-- A string as a `char *` function sees it. -/
def c_str (s : Bytes) : Bytes := s.takeWhile (· != 0)

/-- `tolower` of the C locale -/
def tolower (b : UInt8) : UInt8 := if 65 ≤ b ∧ b ≤ 90 then b + 32 else b

/-- A string without its case. -/
def foldCase (s : Bytes) : Bytes := s.map tolower

/-- `strcasecmp` on strings without a NUL: the difference of the first bytes that differ. -/
def strcasecmp : Bytes → Bytes → Int
  | [], [] => 0
  | [], b :: _ => -(tolower b).toNat
  | a :: _, [] => (tolower a).toNat
  | a :: as, b :: bs =>
      if tolower a = tolower b then strcasecmp as bs
      else (tolower a).toNat - (tolower b).toNat

/-- Two strings are equal ignoring case. -/
def sameKey (a b : Bytes) : Bool := strcasecmp (c_str a) (c_str b) = 0

/-- The comparator of the header maps. -/
def CaseInsensitiveLess (lhs rhs : Bytes) : Bool := strcasecmp (c_str lhs) (c_str rhs) ≠ 0

/-! ## Methods -/

/-- `HttpMethod` -/
inductive HttpMethod where
  | DELETE | GET | HEAD | POST | PUT
  | CONNECT | OPTIONS | TRACE
  | COPY | LOCK | MKCOL | MOVE | PROPFIND | PROPPATCH | SEARCH | UNLOCK
  | BIND | REBIND | UNBIND | ACL
  | REPORT | MKACTIVITY | CHECKOUT | MERGE
  | MSEARCH | NOTIFY | SUBSCRIBE | UNSUBSCRIBE
  | PATCH | PURGE | MKCALENDAR | LINK | UNLINK | SOURCE
  | INVALID_METHOD
deriving DecidableEq, Repr

/-- `HTTP_METHOD_MAP` with its texts, in its order. -/
def HTTP_METHOD_MAP : List (HttpMethod × String) :=
  [(.DELETE, "DELETE"), (.GET, "GET"), (.HEAD, "HEAD"), (.POST, "POST"), (.PUT, "PUT"),
   (.CONNECT, "CONNECT"), (.OPTIONS, "OPTIONS"), (.TRACE, "TRACE"), (.COPY, "COPY"),
   (.LOCK, "LOCK"), (.MKCOL, "MKCOL"), (.MOVE, "MOVE"), (.PROPFIND, "PROPFIND"),
   (.PROPPATCH, "PROPPATCH"), (.SEARCH, "SEARCH"), (.UNLOCK, "UNLOCK"), (.BIND, "BIND"),
   (.REBIND, "REBIND"), (.UNBIND, "UNBIND"), (.ACL, "ACL"), (.REPORT, "REPORT"),
   (.MKACTIVITY, "MKACTIVITY"), (.CHECKOUT, "CHECKOUT"), (.MERGE, "MERGE"),
   (.MSEARCH, "M - SEARCH"), (.NOTIFY, "NOTIFY"), (.SUBSCRIBE, "SUBSCRIBE"),
   (.UNSUBSCRIBE, "UNSUBSCRIBE"), (.PATCH, "PATCH"), (.PURGE, "PURGE"),
   (.MKCALENDAR, "MKCALENDAR"), (.LINK, "LINK"), (.UNLINK, "UNLINK"), (.SOURCE, "SOURCE")]

/-! ## Requests -/

/-- An `HttpRequest` with its header map. -/
structure HttpRequest (μ : Type) where
  m_method : HttpMethod
  m_version : UInt8
  m_close : Bool
  m_websocket : Bool
  m_path : Bytes
  m_query : Bytes
  m_fragment : Bytes
  m_body : Bytes
  m_headers : μ
deriving DecidableEq, Repr

variable {μ : Type} (M : Ops Bytes Bytes μ)

/-- The headers that the loop of `dump` writes, for a request and a response. -/
def dumpHeaders (websocket : Bool) (headers : μ) : List (Bytes × Bytes) :=
  (M.toList headers).filter fun i => websocket || !sameKey i.1 (bytes "connection")

namespace HttpRequest

/-- The constructor; `HttpRequest()` is `new 0x11 true`. -/
def new (version : UInt8) (close : Bool) : HttpRequest μ where
  m_method := .GET
  m_version := version
  m_close := close
  m_websocket := false
  m_path := bytes "/"
  m_query := []
  m_fragment := []
  m_body := []
  m_headers := M.empty

/-- The value of a header, or the default. -/
def getHeader (req : HttpRequest μ) (key dflt : Bytes) : Bytes :=
  match M.find key req.m_headers with
  | none => dflt
  | some val => val

/-- `m_headers[key] = val` -/
def setHeader (req : HttpRequest μ) (key val : Bytes) : HttpRequest μ :=
  { req with m_headers := M.set key val req.m_headers }

/-- `m_headers.erase(key)` -/
def delHeader (req : HttpRequest μ) (key : Bytes) : HttpRequest μ :=
  { req with m_headers := M.erase key req.m_headers }

/-- Whether there is the header, and what goes to `*val`. -/
def hasHeader (req : HttpRequest μ) (key : Bytes) : Bool × Option Bytes :=
  match M.find key req.m_headers with
  | none => (false, none)
  | some val => (true, some val)

/-- `init` reads the `connection` header into `m_close`. -/
def init (req : HttpRequest μ) : HttpRequest μ :=
  let conn := req.getHeader M (bytes "connection") []
  if conn.isEmpty then req
  else { req with m_close := !sameKey conn (bytes "keep-alive") }

/-- A header call. -/
def call (req : HttpRequest μ) : Update Bytes Bytes → HttpRequest μ
  | .set key val => req.setHeader M key val
  | .erase key => req.delHeader M key

end HttpRequest

/-! ## Responses -/

/-- An `HttpResponse` with its header map. -/
structure HttpResponse (μ : Type) where
  m_version : UInt8
  m_close : Bool
  m_websocket : Bool
  m_headers : μ
deriving DecidableEq, Repr

namespace HttpResponse

/-- The constructor. -/
def new (version : UInt8) (close : Bool) : HttpResponse μ where
  m_version := version
  m_close := close
  m_websocket := false
  m_headers := M.empty

/-- The value of a header, or the default. -/
def getHeader (rsp : HttpResponse μ) (key dflt : Bytes) : Bytes :=
  match M.find key rsp.m_headers with
  | none => dflt
  | some val => val

/-- `m_headers[key] = val` -/
def setHeader (rsp : HttpResponse μ) (key val : Bytes) : HttpResponse μ :=
  { rsp with m_headers := M.set key val rsp.m_headers }

/-- `m_headers.erase(key)` -/
def delHeader (rsp : HttpResponse μ) (key : Bytes) : HttpResponse μ :=
  { rsp with m_headers := M.erase key rsp.m_headers }

/-- A header call. -/
def call (rsp : HttpResponse μ) : Update Bytes Bytes → HttpResponse μ
  | .set key val => rsp.setHeader M key val
  | .erase key => rsp.delHeader M key

end HttpResponse

/-! ## Facts about the header calls -/

variable {M}

/-- After the calls the header map of a request is the one their updates build. -/
theorem HttpRequest.headers_calls (version : UInt8) (close : Bool)
    (us : List (Update Bytes Bytes)) :
    (us.foldl (HttpRequest.call M) (HttpRequest.new M version close)).m_headers =
      M.replay us.reverse := by
  rw [← List.foldr_reverse]
  induction us.reverse with
  | nil => rfl
  | cons u us ih => cases u <;> exact congrArg _ ih

/-- The same of a response. -/
theorem HttpResponse.headers_calls (version : UInt8) (close : Bool)
    (us : List (Update Bytes Bytes)) :
    (us.foldl (HttpResponse.call M) (HttpResponse.new M version close)).m_headers =
      M.replay us.reverse := by
  rw [← List.foldr_reverse]
  induction us.reverse with
  | nil => rfl
  | cons u us ih => cases u <;> exact congrArg _ ih

theorem HttpRequest.headers_init (req : HttpRequest μ) :
    (req.init M).m_headers = req.m_headers := by
  rw [HttpRequest.init]
  by_cases h : (req.getHeader M (bytes "connection") []).isEmpty
  · rw [if_pos h]
  · rw [if_neg h]

theorem HttpRequest.body_init (req : HttpRequest μ) : (req.init M).m_body = req.m_body := by
  rw [HttpRequest.init]
  by_cases h : (req.getHeader M (bytes "connection") []).isEmpty
  · rw [if_pos h]
  · rw [if_neg h]

end Http

end Muqiu
