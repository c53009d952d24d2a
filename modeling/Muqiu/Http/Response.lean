import Muqiu.Http.Message
import Muqiu.Lib.Delimited
import Muqiu.Lib.JsonReader

/-!
# Responses

`HttpResponse::dump` writes the status line, the header entries, the cookies and its own two
fields, each with a CRLF behind it, then an empty line and the body.  It writes the reason, the
headers and the cookies as they were given to it.  So a CRLF in one of them ends a line where the
caller did not, and that is the only way for the text to have other lines than those.
-/

namespace Muqiu

open OrderedMap (Ops)
open Delimited (ended head)

namespace Http

/-! ## The status table -/

/-- The number of a status.  A cast makes one of any number. -/
abbrev HttpStatus := UInt32

/-- The status of a new response. -/
def HttpStatus.OK : HttpStatus := 200

/-- The status of a redirect. -/
def HttpStatus.FOUND : HttpStatus := 302

/-- `HTTP_STATUS_MAP` with its texts. -/
def HTTP_STATUS_MAP : List (HttpStatus × String) :=
  [(100, "Continue"), (101, "Switching Protocols"), (102, "Processing"), (200, "OK"),
   (201, "Created"), (202, "Accepted"), (203, "Non - Authoritative Information"),
   (204, "No Content"), (205, "Reset Content"), (206, "Partial Content"),
   (207, "Multi - Status"), (208, "Already Reported"), (226, "IM Used"),
   (300, "Multiple Choices"), (301, "Moved Permanently"), (302, "Found"), (303, "See Other"),
   (304, "Not Modified"), (305, "Use Proxy"), (307, "Temporary Redirect"),
   (308, "Permanent Redirect"), (400, "Bad Request"), (401, "Unauthorized"),
   (402, "Payment Required"), (403, "Forbidden"), (404, "Not Found"),
   (405, "Method Not Allowed"), (406, "Not Acceptable"),
   (407, "Proxy Authentication Required"), (408, "Request Timeout"), (409, "Conflict"),
   (410, "Gone"), (411, "Length Required"), (412, "Precondition Failed"),
   (413, "Payload Too Large"), (414, "URI Too Long"), (415, "Unsupported Media Type"),
   (416, "Range Not Satisfiable"), (417, "Expectation Failed"), (421, "Misdirected Request"),
   (422, "Unprocessable Entity"), (423, "Locked"), (424, "Failed Dependency"),
   (426, "Upgrade Required"), (428, "Precondition Required"), (429, "Too Many Requests"),
   (431, "Request Header Fields Too Large"), (451, "Unavailable For Legal Reasons"),
   (500, "Internal Server Error"), (501, "Not Implemented"), (502, "Bad Gateway"),
   (503, "Service Unavailable"), (504, "Gateway Timeout"),
   (505, "HTTP Version Not Supported"), (506, "Variant Also Negotiates"),
   (507, "Insufficient Storage"), (508, "Loop Detected"), (510, "Not Extended"),
   (511, "Network Authentication Required")]

/-- The reason that goes with a status. -/
def HttpStatusToString (s : HttpStatus) : Bytes :=
  match HTTP_STATUS_MAP.find? fun e => e.1 = s with
  | some e => bytes e.2
  | none => bytes "<unknown>"

/-! ## The response -/

/-- An `HttpResponse` with all it writes. -/
structure FullResponse (μ : Type) extends HttpResponse μ where
  m_status : HttpStatus
  m_body : Bytes
  m_reason : Bytes
  m_cookies : List Bytes

/-- A number in an output stream. -/
def decimal (n : Nat) : Bytes := Json.natDigits n

/-- The end of a line. -/
def CRLF : Bytes := [13, 10]

/-! ## Dates -/

/-- The calendar of the C library: `localtime_r`, and what `strftime` writes for a format into
64 bytes. -/
structure Calendar where
  tm : Type
  localtime_r : Int → tm
  strftime : Bytes → tm → Bytes

/-- A time as text. -/
def Time2Str (T : Calendar) (ts : Int) (format : Bytes) : Bytes :=
  c_str (T.strftime format (T.localtime_r ts))

/-- The format of the date of a cookie. -/
def cookieDate : Bytes := bytes "%a, %d %b %Y %H:%M:%S"

variable {μ : Type} (M : Ops Bytes Bytes μ) (T : Calendar)

namespace FullResponse

/-- The constructor. -/
def new (version : UInt8) (close : Bool) : FullResponse μ :=
  { HttpResponse.new M version close with
    m_status := HttpStatus.OK
    m_body := []
    m_reason := []
    m_cookies := [] }

/-- A header of the response. -/
def setHeader (rsp : FullResponse μ) (key val : Bytes) : FullResponse μ :=
  { rsp with toHttpResponse := rsp.toHttpResponse.setHeader M key val }

/-- Without a header. -/
def delHeader (rsp : FullResponse μ) (key : Bytes) : FullResponse μ :=
  { rsp with toHttpResponse := rsp.toHttpResponse.delHeader M key }

/-- A redirect to a URI, which is written into `Location` as it is. -/
def setRedirect (rsp : FullResponse μ) (uri : Bytes) : FullResponse μ :=
  { rsp with m_status := HttpStatus.FOUND }.setHeader M (bytes "Location") uri

/-- The text that `setCookie` builds. -/
def cookieText (key val : Bytes) (expired : Int) (path domain : Bytes) (secure : Bool) : Bytes :=
  key ++ bytes "=" ++ val ++
    (if expired > 0 then
      bytes ";expires=" ++ (Time2Str T expired cookieDate ++ bytes " GMT")
    else []) ++
    (if domain ≠ [] then bytes ";domain=" ++ domain else []) ++
    (if path ≠ [] then bytes ";path=" ++ path else []) ++
    (if secure = true then bytes ";secure" else [])

/-- One more cookie. -/
def setCookie (rsp : FullResponse μ) (key val : Bytes) (expired : Int) (path domain : Bytes)
    (secure : Bool) : FullResponse μ :=
  { rsp with
    m_cookies := rsp.m_cookies ++ [cookieText T key val expired path domain secure] }

/-- What is written behind the status number. -/
def reasonText (rsp : FullResponse μ) : Bytes :=
  if rsp.m_reason.isEmpty then HttpStatusToString rsp.m_status else rsp.m_reason

/-- The text of a response. -/
def dump (rsp : FullResponse μ) : Bytes :=
  bytes "HTTP/" ++ decimal (rsp.m_version >>> 4).toNat ++ bytes "." ++
    decimal (rsp.m_version &&& 0x0F).toNat ++ bytes " " ++ decimal rsp.m_status.toNat ++
    bytes " " ++ rsp.reasonText ++ bytes "\r\n" ++
    (dumpHeaders M rsp.m_websocket rsp.m_headers).flatMap
      (fun i => i.1 ++ bytes ": " ++ i.2 ++ bytes "\r\n") ++
    rsp.m_cookies.flatMap (fun i => bytes "Set-Cookie: " ++ i ++ bytes "\r\n") ++
    (if rsp.m_websocket then []
    else bytes "connection: " ++ (if rsp.m_close then bytes "close" else bytes "keep-alive") ++
      bytes "\r\n") ++
    (if rsp.m_body.isEmpty then bytes "\r\n"
    else bytes "content-length: " ++ decimal rsp.m_body.length ++ bytes "\r\n\r\n" ++ rsp.m_body)

/-! ## The lines -/

/-- The first line. -/
def statusLine (rsp : FullResponse μ) : Bytes :=
  bytes "HTTP/" ++ decimal (rsp.m_version >>> 4).toNat ++ bytes "." ++
    decimal (rsp.m_version &&& 0x0F).toNat ++ bytes " " ++ decimal rsp.m_status.toNat ++
    bytes " " ++ rsp.reasonText

/-- One line for each header entry other than `connection`. -/
def headerLines (rsp : FullResponse μ) : List Bytes :=
  (dumpHeaders M rsp.m_websocket rsp.m_headers).map fun i => i.1 ++ bytes ": " ++ i.2

/-- The lines of the cookies. -/
def cookieLines (rsp : FullResponse μ) : List Bytes :=
  rsp.m_cookies.map fun i => bytes "Set-Cookie: " ++ i

/-- The line that is written for `m_close`. -/
def connectionLine (rsp : FullResponse μ) : Bytes :=
  bytes "connection: " ++ (if rsp.m_close then bytes "close" else bytes "keep-alive")

/-- The line that is written for a body. -/
def lengthLine (rsp : FullResponse μ) : Bytes :=
  bytes "content-length: " ++ decimal rsp.m_body.length

/-- The lines that `dump` adds itself. -/
def ownLines (rsp : FullResponse μ) : List Bytes :=
  (if rsp.m_websocket then [] else [rsp.connectionLine]) ++
    (if rsp.m_body.isEmpty then [] else [rsp.lengthLine])

/-- The lines in front of the body. -/
def lines (rsp : FullResponse μ) : List Bytes :=
  rsp.statusLine :: (rsp.headerLines M ++ rsp.cookieLines ++ rsp.ownLines)

/-- The text is the lines, an empty line and the body. -/
theorem dump_eq (rsp : FullResponse μ) :
    rsp.dump M = ended CRLF (rsp.lines M) ++ (CRLF ++ rsp.m_body) := by
  have hline : bytes "\r\n" = CRLF := by decide
  have hblank : bytes "\r\n\r\n" = CRLF ++ CRLF := by decide
  have hown : ended CRLF rsp.ownLines ++ (CRLF ++ rsp.m_body) =
      (if rsp.m_websocket then [] else rsp.connectionLine ++ CRLF) ++
        (if rsp.m_body.isEmpty then CRLF
        else rsp.lengthLine ++ (CRLF ++ (CRLF ++ rsp.m_body))) := by
    rw [ownLines, Delimited.ended_append, List.append_assoc]
    refine congrArg₂ _ ?_ ?_
    · cases rsp.m_websocket with
      | true => rfl
      | false => exact List.append_nil _
    · cases hbody : rsp.m_body with
      | nil => rfl
      | cons b body =>
          simp only [List.isEmpty_cons, Bool.false_eq_true, if_false, Delimited.ended_cons,
            List.append_assoc]
          rfl
  rw [lines, Delimited.ended_cons, Delimited.ended_append, Delimited.ended_append]
  simp only [List.append_assoc, hown]
  simp only [dump, statusLine, headerLines, cookieLines, connectionLine, lengthLine, ended, hline,
    hblank, List.flatMap_map, List.append_assoc]

end FullResponse

/-! ## Texts of one line -/

theorem crlf_ne_nil : CRLF ≠ [] := List.cons_ne_nil 13 [10]

theorem crlf_unbordered : Delimited.Unbordered CRLF := Delimited.unbordered_pair (by decide)

/-- There is no line end in the text. -/
def OneLine (s : Bytes) : Prop := ¬ CRLF <:+: s

instance (s : Bytes) : Decidable (OneLine s) := instDecidableNot

theorem oneLine_across {x : UInt8} (hx : x ∉ CRLF) {a b : Bytes} :
    OneLine (a ++ x :: b) ↔ OneLine a ∧ OneLine b := by
  rw [OneLine, Delimited.infix_across hx, not_or]
  rfl

/-- No line end starts in a text without a carriage return. -/
theorem oneLine_literal {s t : Bytes} (h : 13 ∉ s) : OneLine (s ++ t) ↔ OneLine t := by
  induction s with
  | nil => exact Iff.rfl
  | cons b s ih =>
      rw [List.mem_cons, not_or] at h
      obtain ⟨hb, hs⟩ := h
      rw [← ih hs, OneLine, OneLine, List.cons_append, List.infix_cons_iff, not_or]
      refine and_iff_right fun hpre => hb ?_
      exact (List.cons_prefix_cons.mp hpre).1

theorem oneLine_nil : OneLine [] := fun h => crlf_ne_nil (List.infix_nil.mp h)

theorem oneLine_of_not_mem {s : Bytes} (h : 13 ∉ s) : OneLine s := by
  rw [← List.append_nil s]
  exact (oneLine_literal h).mpr oneLine_nil

/-- An attribute of a cookie, with its `;`, behind the text before it. -/
theorem oneLine_attribute {s a t : Bytes} (hsep : s.head? = some 59) (hs : 13 ∉ s) (c : Prop)
    [Decidable c] : OneLine (a ++ if c then s ++ t else []) ↔ OneLine a ∧ (c → OneLine t) := by
  split
  next hc =>
    cases s with
    | nil => cases hsep
    | cons b s =>
        cases hsep
        rw [List.mem_cons, not_or] at hs
        rw [List.cons_append, oneLine_across (by decide), oneLine_literal hs.2,
          forall_prop_of_true hc]
  next hc => rw [List.append_nil, forall_prop_of_false hc, and_true]

theorem decimal_digits {n : Nat} {b : UInt8} (h : b ∈ decimal n) : 48 ≤ b ∧ b ≤ 57 := by
  obtain ⟨-, -, -, hdigits⟩ := Json.natDigits_eq_cons n
  exact hdigits b h

theorem decimal_clean (n : Nat) : 13 ∉ decimal n :=
  fun h => absurd (decimal_digits h).1 (by decide)

theorem HttpStatusToString_oneLine (s : HttpStatus) : OneLine (HttpStatusToString s) := by
  -- as `all`, the kernel computes each text once
  have htexts : ∀ e ∈ HTTP_STATUS_MAP, (bytes e.2).all (· ≠ 13) := by decide +kernel
  rw [HttpStatusToString]
  split
  next e hfind =>
    have hall := List.all_eq_true.mp (htexts e (List.mem_of_find?_eq_some hfind))
    exact oneLine_of_not_mem fun hmem => of_decide_eq_true (hall 13 hmem) rfl
  next => exact oneLine_of_not_mem (by decide)

namespace FullResponse

theorem statusLine_oneLine (rsp : FullResponse μ) :
    OneLine rsp.statusLine ↔ OneLine rsp.m_reason := by
  rw [statusLine, oneLine_literal, reasonText]
  · cases hreason : rsp.m_reason with
    | nil => exact iff_of_true (HttpStatusToString_oneLine _) oneLine_nil
    | cons b reason => exact Iff.rfl
  · simp only [List.mem_append, decimal_clean, not_or, or_false]
    decide

theorem headerLine_oneLine (i : Bytes × Bytes) :
    OneLine (i.1 ++ bytes ": " ++ i.2) ↔ OneLine i.1 ∧ OneLine i.2 := by
  have hsep : bytes ": " = [58, 32] := by decide
  rw [hsep, List.append_assoc, List.cons_append, oneLine_across (by decide),
    oneLine_literal (by decide)]

theorem cookieText_oneLine (hdate : ∀ tm, OneLine (T.strftime cookieDate tm)) (key val : Bytes)
    (expired : Int) (path domain : Bytes) (secure : Bool) :
    OneLine (cookieText T key val expired path domain secure) ↔
      OneLine key ∧ OneLine val ∧ OneLine domain ∧ OneLine path := by
  have hgmt : ∀ ts, OneLine (Time2Str T ts cookieDate ++ bytes " GMT") := by
    intro ts
    have hsep : bytes " GMT" = 32 :: bytes "GMT" := by decide
    rw [hsep, oneLine_across (by decide)]
    refine ⟨fun hin => hdate (T.localtime_r ts) (hin.trans ?_), oneLine_of_not_mem (by decide)⟩
    exact (List.takeWhile_prefix _).isInfix
  have hopt : ∀ t : Bytes, (t ≠ [] → OneLine t) ↔ OneLine t := by
    intro t
    cases t with
    | nil => exact iff_of_true (fun _ => oneLine_nil) oneLine_nil
    | cons b t => exact forall_prop_of_true (List.cons_ne_nil b t)
  have hequals : bytes "=" = [61] := by decide
  rw [cookieText, ← List.append_nil (bytes ";secure"), oneLine_attribute (by decide) (by decide),
    oneLine_attribute (by decide) (by decide), oneLine_attribute (by decide) (by decide),
    oneLine_attribute (by decide) (by decide), hopt, hopt, hequals, List.append_assoc,
    List.singleton_append, oneLine_across (by decide)]
  constructor
  · rintro ⟨⟨⟨⟨⟨hkey, hval⟩, -⟩, hdomain⟩, hpath⟩, -⟩
    exact ⟨hkey, hval, hdomain, hpath⟩
  · rintro ⟨hkey, hval, hdomain, hpath⟩
    exact ⟨⟨⟨⟨⟨hkey, hval⟩, fun _ => hgmt expired⟩, hdomain⟩, hpath⟩, fun _ => oneLine_nil⟩

theorem mem_ownLines {rsp : FullResponse μ} {l : Bytes} (h : l ∈ rsp.ownLines) :
    l = rsp.connectionLine ∨ l = rsp.lengthLine := by
  rw [ownLines, List.mem_append] at h
  refine h.imp (fun hl => ?_) fun hl => ?_
  · split at hl
    next => cases hl
    next => exact List.mem_singleton.mp hl
  · split at hl
    next => cases hl
    next => exact List.mem_singleton.mp hl

theorem ownLines_oneLine (rsp : FullResponse μ) : ∀ l ∈ rsp.ownLines, OneLine l := by
  have hconnection : OneLine rsp.connectionLine := by
    rw [connectionLine]
    cases rsp.m_close with
    | true => exact oneLine_of_not_mem (by decide)
    | false => exact oneLine_of_not_mem (by decide)
  have hlength : OneLine rsp.lengthLine :=
    (oneLine_literal (by decide)).mpr (oneLine_of_not_mem (decimal_clean _))
  intro l hl
  rcases mem_ownLines hl with rfl | rfl
  · exact hconnection
  · exact hlength

/-- The lines have no line end when nothing that was given to the response has one. -/
theorem lines_oneLine_iff (rsp : FullResponse μ) :
    (∀ l ∈ rsp.lines M, OneLine l) ↔
      OneLine rsp.m_reason ∧
        (∀ i ∈ dumpHeaders M rsp.m_websocket rsp.m_headers, OneLine i.1 ∧ OneLine i.2) ∧
        ∀ i ∈ rsp.m_cookies, OneLine i := by
  have hcookie : ∀ i : Bytes, OneLine (bytes "Set-Cookie: " ++ i) ↔ OneLine i :=
    fun i => oneLine_literal (by decide)
  rw [lines, List.forall_mem_cons, List.forall_mem_append, List.forall_mem_append, headerLines,
    cookieLines, List.forall_mem_map, List.forall_mem_map, statusLine_oneLine,
    and_iff_left rsp.ownLines_oneLine]
  simp only [headerLine_oneLine, hcookie]

theorem ownLines_ne_nil (rsp : FullResponse μ) : ∀ l ∈ rsp.ownLines, l ≠ [] := by
  intro l hl
  rcases mem_ownLines hl with rfl | rfl
  · exact List.append_ne_nil_of_left_ne_nil (by decide) _
  · exact List.append_ne_nil_of_left_ne_nil (by decide) _

theorem statusLine_ne_nil (rsp : FullResponse μ) : rsp.statusLine ≠ [] := by
  rw [statusLine]
  simp only [List.append_assoc]
  exact List.append_ne_nil_of_left_ne_nil (by decide) _

theorem lines_ne_nil (rsp : FullResponse μ) : ∀ l ∈ rsp.lines M, l ≠ [] := by
  have hsep : bytes ": " ≠ [] := by decide
  have hcookie : bytes "Set-Cookie: " ≠ [] := by decide
  rw [lines, List.forall_mem_cons, List.forall_mem_append, List.forall_mem_append, headerLines,
    cookieLines, List.forall_mem_map, List.forall_mem_map]
  refine ⟨rsp.statusLine_ne_nil, ⟨fun i _ => ?_, fun i _ => ?_⟩, rsp.ownLines_ne_nil⟩
  · exact List.append_ne_nil_of_left_ne_nil (List.append_ne_nil_of_right_ne_nil _ hsep) _
  · exact List.append_ne_nil_of_left_ne_nil hcookie _

/-- The header block is the lines of the response, and the body is behind it. -/
def OneLineEach (rsp : FullResponse μ) : Prop :=
  head CRLF (rsp.dump M) = some (rsp.lines M, rsp.m_body)

theorem oneLineEach_iff_lines (rsp : FullResponse μ) :
    rsp.OneLineEach M ↔ ∀ l ∈ rsp.lines M, OneLine l := by
  rw [OneLineEach, Delimited.head_eq_some_iff crlf_ne_nil crlf_unbordered, dump_eq]
  constructor
  · exact fun h l hl => (h.2 l hl).2
  · exact fun h => ⟨rfl, fun l hl => ⟨rsp.lines_ne_nil M l hl, h l hl⟩⟩

end FullResponse

/-! ## Calls on a response -/

/-- A call that changes a response. -/
inductive ResponseCall where
  | setHeader (key val : Bytes)
  | delHeader (key : Bytes)
  | setRedirect (uri : Bytes)
  | setCookie (key val : Bytes) (expired : Int) (path domain : Bytes) (secure : Bool)
  | setReason (v : Bytes)
  | setBody (v : Bytes)
  | setStatus (v : HttpStatus)
  | setVersion (v : UInt8)
  | setClose (v : Bool)
  | setWebsocket (v : Bool)

namespace FullResponse

/-- What a call makes of a response. -/
def call (rsp : FullResponse μ) : ResponseCall → FullResponse μ
  | .setHeader key val => rsp.setHeader M key val
  | .delHeader key => rsp.delHeader M key
  | .setRedirect uri => rsp.setRedirect M uri
  | .setCookie key val expired path domain secure =>
      rsp.setCookie T key val expired path domain secure
  | .setReason v => { rsp with m_reason := v }
  | .setBody v => { rsp with m_body := v }
  | .setStatus v => { rsp with m_status := v }
  | .setVersion v => { rsp with m_version := v }
  | .setClose v => { rsp with m_close := v }
  | .setWebsocket v => { rsp with m_websocket := v }

/-- The response after the calls. -/
def built (version : UInt8) (close : Bool) (calls : List ResponseCall) : FullResponse μ :=
  calls.foldl (call M T) (new M version close)

/-- The cookies that a call adds. -/
def addedCookies : ResponseCall → List Bytes
  | .setCookie key val expired path domain secure =>
      [cookieText T key val expired path domain secure]
  | _ => []

theorem cookies_call (rsp : FullResponse μ) (c : ResponseCall) :
    (rsp.call M T c).m_cookies = rsp.m_cookies ++ addedCookies T c := by
  cases c with
  | setCookie key val expired path domain secure => rfl
  | setHeader | delHeader | setRedirect | setReason | setBody | setStatus | setVersion
  | setClose | setWebsocket => exact (List.append_nil _).symm

theorem cookies_calls (calls : List ResponseCall) : ∀ rsp : FullResponse μ,
    (calls.foldl (call M T) rsp).m_cookies =
      rsp.m_cookies ++ calls.flatMap (addedCookies T) := by
  induction calls with
  | nil => exact fun rsp => (List.append_nil _).symm
  | cons c calls ih =>
      intro rsp
      rw [List.foldl_cons, ih, cookies_call, List.append_assoc, List.flatMap_cons]

/-- Nothing that was given to the response and is written has a line end. -/
structure Unbroken (rsp : FullResponse μ) (calls : List ResponseCall) : Prop where
  reason : OneLine rsp.m_reason
  headers : ∀ i ∈ dumpHeaders M rsp.m_websocket rsp.m_headers, OneLine i.1 ∧ OneLine i.2
  cookies : ∀ key val expired path domain secure,
    ResponseCall.setCookie key val expired path domain secure ∈ calls →
      OneLine key ∧ OneLine val ∧ OneLine domain ∧ OneLine path

/-- The cookies have no line end when nothing that they were set with has one. -/
theorem cookies_oneLine_iff (hdate : ∀ tm, OneLine (T.strftime cookieDate tm))
    (version : UInt8) (close : Bool) (calls : List ResponseCall) :
    (∀ i ∈ (built M T version close calls).m_cookies, OneLine i) ↔
      ∀ key val expired path domain secure,
        ResponseCall.setCookie key val expired path domain secure ∈ calls →
          OneLine key ∧ OneLine val ∧ OneLine domain ∧ OneLine path := by
  rw [built, cookies_calls]
  constructor
  · intro h key val expired path domain secure hmem
    refine (cookieText_oneLine T hdate key val expired path domain secure).mp (h _ ?_)
    exact List.mem_append_right _ (List.mem_flatMap.mpr ⟨_, hmem, List.mem_singleton_self _⟩)
  · intro h i hi
    rcases List.mem_append.mp hi with hnone | hi
    · cases hnone
    · obtain ⟨c, hc, hi⟩ := List.mem_flatMap.mp hi
      cases c with
      | setCookie key val expired path domain secure =>
          rw [List.mem_singleton.mp hi]
          exact (cookieText_oneLine T hdate key val expired path domain secure).mpr
            (h key val expired path domain secure hc)
      | setHeader | delHeader | setRedirect | setReason | setBody | setStatus | setVersion
      | setClose | setWebsocket => cases hi

/-- After any calls, the header block has the lines of the response and no others exactly when
no reason, header entry or part of a cookie has a line end. -/
theorem oneLineEach_iff (hdate : ∀ tm, OneLine (T.strftime cookieDate tm))
    (version : UInt8) (close : Bool) (calls : List ResponseCall) :
    (built M T version close calls).OneLineEach M ↔
      Unbroken M (built M T version close calls) calls := by
  rw [oneLineEach_iff_lines, lines_oneLine_iff,
    cookies_oneLine_iff M T hdate version close calls]
  exact ⟨fun h => ⟨h.1, h.2.1, h.2.2⟩, fun h => ⟨h.reason, h.headers, h.cookies⟩⟩

/-! ## Two responses -/

/-- The calendar of a clock that stands one second past the epoch. -/
def firstSecond : Calendar where
  tm := Int
  localtime_r := id
  strftime _ _ := bytes "Thu, 01 Jan 1970 00:00:01"

theorem firstSecond_oneLine (tm : firstSecond.tm) : OneLine (firstSecond.strftime cookieDate tm) :=
  (by decide : OneLine (bytes "Thu, 01 Jan 1970 00:00:01"))

/-- A response with a header, a cookie and a body. -/
def withCookie : FullResponse (List (Bytes × Bytes)) :=
  built (OrderedMap.assoc Bytes Bytes CaseInsensitiveLess) firstSecond 0x11 false
    [.setHeader (bytes "Server") (bytes "muqiu"),
      .setCookie (bytes "id") (bytes "7") 1 (bytes "/") [] true, .setBody (bytes "ok")]

theorem withCookie_oneLineEach :
    withCookie.OneLineEach (OrderedMap.assoc Bytes Bytes CaseInsensitiveLess) := by
  refine (oneLineEach_iff (OrderedMap.assoc Bytes Bytes CaseInsensitiveLess) firstSecond
    firstSecond_oneLine 0x11 false _).mpr ⟨by decide, by decide, ?_⟩
  intro key val expired path domain secure hmem
  rcases List.mem_cons.mp hmem with h | hmem
  · cases h
  · rcases List.mem_cons.mp hmem with h | hmem
    · cases h
      decide
    · cases List.mem_singleton.mp hmem

/-- A redirect to an address that goes on behind a line end, with a cookie. -/
def splitRedirect : FullResponse (List (Bytes × Bytes)) :=
  built (OrderedMap.assoc Bytes Bytes CaseInsensitiveLess) firstSecond 0x11 false
    [.setRedirect (bytes "/home\r\nSet-Cookie: id=7")]

theorem splitRedirect_split :
    ¬ splitRedirect.OneLineEach (OrderedMap.assoc Bytes Bytes CaseInsensitiveLess) := by
  rw [oneLineEach_iff_lines, lines_oneLine_iff]
  rintro ⟨-, hheaders, -⟩
  exact absurd (hheaders (bytes "Location", bytes "/home\r\nSet-Cookie: id=7") (by decide)).2
    (by decide)

end FullResponse

end Http

end Muqiu
