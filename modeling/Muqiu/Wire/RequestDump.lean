import Muqiu.Wire.RequestPlain
import Muqiu.Http.Framing
import Muqiu.Http.HeaderOrder
import Muqiu.Http.Segmentation

/-!
# Requests that are written are received

`HttpRequest::dump` writes a request as it is, without coding anything in it.  For a request that
needs no coding (`Writable`) the text is plain, and what the parser reads of it is the request, but
for its header map.  That holds what the fields of the text leave when they are set one after the
other, with the `connection` and the `content-length` that `dump` adds.

The body is only received when that map finds its length (`Framed`).  It does over an order of the
names up to case (`framed_of_lawful`).  `CaseInsensitiveLess` is none, and over the tree that it
makes of the fields only requests without a body are framed (`framed_rooted_iff`).  `recv_dump` is
about every map.
-/

namespace Muqiu.Http

open OrderedMap (Ops Lawful Over lastSet)
open Transducer (ByteClass)

variable {μ : Type} (M : Ops Bytes Bytes μ)

/-! ## Writing a request -/

namespace HttpRequest

/-- The text of a request. -/
def dump (req : HttpRequest μ) : Bytes :=
  bytes (HttpMethodToString req.m_method) ++ bytes " " ++ req.m_path ++
    (if req.m_query.isEmpty then [] else bytes "?") ++ req.m_query ++
    (if req.m_fragment.isEmpty then [] else bytes "#") ++ req.m_fragment ++ bytes " HTTP/" ++
    decimal (req.m_version >>> 4).toNat ++ bytes "." ++ decimal (req.m_version &&& 0x0F).toNat ++
    bytes "\r\n" ++
    (if req.m_websocket then []
    else bytes "connection: " ++ (if req.m_close then bytes "close" else bytes "keep-alive") ++
      bytes "\r\n") ++
    (dumpHeaders M req.m_websocket req.m_headers).flatMap
      (fun i => i.1 ++ bytes ": " ++ i.2 ++ bytes "\r\n") ++
    (if req.m_body.isEmpty then bytes "\r\n"
    else bytes "content-length: " ++ decimal req.m_body.length ++ bytes "\r\n\r\n" ++ req.m_body)

/-- The fields that it writes. -/
def writtenFields (req : HttpRequest μ) : List (Bytes × Bytes) :=
  (if req.m_websocket then []
    else [(bytes "connection", if req.m_close then bytes "close" else bytes "keep-alive")]) ++
    dumpHeaders M req.m_websocket req.m_headers ++
    (if req.m_body.isEmpty then [] else [(bytes "content-length", decimal req.m_body.length)])

/-- A part that is only written when there is one. -/
def part (s : Bytes) : Option Bytes := if s.isEmpty then none else some s

/-- What it writes in front of the body. -/
def requestText (req : HttpRequest μ) : RequestText where
  method := bytes (HttpMethodToString req.m_method)
  target := ⟨none, req.m_path, part req.m_query, part req.m_fragment⟩
  minor := 48 + (req.m_version &&& 0x0F)
  cr := true
  lines := (req.writtenFields M).map fun f => ⟨f.1, [32], f.2, true⟩
  last := true

/-- The request is written as it is read. -/
structure Writable (req : HttpRequest μ) : Prop where
  method : req.m_method ≠ .MSEARCH ∧ req.m_method ≠ .INVALID_METHOD
  version : req.m_version = 0x10 ∨ req.m_version = 0x11
  path : PlainPath req.m_path
  query : Coded plainQueryChars req.m_query
  fragment : Coded plainQueryChars req.m_fragment
  headers : ∀ f ∈ dumpHeaders M req.m_websocket req.m_headers,
    (HeaderLine.mk f.1 [32] f.2 true).Plain

variable {M} {req : HttpRequest μ}

theorem part_text (c : UInt8) (s : Bytes) :
    optional c (part s) = (if s.isEmpty then [] else [c]) ++ s := by
  cases s with
  | nil => rfl
  | cons b s => rfl

theorem field_text (f : Bytes × Bytes) :
    (HeaderLine.mk f.1 [32] f.2 true).text = f.1 ++ bytes ": " ++ f.2 ++ bytes "\r\n" := by
  have hcolon : bytes ": " = [58, 32] := by decide
  have hend : bytes "\r\n" = lineEnd true := by decide
  rw [hcolon, hend, HeaderLine.text]
  simp only [List.append_assoc, List.cons_append, List.nil_append]

/-- The version, behind the space that ends the target. -/
theorem version_text (h : req.m_version = 0x10 ∨ req.m_version = 0x11) :
    bytes " HTTP/" ++ decimal (req.m_version >>> 4).toNat ++ bytes "." ++
        decimal (req.m_version &&& 0x0F).toNat =
      32 :: versionText (48 + (req.m_version &&& 0x0F)) := by
  rcases h with h | h
  · rw [h]
    decide
  · rw [h]
    decide

/-- The lines of the fields. -/
theorem fields_text (req : HttpRequest μ) :
    ((req.requestText M).lines.flatMap HeaderLine.text ++ lineEnd true) ++ req.m_body =
      (if req.m_websocket then []
      else bytes "connection: " ++ (if req.m_close then bytes "close" else bytes "keep-alive") ++
        bytes "\r\n") ++
      (dumpHeaders M req.m_websocket req.m_headers).flatMap
        (fun i => i.1 ++ bytes ": " ++ i.2 ++ bytes "\r\n") ++
      (if req.m_body.isEmpty then bytes "\r\n"
      else bytes "content-length: " ++ decimal req.m_body.length ++ bytes "\r\n\r\n" ++
        req.m_body) := by
  have hend : lineEnd true = bytes "\r\n" := by decide
  have hconnection : bytes "connection: " = bytes "connection" ++ bytes ": " := by decide
  have hlength : bytes "content-length: " = bytes "content-length" ++ bytes ": " := by decide
  have htwo : bytes "\r\n\r\n" = bytes "\r\n" ++ bytes "\r\n" := by decide
  have hlast : ((if req.m_body.isEmpty then []
        else [(bytes "content-length", decimal req.m_body.length)]).flatMap
          (fun i => i.1 ++ bytes ": " ++ i.2 ++ bytes "\r\n")) ++ bytes "\r\n" ++ req.m_body =
      if req.m_body.isEmpty then bytes "\r\n"
      else bytes "content-length: " ++ decimal req.m_body.length ++ bytes "\r\n\r\n" ++
        req.m_body := by
    cases req.m_body with
    | nil => exact List.append_nil _
    | cons b body =>
        simp only [List.isEmpty_cons, Bool.false_eq_true, if_false, List.flatMap_cons,
          List.flatMap_nil, List.append_nil, List.append_assoc, hlength, htwo]
  rw [requestText, List.flatMap_map, writtenFields, ← hlast, hend]
  simp only [field_text, List.flatMap_append, List.append_assoc]
  congr 1
  cases req.m_websocket with
  | true => rfl
  | false =>
      simp only [Bool.false_eq_true, if_false, List.flatMap_cons, List.flatMap_nil, List.append_nil,
        List.append_assoc, hconnection]

theorem dump_eq (h : req.m_version = 0x10 ∨ req.m_version = 0x11) :
    req.dump M = (req.requestText M).text ++ req.m_body := by
  have hspace : bytes " " = [32] := by decide
  have hquery : bytes "?" = [63] := by decide
  have hhash : bytes "#" = [35] := by decide
  have hend : bytes "\r\n" = lineEnd true := by decide
  have hversion : ∀ rest : Bytes, bytes " HTTP/" ++ (decimal (req.m_version >>> 4).toNat ++
      (bytes "." ++ (decimal (req.m_version &&& 0x0F).toNat ++ rest))) =
        32 :: (versionText (48 + (req.m_version &&& 0x0F)) ++ rest) := fun rest => by
    rw [← List.cons_append, ← version_text h]
    simp only [List.append_assoc]
  have htarget : (req.requestText M).target.text = req.m_path ++
      ((if req.m_query.isEmpty then [] else bytes "?") ++ (req.m_query ++
        ((if req.m_fragment.isEmpty then [] else bytes "#") ++ req.m_fragment))) := by
    rw [requestText, Target.text, part_text, part_text, hquery, hhash]
    simp only [List.append_assoc]
    rfl
  have hfields := fields_text (M := M) req
  simp only [List.append_assoc] at hfields
  rw [dump, RequestText.text, htarget]
  simp only [List.append_assoc, List.cons_append, hspace, hversion, ← hfields, List.nil_append]
  rw [hend]
  rfl

/-! ## The text is plain -/

/-- The fields that are added have values without blanks. -/
theorem field_plain {name value : Bytes} (hname : ByteClass.Of headerChars name) (hne : name ≠ [])
    (hvalue : ByteClass.Of [(33, 126)] value) : (HeaderLine.mk name [32] value true).Plain where
  name := hname
  name_ne_nil := hne
  blanks := fun _ hb => List.mem_cons_of_mem 9 hb
  value := fun b hb => by
    have hrange := hvalue b hb
    simp only [valueChars, ByteClass.has, List.any_cons, List.any_nil, Bool.or_false,
      Bool.or_eq_true, Bool.and_eq_true, decide_eq_true_eq] at hrange ⊢
    exact Or.inr (Or.inr (Or.inl ⟨Nat.le_trans (by decide) hrange.1, hrange.2⟩))
  value_start := fun b hb hblank => by
    have hrange := hvalue b (List.mem_of_mem_head? hb)
    revert hrange
    rcases List.mem_pair.mp hblank with rfl | rfl
    · decide
    · decide

theorem writtenFields_plain (h : req.Writable M) :
    ∀ f ∈ req.writtenFields M, (HeaderLine.mk f.1 [32] f.2 true).Plain := by
  have hconnection : ByteClass.Of headerChars (bytes "connection") := .of_all (by decide)
  have hlength : ByteClass.Of headerChars (bytes "content-length") := .of_all (by decide)
  rw [writtenFields, List.forall_mem_append, List.forall_mem_append]
  refine ⟨⟨fun f hf => ?_, h.headers⟩, fun f hf => ?_⟩
  · split at hf
    next => cases hf
    next =>
      rw [List.mem_singleton.mp hf]
      refine field_plain hconnection (List.cons_ne_nil _ _) ?_
      cases req.m_close with
      | true => exact .of_all (by decide)
      | false => exact .of_all (by decide)
  · split at hf
    next => cases hf
    next =>
      rw [List.mem_singleton.mp hf]
      refine field_plain hlength (List.cons_ne_nil _ _) fun b hb => ?_
      obtain ⟨hlow, hhigh⟩ := decimal_digits hb
      rw [ByteClass.has, List.any_cons, List.any_nil, Bool.or_false, Bool.and_eq_true,
        decide_eq_true_eq, decide_eq_true_eq]
      exact ⟨Nat.le_trans (by decide) (UInt8.le_iff_toNat_le.mp hlow),
        Nat.le_trans (UInt8.le_iff_toNat_le.mp hhigh) (by decide)⟩

theorem part_mem {s p : Bytes} (h : p ∈ part s) : p = s := by
  rw [part] at h
  split at h
  next => cases h
  next => exact (Option.some.inj h).symm

theorem requestText_plain (h : req.Writable M) :
    (req.requestText M).Plain req.m_method where
  method := rfl
  token := method_token h.method.1 h.method.2
  target :=
    { scheme := rfl
      path := h.path
      query := fun _ hq => part_mem hq ▸ h.query
      fragment := fun _ hf => part_mem hf ▸ h.fragment }
  minor := by
    show 48 + (req.m_version &&& 0x0F) = 48 ∨ 48 + (req.m_version &&& 0x0F) = 49
    rcases h.version with hv | hv
    · rw [hv]
      decide
    · rw [hv]
      decide
  lines := List.forall_mem_map.mpr (writtenFields_plain h)

/-! ## What is read of it -/

variable {E : Env μ}

/-- A field that keeps the connection. -/
def keepsAlive (f : Bytes × Bytes) : Bool :=
  sameKey f.1 (bytes "connection") && sameKey f.2 (bytes "keep-alive")

/-- The fields of a request, as the parser sets them. -/
theorem received_fields (fields : List (Bytes × Bytes)) (req : HttpRequest μ) :
    fields.foldl (fun req f => req.received E f.1 f.2) req =
      { req with
        m_close := req.m_close && !fields.any keepsAlive
        m_headers := fields.foldl (fun headers f => E.map.set f.1 f.2 headers) req.m_headers } := by
  induction fields generalizing req with
  | nil =>
      rw [List.any_nil, Bool.not_false, Bool.and_true]
      rfl
  | cons f fields ih =>
      have hfirst : req.received E f.1 f.2 =
          { req with
            m_close := req.m_close && !keepsAlive f
            m_headers := E.map.set f.1 f.2 req.m_headers } := by
        have hkeep : keepsAlive f = true ↔ sameKey f.1 (bytes "connection") = true ∧
            sameKey f.2 (bytes "keep-alive") = true := Bool.and_eq_true_iff
        rw [received, setHeader]
        split
        next hboth => rw [hkeep.mpr hboth, Bool.not_true, Bool.and_false]
        next hother =>
          rw [Bool.eq_false_of_not_eq_true fun h => hother (hkeep.mp h), Bool.not_false,
            Bool.and_true]
      rw [List.foldl_cons, ih, hfirst, List.any_cons, Bool.not_or, ← Bool.and_assoc]
      rfl

/-- The headers that the parser makes of the fields. -/
def readHeaders (E : Env μ) (req : HttpRequest μ) : μ :=
  (req.writtenFields E.map).foldl (fun headers f => E.map.set f.1 f.2 headers) E.map.empty

theorem sameKey_comm (a b : Bytes) : sameKey a b = sameKey b a := by
  rw [Bool.eq_iff_iff, sameKey_iff, sameKey_iff, eq_comm]

/-- The fields behind the `connection`. -/
def laterFields (M : Ops Bytes Bytes μ) (req : HttpRequest μ) : List (Bytes × Bytes) :=
  dumpHeaders M req.m_websocket req.m_headers ++
    (if req.m_body.isEmpty then [] else [(bytes "content-length", decimal req.m_body.length)])

theorem writtenFields_eq (hws : req.m_websocket = false) :
    req.writtenFields M =
      (bytes "connection", if req.m_close then bytes "close" else bytes "keep-alive") ::
        req.laterFields M := by
  rw [writtenFields, laterFields, hws, List.append_assoc]
  rfl

/-- None of them is another `connection`. -/
theorem laterFields_other (hws : req.m_websocket = false) :
    ∀ f ∈ req.laterFields M, sameKey (bytes "connection") f.1 = false := by
  have hnames : sameKey (bytes "connection") (bytes "content-length") = false := by decide
  rw [laterFields, hws]
  refine List.forall_mem_append.mpr ⟨fun f hf => ?_, fun f hf => ?_⟩
  · have hdumped := (List.mem_filter.mp hf).2
    rw [Bool.false_or, Bool.not_eq_true'] at hdumped
    rw [sameKey_comm, hdumped]
  · split at hf
    next => cases hf
    next => rw [List.mem_singleton.mp hf, hnames]

/-- Only the `connection` that is added can keep the connection. -/
theorem any_keepsAlive (req : HttpRequest μ) (hws : req.m_websocket = false) :
    (req.writtenFields M).any keepsAlive = !req.m_close := by
  have hlater : (req.laterFields M).any keepsAlive = false := by
    rw [List.any_eq_false]
    intro f hf hkeep
    rw [keepsAlive, sameKey_comm, laterFields_other hws f hf] at hkeep
    exact absurd hkeep Bool.false_ne_true
  rw [writtenFields_eq hws, List.any_cons, hlater, Bool.or_false]
  cases req.m_close with
  | true => decide
  | false => decide

/-- The text says all of the request but its body and its headers. -/
theorem requestText_value (h : req.Writable E.map) (hws : req.m_websocket = false) :
    (req.requestText E.map).value E req.m_method =
      { req with m_body := [], m_headers := req.readHeaders E } := by
  have hpart : ∀ s : Bytes, (part s).getD [] = s := fun s => by
    cases s with
    | nil => rfl
    | cons b s => rfl
  have hversion : versionOf (48 + (req.m_version &&& 0x0F)) = req.m_version := by
    rcases h.version with hv | hv
    · rw [hv]
      decide
    · rw [hv]
      decide
  obtain ⟨method, version, close, websocket, path, query, fragment, body, headers⟩ := req
  cases hws
  have hkeep := any_keepsAlive (M := E.map)
    ⟨method, version, close, false, path, query, fragment, body, headers⟩ rfl
  rw [RequestText.value, requestText, List.foldl_map, received_fields, hkeep, Bool.not_not]
  simp only [Target.apply, HttpRequest.new, hpart, hversion, Bool.true_and]
  rfl

/-- The header block of a request that is written. -/
theorem headerBlock_dump {r : Bool} (hM : E.machine = requestMachine r) (h : req.Writable E.map)
    (hws : req.m_websocket = false)
    (hshort : (req.requestText E.map).text.length < http_request_buffer_size) :
    ∃ parser, HeaderBlock E (req.requestText E.map).text parser ∧
      parser.m_data = { req with m_body := [], m_headers := req.readHeaders E } := by
  have hmax : http_request_buffer_size ≤ 9223372036854775807 := by decide
  obtain ⟨parser, haccepted, hfinished, herror, hdata⟩ :=
    accepted_of_finishes hM (by omega) (plain_finishes hM (requestText_plain h) (by omega))
  exact ⟨parser, ⟨hshort, haccepted, hfinished, herror⟩, hdata.trans (requestText_value h hws)⟩

/-! ## What frames it -/

/-- The headers that are read declare the body, and where they have a `connection`, it says what
`m_close` says. -/
structure Framed (E : Env μ) (req : HttpRequest μ) : Prop where
  connection : ∀ value, E.map.find (bytes "connection") (req.readHeaders E) = some value →
    value ≠ [] → sameKey value (bytes "keep-alive") = !req.m_close
  length : (bodyLength E { req with m_headers := req.readHeaders E }).toNat = req.m_body.length

/-- The length of a body, as it is written and read. -/
theorem bodyLength_decimal (hcast : LexicalCast E.lexical_cast) {n : Nat}
    (hn : n < 9223372036854775808) {data : HttpRequest μ}
    (hfind : E.map.find (bytes "content-length") data.m_headers = some (decimal n)) :
    bodyLength E data = n := by
  obtain ⟨hdecimal, hvalue, -⟩ := FullResponse.decimal_spec n
  obtain ⟨b, t, hcons, hdigits⟩ := Json.natDigits_eq_cons n
  have hlow := (hdigits b (by rw [hcons]; exact List.mem_cons_self)).1
  -- the number has no sign
  have hplus : b ≠ 43 := by
    rintro rfl
    exact absurd hlow (by decide)
  have hminus : b ≠ 45 := by
    rintro rfl
    exact absurd hlow (by decide)
  have hdec : decimal n = b :: t := hcons
  have hunsigned : unsigned (decimal n) = decimal n := by
    rw [hdec, unsigned, if_neg (not_or.mpr ⟨hplus, hminus⟩)]
  have hpositive : isNegative (decimal n) = false := by
    rw [isNegative, hdec, List.head?_cons, decide_eq_false_iff_not]
    exact fun hb => hminus (Option.some.inj hb)
  have hnumber : isUint64 (decimal n) = true := by
    rw [isUint64, hunsigned, hdecimal, hvalue, Bool.true_and, decide_eq_true_eq, uint64_range]
    omega
  have hread := hcast.number _ hnumber hpositive
  rw [hunsigned, hvalue] at hread
  rw [bodyLength, getContentLength, getHeaderAs, hfind]
  simp only [hread]
  exact toInt64_ofNat hn

theorem bodyLength_none {data : HttpRequest μ}
    (hfind : E.map.find (bytes "content-length") data.m_headers = none) :
    bodyLength E data = 0 := by
  rw [bodyLength, getContentLength, getHeaderAs, hfind]
  rfl

/-- A `connection` that is found is the one that `dump` adds. -/
theorem connection_of_found
    (hconnection : E.map.find (bytes "connection") (req.readHeaders E) =
      some (if req.m_close then bytes "close" else bytes "keep-alive")) (value : Bytes)
    (hvalue : E.map.find (bytes "connection") (req.readHeaders E) = some value) :
    sameKey value (bytes "keep-alive") = !req.m_close := by
  rw [← Option.some.inj (hconnection.symm.trans hvalue)]
  cases req.m_close with
  | true => decide
  | false => decide

/-- Headers in which the two fields are found that `dump` adds. -/
theorem framed_of_found (hcast : LexicalCast E.lexical_cast)
    (hbody : req.m_body.length < 9223372036854775808)
    (hconnection : E.map.find (bytes "connection") (req.readHeaders E) =
      some (if req.m_close then bytes "close" else bytes "keep-alive"))
    (hlength : E.map.find (bytes "content-length") (req.readHeaders E) =
      if req.m_body.isEmpty then none else some (decimal req.m_body.length)) : req.Framed E where
  connection := fun value hvalue _ => connection_of_found hconnection value hvalue
  length := by
    cases hempty : req.m_body with
    | nil =>
        rw [hempty] at hlength
        rw [bodyLength_none hlength]
        rfl
    | cons b body =>
        rw [hempty] at hlength hbody
        rw [bodyLength_decimal hcast hbody hlength]
        exact Int.toNat_natCast _

/-- A body whose length is not found is lost. -/
theorem not_framed_of_lost (hne : req.m_body ≠ [])
    (hlost : E.map.find (bytes "content-length") (req.readHeaders E) = none) : ¬req.Framed E := by
  intro h
  have hzero : (0 : Int).toNat = req.m_body.length := by
    rw [← h.length, bodyLength_none hlost]
  exact hne (List.eq_nil_of_length_eq_zero hzero.symm)

/-! ## A comparator that is an order -/

/-- The headers are a history of updates, the last field first. -/
theorem readHeaders_eq (req : HttpRequest μ) :
    req.readHeaders E =
      E.map.replay ((req.writtenFields E.map).reverse.map fun f => .set f.1 f.2) := by
  have hfold : ∀ fields : List (Bytes × Bytes),
      fields.reverse.foldl (fun headers f => E.map.set f.1 f.2 headers) E.map.empty =
        E.map.replay (fields.map fun f => .set f.1 f.2) := fun fields => by
    rw [List.foldl_reverse]
    induction fields with
    | nil => rfl
    | cons f fields ih =>
        rw [List.foldr_cons, ih]
        rfl
  rw [← hfold, List.reverse_reverse]
  rfl

/-- Later fields with other names leave what the earlier ones leave of a key. -/
theorem lastSet_fields {same : Bytes → Bytes → Bool} {key : Bytes} :
    ∀ {later : List (Bytes × Bytes)}, (∀ f ∈ later, same key f.1 = false) →
      ∀ earlier : List (Bytes × Bytes),
        lastSet same ((later ++ earlier).map fun f => .set f.1 f.2) key =
          lastSet same (earlier.map fun f => .set f.1 f.2) key
  | [], _, _ => rfl
  | f :: later, hother, earlier => by
      obtain ⟨hfirst, hlater⟩ := List.forall_mem_cons.mp hother
      rw [List.cons_append, List.map_cons, lastSet, hfirst, if_neg Bool.false_ne_true]
      exact lastSet_fields hlater earlier

/-- Over an order of the names up to case every request is framed, unless it has no body and a
`content-length` of its own. -/
theorem framed_of_lawful {less : Bytes → Bytes → Bool} {K : Set Bytes} (hM : Lawful E.map less K)
    (hsame : ∀ a ∈ K, ∀ b ∈ K, OrderedMap.equiv less a b = sameKey a b)
    (hkeys : ∀ f ∈ req.writtenFields E.map, f.1 ∈ K) (hlengthKey : bytes "content-length" ∈ K)
    (hws : req.m_websocket = false) (hcast : LexicalCast E.lexical_cast)
    (hbody : req.m_body.length < 9223372036854775808)
    (hown : req.m_body = [] → ∀ f ∈ dumpHeaders E.map false req.m_headers,
      sameKey (bytes "content-length") f.1 = false) : req.Framed E := by
  have hfind : ∀ key ∈ K, E.map.find key (req.readHeaders E) =
      lastSet sameKey ((req.writtenFields E.map).reverse.map fun f => .set f.1 f.2) key :=
    fun key hkey => by
      have hover : Over K ((req.writtenFields E.map).reverse.map fun f => .set f.1 f.2) :=
        List.forall_mem_map.mpr fun f hf => hkeys f (List.mem_reverse.mp hf)
      rw [readHeaders_eq, hM.find_replay hkey hover]
      exact OrderedMap.lastSet_congr hsame hkey hover
  rw [writtenFields_eq hws] at hfind hkeys
  have hconnectionKey : bytes "connection" ∈ K := hkeys _ List.mem_cons_self
  refine framed_of_found hcast hbody ?_ ?_
  · have hlater : ∀ f ∈ (req.laterFields E.map).reverse,
        sameKey (bytes "connection") f.1 = false :=
      fun f hf => laterFields_other hws f (List.mem_reverse.mp hf)
    rw [hfind _ hconnectionKey, List.reverse_cons, lastSet_fields hlater, List.map_singleton,
      lastSet, sameKey_refl, if_pos rfl]
  · rw [hfind _ hlengthKey, List.reverse_cons, laterFields, hws, List.reverse_append]
    cases hempty : req.m_body with
    | nil =>
        have hlater : ∀ f ∈ (dumpHeaders E.map false req.m_headers).reverse,
            sameKey (bytes "content-length") f.1 = false :=
          fun f hf => hown hempty f (List.mem_reverse.mp hf)
        have hnames : sameKey (bytes "content-length") (bytes "connection") = false := by decide
        rw [List.isEmpty_nil, if_pos rfl, List.reverse_nil, List.nil_append,
          lastSet_fields hlater, List.map_singleton, lastSet, hnames, if_neg Bool.false_ne_true]
        rfl
    | cons b body =>
        rw [List.isEmpty_cons, if_neg Bool.false_ne_true, List.reverse_singleton,
          List.append_assoc, List.singleton_append, List.map_cons, lastSet, sameKey_refl,
          if_pos rfl]
        rfl

/-! ## The comparator of the code -/

/-- The tree that `std::map` of libstdc++ makes of header names when the comparator only tells
whether two of them differ.  The first name is the root.  Every other is put to the left of it, in
the place of the one before, and looked for to the right of it, where nothing is.  An iteration
goes from the first that was put there to the root.  Nothing here erases a header. -/
def rootedHeaders : Ops Bytes Bytes (List (Bytes × Bytes)) where
  empty := []
  set k v
    | [] => [(k, v)]
    | root :: left =>
        if CaseInsensitiveLess root.1 k then root :: (left ++ [(k, v)]) else (root.1, v) :: left
  erase k
    | [] => []
    | root :: left => if CaseInsensitiveLess root.1 k then root :: left else left
  find k
    | [] => none
    | root :: _ => if CaseInsensitiveLess root.1 k then none else some root.2
  toList
    | [] => []
    | [root] => [root]
    | root :: first :: _ => [first, root]

theorem find_rooted (root : Bytes × Bytes) (left : List (Bytes × Bytes)) (k : Bytes) :
    rootedHeaders.find k (root :: left) =
      if CaseInsensitiveLess root.1 k then none else some root.2 :=
  rfl

/-- Fields of other names leave the root. -/
theorem rooted_fields (root : Bytes × Bytes) :
    ∀ {fields : List (Bytes × Bytes)}, (∀ f ∈ fields, sameKey root.1 f.1 = false) →
      ∀ left : List (Bytes × Bytes), ∃ left',
        fields.foldl (fun headers f => rootedHeaders.set f.1 f.2 headers) (root :: left) =
          root :: left'
  | [], _, left => ⟨left, rfl⟩
  | f :: fields, hother, left => by
      obtain ⟨hfirst, hfields⟩ := List.forall_mem_cons.mp hother
      have hless : CaseInsensitiveLess root.1 f.1 = true := by
        rw [CaseInsensitiveLess_eq, hfirst, Bool.not_false]
      have hset : rootedHeaders.set f.1 f.2 (root :: left) = root :: (left ++ [(f.1, f.2)]) :=
        if_pos hless
      rw [List.foldl_cons, hset]
      exact rooted_fields root hfields _

/-- Over the map of the code the requests without a body are framed, and no others: the
`connection` is the root, and so the `content-length` is not found. -/
theorem framed_rooted_iff {E : Env (List (Bytes × Bytes))} (hmap : E.map = rootedHeaders)
    {req : HttpRequest (List (Bytes × Bytes))} (hws : req.m_websocket = false) :
    req.Framed E ↔ req.m_body = [] := by
  obtain ⟨left, hleft⟩ := rooted_fields
    (bytes "connection", if req.m_close then bytes "close" else bytes "keep-alive")
    (laterFields_other (M := E.map) hws) []
  have hheaders : req.readHeaders E =
      (bytes "connection", if req.m_close then bytes "close" else bytes "keep-alive") :: left := by
    rw [readHeaders, writtenFields_eq hws, List.foldl_cons, ← hleft, hmap]
    rfl
  have hnames : CaseInsensitiveLess (bytes "connection") (bytes "content-length") = true := by
    decide
  have hsame : CaseInsensitiveLess (bytes "connection") (bytes "connection") = false := by decide
  have hlength : E.map.find (bytes "content-length") (req.readHeaders E) = none := by
    rw [hmap, hheaders, find_rooted, hnames, if_pos rfl]
  have hconnection : E.map.find (bytes "connection") (req.readHeaders E) =
      some (if req.m_close then bytes "close" else bytes "keep-alive") := by
    rw [hmap, hheaders, find_rooted, hsame, if_neg Bool.false_ne_true]
  constructor
  · intro hframed
    by_contra hne
    exact not_framed_of_lost hne hlength hframed
  · intro hnil
    refine ⟨fun value hvalue _ => connection_of_found hconnection value hvalue, ?_⟩
    rw [bodyLength_none hlength, hnil]
    rfl

/-! ## Receiving it -/

/-- What is read behind the header block is the request when the `connection` that is found is no
other than its own. -/
theorem withBody_iff :
    { req with m_headers := req.readHeaders E } =
        withBody E { req with m_body := [], m_headers := req.readHeaders E } req.m_body ↔
      ∀ value, E.map.find (bytes "connection") (req.readHeaders E) = some value →
        value ≠ [] → sameKey value (bytes "keep-alive") = !req.m_close := by
  rw [withBody, init, getHeader]
  cases hfind : E.map.find (bytes "connection") (req.readHeaders E) with
  | none => exact ⟨fun _ value h => absurd h.symm (Option.some_ne_none value), fun _ => rfl⟩
  | some value =>
      cases value with
      | nil => exact ⟨fun _ value h hne => absurd (Option.some.inj h).symm hne, fun _ => rfl⟩
      | cons b value =>
          simp only [List.isEmpty_cons, Bool.false_eq_true, if_false]
          constructor
          · intro heq value' hvalue _
            rw [← Option.some.inj hvalue, congrArg m_close heq, Bool.not_not]
          · intro hsame
            rw [hsame _ rfl (List.cons_ne_nil _ _), Bool.not_not]

/-- A request that is written arrives as it is, up to its headers, exactly when these frame it,
there is memory for the body, and the first read brings what is in front of the body and leaves a
rest that can be counted. -/
theorem recv_dump {r : Bool} (hM : E.machine = requestMachine r) (h : req.Writable E.map)
    (hws : req.m_websocket = false)
    (hshort : (req.requestText E.map).text.length < http_request_buffer_size)
    {cut : Pieces UInt8} (hcut : cut.all = req.dump E.map) (ending : Ending) (buffer : Buffer) :
    (recvRequest E buffer (arriving cut ending)).outcome =
        .request { req with m_headers := req.readHeaders E } ↔
      req.Framed E ∧ req.m_body.length ≤ E.heap ∧
        (req.requestText E.map).text.length ≤ cut.front.length ∧
        Counted ((req.dump E.map).length - min http_request_buffer_size cut.front.length) := by
  obtain ⟨parser, hblock, hdata⟩ := headerBlock_dump hM h hws hshort
  have htext := dump_eq (M := E.map) h.version
  have hlength : bodyLength E parser.m_data =
      bodyLength E { req with m_headers := req.readHeaders E } :=
    bodyLength_congr (by rw [hdata])
  have hiff := received_block_iff hblock (hcut.trans htext) ending buffer
    { req with m_headers := req.readHeaders E } rfl
  rw [hlength, hdata, withBody_iff, ← htext] at hiff
  rw [hiff]
  constructor
  · rintro ⟨hconnection, hbody, hrest⟩
    exact ⟨⟨hconnection, hbody⟩, hrest⟩
  · rintro ⟨hframed, hrest⟩
    exact ⟨hframed.connection, hframed.length, hrest⟩

/-- A request with a query, a fragment and a header. -/
def writtenRequest (m_method : HttpMethod) (m_body : Bytes) :
    HttpRequest (List (Bytes × Bytes)) where
  m_method := m_method
  m_version := 0x11
  m_close := true
  m_websocket := false
  m_path := bytes "/a"
  m_query := bytes "b=%20"
  m_fragment := bytes "c"
  m_body := m_body
  m_headers := [(bytes "Host", bytes "d")]

/-- It is written as it is read, with every map that gives the one header back. -/
theorem writtenRequest_writable {M : Ops Bytes Bytes (List (Bytes × Bytes))}
    (m_method : HttpMethod) (hmethod : m_method ≠ .MSEARCH ∧ m_method ≠ .INVALID_METHOD)
    (m_body : Bytes)
    (hentries : M.toList [(bytes "Host", bytes "d")] = [(bytes "Host", bytes "d")]) :
    (writtenRequest m_method m_body).Writable M where
  method := hmethod
  version := Or.inr rfl
  path := show PlainPath (bytes "/a") from
    ⟨.char (by decide) (.char (by decide) .nil), rfl, by decide⟩
  query := .char (by decide) (.char (by decide) (.code (by decide) (by decide) .nil))
  fragment := .char (by decide) .nil
  headers := by
    intro f hf
    have hhost : f ∈ [(bytes "Host", bytes "d")] := by
      rw [← hentries]
      exact (List.mem_filter.mp hf).1
    rw [List.mem_singleton.mp hhost]
    exact field_plain (.of_all (by decide)) (by decide) (.of_all (by decide))

/-- The compiled parser over the map of the code. -/
def rootedEnv : Env (List (Bytes × Bytes)) := { compiledEnv with map := rootedHeaders }

/-- A `GET` is received as it is and a `POST` is not, as its body is lost.  Over a map that finds
the length of the body it is. -/
theorem recv_dump_get_post :
    (recvRequest rootedEnv zeroBuffer
      (arriving (.one ((writtenRequest .GET []).dump rootedHeaders)) .eof)).outcome =
        .request { writtenRequest .GET [] with
          m_headers := (writtenRequest .GET []).readHeaders rootedEnv } ∧
    (recvRequest rootedEnv zeroBuffer
      (arriving (.one ((writtenRequest .POST (bytes "e")).dump rootedHeaders)) .eof)).outcome ≠
        .request { writtenRequest .POST (bytes "e") with
          m_headers := (writtenRequest .POST (bytes "e")).readHeaders rootedEnv } ∧
    (recvRequest compiledEnv zeroBuffer
      (arriving (.one ((writtenRequest .POST (bytes "e")).dump compiledEnv.map)) .eof)).outcome =
        .request { writtenRequest .POST (bytes "e") with
          m_headers := (writtenRequest .POST (bytes "e")).readHeaders compiledEnv } := by
  have hget := writtenRequest_writable (M := rootedHeaders) .GET (by decide) [] rfl
  have hpost := writtenRequest_writable (M := rootedHeaders) .POST (by decide) (bytes "e") rfl
  have hfound := writtenRequest_writable (M := compiledEnv.map) .POST (by decide) (bytes "e") rfl
  refine ⟨?_, fun hreceived => ?_, ?_⟩
  · exact (recv_dump (E := rootedEnv) (r := false) rfl hget rfl (by decide +kernel)
      (Pieces.all_one _) .eof zeroBuffer).mpr
        ⟨(framed_rooted_iff rfl rfl).mpr rfl, by decide, by decide +kernel, by decide +kernel⟩
  · have hframed := ((recv_dump (E := rootedEnv) (r := false) rfl hpost rfl (by decide +kernel)
      (Pieces.all_one _) .eof zeroBuffer).mp hreceived).1
    exact absurd ((framed_rooted_iff rfl rfl).mp hframed) (by decide)
  · exact (recv_dump (E := compiledEnv) (r := false) rfl hfound rfl (by decide +kernel)
      (Pieces.all_one _) .eof zeroBuffer).mpr
        ⟨framed_of_found castDecimal_lexicalCast (by decide) (by decide +kernel)
          (by decide +kernel), by decide, by decide +kernel, by decide +kernel⟩

end HttpRequest

end Muqiu.Http
