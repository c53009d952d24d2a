import Muqiu.Http.Request

/-!
# The length of a body

The length of a body goes from a header text through `lexical_cast` and an `int64_t`.
`readLength` is the number it comes out as: a text that is no number of 64 bits counts as an
absent header, which is the default that `getAs` falls back on, and a negative number as no
body.  `recvRequest_body_length` says that a request has a body of that length as long as it
is within the maximum.

`Disciplined` is stricter: it wants every text refused that is no plain decimal within the
maximum.  `disciplined_iff` says that it holds of those texts only, as nothing is refused.
-/

namespace Muqiu.Http

variable {μ : Type} {E : Env μ}

/-- The text of the `content-length` header. -/
def contentLengthText (E : Env μ) (req : HttpRequest μ) : Option Bytes :=
  E.map.find (bytes "content-length") req.m_headers

/-- The length that a header text is read as.  A number that wraps to a positive `int64_t` is
left open. -/
def readLength : Option Bytes → Option Nat
  | none => some 0
  | some text =>
      if isUint64 text then
        if isNegative text then
          if decimalValue (unsigned text) ≤ 9223372036854775808 then some 0 else none
        else some (decimalValue (unsigned text))
      else some 0

theorem getContentLength_eq (req : HttpRequest μ) :
    getContentLength E req =
      match contentLengthText E req with
      | none => 0
      | some text => (E.lexical_cast text).getD 0 := by
  rw [getContentLength, getHeaderAs, contentLengthText]
  cases E.map.find (bytes "content-length") req.m_headers with
  | none => rfl
  | some text =>
      cases hcast : E.lexical_cast text with
      | none => simp only [hcast, Option.getD_none]
      | some v => simp only [hcast, Option.getD_some]

theorem toInt64_zero : toInt64 0 = 0 := by decide

/-- A length within the maximum is the one `recvRequest` goes by. -/
theorem bodyLength_of_read (hcast : LexicalCast E.lexical_cast) {req : HttpRequest μ} {n : Nat}
    (h : readLength (contentLengthText E req) = some n) (hn : n ≤ http_request_max_body_size) :
    (bodyLength E req).toNat = n := by
  have hmax : http_request_max_body_size < 9223372036854775808 := by decide
  rw [bodyLength, getContentLength_eq]
  cases htext : contentLengthText E req with
  | none =>
      rw [htext] at h
      cases h
      rfl
  | some text =>
      rw [htext, readLength] at h
      simp only
      by_cases hnum : isUint64 text = true
      · rw [if_pos hnum] at h
        by_cases hneg : isNegative text = true
        · rw [if_pos hneg] at h
          by_cases hle : decimalValue (unsigned text) ≤ 9223372036854775808
          · rw [if_pos hle] at h
            cases h
            rw [hcast.negative text hnum hneg, Option.getD_some]
            exact Int.toNat_of_nonpos (toInt64_sub_le hle)
          · rw [if_neg hle] at h
            cases h
        · rw [if_neg hneg] at h
          cases h
          rw [hcast.number text hnum (Bool.eq_false_of_not_eq_true hneg), Option.getD_some,
            toInt64_ofNat (by omega), Int.toNat_natCast]
      · rw [if_neg hnum] at h
        cases h
        rw [hcast.fails text (Bool.eq_false_of_not_eq_true hnum), Option.getD_none, toInt64_zero]
        rfl

/-- Behind a header block whose length is read as one within the maximum, a request that is
received has a body of that length; one of length 0 is received at once, without a body
allocated and with the connection open. -/
theorem recvRequest_body_length (hcast : LexicalCast E.lexical_cast) {buffer : Buffer}
    {conn : Conn} {s : Filling μ} (hparsed : recvLoop E buffer conn = .parsed s) {n : Nat}
    (hread : readLength (contentLengthText E s.parser.m_data) = some n)
    (hn : n ≤ http_request_max_body_size) :
    (∀ req, (recvRequest E buffer conn).outcome = .request req →
      req.m_body.length = n ∧ req.m_body.length ≤ http_request_max_body_size) ∧
    (n = 0 →
      (recvRequest E buffer conn).outcome = .request (s.parser.m_data.init E.map) ∧
      (recvRequest E buffer conn).allocated = none ∧
      (recvRequest E buffer conn).conn = s.conn ∧ s.conn.closed = false) ∧
    (0 < n → (recvRequest E buffer conn).allocated = some n) := by
  obtain ⟨-, hs, -⟩ := recvLoop_parsed hparsed
  have hlength := bodyLength_of_read hcast hread hn
  rw [recvRequest_parsed hparsed]
  refine ⟨fun req hreq => ?_, fun hzero => ?_, fun hpos => ?_⟩
  · obtain ⟨-, hbody, -, -⟩ := recvBody_request hs hreq
    rw [hbody, hlength]
    exact ⟨rfl, hn⟩
  · rcases recvBody_cases (E := E) hs with ⟨-, heq⟩ | ⟨size, hsize, hpos, -⟩
    · rw [heq]
      exact ⟨rfl, rfl, rfl, hs.isOpen⟩
    · omega
  · rcases recvBody_cases (E := E) hs with ⟨hneg, -⟩ | ⟨size, hsize, -, hallocated, -⟩
    · omega
    · rw [hallocated]
      congr 1
      omega

/-- A connection that brings one request in one piece. -/
def bringing (r : ValidRequest E) : Conn := ⟨.one r.text, .eof, false⟩

/-- Its header block is parsed in the first read. -/
theorem recvLoop_bringing (r : ValidRequest E) (buffer : Buffer) :
    ∃ s, recvLoop E buffer (bringing r) = .parsed s ∧ s.parser = r.parser := by
  have hpending : (bringing r).pending = r.text := Pieces.all_one r.text
  have hstart : r.header <+: (bringing r).pending := hpending ▸ List.prefix_append _ _
  have hfirst : r.header.length ≤ (bringing r).taken http_request_buffer_size := by
    rw [Conn.taken_eq (by decide), bringing, Pieces.front_one, r.length_text]
    exact Nat.le_min.mpr ⟨Nat.le_of_lt r.block.short, Nat.le_add_right _ _⟩
  obtain ⟨s, hloop, -, hparser, -⟩ := recvLoop_first r.block rfl hstart hfirst buffer
  exact ⟨s, hloop, hparser⟩

theorem recvRequest_body_length_three :
    ∃ req, (recvRequest plainEnv zeroBuffer (bringing plainRequest)).outcome = .request req ∧
      req.m_body.length = 3 := by
  obtain ⟨s, hloop, hparser⟩ := recvLoop_bringing plainRequest zeroBuffer
  have hread : readLength (contentLengthText plainEnv s.parser.m_data) = some 3 := by
    rw [hparser]
    decide +kernel
  have hreq : (recvRequest plainEnv zeroBuffer (bringing plainRequest)).outcome =
      .request plainRequest.value :=
    (ValidRequest.recv_within rfl (List.prefix_refl _) (by decide) (by decide) (by decide)
      zeroBuffer).1
  exact ⟨_, hreq,
    ((recvRequest_body_length castDecimal_lexicalCast hloop hread (by decide)).1 _ hreq).1⟩

/-! ## Refusal -/

/-- The length that a header text declares: a plain decimal, or none for 0. -/
def declaredLength : Option Bytes → Option Nat
  | none => some 0
  | some text => if isDecimal text then some (decimalValue text) else none

/-- A declared length within the maximum. -/
def Acceptable (text : Option Bytes) : Prop :=
  ∃ n, declaredLength text = some n ∧ n ≤ http_request_max_body_size

/-- Every request has a body of the declared length, and a length that is not acceptable is
refused without an allocation. -/
structure Disciplined (text : Option Bytes) (received : Received μ) : Prop where
  body : ∀ req, received.outcome = .request req →
    declaredLength text = some req.m_body.length ∧ req.m_body.length ≤ http_request_max_body_size
  refused : ¬Acceptable text →
    received.outcome = .null ∧ received.conn.closed = true ∧ received.allocated = none

theorem unsigned_of_isDecimal {text : Bytes} (h : isDecimal text = true) :
    unsigned text = text ∧ isNegative text = false := by
  cases text with
  | nil => exact ⟨rfl, rfl⟩
  | cons b text =>
      rw [isDecimal, Bool.and_eq_true, List.all_cons, Bool.and_eq_true] at h
      obtain ⟨-, hb, -⟩ := h
      rw [isDigit, Bool.and_eq_true, decide_eq_true_eq, decide_eq_true_eq] at hb
      have h43 : b ≠ 43 := fun heq => absurd (heq ▸ hb.1) (by decide)
      have h45 : b ≠ 45 := fun heq => absurd (heq ▸ hb.1) (by decide)
      refine ⟨?_, ?_⟩
      · rw [unsigned, if_neg (not_or.mpr ⟨h43, h45⟩)]
      · rw [isNegative, List.head?_cons, decide_eq_false_iff_not]
        exact fun heq => h45 (Option.some.inj heq)

/-- What is acceptable is read as it is declared. -/
theorem readLength_of_declared {text : Option Bytes} {n : Nat} (h : declaredLength text = some n)
    (hn : n ≤ http_request_max_body_size) : readLength text = some n := by
  cases text with
  | none => exact h
  | some text =>
      rw [declaredLength] at h
      by_cases hdec : isDecimal text = true
      · rw [if_pos hdec] at h
        cases h
        obtain ⟨hunsigned, hneg⟩ := unsigned_of_isDecimal hdec
        have hmax : http_request_max_body_size < uint64_range := by decide
        have hnum : isUint64 text = true := by
          rw [isUint64, hunsigned, hdec, Bool.true_and, decide_eq_true_eq]
          omega
        rw [readLength, if_pos hnum, hneg, if_neg Bool.false_ne_true, hunsigned]
      · rw [if_neg hdec] at h
        cases h

/-- The bodies are disciplined exactly behind a header block whose length is acceptable. -/
theorem disciplined_iff (hcast : LexicalCast E.lexical_cast) {buffer : Buffer} {conn : Conn}
    {s : Filling μ} (hparsed : recvLoop E buffer conn = .parsed s) :
    Disciplined (contentLengthText E s.parser.m_data) (recvRequest E buffer conn) ↔
      Acceptable (contentLengthText E s.parser.m_data) := by
  obtain ⟨-, hs, -⟩ := recvLoop_parsed hparsed
  rw [recvRequest_parsed hparsed]
  constructor
  · rintro ⟨-, hrefused⟩
    by_contra hbad
    obtain ⟨hnull, -, hnone⟩ := hrefused hbad
    rcases recvBody_cases (E := E) hs with ⟨-, heq⟩ | ⟨size, -, -, hallocated, -⟩
    · rw [heq] at hnull
      cases hnull
    · rw [hallocated] at hnone
      cases hnone
  · rintro ⟨n, hdeclared, hn⟩
    have hlength := bodyLength_of_read hcast (readLength_of_declared hdeclared hn) hn
    refine ⟨fun req hreq => ?_, fun hbad => absurd ⟨n, hdeclared, hn⟩ hbad⟩
    obtain ⟨-, hbody, -, -⟩ := recvBody_request hs hreq
    rw [hbody, hlength]
    exact ⟨hdeclared, hn⟩

/-- A request whose length is malformed. -/
def malformedLength : ValidRequest plainEnv where
  header := plainHeader "content-length: 3x\r\n"
  body := []
  parser := parserBehind plainEnv (plainHeader "content-length: 3x\r\n")
  block := ⟨by decide, by decide +kernel, by decide +kernel, by decide +kernel⟩
  length := by decide +kernel
  memory := no_body_fits

/-- It is received with an empty body. -/
theorem not_disciplined_malformedLength :
    ¬∀ s, recvLoop plainEnv zeroBuffer (bringing malformedLength) = .parsed s →
      Disciplined (contentLengthText plainEnv s.parser.m_data)
        (recvRequest plainEnv zeroBuffer (bringing malformedLength)) := by
  intro h
  obtain ⟨s, hloop, hparser⟩ := recvLoop_bringing malformedLength zeroBuffer
  obtain ⟨n, hn, -⟩ := (disciplined_iff castDecimal_lexicalCast hloop).mp (h s hloop)
  have hnone :
      declaredLength (contentLengthText plainEnv malformedLength.parser.m_data) = none := by
    decide +kernel
  rw [hparser, hnone] at hn
  cases hn

end Muqiu.Http
