import Muqiu.Http.Segmentation

/-!
# Keep-alive connections

Requests that are written back to back on one connection should all be served, in order and
without a byte lost: `Lossless`.

Every call of `recvRequest` reads into a buffer of its own, up to 4096 bytes of what has
arrived.  What it has read beyond its request is freed with the buffer, and the next call
does not see it.  `lossless_iff` says that the connection is lossless exactly when no read
that brings a header block goes beyond its request, and every body can be completed.
-/

namespace Muqiu.Http

variable {μ : Type} {E : Env μ}

/-- A request that asks to keep the connection. -/
structure KeepAliveRequest (E : Env μ) extends ValidRequest E where
  keepAlive : toValidRequest.value.m_close = false

namespace KeepAliveRequest

/-- The bytes of requests back to back. -/
def texts (rs : List (KeepAliveRequest E)) : Bytes := (rs.map fun r => r.text).flatten

/-- What they describe. -/
def values (rs : List (KeepAliveRequest E)) : List (HttpRequest μ) := rs.map fun r => r.value

end KeepAliveRequest

open KeepAliveRequest (texts values)

/-- Every header block arrives in one piece, which may hold other bytes too. -/
def HeadersWhole : List (KeepAliveRequest E) → Pieces UInt8 → Prop
  | [], _ => True
  | r :: rs, pieces =>
      r.header.length ≤ pieces.front.length ∧ HeadersWhole rs (pieces.skip r.text.length)

/-- Every read that brings a header block ends within its request, and the rest of the body is
none or positive as an `int`. -/
def ReadsWithin : List (KeepAliveRequest E) → Pieces UInt8 → Prop
  | [], _ => True
  | r :: rs, pieces =>
      (min http_request_buffer_size pieces.front.length ≤ r.text.length ∧
        Counted (r.text.length - min http_request_buffer_size pieces.front.length)) ∧
      ReadsWithin rs (pieces.skip r.text.length)

/-- Exactly the requests are served, and no byte is lost. -/
structure Lossless (rs : List (KeepAliveRequest E)) (served : Served μ) : Prop where
  requests : served.requests = values rs
  unread : served.unread = []

/-! ## One call of the server -/

section

variable {pieces : Pieces UInt8} {ending : Ending} {rounds : Nat} {buffers : Nat → Buffer}

/-- Nothing is served of an empty connection. -/
theorem lossless_nil (hall : pieces.all = []) :
    Lossless (E := E) [] (handleLoop E true (rounds + 1) buffers (arriving pieces ending)) := by
  have hs : (Filling.start E (buffers 0) (arriving pieces ending)).Ok := Filling.start_ok _ rfl
  have hp : (Filling.start E (buffers 0) (arriving pieces ending)).conn.pending = [] := hall
  have hloop : recvLoop E (buffers 0) (arriving pieces ending) =
      .returned .null (arriving pieces ending).close [] := by
    rw [recvLoop, recvHeader, recvRound_no_pending hs hp]
    rfl
  have hnull : recvRequest E (buffers 0) (arriving pieces ending) =
      ⟨.null, (arriving pieces ending).close, [], [], none⟩ := by
    rw [recvRequest, hloop]
  rw [handleLoop_last rounds (by rw [hnull]; exact fun req h => by cases h), hnull]
  exact ⟨rfl, rfl⟩

variable {r : KeepAliveRequest E} {rs : List (KeepAliveRequest E)}
  (hall : pieces.all = r.text ++ texts rs) (hheader : r.header.length ≤ pieces.front.length)
include hall hheader

omit hall in
theorem header_first :
    r.header.length ≤ ValidRequest.firstRead (arriving pieces ending) := by
  have hshort := r.block.short
  rw [firstRead_arriving]
  exact Nat.le_min.mpr ⟨Nat.le_of_lt hshort, hheader⟩

/-- A request whose read ends within it: the connection goes on behind it. -/
theorem lossless_cons_iff
    (hwithin : min http_request_buffer_size pieces.front.length ≤ r.text.length)
    (hcount : Counted (r.text.length - min http_request_buffer_size pieces.front.length)) :
    Lossless (r :: rs) (handleLoop E true (rounds + 1) buffers (arriving pieces ending)) ↔
      Lossless rs (handleLoop E true rounds (fun i => buffers (i + 1))
        (arriving (pieces.skip r.text.length) ending)) := by
  have hstart : r.text <+: (arriving pieces ending).pending := ⟨texts rs, hall.symm⟩
  rw [← firstRead_arriving pieces ending] at hwithin hcount
  obtain ⟨hreq, hconn, hunread⟩ := ValidRequest.recv_within rfl hstart
    (header_first hheader) hwithin hcount (buffers 0)
  have hkeep : (!true || r.value.m_close) = false := by rw [r.keepAlive]; rfl
  rw [handleLoop_request rounds hreq hkeep, hconn, hunread]
  constructor
  · rintro ⟨hrequests, hrest⟩
    exact ⟨(List.cons.inj hrequests).2, hrest⟩
  · rintro ⟨hrequests, hrest⟩
    exact ⟨congrArg (r.value :: ·) hrequests, hrest⟩

/-- A read that goes beyond its request loses bytes. -/
theorem not_lossless_of_beyond
    (hlt : r.text.length < min http_request_buffer_size pieces.front.length) :
    ¬Lossless (r :: rs) (handleLoop E true (rounds + 1) buffers (arriving pieces ending)) := by
  have hstart : r.text <+: (arriving pieces ending).pending := ⟨texts rs, hall.symm⟩
  have hlt' := hlt
  rw [← firstRead_arriving pieces ending] at hlt'
  obtain ⟨hreq, -, hunread⟩ := ValidRequest.recvBody_whole rfl hstart
    (header_first hheader) (Nat.le_of_lt hlt') (buffers 0)
  have hkeep : (!true || r.value.m_close) = false := by rw [r.keepAlive]; rfl
  rw [handleLoop_request rounds hreq hkeep]
  rintro ⟨-, hrest⟩
  have hnil := (List.append_eq_nil_iff.mp hrest).1
  rw [hunread, List.drop_eq_nil_iff, List.length_take] at hnil
  have hle : ValidRequest.firstRead (arriving pieces ending) ≤
      (arriving pieces ending).pending.length := Conn.taken_le_pending _ _
  omega

/-- A request whose body cannot be completed is not served. -/
theorem not_lossless_of_uncounted
    (hcount : ¬Counted (r.text.length - min http_request_buffer_size pieces.front.length)) :
    ¬Lossless (r :: rs) (handleLoop E true (rounds + 1) buffers (arriving pieces ending)) := by
  have hstart : r.text <+: (arriving pieces ending).pending := ⟨texts rs, hall.symm⟩
  rw [← firstRead_arriving pieces ending] at hcount
  have hnull := ValidRequest.recv_uncounted rfl hstart (header_first hheader) hcount (buffers 0)
  rw [handleLoop_last rounds (by rw [hnull]; exact fun req h => by cases h), hnull]
  rintro ⟨hrequests, -⟩
  cases hrequests

end

/-! ## The connection -/

theorem lossless_handleLoop_iff (rs : List (KeepAliveRequest E)) {pieces : Pieces UInt8}
    (hall : pieces.all = texts rs) (hheaders : HeadersWhole rs pieces) {ending : Ending}
    {rounds : Nat} {buffers : Nat → Buffer} (hrounds : pieces.all.length < rounds) :
    Lossless rs (handleLoop E true rounds buffers (arriving pieces ending)) ↔
      ReadsWithin rs pieces := by
  induction rs generalizing pieces rounds buffers with
  | nil =>
      obtain ⟨rounds, rfl⟩ := Nat.exists_eq_add_one_of_ne_zero (Nat.ne_zero_of_lt hrounds)
      exact iff_of_true (lossless_nil hall) trivial
  | cons r rs ih =>
      obtain ⟨rounds, rfl⟩ := Nat.exists_eq_add_one_of_ne_zero (Nat.ne_zero_of_lt hrounds)
      obtain ⟨hheader, hheaders⟩ := hheaders
      have hcons : pieces.all = r.text ++ texts rs := hall
      rw [ReadsWithin]
      by_cases hwithin : min http_request_buffer_size pieces.front.length ≤ r.text.length
      · by_cases hcount : Counted (r.text.length - min http_request_buffer_size pieces.front.length)
        · have hskip : (pieces.skip r.text.length).all = texts rs := by
            rw [Pieces.all_skip, hcons, List.drop_left]
          have hpos : 0 < r.text.length := by
            rw [r.length_text]
            have := r.block.length_ne_zero
            omega
          have hlt : (pieces.skip r.text.length).all.length < rounds := by
            rw [hcons, List.length_append] at hrounds
            rw [hskip]
            omega
          rw [lossless_cons_iff hcons hheader hwithin hcount, ih hskip hheaders hlt]
          exact (and_iff_right ⟨hwithin, hcount⟩).symm
        · exact iff_of_false (not_lossless_of_uncounted hcons hheader hcount)
            fun h => hcount h.1.2
      · exact iff_of_false (not_lossless_of_beyond hcons hheader (Nat.lt_of_not_le hwithin))
          fun h => hwithin h.1.1

/-- Of requests whose header blocks each arrive in one piece, the connection is lossless
exactly when every read that brings a header block ends within its request, and every body
can be completed. -/
theorem lossless_iff (rs : List (KeepAliveRequest E)) {pieces : Pieces UInt8}
    (hall : pieces.all = texts rs) (hheaders : HeadersWhole rs pieces) (ending : Ending)
    (buffers : Nat → Buffer) :
    Lossless rs (handleClient E true buffers (arriving pieces ending)) ↔ ReadsWithin rs pieces :=
  lossless_handleLoop_iff rs hall hheaders (Nat.lt_succ_self _)

/-- A request without a body that keeps the connection. -/
def keepAliveGet : KeepAliveRequest plainEnv where
  header := plainHeader "connection: keep-alive\r\n"
  body := []
  parser := parserBehind plainEnv (plainHeader "connection: keep-alive\r\n")
  block := ⟨by decide, by decide +kernel, by decide +kernel, by decide +kernel⟩
  length := by decide +kernel
  memory := no_body_fits
  keepAlive := by decide +kernel

/-- Two of them, one a piece. -/
def oneByOne : Pieces UInt8 := ⟨[keepAliveGet.text, keepAliveGet.text], by decide⟩

theorem lossless_oneByOne :
    Lossless [keepAliveGet, keepAliveGet]
      (handleClient plainEnv true (fun _ => zeroBuffer) (arriving oneByOne .eof)) :=
  (lossless_iff [keepAliveGet, keepAliveGet]
    (show oneByOne.all = texts [keepAliveGet, keepAliveGet] by decide)
    ⟨by decide, by decide, trivial⟩ .eof fun _ => zeroBuffer).mpr
    ⟨⟨by decide, by decide⟩, ⟨by decide, by decide⟩, trivial⟩

/-- Two of them in one piece: the second is read with the first and lost. -/
theorem not_lossless_together :
    HeadersWhole [keepAliveGet, keepAliveGet] (.one (texts [keepAliveGet, keepAliveGet])) ∧
      ¬Lossless [keepAliveGet, keepAliveGet] (handleClient plainEnv true (fun _ => zeroBuffer)
        (arriving (.one (texts [keepAliveGet, keepAliveGet])) .eof)) :=
  ⟨⟨by decide, by decide, trivial⟩,
    not_lossless_of_beyond (Pieces.all_one _) (by decide) (by decide)⟩

end Muqiu.Http
