import Muqiu.Http.Decimal
import Muqiu.Http.Response

/-!
# Responses one after another

On a connection that is kept, a client finds the end of a response by its content-length.
`HttpResponse::dump` writes that field only for a body that is not empty, and does not leave out
an entry of the headers with the same name as it does for `connection`.  A response is `Framed`
when its text has one content-length, which is right, one connection field and its body behind
the empty line.  A client can split a sequence of such responses.
-/

namespace Muqiu

open OrderedMap (Ops)
open Delimited (ended head pieces)

namespace Http

/-! ## Fields -/

/-- The blanks that a client trims off a value. -/
def isBlank (b : UInt8) : Bool := b = 32 || b = 9

/-- The text without blanks at its ends. -/
def strip (s : Bytes) : Bytes := ((s.dropWhile isBlank).reverse.dropWhile isBlank).reverse

/-- The name, without its case, and the value of a line. -/
def field (line : Bytes) : Option (Bytes × Bytes) :=
  (Delimited.cut [58] line).map fun p => (foldCase p.1, strip p.2)

/-- The values under one name. -/
def fieldValues (name : Bytes) (ls : List Bytes) : List Bytes :=
  ((ls.filterMap field).filter fun p => p.1 = name).map Prod.snd

theorem fieldValues_append (name : Bytes) (ls ms : List Bytes) :
    fieldValues name (ls ++ ms) = fieldValues name ls ++ fieldValues name ms := by
  rw [fieldValues, List.filterMap_append, List.filter_append, List.map_append]
  rfl

/-- The lines give one length, which is that number. -/
def Counts (ls : List Bytes) (n : Nat) : Prop :=
  ∃ v, fieldValues (bytes "content-length") ls = [v] ∧ isDecimal v = true ∧ decimalValue v = n

variable {μ : Type} (M : Ops Bytes Bytes μ)

namespace FullResponse

/-- One right content-length, one connection field, and the body behind the empty line. -/
def Framed (rsp : FullResponse μ) : Prop :=
  ∃ ls, head CRLF (rsp.dump M) = some (ls, rsp.m_body) ∧ Counts ls.tail rsp.m_body.length ∧
    (fieldValues (bytes "connection") ls.tail).length = 1

/-- The lines behind the first one that the reason, the headers and the cookies make. -/
def callerLines (rsp : FullResponse μ) : List Bytes :=
  (pieces CRLF rsp.statusLine).tail ++ (rsp.headerLines M ++ rsp.cookieLines).flatMap (pieces CRLF)

/-- What the caller has to see to: no empty line, no second connection field, and a
content-length, namely zero, exactly when there is no body. -/
structure KeepsFraming (rsp : FullResponse μ) : Prop where
  no_blank : ∀ l ∈ rsp.callerLines M, l ≠ []
  no_connection : fieldValues (bytes "connection") (rsp.callerLines M) = []
  length : if rsp.m_body.isEmpty then Counts (rsp.callerLines M) 0
    else fieldValues (bytes "content-length") (rsp.callerLines M) = []

/-- When nothing that was given to the response has a line end, these are the lines of the
headers and the cookies. -/
theorem callerLines_of_oneLine {rsp : FullResponse μ} (h : ∀ l ∈ rsp.lines M, OneLine l) :
    rsp.callerLines M = rsp.headerLines M ++ rsp.cookieLines := by
  rw [lines, List.forall_mem_cons, List.forall_mem_append] at h
  obtain ⟨hstatus, hlines, -⟩ := h
  have hpieces : ∀ l ∈ rsp.headerLines M ++ rsp.cookieLines, pieces CRLF l = [l] :=
    fun l hl => Delimited.pieces_of_clean crlf_ne_nil (hlines l hl)
  rw [callerLines, Delimited.pieces_of_clean crlf_ne_nil hstatus, List.flatMap_congr hpieces,
    List.flatMap_singleton', List.tail_cons, List.nil_append]

/-! ## The lines of the text -/

/-- All lines, as a client finds them. -/
def written (rsp : FullResponse μ) : List Bytes := (rsp.lines M).flatMap (pieces CRLF)

/-- A client finds the body behind the empty line exactly when no line before is empty. -/
theorem head_dump_iff (rsp : FullResponse μ) {ls : List Bytes} :
    head CRLF (rsp.dump M) = some (ls, rsp.m_body) ↔
      ls = rsp.written M ∧ ∀ l ∈ rsp.written M, l ≠ [] := by
  have hclean : ∀ l ∈ rsp.written M, ¬ CRLF <:+: l := by
    intro l hl
    obtain ⟨t, -, ht⟩ := List.mem_flatMap.mp hl
    exact Delimited.clean_of_mem_pieces crlf_ne_nil ht
  have htext : rsp.dump M = ended CRLF (rsp.written M) ++ (CRLF ++ rsp.m_body) := by
    rw [dump_eq, written, Delimited.ended_flatMap_pieces crlf_ne_nil]
  rw [Delimited.head_eq_some_iff crlf_ne_nil crlf_unbordered, htext]
  constructor
  · rintro ⟨heq, hls⟩
    have hended := List.append_cancel_right heq
    have hsame := Delimited.ended_inj crlf_ne_nil crlf_unbordered hclean
      (fun l hl => (hls l hl).2) hended
    exact ⟨hsame.symm, fun l hl => (hls l (hsame ▸ hl)).1⟩
  · rintro ⟨rfl, hne⟩
    exact ⟨rfl, fun l hl => ⟨hne l hl, hclean l hl⟩⟩

theorem statusLine_eq_cons (rsp : FullResponse μ) : ∃ rest, rsp.statusLine = 72 :: rest :=
  ⟨_, rfl⟩

/-- The first line starts the status line, and the lines of `dump` itself are the last ones. -/
theorem written_eq (rsp : FullResponse μ) :
    ∃ first, first ≠ [] ∧ rsp.written M = first :: (rsp.callerLines M ++ rsp.ownLines) := by
  have hown : rsp.ownLines.flatMap (pieces CRLF) = rsp.ownLines := by
    have hpieces : ∀ l ∈ rsp.ownLines, pieces CRLF l = [l] := fun l hl =>
      Delimited.pieces_of_clean crlf_ne_nil (rsp.ownLines_oneLine l hl)
    rw [List.flatMap_congr hpieces, List.flatMap_singleton']
  rw [written, lines, List.flatMap_cons, List.flatMap_append, hown, callerLines]
  cases hpieces : pieces CRLF rsp.statusLine with
  | nil => exact absurd hpieces (Delimited.pieces_ne_nil CRLF _)
  | cons first rest =>
      refine ⟨first, ?_, by rw [List.tail_cons, List.cons_append, List.append_assoc]⟩
      rintro rfl
      obtain ⟨text, htext⟩ := rsp.statusLine_eq_cons
      have hended := Delimited.ended_pieces crlf_ne_nil rsp.statusLine
      rw [hpieces, Delimited.ended_cons, htext] at hended
      cases hended

/-! ## The fields of the lines -/

theorem strip_of_no_blank {s : Bytes} (h : ∀ b ∈ s, isBlank b = false) : strip s = s := by
  have hdrop : ∀ {t : Bytes}, (∀ b ∈ t, isBlank b = false) → t.dropWhile isBlank = t := by
    intro t ht
    cases t with
    | nil => rfl
    | cons b t => rw [List.dropWhile_cons, ht b List.mem_cons_self, if_neg Bool.false_ne_true]
  rw [strip, hdrop h, hdrop fun b hb => h b (List.mem_reverse.mp hb), List.reverse_reverse]

theorem decimal_spec (n : Nat) :
    isDecimal (decimal n) = true ∧ decimalValue (decimal n) = n ∧
      strip (32 :: decimal n) = decimal n := by
  obtain ⟨b, t, hcons, hdigits⟩ := Json.natDigits_eq_cons n
  refine ⟨?_, Json.digitsValue_natDigits n, ?_⟩
  · rw [isDecimal, Bool.and_eq_true, List.all_eq_true]
    refine ⟨by rw [decimal, hcons]; rfl, fun c hc => ?_⟩
    rw [isDigit, Bool.and_eq_true]
    exact ⟨decide_eq_true (hdigits c hc).1, decide_eq_true (hdigits c hc).2⟩
  · have hblank : strip (32 :: decimal n) = strip (decimal n) := by
      rw [strip, List.dropWhile_cons, if_pos (by decide), strip]
    refine hblank.trans (strip_of_no_blank fun c hc => ?_)
    · have hlow := (hdigits c hc).1
      rw [isBlank, Bool.or_eq_false_iff]
      refine ⟨decide_eq_false ?_, decide_eq_false ?_⟩
      · rintro rfl
        exact absurd hlow (by decide)
      · rintro rfl
        exact absurd hlow (by decide)

theorem field_lengthLine (rsp : FullResponse μ) :
    field rsp.lengthLine = some (bytes "content-length", decimal rsp.m_body.length) := by
  have hname : bytes "content-length: " = bytes "content-length" ++ [58, 32] := by decide
  have hcut := Delimited.cut_cons (x := 58) (32 :: decimal rsp.m_body.length)
    (by decide : 58 ∉ bytes "content-length")
  rw [lengthLine, hname, List.append_assoc, List.cons_append, List.singleton_append, field, hcut]
  have hfold : foldCase (bytes "content-length") = bytes "content-length" := by decide
  exact congrArg some (Prod.ext hfold (decimal_spec _).2.2)

theorem field_connectionLine (rsp : FullResponse μ) :
    field rsp.connectionLine = some (bytes "connection",
      if rsp.m_close then bytes "close" else bytes "keep-alive") := by
  rw [connectionLine]
  cases rsp.m_close with
  | true => decide
  | false => decide

theorem fieldValues_cons {name l : Bytes} {p : Bytes × Bytes} (h : field l = some p)
    (ls : List Bytes) :
    fieldValues name (l :: ls) = (if p.1 = name then [p.2] else []) ++ fieldValues name ls := by
  rw [fieldValues, List.filterMap_cons_some h, List.filter_cons]
  by_cases hname : p.1 = name
  · rw [if_pos (decide_eq_true hname), if_pos hname]
    rfl
  · rw [if_neg (by rw [decide_eq_false hname]; exact Bool.false_ne_true), if_neg hname]
    rfl

/-- The fields that `dump` adds. -/
theorem fieldValues_ownLines {rsp : FullResponse μ} (h : rsp.m_websocket = false) :
    (fieldValues (bytes "connection") rsp.ownLines).length = 1 ∧
      fieldValues (bytes "content-length") rsp.ownLines =
        if rsp.m_body.isEmpty then [] else [decimal rsp.m_body.length] := by
  have hnames : bytes "connection" ≠ bytes "content-length" := by decide
  rw [ownLines, h, if_neg Bool.false_ne_true, List.singleton_append,
    fieldValues_cons rsp.field_connectionLine, fieldValues_cons rsp.field_connectionLine,
    if_pos rfl, if_neg hnames]
  cases rsp.m_body.isEmpty with
  | true => exact ⟨rfl, rfl⟩
  | false =>
      rw [if_neg Bool.false_ne_true, fieldValues_cons rsp.field_lengthLine,
        fieldValues_cons rsp.field_lengthLine, if_neg hnames.symm, if_pos rfl]
      exact ⟨rfl, rfl⟩

/-- Behind other lines the ones of `dump` count the body when those have no length, or when
there is no body and those say so. -/
theorem counts_append_ownLines {rsp : FullResponse μ} (h : rsp.m_websocket = false)
    (ls : List Bytes) :
    Counts (ls ++ rsp.ownLines) rsp.m_body.length ↔
      if rsp.m_body.isEmpty then Counts ls 0
        else fieldValues (bytes "content-length") ls = [] := by
  rw [Counts, fieldValues_append, (fieldValues_ownLines h).2]
  cases hbody : rsp.m_body with
  | nil =>
      simp only [List.isEmpty_nil, if_true, List.append_nil]
      exact Iff.rfl
  | cons b body =>
      obtain ⟨hdecimal, hvalue, -⟩ := decimal_spec (b :: body).length
      simp only [List.isEmpty_cons, Bool.false_eq_true, if_false]
      constructor
      · rintro ⟨v, hv, -, -⟩
        rcases List.append_eq_singleton_iff.mp hv with ⟨hnone, -⟩ | ⟨-, hnone⟩
        · exact hnone
        · cases hnone
      · intro hnone
        exact ⟨_, by rw [hnone, List.nil_append], hdecimal, hvalue⟩

/-- A response that is no websocket answer is framed exactly when its caller keeps the framing. -/
theorem framed_iff {rsp : FullResponse μ} (h : rsp.m_websocket = false) :
    rsp.Framed M ↔ rsp.KeepsFraming M := by
  obtain ⟨first, hfirst, hwritten⟩ := rsp.written_eq M
  have htail : (rsp.written M).tail = rsp.callerLines M ++ rsp.ownLines := by
    rw [hwritten, List.tail_cons]
  have hconnection := (fieldValues_ownLines h).1
  have hblank : (∀ l ∈ rsp.written M, l ≠ []) ↔ ∀ l ∈ rsp.callerLines M, l ≠ [] := by
    rw [hwritten, List.forall_mem_cons, List.forall_mem_append, and_iff_right hfirst,
      and_iff_left rsp.ownLines_ne_nil]
  have hone : (fieldValues (bytes "connection") (rsp.written M).tail).length = 1 ↔
      fieldValues (bytes "connection") (rsp.callerLines M) = [] := by
    rw [htail, fieldValues_append, List.length_append, hconnection, ← List.length_eq_zero_iff]
    omega
  have hcounts := counts_append_ownLines h (rsp.callerLines M)
  rw [← htail] at hcounts
  constructor
  · rintro ⟨ls, hhead, hcount, hlen⟩
    obtain ⟨rfl, hne⟩ := (rsp.head_dump_iff M).mp hhead
    exact ⟨hblank.mp hne, hone.mp hlen, hcounts.mp hcount⟩
  · intro hkeeps
    exact ⟨_, (rsp.head_dump_iff M).mpr ⟨rfl, hblank.mpr hkeeps.no_blank⟩,
      hcounts.mpr hkeeps.length, hone.mpr hkeeps.no_connection⟩

end FullResponse

/-! ## The client -/

/-- The body of the first response in a text, and the text behind it. -/
def readResponse (text : Bytes) : Option (Bytes × Bytes) :=
  match head CRLF text with
  | none => none
  | some (ls, rest) =>
      match fieldValues (bytes "content-length") ls.tail with
      | [v] =>
          if isDecimal v = true ∧ decimalValue v ≤ rest.length then
            some (rest.splitAt (decimalValue v))
          else none
      | _ => none

/-- The bodies of so many responses, and the text behind them. -/
def readBodies : Nat → Bytes → Option (List Bytes × Bytes)
  | 0, text => some ([], text)
  | n + 1, text =>
      (readResponse text).bind fun first =>
        (readBodies n first.2).map fun others => (first.1 :: others.1, others.2)

namespace FullResponse

variable {M}

/-- A framed response is read up to its end, whatever follows it. -/
theorem Framed.readResponse {rsp : FullResponse μ} (h : rsp.Framed M) (more : Bytes) :
    readResponse (rsp.dump M ++ more) = some (rsp.m_body, more) := by
  obtain ⟨ls, hhead, ⟨v, hv, hdecimal, hvalue⟩, -⟩ := h
  obtain ⟨htext, hls⟩ := (Delimited.head_eq_some_iff crlf_ne_nil crlf_unbordered).mp hhead
  have hmore : head CRLF (rsp.dump M ++ more) = some (ls, rsp.m_body ++ more) := by
    rw [Delimited.head_eq_some_iff crlf_ne_nil crlf_unbordered, htext]
    exact ⟨by simp only [List.append_assoc], hls⟩
  rw [Http.readResponse, hmore]
  simp only [hv]
  rw [if_pos ⟨hdecimal, by rw [hvalue, List.length_append]; omega⟩, hvalue, List.splitAt_eq,
    List.take_left, List.drop_left]

/-- A client splits a sequence of framed responses. -/
theorem readBodies_of_framed (more : Bytes) : ∀ {rsps : List (FullResponse μ)},
    (∀ rsp ∈ rsps, rsp.Framed M) →
      readBodies rsps.length ((rsps.flatMap fun rsp => rsp.dump M) ++ more) =
        some (rsps.map fun rsp => rsp.m_body, more) := by
  intro rsps
  induction rsps with
  | nil => exact fun _ => rfl
  | cons rsp rsps ih =>
      intro h
      obtain ⟨hfirst, hrest⟩ := List.forall_mem_cons.mp h
      rw [List.length_cons, readBodies, List.flatMap_cons, List.append_assoc, hfirst.readResponse,
        Option.bind_some, ih hrest]
      rfl

/-! ## Two responses -/

/-- The answer of `test_response`. -/
def badRequest : FullResponse (List (Bytes × Bytes)) :=
  let headers := OrderedMap.assoc Bytes Bytes CaseInsensitiveLess
  { (new headers 0x11 true).setHeader headers (bytes "X-X") (bytes "sylar") with
    m_body := bytes "hello sylar"
    m_status := 400
    m_close := false }

theorem badRequest_framed :
    badRequest.Framed (OrderedMap.assoc Bytes Bytes CaseInsensitiveLess) :=
  (framed_iff _ rfl).mpr ⟨by decide, by decide,
    (by decide : fieldValues (bytes "content-length")
      (badRequest.callerLines (OrderedMap.assoc Bytes Bytes CaseInsensitiveLess)) = [])⟩

/-- An answer without a body. -/
def noContent : FullResponse (List (Bytes × Bytes)) :=
  { new (OrderedMap.assoc Bytes Bytes CaseInsensitiveLess) 0x11 false with m_status := 204 }

theorem noContent_not_framed : noContent.m_close = false ∧ noContent.m_websocket = false ∧
    ¬ noContent.Framed (OrderedMap.assoc Bytes Bytes CaseInsensitiveLess) := by
  refine ⟨rfl, rfl, ?_⟩
  rintro ⟨ls, hhead, ⟨v, hv, -⟩, -⟩
  obtain ⟨rfl, -⟩ := (head_dump_iff _ _).mp hhead
  have hnone : fieldValues (bytes "content-length")
      (noContent.written (OrderedMap.assoc Bytes Bytes CaseInsensitiveLess)).tail = [] := by decide
  rw [hnone] at hv
  cases hv

end FullResponse

end Http

end Muqiu
