import Muqiu.Wire.RequestTable
import Muqiu.Http.Methods

/-!
# The first call of the request parser returns

`http_parser_execute` keeps offsets into the buffer, hands parts of it to the callbacks, and asserts
behind the loop that the offsets are in bounds.  With the compiled table and a new parser no
assertion fails, no length wraps around, and no callback reads behind the buffer, but one.
`CharsToHttpMethod` is not given the length of the method, and behind the method `M` it goes on into
the buffer to compare with `M - SEARCH`.  `Cut` is when the buffer ends there.

What is known of the offsets in every state of the table is an analysis of it, `offsets`.  `Holds`
is what that means for a parser at a byte.
-/

namespace Muqiu.Http

open Transducer (Edge Analysis ByteClass)
open Window (window)

variable {μ : Type} {E : Env μ}

/-! ## The analysis -/

/-- What is known of the offsets at a byte. -/
structure Known where
  /-- It is the first byte. -/
  fresh : Bool
  /-- So many bytes are behind the mark. -/
  since : Option Nat
  /-- The mark is at the first byte, and all bytes behind it may be in a method. -/
  token : Bool
  /-- The query has started. -/
  query : Bool
  /-- The name of a header has ended. -/
  name : Bool
deriving DecidableEq, Repr

namespace Known

/-- Nothing is known. -/
def none : Known := ⟨false, .none, false, false, false⟩

/-- The upper-case letters and the digits. -/
def tokenChars : ByteClass := [(48, 57), (65, 90)]

theorem of_tokenChars {c : UInt8} (h : tokenChars.has c = true) :
    65 ≤ c ∧ c ≤ 90 ∨ 48 ≤ c ∧ c ≤ 57 := by
  simp only [tokenChars, ByteClass.has, List.any_cons, List.any_nil, Bool.or_false, Bool.or_eq_true,
    Bool.and_eq_true, decide_eq_true_eq] at h
  exact h.symm

/-- The states of the method, the query, the version and the value of a header. -/
def atState (cs : Nat) : Known :=
  if cs = 1 then { none with fresh := true }
  else if cs = 2 then { none with since := some 1, token := true }
  else if 175 ≤ cs ∧ cs ≤ 193 then { none with since := some (cs - 173), token := true }
  else if 5 ≤ cs ∧ cs ≤ 12 then { none with since := some (cs - 4) }
  else if 30 ≤ cs ∧ cs ≤ 32 then { none with query := true }
  else if cs = 15 ∨ cs = 16 then { none with name := true }
  else none

/-- An action, if what it needs is known. -/
def act (e : Edge Action) (k : Known) : Action → Option Known
  | .mark => some { k with since := some 0, token := k.fresh }
  | .start_value => some { k with since := some 0, token := k.fresh }
  | .start_field => some { k with name := false }
  | .write_field => some { k with name := true }
  | .start_query => some { k with query := true }
  | .query_string => if k.query then some k else .none
  | .write_value => if k.name then some k else .none
  | .http_version => if k.since = some 8 then some k else .none
  | .request_method =>
      if k.token && (e.lo = 32 && e.hi = 32) && k.since.any fun n => 1 ≤ n && n ≤ 20 then some k
      else .none
  | _ => some k

/-- A byte later, with the byte of the edge in the token. -/
def read (e : Edge Action) (k : Known) : Known :=
  { k with fresh := false, since := k.since.map (· + 1), token := k.token && e.within tokenChars }

/-- All that `k'` knows is known in `k`. -/
def atLeast (k k' : Known) : Bool :=
  (!k'.fresh || k.fresh) && (k'.since.isNone || k'.since = k.since) && (!k'.token || k.token) &&
    (!k'.query || k.query) && (!k'.name || k.name)

end Known

/-- What the table keeps of its offsets. -/
def offsets : Analysis Action Known where
  known := Known.atState
  act := Known.act
  read := Known.read
  atLeast := Known.atLeast

theorem offsets_pass : ∀ r, (http_parser_table r).checks offsets.passes = true := by
  decide +kernel

/-! ## What it means -/

/-- The buffer ends inside the text `M - SEARCH`, and the call reads the space behind the `M`. -/
def Cut (buffer : Bytes) (len : Nat) : Prop :=
  2 ≤ len ∧ buffer <+: bytes "M - SEARCH" ∧ buffer ≠ bytes "M - SEARCH"

instance (buffer : Bytes) (len : Nat) : Decidable (Cut buffer len) :=
  inferInstanceAs (Decidable (_ ∧ _))

/-- The offsets at the byte `p` of a call with `len` bytes, with what is known of them. -/
structure Holds (buffer : Bytes) (len p : Nat) (k : Known) (parser : HttpParser) : Prop where
  nread : parser.nread = 0
  body_start : parser.body_start ≤ len
  mark_le : parser.mark ≤ p
  mark_lt : parser.mark < len
  field_start_le : parser.field_start ≤ p
  field_start_lt : parser.field_start < len
  field_len_le : parser.field_len ≤ p
  fresh : k.fresh = true → p = 0
  since : ∀ n, k.since = some n → parser.mark + n = p
  token : k.token = true → parser.mark = 0 ∧ ∀ c ∈ buffer.take p, Known.tokenChars.has c = true
  query : k.query = true → parser.query_start ≤ p
  name : k.name = true → parser.field_start + parser.field_len ≤ p

namespace Holds

variable {buffer : Bytes} {len p : Nat} {k k' : Known} {parser : HttpParser}

theorem start (hpos : 0 < len) :
    Holds buffer len 0 (Known.atState http_parser_start) (HttpRequestParser.new E).mParser where
  nread := rfl
  body_start := Nat.zero_le len
  mark_le := Nat.le_refl 0
  mark_lt := hpos
  field_start_le := Nat.le_refl 0
  field_start_lt := hpos
  field_len_le := Nat.le_refl 0
  fresh := fun _ => rfl
  since := fun _ h => by cases h
  token := fun h => by cases h
  query := fun h => by cases h
  name := fun h => by cases h

/-- What is known holds of what knows less. -/
theorem weaken (h : Holds buffer len p k parser) (hk : k.atLeast k' = true) :
    Holds buffer len p k' parser := by
  simp only [Known.atLeast, Bool.and_eq_true, Bool.or_eq_true, Bool.not_eq_true',
    Option.isNone_iff_eq_none, decide_eq_true_eq] at hk
  obtain ⟨⟨⟨⟨hfresh, hsince⟩, htoken⟩, hquery⟩, hname⟩ := hk
  have flag : ∀ {x y : Bool}, x = false ∨ y = true → x = true → y = true := by
    rintro x y (rfl | hy) hx
    · cases hx
    · exact hy
  refine { h with
    fresh := fun hk => h.fresh (flag hfresh hk)
    since := fun n hn => ?_
    token := fun hk => h.token (flag htoken hk)
    query := fun hk => h.query (flag hquery hk)
    name := fun hk => h.name (flag hname hk) }
  rcases hsince with hnone | hsame
  · rw [hnone] at hn
    cases hn
  · exact h.since n (by rw [← hsame, hn])

/-- The byte is read. -/
theorem read {e : Edge Action} {b : UInt8} (h : Holds buffer len p k parser)
    (hb : buffer[p]? = some b) (he : e.covers b = true) :
    Holds buffer len (p + 1) (k.read e) parser := by
  refine { h with
    mark_le := Nat.le_succ_of_le h.mark_le
    field_start_le := Nat.le_succ_of_le h.field_start_le
    field_len_le := Nat.le_succ_of_le h.field_len_le
    fresh := fun hk => by cases hk
    since := fun n hn => ?_
    token := fun hk => ?_
    query := fun hk => Nat.le_succ_of_le (h.query hk)
    name := fun hk => Nat.le_succ_of_le (h.name hk) }
  · obtain ⟨m, hm, rfl⟩ := Option.map_eq_some_iff.mp hn
    rw [← Nat.add_assoc, h.since m hm]
  · obtain ⟨htoken, hwithin⟩ := Bool.and_eq_true_iff.mp hk
    obtain ⟨hmark, hchars⟩ := h.token htoken
    refine ⟨hmark, fun c hc => ?_⟩
    rw [List.take_add_one, hb, List.mem_append] at hc
    rcases hc with hc | hc
    · exact hchars c hc
    · rw [Option.toList_some, List.mem_singleton] at hc
      rw [hc]
      exact Transducer.Edge.has_of_within hwithin he

/-- The state is none of the offsets. -/
theorem setState (h : Holds buffer len p k parser) (cs : Nat) :
    Holds buffer len p k { parser with cs := cs } :=
  { h with }

theorem bounds (h : Holds buffer len p k parser) (hp : p ≤ len) {q : Nat} (hq : q ≤ len) :
    ({ parser with nread := parser.nread + q } : HttpParser).inBounds len :=
  ⟨by rw [h.nread, Nat.zero_add]; exact hq, h.body_start, h.mark_lt,
    Nat.le_trans h.field_len_le hp, h.field_start_lt⟩

end Holds

/-! ## The callbacks -/

theorem stringAt_inside {buffer : Bytes} {pos length : Nat} (h : pos + length ≤ buffer.length)
    (hmax : length ≤ 9223372036854775807) :
    stringAt buffer pos length = .ok (window buffer pos length) := by
  rw [stringAt, if_neg (Nat.not_lt_of_le hmax), if_pos (Window.length_window h)]

/-- A comparison within both texts is made. -/
theorem strncmp_inside {s t : Bytes} {n : Nat} (hs : n ≤ s.length) (ht : n ≤ t.length) :
    ∃ same, strncmp s t n = .ok same := by
  induction n generalizing s t with
  | zero => exact ⟨true, by rw [strncmp]⟩
  | succ n ih =>
      cases s with
      | nil => exact absurd hs (Nat.not_succ_le_zero n)
      | cons a s =>
          cases t with
          | nil => exact absurd ht (Nat.not_succ_le_zero n)
          | cons b t =>
              rw [strncmp]
              split
              · split
                · exact ⟨true, rfl⟩
                · exact ih (Nat.le_of_succ_le_succ hs) (Nat.le_of_succ_le_succ ht)
              · exact ⟨false, rfl⟩

theorem LEN_of_le {mark p : Nat} (h : mark ≤ p) : LEN mark p = p - mark := if_pos h

/-- A method in front of a space is compared with the table without leaving the buffer, unless it
is `M`. -/
theorem CharsToHttpMethod_ok {token rest : Bytes} (h : MethodToken token)
    (hM : token = bytes "M" → rest <+: bytes "- SEARCH" → rest = bytes "- SEARCH") :
    ∃ m, CharsToHttpMethod (token ++ 32 :: rest) = .ok m := by
  by_cases htoken : token = bytes "M"
  · have hzero : 0 ∉ bytes "- SEARCH" := by decide
    have hsame : ∃ same, strncmp (literal "- SEARCH") rest 8 = .ok same := by
      by_cases hstart : bytes "- SEARCH" <+: rest
      · exact ⟨true, strncmp_start hzero hstart⟩
      · refine ⟨false, strncmp_differs hzero hstart fun hrest => hstart ?_⟩
        rw [hM htoken hrest]
    obtain ⟨same, hsame⟩ := hsame
    rw [htoken, charsToMethod_M, hsame]
    exact ⟨_, rfl⟩
  · exact ⟨_, h.charsToMethod htoken rest⟩

section Callbacks

variable (E) in
/-- What a header does to a request. -/
def HttpRequest.received (req : HttpRequest μ) (name val : Bytes) : HttpRequest μ :=
  (if sameKey name (bytes "connection") ∧ sameKey val (bytes "keep-alive") then
    { req with m_close := false }
  else req).setHeader E.map name val

variable {buffer : Bytes} {pos length : Nat} (parser : HttpRequestParser μ)

theorem on_request_path_inside (hin : pos + length ≤ buffer.length)
    (hmax : buffer.length ≤ 9223372036854775807) :
    on_request_path buffer pos length parser =
      .ok { parser with m_data.m_path := window buffer pos length } := by
  rw [on_request_path, stringAt_inside hin (by omega)]
  rfl

theorem on_request_query_inside (hin : pos + length ≤ buffer.length)
    (hmax : buffer.length ≤ 9223372036854775807) :
    on_request_query buffer pos length parser =
      .ok { parser with m_data.m_query := window buffer pos length } := by
  rw [on_request_query, stringAt_inside hin (by omega)]
  rfl

theorem on_request_fragment_inside (hin : pos + length ≤ buffer.length)
    (hmax : buffer.length ≤ 9223372036854775807) :
    on_request_fragment buffer pos length parser =
      .ok { parser with m_data.m_fragment := window buffer pos length } := by
  rw [on_request_fragment, stringAt_inside hin (by omega)]
  rfl

theorem on_request_version_inside (hin : pos + 8 ≤ buffer.length) :
    ∃ parser', on_request_version buffer pos 8 parser = .ok parser' ∧
      parser'.mParser = parser.mParser := by
  have hdrop : 8 ≤ (buffer.drop pos).length := by
    rw [List.length_drop]
    omega
  obtain ⟨v11, h11⟩ :=
    strncmp_inside (s := literal "HTTP/1.1") (show 8 ≤ (literal "HTTP/1.1").length by decide) hdrop
  obtain ⟨v10, h10⟩ :=
    strncmp_inside (s := literal "HTTP/1.0") (show 8 ≤ (literal "HTTP/1.0").length by decide) hdrop
  rw [on_request_version, h11, h10, stringAt_inside hin (by omega)]
  cases v11 with
  | true => exact ⟨_, rfl, rfl⟩
  | false =>
      cases v10 with
      | true => exact ⟨_, rfl, rfl⟩
      | false => exact ⟨_, rfl, rfl⟩

theorem on_request_http_field_inside {flen value vlen : Nat} (hname : pos + flen ≤ buffer.length)
    (hvalue : value + vlen ≤ buffer.length) (hmax : buffer.length ≤ 9223372036854775807) :
    on_request_http_field E buffer pos flen value vlen parser =
      .ok (if flen = 0 then parser
        else { parser with
          m_data :=
            parser.m_data.received E (window buffer pos flen) (window buffer value vlen) }) := by
  rw [on_request_http_field, stringAt_inside hname (by omega), stringAt_inside hvalue (by omega)]
  show (if flen = 0 then _ else _) = _
  by_cases hzero : flen = 0
  · rw [if_pos hzero, if_pos hzero]
    rfl
  · rw [if_neg hzero, if_neg hzero]
    rfl

end Callbacks

/-! ## One byte -/

/-- A byte whose actions go well. -/
theorem exec_step {buffer : Bytes} {b : UInt8} (bs : Bytes) {p cs : Nat} {acts : List Action}
    {parser parser₁ : HttpRequestParser μ}
    (hstep : E.machine.step parser.mParser.cs b = some (acts, cs))
    (hacts : acts.foldlM (act E buffer p) parser = .ok parser₁) :
    exec E buffer (b :: bs) p parser =
      if .done ∈ acts then .ok ({ parser₁ with mParser.cs := cs }, p + 1)
      else exec E buffer bs (p + 1) { parser₁ with mParser.cs := cs } := by
  rw [exec, hstep]
  simp only [hacts]
  rfl

/-- A byte with an action that does not. -/
theorem exec_error {buffer : Bytes} {b : UInt8} (bs : Bytes) {p cs : Nat} {acts : List Action}
    {parser : HttpRequestParser μ} {stop : Stop}
    (hstep : E.machine.step parser.mParser.cs b = some (acts, cs))
    (hacts : acts.foldlM (act E buffer p) parser = .error stop) :
    exec E buffer (b :: bs) p parser = .error stop := by
  rw [exec, hstep]
  simp only [hacts]
  rfl

section Loop

variable {buffer : Bytes} {len : Nat} (hlen : len ≤ buffer.length)
  (hmax : buffer.length ≤ 9223372036854775807) (hcut : ¬Cut buffer len)

include hlen hcut

/-- The method ends at a space. -/
theorem request_method_ok {p n : Nat} {k : Known} {parser : HttpRequestParser μ} (hp : p < len)
    (hk : Holds buffer len p k parser.mParser) (htoken : k.token = true) (hn : k.since = some n)
    (hone : 1 ≤ n) (htwenty : n ≤ 20) (hspace : buffer[p]? = some 32) :
    ∃ parser', on_request_method buffer parser.mParser.mark (LEN parser.mParser.mark p) parser =
      .ok parser' ∧ parser'.mParser = parser.mParser := by
  obtain ⟨hmark, hchars⟩ := hk.token htoken
  have hp' : p = n := by rw [← hk.since n hn, hmark, Nat.zero_add]
  subst hp'
  have hlength : (buffer.take p).length = p := List.length_take_of_le (by omega)
  have hbuffer : buffer = [] ++ (buffer.take p ++ 32 :: buffer.drop (p + 1)) := by
    have hget := List.getElem_of_getElem? hspace
    obtain ⟨hlt, hget⟩ := hget
    rw [List.nil_append, ← hget, List.getElem_cons_drop, List.take_append_drop]
  have htok : MethodToken (buffer.take p) :=
    ⟨by omega, by omega, fun c hc => Known.of_tokenChars (hchars c hc)⟩
  have hM : buffer.take p = bytes "M" → buffer.drop (p + 1) <+: bytes "- SEARCH" →
      buffer.drop (p + 1) = bytes "- SEARCH" := by
    intro htake hrest
    have hone : p = 1 := by rw [← hlength, htake, length_bytes]; decide
    rw [htake, List.nil_append] at hbuffer
    have hwhole : bytes "M - SEARCH" = bytes "M" ++ 32 :: bytes "- SEARCH" := by decide
    have hstart : buffer <+: bytes "M - SEARCH" := by
      rw [hbuffer, hwhole, List.prefix_append_right_inj, List.cons_prefix_cons]
      exact ⟨rfl, hrest⟩
    by_contra hne
    refine hcut ⟨by omega, hstart, fun heq => hne ?_⟩
    rw [heq, hone]
    decide
  obtain ⟨m, hm⟩ := CharsToHttpMethod_ok htok hM
  have heq := on_request_method_eq htok parser [] (buffer.drop (p + 1)) hm
  rw [← hbuffer, hlength] at heq
  rw [hmark, LEN_of_le (Nat.zero_le p), Nat.sub_zero]
  refine ⟨_, heq, ?_⟩
  split <;> rfl

include hmax

/-- An action does what the analysis says of it. -/
theorem act_ok {p : Nat} {b : UInt8} {e : Edge Action} {k k' : Known}
    {parser : HttpRequestParser μ} {a : Action} (hp : p < len) (hb : buffer[p]? = some b)
    (he : e.covers b = true) (hk : Holds buffer len p k parser.mParser)
    (hact : k.act e a = some k') :
    ∃ parser', act E buffer p parser a = .ok parser' ∧ Holds buffer len p k' parser'.mParser := by
  have hmark := hk.mark_le
  have hmarked : ∀ parser' : HttpParser, parser' = { parser.mParser with mark := p } →
      Holds buffer len p { k with since := some 0, token := k.fresh } parser' := by
    rintro _ rfl
    refine { hk with
      mark_le := Nat.le_refl p
      mark_lt := hp
      since := fun n hn => by cases hn; rfl
      token := fun hfresh => ?_ }
    have hzero := hk.fresh hfresh
    rw [hzero]
    exact ⟨rfl, fun c hc => absurd hc List.not_mem_nil⟩
  cases a with
  | mark =>
      cases hact
      exact ⟨_, rfl, hmarked _ rfl⟩
  | start_value =>
      cases hact
      exact ⟨_, rfl, hmarked _ rfl⟩
  | start_field =>
      cases hact
      refine ⟨_, rfl, { hk with field_start_le := Nat.le_refl p, field_start_lt := hp, name := ?_ }⟩
      exact fun hname => by cases hname
  | write_field =>
      cases hact
      have hlength : LEN parser.mParser.field_start p = p - parser.mParser.field_start :=
        LEN_of_le hk.field_start_le
      refine ⟨_, rfl, { hk with field_len_le := ?_, name := fun _ => ?_ }⟩
      · show LEN parser.mParser.field_start p ≤ p
        rw [hlength]
        exact Nat.sub_le _ _
      · show parser.mParser.field_start + LEN parser.mParser.field_start p ≤ p
        rw [hlength]
        exact Nat.le_of_eq (Nat.add_sub_cancel' hk.field_start_le)
  | start_query =>
      cases hact
      exact ⟨_, rfl, { hk with query := fun _ => Nat.le_refl p }⟩
  | query_string =>
      rw [Known.act] at hact
      split at hact
      next hquery =>
        cases hact
        have hstart := hk.query hquery
        rw [act, LEN_of_le hstart, on_request_query_inside parser (by omega) hmax]
        exact ⟨_, rfl, hk⟩
      next => cases hact
  | write_value =>
      rw [Known.act] at hact
      split at hact
      next hname =>
        cases hact
        have hfield := hk.name hname
        rw [act, LEN_of_le hmark, on_request_http_field_inside parser (by omega) (by omega) hmax]
        refine ⟨_, rfl, ?_⟩
        split <;> exact hk
      next => cases hact
  | http_version =>
      rw [Known.act] at hact
      split at hact
      next hsince =>
        cases hact
        have hlength := hk.since 8 hsince
        obtain ⟨parser', heq, hsame⟩ :=
          on_request_version_inside parser (show parser.mParser.mark + 8 ≤ buffer.length by omega)
        refine ⟨parser', ?_, hsame ▸ hk⟩
        rw [act, LEN_of_le hmark, ← hlength, Nat.add_sub_cancel_left]
        exact heq
      next => cases hact
  | request_method =>
      rw [Known.act] at hact
      split at hact
      next hall =>
        cases hact
        simp only [Bool.and_eq_true, decide_eq_true_eq, Option.any_eq_true] at hall
        obtain ⟨⟨htoken, hlo, hhi⟩, n, hn, hone, htwenty⟩ := hall
        have hspace : b = 32 := by
          rw [Edge.covers, hlo, hhi, Bool.and_eq_true, decide_eq_true_eq, decide_eq_true_eq] at he
          exact UInt8.toNat_inj.mp (Nat.le_antisymm he.2 he.1)
        rw [hspace] at hb
        obtain ⟨parser', heq, hsame⟩ :=
          request_method_ok hlen hcut hp hk htoken hn hone htwenty hb
        exact ⟨parser', heq, hsame ▸ hk⟩
      next => cases hact
  | fragment =>
      cases hact
      rw [act, LEN_of_le hmark, on_request_fragment_inside parser (by omega) hmax]
      exact ⟨_, rfl, hk⟩
  | request_path =>
      cases hact
      rw [act, LEN_of_le hmark, on_request_path_inside parser (by omega) hmax]
      exact ⟨_, rfl, hk⟩
  | done =>
      cases hact
      rw [act]
      split
      · exact ⟨_, rfl, { hk with body_start := Nat.le_of_lt hk.mark_lt }⟩
      · exact ⟨_, rfl, { hk with body_start := hp }⟩
  | _ =>
      cases hact
      exact ⟨_, rfl, { hk with }⟩

/-- From a byte on, the loop is left with offsets in bounds. -/
theorem exec_ok {r : Bool} (hM : E.machine = requestMachine r) {bs : Bytes} {p : Nat}
    {parser : HttpRequestParser μ} (hp : p + bs.length = len) (hbs : bs = (buffer.take len).drop p)
    (hk : Holds buffer len p (Known.atState parser.mParser.cs) parser.mParser) :
    ∃ parser' p', exec E buffer bs p parser = .ok (parser', p') ∧
      ({ parser'.mParser with nread := parser'.mParser.nread + p' } : HttpParser).inBounds len := by
  induction bs generalizing p parser with
  | nil => exact ⟨parser, p, rfl, hk.bounds (by omega) (by omega)⟩
  | cons b bs ih =>
      rw [List.length_cons] at hp
      have hplt : p < len := by omega
      have hb : buffer[p]? = some b := by
        rw [← List.getElem?_take_of_lt hplt, ← Nat.add_zero p, ← List.getElem?_drop, ← hbs]
        rfl
      have hrest : bs = (buffer.take len).drop (p + 1) := by
        rw [← List.drop_drop, ← hbs]
        rfl
      cases hstep : (requestMachine r).step parser.mParser.cs b with
      | none =>
          rw [exec, hM, hstep]
          exact ⟨_, p, rfl, hk.bounds (by omega) (by omega)⟩
      | some next =>
          obtain ⟨acts, cs⟩ := next
          obtain ⟨e, he, k, hacts, hnext⟩ := Analysis.of_passes (offsets_pass r) hstep
          have hfold := Analysis.fold (A := offsets) (f := act E buffer p)
            (R := fun k (parser : HttpRequestParser μ) => Holds buffer len p k parser.mParser)
            (fun hR => act_ok hlen hmax hcut hplt hb he hR) hacts hk
          obtain ⟨parser₁, heq, hk₁⟩ := hfold
          have hread : Holds buffer len (p + 1) (Known.atState cs)
              { parser₁.mParser with cs := cs } := ((hk₁.read hb he).weaken hnext).setState cs
          rw [exec_step bs (by rw [hM, hstep]) heq]
          split
          · exact ⟨_, p + 1, rfl, hread.bounds hplt hplt⟩
          · exact ih (by omega) hrest hread

end Loop

/-! ## The first call -/

/-- A call whose loop returns. -/
theorem execute_of_exec {buffer : Bytes} {len p : Nat} {parser parser' : HttpRequestParser μ}
    (hlen : len ≠ 0) (hexec : exec E buffer (buffer.take len) 0 parser = .ok (parser', p)) :
    http_parser_execute E buffer len parser =
      if ({ parser'.mParser with nread := parser'.mParser.nread + p } : HttpParser).inBounds len
      then
        .ok ({ parser' with mParser.nread := parser'.mParser.nread + p }, parser'.mParser.nread + p)
      else .error .abort := by
  rw [http_parser_execute, if_neg hlen, hexec]
  rfl

/-- At a cut the comparison with `M - SEARCH` goes on behind the buffer. -/
theorem execute_cut {r : Bool} (hM : E.machine = requestMachine r) {buffer : Bytes} {len : Nat}
    (hcut : Cut buffer len) (hlen : len ≤ buffer.length) :
    http_parser_execute E buffer len (.new E) = .error .wild := by
  obtain ⟨htwo, hstart, hne⟩ := hcut
  have hwhole : bytes "M - SEARCH" = 77 :: 32 :: bytes "- SEARCH" := by decide
  rw [hwhole] at hstart hne
  obtain ⟨rest, rfl, hrest⟩ : ∃ rest, buffer = 77 :: 32 :: rest ∧ rest <+: bytes "- SEARCH" := by
    obtain ⟨n, hn⟩ := Nat.exists_eq_add_of_le' (Nat.le_trans htwo hlen)
    rw [List.prefix_iff_eq_take, hn, List.take_succ_cons, List.take_succ_cons] at hstart
    exact ⟨_, hstart, List.take_prefix n _⟩
  have hmethod : ∀ parser : HttpRequestParser μ,
      on_request_method (77 :: 32 :: rest) 0 1 parser = .error .wild := by
    intro parser
    have hchars := charsToMethod_M rest
    rw [literal, show 8 = (bytes "- SEARCH").length from rfl,
      strncmp_wild (by decide) hrest fun heq => hne (by rw [heq])] at hchars
    rw [on_request_method, List.drop_zero]
    show (CharsToHttpMethod (bytes "M" ++ 32 :: rest) >>= _) = _
    rw [hchars]
    rfl
  obtain ⟨m, rfl⟩ := Nat.exists_eq_add_of_le' htwo
  have hfirst : E.machine.step http_parser_start 77 = some ([.mark], 2) := by
    rw [hM]
    cases r <;> decide +kernel
  have hspace : E.machine.step 2 32 = some ([.request_method], 3) := by
    rw [hM]
    cases r <;> decide +kernel
  rw [http_parser_execute, if_neg (by omega), List.take_succ_cons, List.take_succ_cons,
    exec_step _ hfirst rfl, if_neg (by decide), exec_error _ hspace]
  · rfl
  · rw [List.foldlM_cons]
    show (on_request_method _ 0 1 _ >>= _) = _
    rw [hmethod]
    rfl

/-- At no cut the loop of the first call is left with offsets in bounds. -/
theorem exec_first {r : Bool} (hM : E.machine = requestMachine r) {buffer : Bytes} {len : Nat}
    (hpos : 0 < len) (hlen : len ≤ buffer.length) (hmax : buffer.length ≤ 9223372036854775807)
    (hcut : ¬Cut buffer len) :
    ∃ parser p, exec E buffer (buffer.take len) 0 (.new E) = .ok (parser, p) ∧
      ({ parser.mParser with nread := parser.mParser.nread + p } : HttpParser).inBounds len := by
  have hlength : (buffer.take len).length = len := List.length_take_of_le hlen
  have hstart : Holds buffer len 0 (Known.atState (HttpRequestParser.new E).mParser.cs)
      (HttpRequestParser.new E).mParser := .start hpos
  exact exec_ok hlen hmax hcut hM (by rw [hlength, Nat.zero_add]) (by rw [List.drop_zero]) hstart

end Muqiu.Http
