import Mathlib.Data.List.TakeWhile
import Muqiu.Http.Parser
import Muqiu.Lib.Delimited

/-!
# Recognising the method

`StringToHttpMethod` compares a whole string with the texts of the table.  `CharsToHttpMethod` is
handed the place in the buffer where the method starts, without its length, and asks for every
text of the table whether it starts there.  No text of the table starts another one, so for a
method of the table the two agree.  They differ for a token that goes on behind a text of the
table, and for the token `M`, because the table has `M - SEARCH` for M-SEARCH and the comparison
goes on behind the space.
-/

namespace Muqiu.Http

open Window (window)

/-- `StringToHttpMethod(m)` -/
def StringToHttpMethod (m : Bytes) : HttpMethod :=
  ((HTTP_METHOD_MAP.find? fun e => bytes e.2 = c_str m).map Prod.fst).getD .INVALID_METHOD

/-- `HttpMethodToString(m)`.  The methods are numbered in the order of the table. -/
def HttpMethodToString (m : HttpMethod) : String :=
  ((HTTP_METHOD_MAP.find? fun e => e.1 = m).map Prod.snd).getD "<unknown>"

/-- What the grammar takes for a method: `(upper | digit){1,20}`. -/
structure MethodToken (token : Bytes) : Prop where
  pos : 1 ≤ token.length
  le : token.length ≤ 20
  chars : ∀ c ∈ token, 65 ≤ c ∧ c ≤ 90 ∨ 48 ≤ c ∧ c ≤ 57

/-- A method token in a buffer is recognised by the whole of it. -/
structure Recognises {μ : Type} (parser : HttpRequestParser μ) (before token rest : Bytes) :
    Prop where
  known : ∀ m, bytes (HttpMethodToString m) = token →
    on_request_method (before ++ (token ++ 32 :: rest)) before.length token.length parser =
      .ok { parser with m_data.m_method := m }
  unknown : (∀ m, bytes (HttpMethodToString m) ≠ token) →
    on_request_method (before ++ (token ++ 32 :: rest)) before.length token.length parser =
      .ok { parser with m_error := 1000 }
  agrees : CharsToHttpMethod (token ++ 32 :: rest) = .ok (StringToHttpMethod token)

/-! ## The table -/

/-- No text of the table starts another one. -/
theorem prefix_free : ∀ e ∈ HTTP_METHOD_MAP, ∀ e' ∈ HTTP_METHOD_MAP,
    bytes e.2 <+: bytes e'.2 → e = e' := by
  decide +kernel

/-- The texts are upper-case letters, but for the one with spaces. -/
theorem table_texts : ∀ e ∈ HTTP_METHOD_MAP,
    0 ∉ bytes e.2 ∧ 1 < (bytes e.2).length ∧ e.1 ≠ .INVALID_METHOD ∧
      (32 ∉ bytes e.2 ∨ e = (.MSEARCH, "M - SEARCH")) := by
  decide +kernel

/-! ## Comparing with one text -/

theorem strncmp_start {s m : Bytes} (hs : 0 ∉ s) (h : s <+: m) :
    strncmp (s ++ [0]) m s.length = .ok true := by
  induction s generalizing m with
  | nil => rfl
  | cons a s ih =>
      obtain ⟨t, rfl⟩ := h
      rw [List.mem_cons, not_or] at hs
      rw [List.cons_append, List.cons_append, List.length_cons, strncmp, if_pos rfl,
        if_neg (fun h0 => hs.1 h0.symm), ih hs.2 (List.prefix_append s t)]

theorem strncmp_differs {s m : Bytes} (hs : 0 ∉ s) (h : ¬s <+: m) (h' : ¬m <+: s) :
    strncmp (s ++ [0]) m s.length = .ok false := by
  induction s generalizing m with
  | nil => exact absurd (List.nil_prefix) h
  | cons a s ih =>
      cases m with
      | nil => exact absurd List.nil_prefix h'
      | cons b m =>
          rw [List.mem_cons, not_or] at hs
          rw [List.cons_append, List.length_cons, strncmp]
          split
          next heq =>
            subst heq
            rw [if_neg (fun h0 => hs.1 h0.symm)]
            refine ih hs.2 (fun hpre => h ?_) fun hpre => h' ?_
            · exact List.cons_prefix_cons.mpr ⟨rfl, hpre⟩
            · exact List.cons_prefix_cons.mpr ⟨rfl, hpre⟩
          next => rfl

/-- A buffer that ends inside the text is read past its end. -/
theorem strncmp_wild {s m : Bytes} (hs : 0 ∉ s) (h : m <+: s) (hne : m ≠ s) :
    strncmp (s ++ [0]) m s.length = .error .wild := by
  induction s generalizing m with
  | nil => exact absurd (List.prefix_nil.mp h) hne
  | cons a s ih =>
      rw [List.mem_cons, not_or] at hs
      cases m with
      | nil => rfl
      | cons b m =>
          obtain ⟨rfl, hpre⟩ := List.cons_prefix_cons.mp h
          rw [List.cons_append, List.length_cons, strncmp, if_pos rfl,
            if_neg (fun h0 => hs.1 h0.symm), ih hs.2 hpre fun heq => hne (heq ▸ rfl)]

/-! ## The loop over the table -/

/-- The first method of the table whose text starts the token. -/
def firstStart (token : Bytes) (table : List (HttpMethod × String)) : HttpMethod :=
  ((table.find? fun e => bytes e.2 <+: token).map Prod.fst).getD .INVALID_METHOD

/-- A comparison that goes on behind the token stops at its end, for a text without a space. -/
theorem strncmp_token {s token rest : Bytes} (hs : 0 ∉ s) (hspace : 32 ∉ s) :
    strncmp (s ++ [0]) (token ++ 32 :: rest) s.length = .ok (decide (s <+: token)) := by
  by_cases h : s <+: token
  · rw [strncmp_start hs (h.trans (List.prefix_append token _)), decide_eq_true h]
  · rw [strncmp_differs hs (fun hpre => h (Delimited.prefix_across hspace hpre)) fun hpre => ?_,
      decide_eq_false h]
    exact hspace (hpre.subset (List.mem_append_right token List.mem_cons_self))

/-- Where every text is found to start the token or not, the first that does is taken. -/
theorem charsToMethod_eq {m token : Bytes} {table : List (HttpMethod × String)}
    (h : ∀ e ∈ table, strncmp (literal e.2) m e.2.length = .ok (decide (bytes e.2 <+: token))) :
    charsToMethod m table = .ok (firstStart token table) := by
  induction table with
  | nil => rfl
  | cons e table ih =>
      obtain ⟨he, htable⟩ := List.forall_mem_cons.mp h
      obtain ⟨name, string⟩ := e
      rw [charsToMethod, he, firstStart, List.find?_cons]
      by_cases hpre : bytes string <+: token
      · rw [decide_eq_true hpre]
        rfl
      · rw [decide_eq_false hpre]
        exact ih htable

theorem length_bytes (s : String) : (bytes s).length = s.length := by
  rw [bytes, List.length_map, String.length_toList]

variable {token : Bytes}

theorem MethodToken.space_not_mem (h : MethodToken token) : 32 ∉ token :=
  fun hmem => absurd (h.chars 32 hmem) (by decide)

theorem MethodToken.c_str (h : MethodToken token) : c_str token = token := by
  refine List.takeWhile_eq_self_iff.mpr fun c hc => ?_
  rw [bne_iff_ne]
  rintro rfl
  exact absurd (h.chars 0 hc) (by decide)

/-- The text with spaces starts no token. -/
theorem MethodToken.msearch (h : MethodToken token) : ¬bytes "M - SEARCH" <+: token :=
  fun hpre => h.space_not_mem (hpre.subset (by decide))

/-- But for the token `M` it does not start at a token either. -/
theorem MethodToken.strncmp_msearch (h : MethodToken token) (hM : token ≠ bytes "M")
    (rest : Bytes) : strncmp (literal "M - SEARCH") (token ++ 32 :: rest) 10 = .ok false := by
  have htext : literal "M - SEARCH" = 77 :: 32 :: literal "- SEARCH" := by decide
  rw [htext]
  cases token with
  | nil => exact absurd h.pos (by decide)
  | cons a token =>
      rw [List.cons_append, strncmp]
      split
      next ha =>
        subst ha
        cases token with
        | nil => exact absurd rfl hM
        | cons b token =>
            have hb : ¬(32 : UInt8) = b := by
              rintro rfl
              exact h.space_not_mem (List.mem_cons_of_mem _ List.mem_cons_self)
            rw [if_neg (by decide), List.cons_append, strncmp, if_neg hb]
      next => rfl

theorem MethodToken.charsToMethod (h : MethodToken token) (hM : token ≠ bytes "M")
    (rest : Bytes) :
    CharsToHttpMethod (token ++ 32 :: rest) = .ok (firstStart token HTTP_METHOD_MAP) := by
  refine charsToMethod_eq fun e he => ?_
  obtain ⟨hzero, -, -, hspace | rfl⟩ := table_texts e he
  · rw [literal, ← length_bytes, strncmp_token hzero hspace]
  · rw [decide_eq_false h.msearch]
    exact h.strncmp_msearch hM rest

/-- Texts that do not start here are passed over. -/
theorem charsToMethod_skip {m : Bytes} {table : List (HttpMethod × String)}
    (h : ∀ e ∈ table, strncmp (literal e.2) m e.2.length = .ok false)
    (table' : List (HttpMethod × String)) :
    charsToMethod m (table ++ table') = charsToMethod m table' := by
  induction table with
  | nil => rfl
  | cons e table ih =>
      obtain ⟨he, htable⟩ := List.forall_mem_cons.mp h
      obtain ⟨name, string⟩ := e
      rw [List.cons_append, charsToMethod, he]
      exact ih htable

/-- At the token `M` everything depends on what follows the space. -/
theorem charsToMethod_M (rest : Bytes) :
    CharsToHttpMethod (bytes "M" ++ 32 :: rest) =
      (strncmp (literal "- SEARCH") rest 8).map fun same =>
        if same then .MSEARCH else .INVALID_METHOD := by
  have hother : ∀ e ∈ HTTP_METHOD_MAP, e ≠ (.MSEARCH, "M - SEARCH") →
      strncmp (literal e.2) (bytes "M" ++ 32 :: rest) e.2.length = .ok false := by
    intro e he hne
    obtain ⟨hzero, hlen, -, hspace⟩ := table_texts e he
    have hlong : ¬bytes e.2 <+: bytes "M" := by
      intro hpre
      exact absurd hpre.length_le (Nat.not_le_of_lt hlen)
    rw [literal, ← length_bytes, strncmp_token hzero (hspace.resolve_right hne),
      decide_eq_false hlong]
  have htable : HTTP_METHOD_MAP =
      HTTP_METHOD_MAP.take 24 ++ (.MSEARCH, "M - SEARCH") :: HTTP_METHOD_MAP.drop 25 := rfl
  have hbefore : ∀ e ∈ HTTP_METHOD_MAP.take 24, e ≠ (.MSEARCH, "M - SEARCH") := by decide
  have hafter : ∀ e ∈ HTTP_METHOD_MAP.drop 25, e ≠ (.MSEARCH, "M - SEARCH") := by decide
  have hlast : charsToMethod (bytes "M" ++ 32 :: rest) (HTTP_METHOD_MAP.drop 25) =
      .ok .INVALID_METHOD := by
    have hskip := charsToMethod_skip
      (fun e he => hother e (List.mem_of_mem_drop he) (hafter e he)) []
    rw [List.append_nil] at hskip
    exact hskip
  have hhead : strncmp (literal "M - SEARCH") (bytes "M" ++ 32 :: rest) 10 =
      strncmp (literal "- SEARCH") rest 8 := rfl
  rw [CharsToHttpMethod, htable,
    charsToMethod_skip fun e he => hother e (List.mem_of_mem_take he) (hbefore e he),
    charsToMethod, hlast]
  show (strncmp (literal "M - SEARCH") (bytes "M" ++ 32 :: rest) 10 >>= _) = _
  rw [hhead]
  cases strncmp (literal "- SEARCH") rest 8 with
  | error e => rfl
  | ok same => cases same <;> rfl

/-! ## Exact recognition -/

/-- A lookup in the table finds an entry or none. -/
theorem lookup_cases (p : HttpMethod × String → Bool) :
    (∃ e ∈ HTTP_METHOD_MAP, p e = true ∧
      ((HTTP_METHOD_MAP.find? p).map Prod.fst).getD .INVALID_METHOD = e.1) ∨
      (∀ e ∈ HTTP_METHOD_MAP, ¬p e = true) ∧
        ((HTTP_METHOD_MAP.find? p).map Prod.fst).getD .INVALID_METHOD = .INVALID_METHOD := by
  cases hfind : HTTP_METHOD_MAP.find? p with
  | none => exact Or.inr ⟨List.find?_eq_none.mp hfind, rfl⟩
  | some e => exact Or.inl ⟨e, List.mem_of_find?_eq_some hfind, List.find?_some hfind, rfl⟩

/-- A whole text of the table names its method, and any other token none. -/
theorem StringToHttpMethod_cases (h : MethodToken token) :
    (∃ e ∈ HTTP_METHOD_MAP, bytes e.2 = token ∧ StringToHttpMethod token = e.1) ∨
      (∀ e ∈ HTTP_METHOD_MAP, bytes e.2 ≠ token) ∧
        StringToHttpMethod token = .INVALID_METHOD := by
  rw [StringToHttpMethod, h.c_str]
  refine (lookup_cases fun e => bytes e.2 = token).imp ?_ (And.imp_left ?_)
  · rintro ⟨e, he, htext, hmethod⟩
    exact ⟨e, he, of_decide_eq_true htext, hmethod⟩
  · exact fun hnone e he htext => hnone e he (decide_eq_true htext)

theorem HttpMethodToString_of_mem : ∀ e ∈ HTTP_METHOD_MAP, HttpMethodToString e.1 = e.2 := by
  decide +kernel

theorem mem_of_HttpMethodToString (m : HttpMethod) :
    (m, HttpMethodToString m) ∈ HTTP_METHOD_MAP ∨ HttpMethodToString m = "<unknown>" := by
  cases m <;> decide +kernel

/-- The method of a token is the one that is written so. -/
theorem StringToHttpMethod_eq (h : MethodToken token) {m : HttpMethod}
    (hm : bytes (HttpMethodToString m) = token) :
    StringToHttpMethod token = m ∧ m ≠ .INVALID_METHOD := by
  rcases mem_of_HttpMethodToString m with hmem | hunknown
  · rcases StringToHttpMethod_cases h with ⟨e, he, htext, hmethod⟩ | ⟨hnone, -⟩
    · have hsame := prefix_free e he _ hmem (by rw [htext, hm])
      rw [hmethod, hsame]
      exact ⟨rfl, (table_texts _ hmem).2.2.1⟩
    · exact absurd hm (hnone _ hmem)
  · rw [hunknown] at hm
    exact absurd (h.chars 60 (by rw [← hm]; decide)) (by decide)

/-- What is recognised of a method decides what `on_request_method` does. -/
theorem on_request_method_eq {μ : Type} (h : MethodToken token) (parser : HttpRequestParser μ)
    (before rest : Bytes) {m : HttpMethod}
    (hm : CharsToHttpMethod (token ++ 32 :: rest) = .ok m) :
    on_request_method (before ++ (token ++ 32 :: rest)) before.length token.length parser =
      .ok (if m = .INVALID_METHOD then { parser with m_error := 1000 }
        else { parser with m_data.m_method := m }) := by
  have hle := h.le
  have hwindow : window (before ++ (token ++ 32 :: rest)) before.length token.length = token := by
    rw [window, List.drop_left, List.take_left]
  have hstring : stringAt (before ++ (token ++ 32 :: rest)) before.length token.length =
      .ok token := by
    rw [stringAt, if_neg (by omega), hwindow, if_pos rfl]
  rw [on_request_method, List.drop_left, hm]
  by_cases hinvalid : m = .INVALID_METHOD
  · rw [if_pos hinvalid, hinvalid, hstring]
    rfl
  · rw [if_neg hinvalid]
    show (if m = .INVALID_METHOD then _ else _) = _
    rw [if_neg hinvalid]
    rfl

/-- The two functions agree exactly when the callback is right. -/
theorem recognises_iff_agrees {μ : Type} (h : MethodToken token) (parser : HttpRequestParser μ)
    (before rest : Bytes) :
    Recognises parser before token rest ↔
      CharsToHttpMethod (token ++ 32 :: rest) = .ok (StringToHttpMethod token) := by
  refine ⟨Recognises.agrees, fun hagrees => ⟨fun m hm => ?_, fun hnone => ?_, hagrees⟩⟩
  · obtain ⟨hmethod, hvalid⟩ := StringToHttpMethod_eq h hm
    rw [on_request_method_eq h parser before rest hagrees, hmethod, if_neg hvalid]
  · rcases StringToHttpMethod_cases h with ⟨e, he, htext, -⟩ | ⟨-, hinvalid⟩
    · exact absurd (by rw [HttpMethodToString_of_mem e he, htext]) (hnone e.1)
    · rw [on_request_method_eq h parser before rest hagrees, if_pos hinvalid]

/-- The first text that starts a token is the token, unless one starts it properly. -/
theorem firstStart_eq_iff (h : MethodToken token) :
    firstStart token HTTP_METHOD_MAP = StringToHttpMethod token ↔
      ∀ e ∈ HTTP_METHOD_MAP, bytes e.2 <+: token → bytes e.2 = token := by
  rw [firstStart]
  constructor
  · intro hsame e he hpre
    rcases lookup_cases fun e => bytes e.2 <+: token with ⟨e', he', -, hmethod⟩ | ⟨hnone, -⟩
    · rcases StringToHttpMethod_cases h with ⟨e'', he'', htext, -⟩ | ⟨-, hinvalid⟩
      · rw [prefix_free e he e'' he'' (by rw [htext]; exact hpre), htext]
      · rw [hmethod, hinvalid] at hsame
        exact absurd hsame (table_texts e' he').2.2.1
    · exact absurd (decide_eq_true hpre) (hnone e he)
  · intro hexact
    rcases lookup_cases fun e => bytes e.2 <+: token with ⟨e, he, hpre, hmethod⟩ | ⟨hnone, hmethod⟩
    · have htext := hexact e he (of_decide_eq_true hpre)
      rcases StringToHttpMethod_cases h with ⟨e', he', htext', hmethod'⟩ | ⟨hnone, -⟩
      · rw [hmethod, hmethod', prefix_free e he e' he' (by rw [htext, htext'])]
      · exact absurd htext (hnone e he)
    · rcases StringToHttpMethod_cases h with ⟨e', he', htext', -⟩ | ⟨-, hmethod'⟩
      · exact absurd (decide_eq_true (htext' ▸ List.prefix_rfl)) (hnone e' he')
      · rw [hmethod, hmethod']

/-- A method is recognised exactly when no text of the table goes on in the token, and behind the
token `M` the buffer neither has nor ends in `- SEARCH`. -/
theorem recognises_iff {μ : Type} (h : MethodToken token) (parser : HttpRequestParser μ)
    (before rest : Bytes) :
    Recognises parser before token rest ↔
      (∀ e ∈ HTTP_METHOD_MAP, bytes e.2 <+: token → bytes e.2 = token) ∧
        (token = bytes "M" → ¬bytes "- SEARCH" <+: rest ∧ ¬rest <+: bytes "- SEARCH") := by
  rw [recognises_iff_agrees h parser before rest]
  by_cases hM : token = bytes "M"
  · subst hM
    have hzero : 0 ∉ bytes "- SEARCH" := by decide
    have hshort : ∀ e ∈ HTTP_METHOD_MAP, bytes e.2 <+: bytes "M" → bytes e.2 = bytes "M" := by
      intro e he hpre
      exact absurd hpre.length_le (Nat.not_le_of_lt (table_texts e he).2.1)
    rw [charsToMethod_M, show StringToHttpMethod (bytes "M") = .INVALID_METHOD by decide]
    constructor
    · refine fun hmethod => ⟨hshort, fun _ => ⟨fun hpre => ?_, fun hpre => ?_⟩⟩
      · rw [literal, show 8 = (bytes "- SEARCH").length from rfl, strncmp_start hzero hpre]
          at hmethod
        cases hmethod
      · by_cases hsame : rest = bytes "- SEARCH"
        · rw [literal, show 8 = (bytes "- SEARCH").length from rfl,
            strncmp_start hzero (hsame ▸ List.prefix_rfl)] at hmethod
          cases hmethod
        · rw [literal, show 8 = (bytes "- SEARCH").length from rfl,
            strncmp_wild hzero hpre hsame] at hmethod
          cases hmethod
    · rintro ⟨-, hrest⟩
      obtain ⟨hpre, hpre'⟩ := hrest rfl
      rw [literal, show 8 = (bytes "- SEARCH").length from rfl, strncmp_differs hzero hpre hpre']
      rfl
  · rw [h.charsToMethod hM rest, Except.ok.injEq, firstStart_eq_iff h]
    exact ⟨fun hexact => ⟨hexact, fun hM' => absurd hM' hM⟩, And.left⟩

/-- A token of three letters, and a parser. -/
theorem methodToken_get : MethodToken (bytes "GET") :=
  ⟨by decide, by decide, by decide +kernel⟩

/-- The parser of a request that has read nothing. -/
def idleParser : HttpRequestParser Unit where
  mParser :=
    { cs := http_parser_start, body_start := 0, nread := 0, mark := 0, field_start := 0
      field_len := 0, query_start := 0, xml_sent := false, json_sent := false }
  m_data :=
    { m_method := .GET, m_version := 0x11, m_close := true, m_websocket := false, m_path := []
      m_query := [], m_fragment := [], m_body := [], m_headers := () }
  m_error := 0

theorem get_recognised : Recognises idleParser [] (bytes "GET") (bytes "/ HTTP/1.1") :=
  (recognises_iff methodToken_get idleParser [] (bytes "/ HTTP/1.1")).mpr
    ⟨by decide +kernel, fun hM => absurd hM (by decide)⟩

/-- `GETX` is taken for GET. -/
theorem getx_not_recognised :
    ¬∀ (parser : HttpRequestParser Unit) (before token rest : Bytes), MethodToken token →
      Recognises parser before token rest := by
  intro hall
  have hagrees :=
    (hall idleParser [] (bytes "GETX") [] ⟨by decide, by decide, by decide +kernel⟩).agrees
  exact absurd hagrees (by decide +kernel)

end Muqiu.Http
