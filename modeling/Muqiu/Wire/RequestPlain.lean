import Muqiu.Wire.RequestGrammar

/-!
# Plain requests are read

A `RequestText` is plain when its path starts with one slash, its target has no character that
should be coded, and its headers are tokens with values of one line.  The parser accepts every plain
text, and gives the request that it is the text of.
-/

namespace Muqiu.Http

open Transducer (Table FieldRun ByteClass quiet quiet_cons quiet_of_stays)

variable {μ : Type}

/-! ## Coded texts -/

/-- The hexadecimal digits. -/
def hexChars : ByteClass := [(48, 57), (65, 70), (97, 102)]

/-- Characters of a class, and codes of others. -/
inductive Coded (C : ByteClass) : Bytes → Prop
  | nil : Coded C []
  | char {b : UInt8} {s : Bytes} : C.has b = true → Coded C s → Coded C (b :: s)
  | code {a b : UInt8} {s : Bytes} : hexChars.has a = true → hexChars.has b = true → Coded C s →
      Coded C (37 :: a :: b :: s)

/-- From `first`, and then from `home`, the table goes over coded texts, whose first character is
one of `p`. -/
def takesCoded (T : Table Action) (C : ByteClass) (p : UInt8 → Bool) (enter : List Action)
    (first home : Nat) : Bool :=
  T.leads first p enter home && T.leads first (· = 37) enter (home + 1) &&
    T.leads home C.has [] home && T.leads home (· = 37) [] (home + 1) &&
    T.leads (home + 1) hexChars.has [] (home + 2) && T.leads (home + 2) hexChars.has [] home

theorem quiet_coded {T : Table Action} {C : ByteClass} {p : UInt8 → Bool} {enter : List Action}
    {first home : Nat} (h : takesCoded T C p enter first home = true) {s : Bytes}
    (hs : Coded C s) : quiet T.step home s = some home := by
  simp only [takesCoded, Bool.and_eq_true] at h
  obtain ⟨⟨⟨⟨⟨-, -⟩, hchar⟩, hpercent⟩, hhex⟩, hhex'⟩ := h
  induction hs with
  | nil => rfl
  | char hb _ ih =>
      rw [quiet_cons _ (Table.step_of_leads hchar hb)]
      exact ih
  | code ha hb _ ih =>
      rw [quiet_cons _ (Table.step_of_leads hpercent (decide_eq_true rfl)),
        quiet_cons _ (Table.step_of_leads hhex ha), quiet_cons _ (Table.step_of_leads hhex' hb)]
      exact ih

/-- A coded text in front of a byte behind it. -/
theorem fieldRun_coded {T : Table Action} {C : ByteClass} {p : UInt8 → Bool}
    {enter out : List Action} {first home s' : Nat} {c : UInt8}
    (h : takesCoded T C p enter first home = true) {s : Bytes}
    (hs : Coded C s) (hp : ∀ b ∈ s.head?, C.has b = true → p b = true)
    (hfirst : T.step first c = some (enter ++ out, s')) (hhome : T.step home c = some (out, s')) :
    ∃ s₂, FieldRun T.step enter first s s₂ c out s' := by
  have hquiet : ∀ {u : Bytes}, Coded C u → quiet T.step home u = some home := quiet_coded h
  simp only [takesCoded, Bool.and_eq_true] at h
  obtain ⟨⟨⟨⟨⟨hchar, hpercent⟩, -⟩, -⟩, hhex⟩, hhex'⟩ := h
  cases hs with
  | nil => exact ⟨first, rfl, hfirst⟩
  | @char b u hb hu =>
      exact ⟨home, home, Table.step_of_leads hchar (hp b rfl hb), hquiet hu, hhome⟩
  | @code a b u ha hb hu =>
      refine ⟨home, home + 1, Table.step_of_leads hpercent (decide_eq_true rfl), ?_, hhome⟩
      rw [quiet_cons _ (Table.step_of_leads hhex ha), quiet_cons _ (Table.step_of_leads hhex' hb)]
      exact hquiet hu

/-! ## Plain texts -/

/-- The characters of a path that need no code. -/
def plainPathChars : ByteClass :=
  [(33, 33), (36, 36), (38, 59), (61, 61), (64, 90), (95, 95), (97, 122), (126, 126)]

/-- Those of a query and a fragment. -/
def plainQueryChars : ByteClass :=
  [(33, 33), (36, 36), (38, 59), (61, 61), (63, 90), (95, 95), (97, 122), (126, 126)]

/-- The characters of a header name. -/
def headerChars : ByteClass :=
  [(33, 33), (35, 39), (42, 43), (45, 46), (48, 57), (65, 90), (94, 122), (124, 124), (126, 126)]

/-- A path that starts with one slash. -/
structure PlainPath (path : Bytes) : Prop where
  coded : Coded plainPathChars path
  slash : path.head? = some 47
  single : path.tail.head? ≠ some 47

/-- A path without a scheme, with a coded query and a coded fragment. -/
structure Target.Plain (t : Target) : Prop where
  scheme : t.scheme = none
  path : PlainPath t.path
  query : ∀ q ∈ t.query, Coded plainQueryChars q
  fragment : ∀ f ∈ t.fragment, Coded plainQueryChars f

/-- A token as the name, and a value on one line. -/
structure HeaderLine.Plain (l : HeaderLine) : Prop where
  name : ByteClass.Of headerChars l.name
  name_ne_nil : l.name ≠ []
  blanks : ∀ b ∈ l.blanks, b ∈ [9, 32]
  value : ByteClass.Of valueChars l.value
  value_start : ∀ b ∈ l.value.head?, b ∉ [9, 32]

/-- The text of a request for the method `m`. -/
structure RequestText.Plain (t : RequestText) (m : HttpMethod) : Prop where
  method : bytes (HttpMethodToString m) = t.method
  token : MethodToken t.method
  target : t.target.Plain
  minor : t.minor = 48 ∨ t.minor = 49
  lines : ∀ l ∈ t.lines, l.Plain

/-! ## The table over plain texts -/

/-- The state behind so many characters of a method. -/
def methodState (n : Nat) : Nat := if n = 1 then 2 else 173 + n

/-- What may be behind a path, with its actions and the state there. -/
def pathEnds : List (UInt8 × List Action × Nat) :=
  [(32, [.request_path, .request_uri], 4), (35, [.request_path, .request_uri], 20),
   (63, [.request_path], 29)]

/-- What is behind a query. -/
def queryEnds : List (UInt8 × List Action × Nat) :=
  [(32, [.query_string, .request_uri], 4), (35, [.query_string, .request_uri], 20)]

/-- A byte that ends a line, with the state behind it. -/
def lineEnds : List (UInt8 × Nat) := [(10, 13), (13, 17)]

/-- What a table does over plain texts. -/
structure TakesPlain (T : Table Action) : Prop where
  slash : T.step 3 47 = some ([.mark], 33)
  path : takesCoded T plainPathChars (fun b => plainPathChars.has b && b ≠ 47) [] 33 26 = true
  path_ends : ∀ x ∈ pathEnds, T.step 33 x.1 = some x.2 ∧ T.step 26 x.1 = some x.2
  query : takesCoded T plainQueryChars plainQueryChars.has [.start_query] 29 30 = true
  query_ends : ∀ x ∈ queryEnds, T.step 29 x.1 = some (.start_query :: x.2.1, x.2.2) ∧
    T.step 30 x.1 = some x.2
  fragment : takesCoded T plainQueryChars plainQueryChars.has [.mark] 20 21 = true
  fragment_ends : T.step 20 32 = some ([.mark, .fragment], 4) ∧ T.step 21 32 = some ([.fragment], 4)
  method : T.leads http_parser_start Known.tokenChars.has [.mark] (methodState 1) = true ∧
    (∀ n < 19, T.leads (methodState (n + 1)) Known.tokenChars.has [] (methodState (n + 2)) = true) ∧
    ∀ n < 20, T.step (methodState (n + 1)) 32 = some ([.request_method], 3)
  version : ∀ minor ∈ [48, 49], ∀ x ∈ lineEnds,
    T.step 4 72 = some ([.mark], 5) ∧ quiet T.step 5 ((versionText minor).drop 1) = some 12 ∧
      T.step 12 x.1 = some ([.http_version], x.2)
  name : T.leads 13 headerChars.has [.start_field] 14 = true ∧
    T.leads 14 headerChars.has [] 14 = true ∧ T.step 14 58 = some ([.write_field], 15)
  value : T.leads 15 (fun b => valueChars.has b && b ≠ 9 && b ≠ 32) [.start_value] 16 = true ∧
    T.leads 16 valueChars.has [] 16 = true
  value_ends : ∀ x ∈ lineEnds, T.step 15 x.1 = some ([.start_value, .write_value], x.2) ∧
    T.step 16 x.1 = some ([.write_value], x.2)
  newline : T.step 17 10 = some ([], 13)

theorem table_takesPlain (r : Bool) : TakesPlain (http_parser_table r) := by
  constructor <;> revert r <;> decide +kernel

/-! ## Runs over plain texts -/

section Runs

variable (r : Bool)

theorem path_run {path : Bytes} (h : PlainPath path) {c : UInt8} {acts : List Action} {s' : Nat}
    (hx : (c, acts, s') ∈ pathEnds) :
    ∃ s₂, FieldRun (http_parser_table r).step [.mark] 3 path s₂ c acts s' := by
  obtain ⟨hcoded, hslash, hsingle⟩ := h
  obtain ⟨hfirst, hhome⟩ := (table_takesPlain r).path_ends _ hx
  cases path with
  | nil => cases hslash
  | cons b u =>
      cases hslash
      have hu : Coded plainPathChars u := by
        cases hcoded with
        | char _ hu => exact hu
      have hp : ∀ b ∈ u.head?, plainPathChars.has b = true →
          (plainPathChars.has b && b ≠ 47) = true := by
        intro b hb hhas
        rw [hhas, Bool.true_and, decide_eq_true_eq]
        rintro rfl
        exact hsingle hb
      obtain ⟨s₂, hrun⟩ := fieldRun_coded (table_takesPlain r).path hu hp hfirst hhome
      exact ⟨s₂, hrun.cons (table_takesPlain r).slash⟩

theorem query_run {q : Bytes} (h : Coded plainQueryChars q) {c : UInt8} {acts : List Action}
    {s' : Nat} (hx : (c, acts, s') ∈ queryEnds) :
    ∃ s₂, FieldRun (http_parser_table r).step [.start_query] 29 q s₂ c acts s' := by
  obtain ⟨hfirst, hhome⟩ := (table_takesPlain r).query_ends _ hx
  exact fieldRun_coded (table_takesPlain r).query h (fun _ _ hb => hb) hfirst hhome

theorem fragment_run {f : Bytes} (h : Coded plainQueryChars f) :
    ∃ s₂, FieldRun (http_parser_table r).step [.mark] 20 f s₂ 32 [.fragment] 4 := by
  obtain ⟨hfirst, hhome⟩ := (table_takesPlain r).fragment_ends
  exact fieldRun_coded (table_takesPlain r).fragment h (fun _ _ hb => hb) hfirst hhome

theorem method_run {method : Bytes} (h : MethodToken method) :
    ∃ s₂, FieldRun (http_parser_table r).step [.mark] http_parser_start method s₂ 32
      [.request_method] 3 := by
  obtain ⟨hfirst, hinside, hspace⟩ := (table_takesPlain r).method
  have hchars : ∀ c ∈ method, Known.tokenChars.has c = true := fun c hc => by
    simp only [Known.tokenChars, ByteClass.has, List.any_cons, List.any_nil, Bool.or_false,
      Bool.or_eq_true, Bool.and_eq_true, decide_eq_true_eq]
    exact (h.chars c hc).symm
  have hquiet : ∀ {u : Bytes} {n : Nat}, (∀ c ∈ u, Known.tokenChars.has c = true) →
      n + u.length < 20 →
      quiet (http_parser_table r).step (methodState (n + 1)) u =
        some (methodState (n + 1 + u.length)) := by
    intro u
    induction u with
    | nil => exact fun _ _ => rfl
    | cons b u ih =>
        intro n hu hlen
        obtain ⟨hb, hu⟩ := List.forall_mem_cons.mp hu
        rw [List.length_cons] at hlen
        have hstep : (http_parser_table r).step (methodState (n + 1)) b =
            some ([], methodState (n + 2)) := Table.step_of_leads (hinside n (by omega)) hb
        have hrest := ih (n := n + 1) hu (by omega)
        rw [show n + 1 + (b :: u).length = n + 1 + 1 + u.length by rw [List.length_cons]; omega]
        exact (quiet_cons u hstep).trans hrest
  cases method with
  | nil => exact absurd h.pos (by decide)
  | cons b u =>
      obtain ⟨hb, hu⟩ := List.forall_mem_cons.mp hchars
      have hlen := h.le
      rw [List.length_cons] at hlen
      refine ⟨methodState (0 + 1 + u.length), methodState 1, Table.step_of_leads hfirst hb,
        hquiet hu (by omega), ?_⟩
      rw [Nat.zero_add, Nat.add_comm]
      exact hspace _ (by omega)

theorem name_run {name : Bytes} (hname : ByteClass.Of headerChars name) (hne : name ≠ []) :
    ∃ s₂, FieldRun (http_parser_table r).step [.start_field] 13 name s₂ 58 [.write_field] 15 := by
  obtain ⟨hfirst, hinside, hcolon⟩ := (table_takesPlain r).name
  cases name with
  | nil => exact absurd rfl hne
  | cons b u =>
      obtain ⟨hb, hu⟩ := List.forall_mem_cons.mp hname
      exact ⟨14, 14, Table.step_of_leads hfirst hb,
        quiet_of_stays (P := fun b => headerChars.has b = true)
          (fun _ hb => Table.step_of_leads hinside hb) hu, hcolon⟩

theorem value_run {value : Bytes} (hvalue : ByteClass.Of valueChars value)
    (hstart : ∀ b ∈ value.head?, b ∉ [9, 32]) {c : UInt8} {s' : Nat}
    (hx : (c, s') ∈ lineEnds) :
    ∃ s₂, FieldRun (http_parser_table r).step [.start_value] 15 value s₂ c [.write_value] s' := by
  obtain ⟨hfirst, hinside⟩ := (table_takesPlain r).value
  obtain ⟨hempty, hout⟩ := (table_takesPlain r).value_ends _ hx
  cases value with
  | nil => exact ⟨15, rfl, hempty⟩
  | cons b u =>
      obtain ⟨hb, hu⟩ := List.forall_mem_cons.mp hvalue
      refine ⟨16, 16, Table.step_of_leads hfirst ?_,
        quiet_of_stays (P := fun b => valueChars.has b = true)
          (fun _ hb => Table.step_of_leads hinside hb) hu, hout⟩
      have hblank := hstart b rfl
      rw [List.mem_pair, not_or] at hblank
      rw [hb, Bool.true_and, Bool.and_eq_true, decide_eq_true_eq, decide_eq_true_eq]
      exact hblank

end Runs

/-! ## Reading plain texts -/

section Parts

variable {E : Env μ} {r : Bool} {buffer : Bytes} {p : Nat} {parser : HttpRequestParser μ}
  (hstep : E.machine.step = (http_parser_table r).step)
  (hmax : buffer.length ≤ 9223372036854775807)

include hstep

/-- A part that a line end ends. -/
theorem reads_line_end {u : Bytes} {data : HttpRequest μ} {cr : Bool}
    (h : ∀ c s', (c, s') ∈ lineEnds → Lies buffer p (u ++ [c]) →
      Reads E buffer p parser (u ++ [c]) s' data)
    (hlies : Lies buffer p (u ++ lineEnd cr)) :
    Reads E buffer p parser (u ++ lineEnd cr) 13 data := by
  cases cr with
  | false => exact h 10 13 (by decide) hlies
  | true =>
      have htext : u ++ lineEnd true = (u ++ [13]) ++ [10] := by
        rw [List.append_assoc]
        rfl
      rw [htext] at hlies ⊢
      refine (h 13 17 (by decide) hlies.left).trans fun parser' hcs hdata => ?_
      have hquiet : quiet E.machine.step parser'.mParser.cs [10] = some 13 := by
        rw [hstep, hcs]
        exact quiet_cons [] (table_takesPlain r).newline
      rw [← hdata]
      exact reads_quiet hquiet

theorem reads_plain_version {minor : UInt8} {cr : Bool} (hminor : minor = 48 ∨ minor = 49)
    (hlies : Lies buffer p (versionText minor ++ lineEnd cr)) (hcs : parser.mParser.cs = 4) :
    Reads E buffer p parser (versionText minor ++ lineEnd cr) 13
      { parser.m_data with m_version := versionOf minor } := by
  refine reads_line_end hstep (fun c s' hx hlies => ?_) hlies
  obtain ⟨hfirst, hquiet, hout⟩ :=
    (table_takesPlain r).version minor (List.mem_pair.mpr hminor) _ hx
  have hrun : FieldRun E.machine.step [.mark] parser.mParser.cs (versionText minor) 12 c
      [.http_version] s' := by
    rw [hstep, hcs]
    exact ⟨5, hfirst, hquiet, hout⟩
  exact reads_version hlies hminor rfl hrun

include hmax

theorem reads_plain_line {l : HeaderLine} (hl : l.Plain) (hlies : Lies buffer p l.text)
    (hcs : parser.mParser.cs = 13) :
    Reads E buffer p parser l.text 13 (parser.m_data.received E l.name l.value) := by
  obtain ⟨name, blanks, value, cr⟩ := l
  have htext : ∀ e : Bytes, name ++ 58 :: (blanks ++ (value ++ e)) =
      name ++ 58 :: (blanks ++ value) ++ e := by
    intro e
    simp only [List.append_assoc, List.cons_append]
  rw [HeaderLine.text, htext] at hlies ⊢
  refine reads_line_end hstep (fun c s' hx hlies => ?_) hlies
  obtain ⟨s₁, hname⟩ := name_run r hl.name hl.name_ne_nil
  obtain ⟨s₂, hvalue⟩ := value_run r hl.value hl.value_start hx
  rw [← hstep] at hname hvalue
  rw [← hcs] at hname
  rw [← htext] at hlies ⊢
  refine reads_line hmax hname (fun b hb => ?_) hvalue hl.name_ne_nil hlies
  rw [hstep]
  exact (table_divides r).blank b (hl.blanks b hb)

/-- The header lines, and the empty line behind them. -/
theorem plain_lines_finish {lines : List HeaderLine} (hlines : ∀ l ∈ lines, l.Plain) {last : Bool}
    (hlies : Lies buffer p (lines.flatMap HeaderLine.text ++ lineEnd last))
    (hcs : parser.mParser.cs = 13) :
    Finishes E buffer p parser (lines.flatMap HeaderLine.text ++ lineEnd last)
      (lines.foldl (fun req l => req.received E l.name l.value) parser.m_data) := by
  induction lines generalizing p parser with
  | nil => exact line_end_finishes hstep hcs last
  | cons l lines ih =>
      obtain ⟨hl, hlines⟩ := List.forall_mem_cons.mp hlines
      rw [List.flatMap_cons, List.append_assoc] at hlies ⊢
      obtain ⟨parser', hconsumes, hcs', hdata⟩ := reads_plain_line hstep hmax hl hlies.left hcs
      have hrest := ih hlines hlies.right hcs'
      rw [hdata] at hrest
      exact hconsumes.finishes hrest

theorem reads_plain_fragment {f : Bytes} (hf : Coded plainQueryChars f)
    (hlies : Lies buffer p (f ++ [32])) (hcs : parser.mParser.cs = 20) :
    Reads E buffer p parser (f ++ [32]) 4 { parser.m_data with m_fragment := f } := by
  obtain ⟨s₂, hrun⟩ := fragment_run r hf
  rw [← hstep, ← hcs] at hrun
  exact reads_fragment hmax hlies hrun

/-- A part that a space or a fragment ends. -/
theorem reads_tail {u : Bytes} {data : HttpRequest μ} {fragment : Option Bytes}
    (hspace : Lies buffer p (u ++ [32]) → Reads E buffer p parser (u ++ [32]) 4 data)
    (hhash : Lies buffer p (u ++ [35]) → Reads E buffer p parser (u ++ [35]) 20 data)
    (hfragment : ∀ f ∈ fragment, Coded plainQueryChars f)
    (hlies : Lies buffer p (u ++ (optional 35 fragment ++ [32]))) :
    Reads E buffer p parser (u ++ (optional 35 fragment ++ [32])) 4
      { data with m_fragment := fragment.getD data.m_fragment } := by
  cases fragment with
  | none => exact hspace hlies
  | some f =>
      have htext : u ++ (optional 35 (some f) ++ [32]) = (u ++ [35]) ++ (f ++ [32]) := by
        rw [List.append_assoc]
        rfl
      rw [htext] at hlies ⊢
      refine (hhash hlies.left).trans fun parser' hcs hdata => ?_
      rw [← hdata]
      exact reads_plain_fragment hstep hmax (hfragment f rfl) hlies.right hcs

theorem reads_plain_query {q : Bytes} {fragment : Option Bytes} (hq : Coded plainQueryChars q)
    (hfragment : ∀ f ∈ fragment, Coded plainQueryChars f)
    (hlies : Lies buffer p (q ++ (optional 35 fragment ++ [32]))) (hcs : parser.mParser.cs = 29) :
    Reads E buffer p parser (q ++ (optional 35 fragment ++ [32])) 4
      { parser.m_data with
        m_query := q
        m_fragment := fragment.getD parser.m_data.m_fragment } := by
  have hquery : ∀ c s', (c, [.query_string, .request_uri], s') ∈ queryEnds →
      Lies buffer p (q ++ [c]) →
      Reads E buffer p parser (q ++ [c]) s' { parser.m_data with m_query := q } := by
    intro c s' hx hlies
    obtain ⟨s₂, hrun⟩ := query_run r hq hx
    rw [← hstep, ← hcs] at hrun
    exact reads_query hmax hlies hrun
  exact reads_tail hstep hmax (hquery 32 4 (by decide)) (hquery 35 20 (by decide)) hfragment hlies

theorem reads_plain_target {t : Target} (ht : t.Plain) (hlies : Lies buffer p (t.text ++ [32]))
    (hcs : parser.mParser.cs = 3) :
    Reads E buffer p parser (t.text ++ [32]) 4 (t.apply parser.m_data) := by
  obtain ⟨scheme, path, query, fragment⟩ := t
  obtain ⟨rfl, hpath, hquery, hfragment⟩ := ht
  have hend : ∀ c acts s', (c, .request_path :: acts, s') ∈ pathEnds →
      acts = [] ∨ acts = [.request_uri] → Lies buffer p (path ++ [c]) →
      Reads E buffer p parser (path ++ [c]) s' { parser.m_data with m_path := path } := by
    intro c acts s' hx hacts hlies
    obtain ⟨s₂, hrun⟩ := path_run r hpath hx
    rw [← hstep, ← hcs] at hrun
    exact reads_path hmax hlies hrun hacts
  rw [Target.text_path] at hlies ⊢
  cases query with
  | none =>
      exact reads_tail hstep hmax (hend 32 _ 4 (by decide) (.inr rfl))
        (hend 35 _ 20 (by decide) (.inr rfl)) hfragment hlies
  | some q =>
      have htext : path ++ (optional 63 (some q) ++ (optional 35 fragment ++ [32])) =
          (path ++ [63]) ++ (q ++ (optional 35 fragment ++ [32])) := by
        rw [List.append_assoc]
        rfl
      rw [htext] at hlies ⊢
      refine (hend 63 _ 29 (by decide) (.inl rfl) hlies.left).trans fun parser' hcs' hdata => ?_
      have hread := reads_plain_query hstep hmax (hquery q rfl) hfragment hlies.right hcs'
      rw [hdata] at hread
      exact hread

end Parts

/-! ## Accepting them -/

section Accepted

variable {E : Env μ} {r : Bool} (hM : E.machine = requestMachine r)

include hM

/-- A loop that ends with the block accepts it. -/
theorem accepted_of_finishes {h : Bytes} {data : HttpRequest μ}
    (hmax : h.length ≤ 9223372036854775807) (hfinish : Finishes E h 0 (.new E) h data) :
    ∃ parser, http_parser_execute E h h.length (.new E) = .ok (parser, h.length) ∧
      parser.isFinished = 1 ∧ parser.hasError = false ∧ parser.m_data = data := by
  obtain ⟨parser, hexec, hfinal, hdata, herror⟩ := hfinish
  rw [Nat.zero_add] at hexec
  have hpos : 0 < h.length := by
    rw [List.length_pos_iff]
    rintro rfl
    cases hexec
    exact absurd hfinal (show ¬http_parser_first_final ≤ http_parser_start by decide)
  have hnread : parser.mParser.nread = 0 := (exec_kept hexec).1
  have htake : exec E h (h.take h.length) 0 (.new E) = .ok (parser, h.length) := by
    rw [List.take_length]
    exact hexec
  have hrun := execute_of_exec (by omega) htake
  have hcut : ¬Cut h h.length := by
    intro hcut
    rw [execute_cut hM hcut (Nat.le_refl _)] at hrun
    split at hrun <;> cases hrun
  obtain ⟨parser', p, hexec', hin⟩ := exec_first hM hpos (Nat.le_refl _) hmax hcut
  rw [htake] at hexec'
  cases hexec'
  rw [if_pos hin, hnread, Nat.zero_add] at hrun
  refine ⟨_, hrun, isFinished_eq_one.mpr hfinal, ?_, hdata⟩
  rw [HttpRequestParser.hasError, herror, Bool.or_eq_false_iff]
  refine ⟨rfl, decide_eq_false fun hzero => ?_⟩
  rw [hzero] at hfinal
  exact absurd hfinal (by decide)

omit hM in
/-- The text of a method that is a token is recognised. -/
theorem method_recognised {method : Bytes} (h : MethodToken method) {m : HttpMethod}
    (hm : bytes (HttpMethodToString m) = method) (parser : HttpRequestParser μ) (rest : Bytes) :
    on_request_method (method ++ 32 :: rest) 0 method.length parser =
      .ok { parser with m_data.m_method := m } := by
  have hmem : (m, HttpMethodToString m) ∈ HTTP_METHOD_MAP := by
    refine (mem_of_HttpMethodToString m).resolve_right fun hunknown => ?_
    rw [hunknown] at hm
    exact absurd (h.chars 60 (by rw [← hm]; decide)) (by decide)
  refine ((recognises_iff h parser [] rest).mpr ⟨fun e he hpre => ?_, fun hM => ?_⟩).known m hm
  · rw [prefix_free e he _ hmem (by rw [hm]; exact hpre), hm]
  · have hlen := (table_texts _ hmem).2.1
    rw [hm, hM] at hlen
    exact absurd hlen (by decide)

/-- The loop goes over a plain text to its end. -/
theorem plain_finishes {t : RequestText} {m : HttpMethod} (ht : t.Plain m)
    (hmax : t.text.length ≤ 9223372036854775807) :
    Finishes E t.text 0 (.new E) t.text (t.value E m) := by
  have hstep : E.machine.step = (http_parser_table r).step := by
    rw [hM]
    rfl
  obtain ⟨rest, hrest⟩ : ∃ rest, rest = t.target.text ++ [32] ++
      (versionText t.minor ++ lineEnd t.cr ++
        (t.lines.flatMap HeaderLine.text ++ lineEnd t.last)) := ⟨_, rfl⟩
  have htext : t.text = t.method ++ 32 :: rest := by
    rw [hrest, RequestText.text]
    simp only [List.append_assoc, List.cons_append, List.nil_append]
  have hlies : Lies t.text 0 (t.method ++ [32] ++ rest) := by
    rw [List.append_assoc, List.singleton_append, ← htext]
    exact List.prefix_rfl
  -- the method
  obtain ⟨s₂, hmethod⟩ := method_run r ht.token
  have hrun : FieldRun E.machine.step [.mark] (HttpRequestParser.new E).mParser.cs t.method s₂ 32
      [.request_method] 3 := by
    rw [hstep]
    exact hmethod
  let parser : HttpRequestParser μ :=
    { HttpRequestParser.new E with mParser.mark := 0, m_data.m_method := m }
  have hcall : on_request_method t.text 0 t.method.length
      { HttpRequestParser.new E with mParser.mark := 0 } = .ok parser := by
    rw [htext]
    exact method_recognised ht.token ht.method _ rest
  have hexec : exec E t.text t.text 0 (.new E) =
      exec E t.text rest (0 + t.method.length + 1) (parser.inState 3) := by
    have hfield := exec_method hlies.left hrun rest
    rw [hcall, ← htext] at hfield
    exact hfield
  -- the target, the version and the header lines
  have hlies₁ : Lies t.text (0 + t.method.length + 1) rest := by
    have hright := hlies.right
    rw [List.length_append, List.length_singleton, ← Nat.add_assoc] at hright
    exact hright
  rw [hrest] at hlies₁
  have hcs : (parser.inState 3).mParser.cs = 3 := rfl
  obtain ⟨parser₁, hconsumes₁, hcs₁, hdata₁⟩ :=
    reads_plain_target hstep hmax ht.target hlies₁.left hcs
  obtain ⟨parser₂, hconsumes₂, hcs₂, hdata₂⟩ :=
    reads_plain_version hstep ht.minor hlies₁.right.left hcs₁
  have hfinish := plain_lines_finish hstep hmax ht.lines hlies₁.right.right hcs₂
  obtain ⟨parser₃, hexec₃, hfinal, hdata₃, herror⟩ :=
    hconsumes₁.finishes (hconsumes₂.finishes hfinish)
  rw [← hrest] at hexec₃
  refine ⟨parser₃, ?_, hfinal, ?_, herror⟩
  · rw [hexec, hexec₃, htext, List.length_append, List.length_cons]
    congr 2
    omega
  · rw [hdata₃, hdata₂, hdata₁]
    rfl

end Accepted

theorem method_token {m : HttpMethod} (hsearch : m ≠ .MSEARCH) (hinvalid : m ≠ .INVALID_METHOD) :
    MethodToken (bytes (HttpMethodToString m)) := by
  have hmem : (m, HttpMethodToString m) ∈ HTTP_METHOD_MAP := by
    refine (mem_of_HttpMethodToString m).resolve_right fun hunknown => ?_
    revert hunknown
    cases m <;> first | contradiction | decide +kernel
  have htexts : ∀ e ∈ HTTP_METHOD_MAP, e.1 ≠ .MSEARCH →
      1 ≤ (bytes e.2).length ∧ (bytes e.2).length ≤ 20 ∧
        ∀ c ∈ bytes e.2, 65 ≤ c ∧ c ≤ 90 ∨ 48 ≤ c ∧ c ≤ 57 := by
    decide +kernel
  obtain ⟨hpos, hle, hchars⟩ := htexts _ hmem hsearch
  exact ⟨hpos, hle, hchars⟩

end Muqiu.Http
