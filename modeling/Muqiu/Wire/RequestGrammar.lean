import Muqiu.Http.Request
import Muqiu.Wire.RequestText

/-!
# What the request parser accepts

Every block that the parser accepts is the text of well-formed parts, and the request is their
value, but for the blocks that start with `<` or `@`, where the table takes another form of request.
Where the loop stands in front of bytes that end the block (`Stands`), it takes the next part of
them (`Takes`) and leaves it in the request.
-/

namespace Muqiu.Http

open Fallible (bind_ok_iff)
open Transducer (Edge Table FieldStates FieldRun Ends ByteClass)

variable {μ : Type}

/-! ## Reading the parts -/

/-- The loop is at `p` with the bytes `bs` in front of it, which end the block. -/
structure Stands (E : Env μ) (buffer : Bytes) (p : Nat) (parser : HttpRequestParser μ)
    (bs : Bytes) : Prop where
  lies : Lies buffer p bs
  ends : Ends E.machine.step (· = .done) parser.mParser.cs bs

/-- The bytes start with `text`, and the loop goes on behind it. -/
def Takes (E : Env μ) (buffer : Bytes) (p : Nat) (parser : HttpRequestParser μ)
    (bs text : Bytes) (cs : Nat) (data : HttpRequest μ) : Prop :=
  ∃ rest parser', bs = text ++ rest ∧ Consumes E buffer p parser text parser' ∧
    Stands E buffer (p + text.length) parser' rest ∧ parser'.mParser.cs = cs ∧ parser'.m_data = data

section Parts

variable {E : Env μ} {r : Bool} {buffer bs : Bytes} {p : Nat} {parser : HttpRequestParser μ}

theorem Reads.takes {text rest : Bytes} {cs : Nat} {data : HttpRequest μ}
    (h : Reads E buffer p parser text cs data) (hs : Stands E buffer p parser (text ++ rest))
    (hends : Ends E.machine.step (· = .done) cs rest) :
    Takes E buffer p parser (text ++ rest) text cs data := by
  obtain ⟨parser', hconsumes, rfl, hdata⟩ := h
  exact ⟨rest, parser', rfl, hconsumes, ⟨hs.lies.right, hends⟩, rfl, hdata⟩

theorem Takes.trans {text text' : Bytes} {cs' : Nat} {data' : HttpRequest μ} {rest : Bytes}
    {parser' : HttpRequestParser μ} (heq : bs = text ++ rest)
    (hconsumes : Consumes E buffer p parser text parser')
    (h : Takes E buffer (p + text.length) parser' rest text' cs' data') :
    Takes E buffer p parser bs (text ++ text') cs' data' := by
  obtain ⟨rest', parser'', rfl, hconsumes', hs, hcs, hdata⟩ := h
  refine ⟨rest', parser'', ?_, hconsumes.trans hconsumes', ?_, hcs, hdata⟩
  · rw [heq, List.append_assoc]
  · rw [List.length_append, ← Nat.add_assoc]
    exact hs

/-- The loop goes through a field and out by the edge `x` at the byte `c`. -/
structure Meets (E : Env μ) (buffer : Bytes) (p : Nat) (parser : HttpRequestParser μ) (bs : Bytes)
    (F : FieldStates Action) (u : Bytes) (s₂ : Nat) (c : UInt8) (x : Edge Action) (rest : Bytes) :
    Prop where
  eq : bs = u ++ [c] ++ rest
  chars : ByteClass.Of F.chars u
  run : FieldRun E.machine.step F.enter parser.mParser.cs u s₂ c x.acts x.next
  inside : u ≠ [] → F.inside s₂ = true
  exit : x ∈ F.exits s₂
  covers : x.covers c = true
  lies : Lies buffer p (u ++ [c])
  stands : .done ∉ x.acts → ∀ parser' : HttpRequestParser μ, parser'.mParser.cs = x.next →
    Stands E buffer (p + (u ++ [c]).length) parser' rest

theorem Meets.takes {F : FieldStates Action} {u rest : Bytes} {s₂ : Nat} {c : UInt8}
    {x : Edge Action} {data : HttpRequest μ} (h : Meets E buffer p parser bs F u s₂ c x rest)
    (hno : .done ∉ x.acts) (hreads : Reads E buffer p parser (u ++ [c]) x.next data) :
    Takes E buffer p parser bs (u ++ [c]) x.next data := by
  obtain ⟨parser', hconsumes, hcs, hdata⟩ := hreads
  exact ⟨rest, parser', h.eq, hconsumes, h.stands hno parser' hcs, hcs, hdata⟩

variable (hstep : E.machine.step = (http_parser_table r).step)

include hstep

theorem exists_meets {F : FieldStates Action} (hcheck : F.check (http_parser_table r) = true)
    (hno : ∀ a ∈ F.enter, ¬a = .done) (hs : Stands E buffer p parser bs)
    (hfirst : F.first parser.mParser.cs = true) :
    ∃ u s₂ c x rest, Meets E buffer p parser bs F u s₂ c x rest := by
  have hends := hs.ends
  rw [hstep] at hends
  obtain ⟨u, s₂, c, rest, x, hsplit⟩ := FieldStates.exists_split hcheck hno hfirst hends
  have heq : bs = u ++ [c] ++ rest := by rw [hsplit.eq, List.append_assoc]; rfl
  have hlies := hs.lies
  rw [heq] at hlies
  refine ⟨u, s₂, c, x, rest, heq, hsplit.chars, hstep ▸ hsplit.run, hsplit.inside, hsplit.exit,
    hsplit.covers, hlies.left, fun hdone parser' hcs => ⟨hlies.right, ?_⟩⟩
  rw [hstep, hcs]
  exact hsplit.ends fun a ha heq => hdone (heq ▸ ha)

/-- The line feed behind a carriage return. -/
theorem newline_takes (hs : Stands E buffer p parser bs) (hcs : parser.mParser.cs = 17) :
    Takes E buffer p parser bs [10] 13 parser.m_data := by
  have hends := hs.ends
  rw [hstep, hcs] at hends
  obtain ⟨u, rest, rfl, hcovers, hquiet, hrest⟩ :=
    Table.exists_of_only (table_divides r).newline hends
  cases hcovers with
  | cons hcover hnil =>
      cases hnil
      obtain rfl := eq_of_covers (c := 10) hcover
      rw [← hstep, ← hcs] at hquiet
      exact (reads_quiet hquiet).takes hs (hstep ▸ hrest)

/-- The end of a line behind its last part. -/
theorem line_end_takes {u rest : Bytes} {c : UInt8} {s : Nat} {data : HttpRequest μ}
    (hreads : Reads E buffer p parser (u ++ [c]) s data)
    (hs : Stands E buffer p parser (u ++ [c] ++ rest))
    (hends : Ends E.machine.step (· = .done) s rest) (hc : c = 10 ∧ s = 13 ∨ c = 13 ∧ s = 17) :
    ∃ cr, Takes E buffer p parser (u ++ [c] ++ rest) (u ++ lineEnd cr) 13 data := by
  rcases hc with ⟨rfl, rfl⟩ | ⟨rfl, rfl⟩
  · exact ⟨false, hreads.takes hs hends⟩
  · refine ⟨true, ?_⟩
    obtain ⟨rest', parser', heq, hconsumes, hs', hcs', rfl⟩ := hreads.takes hs hends
    have hall := Takes.trans heq hconsumes (newline_takes hstep hs' hcs')
    rw [List.append_assoc u [13] [10]] at hall
    exact hall

/-- The version, and the end of its line. -/
theorem version_takes (hs : Stands E buffer p parser bs) (hcs : parser.mParser.cs = 4) :
    ∃ (minor : UInt8) (cr : Bool), (minor = 48 ∨ minor = 49) ∧
      Takes E buffer p parser bs (versionText minor ++ lineEnd cr) 13
        { parser.m_data with m_version := versionOf minor } := by
  have hends := hs.ends
  rw [hstep, hcs] at hends
  -- the letter that is marked, the other characters, and the byte behind them
  cases bs with
  | nil => exact hends.elim
  | cons b bs =>
      obtain ⟨acts, s₁, hfirst, -⟩ := id hends
      obtain ⟨e, he, hcover, rfl, rfl⟩ :=
        Table.step_of_choices (table_divides r).version_first hfirst
      obtain rfl := List.mem_singleton.mp he
      obtain rfl := eq_of_covers (c := 72) hcover
      obtain ⟨u, rest, rfl, hcovers, hquiet, hrest⟩ :=
        Table.exists_of_only (table_divides r).version (hends.of_step hfirst (by decide))
      obtain ⟨minor, hminor, hu⟩ := versionEdges_text hcovers
      cases rest with
      | nil => exact hrest.elim
      | cons c rest =>
          obtain ⟨acts, s₂, hlast, -⟩ := id hrest
          obtain ⟨e, he, hcover, rfl, rfl⟩ :=
            Table.step_of_choices (table_divides r).version_exits hlast
          have hacts : e.acts = [.http_version] ∧
              (c = 10 ∧ e.next = 13 ∨ c = 13 ∧ e.next = 17) := by
            rcases List.mem_pair.mp he with rfl | rfl
            · exact ⟨rfl, .inl ⟨eq_of_covers (c := 10) hcover, rfl⟩⟩
            · exact ⟨rfl, .inr ⟨eq_of_covers (c := 13) hcover, rfl⟩⟩
          have hno : ∀ a ∈ e.acts, ¬a = .done := by
            rw [hacts.1]
            decide
          have hend := hrest.of_step hlast hno
          rw [hacts.1] at hlast
          have hrun : FieldRun E.machine.step [.mark] parser.mParser.cs (72 :: u) 12 c
              [.http_version] e.next := by
            rw [hstep, hcs]
            exact ⟨5, hfirst, hquiet, hlast⟩
          have heq : 72 :: (u ++ c :: rest) = (72 :: u) ++ [c] ++ rest := by
            rw [List.append_assoc]
            rfl
          rw [heq] at hs ⊢
          have hreads := reads_version hs.lies.left hminor hu hrun
          obtain ⟨cr, htakes⟩ := line_end_takes hstep hreads hs (hstep ▸ hend) hacts.2
          rw [hu] at htakes
          exact ⟨minor, cr, hminor, hu ▸ htakes⟩

variable (hmax : buffer.length ≤ 9223372036854775807)

include hmax

theorem fragment_takes (hs : Stands E buffer p parser bs) (hcs : parser.mParser.cs = 20) :
    ∃ f, ByteClass.Of queryChars f ∧
      Takes E buffer p parser bs (f ++ [32]) 4 { parser.m_data with m_fragment := f } := by
  obtain ⟨f, s₂, c, x, rest, h⟩ :=
    exists_meets hstep (table_divides r).fragment (by decide) hs (by rw [hcs]; rfl)
  obtain rfl := List.mem_singleton.mp h.exit
  obtain rfl := eq_of_covers (c := 32) h.covers
  exact ⟨f, h.chars, h.takes (by decide) (reads_fragment hmax h.lies h.run)⟩

/-- What is behind a path or a query that a space or a fragment ends. -/
theorem Meets.tail {F : FieldStates Action} {u rest : Bytes} {s₂ : Nat} {c : UInt8}
    {x : Edge Action} {acts : List Action} {data : HttpRequest μ}
    (h : Meets E buffer p parser bs F u s₂ c x rest)
    (hx : x = ⟨32, 32, acts, 4⟩ ∨ x = ⟨35, 35, acts, 20⟩) (hno : .done ∉ acts)
    (hreads : Reads E buffer p parser (u ++ [c]) x.next data) :
    ∃ fragment : Option Bytes, (∀ f ∈ fragment, ByteClass.Of queryChars f) ∧
      Takes E buffer p parser bs (u ++ (optional 35 fragment ++ [32])) 4
        { data with m_fragment := fragment.getD data.m_fragment } := by
  rcases hx with rfl | rfl
  · obtain rfl := eq_of_covers (c := 32) h.covers
    refine ⟨none, fun f hf => absurd hf (Option.not_mem_none f), ?_⟩
    exact h.takes hno hreads
  · obtain rfl := eq_of_covers (c := 35) h.covers
    obtain ⟨rest, parser', heq, hconsumes, hs, hcs, rfl⟩ := h.takes hno hreads
    obtain ⟨f, hf, htakes⟩ := fragment_takes hstep hmax hs hcs
    refine ⟨some f, fun g hg => Option.some.inj hg ▸ hf, ?_⟩
    have hall := Takes.trans heq hconsumes htakes
    rw [List.append_assoc] at hall
    exact hall

/-- A query, and a fragment behind it. -/
theorem query_takes (hs : Stands E buffer p parser bs) (hcs : parser.mParser.cs = 29) :
    ∃ (q : Bytes) (fragment : Option Bytes), ByteClass.Of queryChars q ∧
      (∀ f ∈ fragment, ByteClass.Of queryChars f) ∧
      Takes E buffer p parser bs (q ++ (optional 35 fragment ++ [32])) 4
        { parser.m_data with
          m_query := q
          m_fragment := fragment.getD parser.m_data.m_fragment } := by
  obtain ⟨q, s₂, c, x, rest, h⟩ :=
    exists_meets hstep (table_divides r).query (by decide) hs (by rw [hcs]; rfl)
  have hx : x = ⟨32, 32, [.query_string, .request_uri], 4⟩ ∨
      x = ⟨35, 35, [.query_string, .request_uri], 20⟩ := by
    simpa [queryField] using h.exit
  have hacts : x.acts = [.query_string, .request_uri] := by
    rcases hx with rfl | rfl <;> rfl
  have hrun := h.run
  rw [hacts] at hrun
  obtain ⟨fragment, hfragment, htakes⟩ :=
    h.tail hstep hmax hx (by decide) (reads_query hmax h.lies hrun)
  exact ⟨q, fragment, h.chars, hfragment, htakes⟩

/-- A path, and a query and a fragment behind it. -/
theorem Meets.path {F : FieldStates Action} {u rest : Bytes} {s₂ : Nat} {c : UInt8}
    {x : Edge Action} (h : Meets E buffer p parser bs F u s₂ c x rest) (henter : F.enter = [.mark])
    (hchars : F.chars = pathChars) (hx : x ∈ pathExits) :
    ∃ t : Target, t.WellFormed ∧ t.scheme = none ∧
      Takes E buffer p parser bs (t.text ++ [32]) 4 (t.apply parser.m_data) := by
  have hpath : ByteClass.Of pathChars u := hchars ▸ h.chars
  have hrun := h.run
  rw [henter] at hrun
  rw [pathExits, List.mem_cons, List.mem_cons, List.mem_singleton, ← or_assoc] at hx
  rcases hx with hx | rfl
  · have hacts : x.acts = [.request_path, .request_uri] := by
      rcases hx with rfl | rfl <;> rfl
    rw [hacts] at hrun
    obtain ⟨fragment, hfragment, htakes⟩ :=
      h.tail hstep hmax hx (by decide) (reads_path hmax h.lies hrun (.inr rfl))
    refine ⟨⟨none, u, none, fragment⟩, ⟨fun s hs => absurd hs (Option.not_mem_none s), hpath,
      fun q hq => absurd hq (Option.not_mem_none q), hfragment⟩, rfl, ?_⟩
    rw [Target.text_path, optional_none, List.nil_append]
    exact htakes
  · obtain rfl := eq_of_covers (c := 63) h.covers
    obtain ⟨rest, parser', heq, hconsumes, hs, hcs, hdata⟩ :=
      h.takes (by decide) (reads_path hmax h.lies hrun (.inl rfl))
    obtain ⟨q, fragment, hq, hfragment, htakes⟩ := query_takes hstep hmax hs hcs
    rw [hdata] at htakes
    refine ⟨⟨none, u, some q, fragment⟩, ⟨fun s hs => absurd hs (Option.not_mem_none s), hpath,
      fun q' hq' => Option.some.inj hq' ▸ hq, hfragment⟩, rfl, ?_⟩
    have hall := Takes.trans heq hconsumes htakes
    rw [List.append_assoc] at hall
    rw [Target.text_path]
    exact hall

/-- A target. -/
theorem target_takes (hs : Stands E buffer p parser bs) (hcs : parser.mParser.cs = 3) :
    ∃ t : Target, t.WellFormed ∧
      Takes E buffer p parser bs (t.text ++ [32]) 4 (t.apply parser.m_data) := by
  obtain ⟨u, s₂, c, x, rest, h⟩ :=
    exists_meets hstep (table_divides r).target (by decide) hs (by rw [hcs]; rfl)
  by_cases hx : x ∈ pathExits
  · obtain ⟨t, ht, -, htakes⟩ := h.path hstep hmax rfl rfl hx
    exact ⟨t, ht, htakes⟩
  · have hcolon : s₂ = 173 ∧ x = ⟨58, 58, [], 174⟩ := by
      have hexit := h.exit
      rw [targetField] at hexit
      dsimp only at hexit
      split at hexit
      next hs₂ => exact ⟨hs₂, (List.mem_cons.mp hexit).resolve_right hx⟩
      next => exact absurd hexit hx
    obtain ⟨rfl, rfl⟩ := hcolon
    obtain rfl := eq_of_covers (c := 58) h.covers
    have hne : u ≠ [] := by
      rintro rfl
      have hstart : 173 = parser.mParser.cs := h.run.1
      rw [hcs] at hstart
      exact absurd hstart (by decide)
    obtain ⟨rest, parser', heq, hconsumes, hs', hcs', hdata⟩ :=
      h.takes (by decide) (reads_mark h.run)
    obtain ⟨v, s₃, c, x, rest', h'⟩ :=
      exists_meets hstep (table_divides r).path (by decide) hs' (by rw [hcs']; rfl)
    obtain ⟨t, ht, hnone, htakes⟩ := h'.path hstep hmax rfl rfl h'.exit
    obtain ⟨scheme, path, query, fragment⟩ := t
    cases hnone
    refine ⟨⟨some u, path, query, fragment⟩, { ht with scheme := fun s hs => ?_ }, ?_⟩
    · cases hs
      exact ⟨hne, h.chars⟩
    · rw [hdata] at htakes
      rw [Target.text_scheme, List.append_assoc]
      exact Takes.trans heq hconsumes htakes

/-- A header line. -/
theorem line_takes (hs : Stands E buffer p parser bs) (hcs : parser.mParser.cs = 13)
    (hstart : ∀ cr, ¬lineEnd cr <+: bs) :
    ∃ l : HeaderLine, l.WellFormed ∧
      Takes E buffer p parser bs l.text 13 (parser.m_data.received E l.name l.value) := by
  have hends := hs.ends
  rw [hstep, hcs] at hends
  obtain ⟨name, s₁, bs', hname⟩ := exists_nameSplit hends hstart
  obtain ⟨blanks, value, s₂, c, s, rest, hvalue⟩ := exists_valueSplit hname.ends
  have heq : bs = (name ++ 58 :: (blanks ++ value)) ++ [c] ++ rest := by
    rw [hname.eq, hvalue.eq]
    simp only [List.append_assoc, List.cons_append, List.nil_append]
  have htext : name ++ 58 :: (blanks ++ value) ++ [c] =
      name ++ 58 :: (blanks ++ (value ++ [c])) := by
    simp only [List.append_assoc, List.cons_append]
  rw [heq] at hs ⊢
  have hlies := hs.lies.left
  rw [htext] at hlies
  have hreads : Reads E buffer p parser (name ++ 58 :: (blanks ++ value) ++ [c]) s
      (parser.m_data.received E name value) := by
    have hname' := hname.run
    have hvalue' := hvalue.run
    rw [← hstep] at hname' hvalue'
    rw [← hcs] at hname'
    have hblanks : ∀ b ∈ blanks, E.machine.step 15 b = some ([.start_value], 15) := by
      rw [hstep]
      exact fun b hb => (table_divides r).blank b (hvalue.blanks b hb)
    rw [htext]
    exact reads_line hmax hname' hblanks hvalue' hname.ne_nil hlies
  obtain ⟨cr, htakes⟩ := line_end_takes hstep hreads hs (hstep ▸ hvalue.ends) hvalue.exit
  refine ⟨⟨name, blanks, value, cr⟩, ⟨hname.chars, hname.ne_nil, hname.start, fun b hb => ?_,
    hvalue.chars, fun b hb => ?_⟩, ?_⟩
  · exact List.mem_pair.mp (hvalue.blanks b hb)
  · have hnot := hvalue.start b hb
    rw [List.mem_pair, not_or] at hnot
    exact hnot
  · have hline : (HeaderLine.mk name blanks value cr).text =
        name ++ 58 :: (blanks ++ value) ++ lineEnd cr := by
      simp only [HeaderLine.text, List.append_assoc, List.cons_append]
    rw [hline]
    exact htakes

/-- The loop takes the bytes `bs` and ends with them, with the request `data`. -/
def Finishes (E : Env μ) (buffer : Bytes) (p : Nat) (parser : HttpRequestParser μ) (bs : Bytes)
    (data : HttpRequest μ) : Prop :=
  ∃ parser', exec E buffer bs p parser = .ok (parser', p + bs.length) ∧
    http_parser_first_final ≤ parser'.mParser.cs ∧ parser'.m_data = data ∧
    parser'.m_error = parser.m_error

omit hstep hmax in
theorem Consumes.finishes {text rest : Bytes} {parser' : HttpRequestParser μ}
    {data : HttpRequest μ} (h : Consumes E buffer p parser text parser')
    (h' : Finishes E buffer (p + text.length) parser' rest data) :
    Finishes E buffer p parser (text ++ rest) data := by
  obtain ⟨parser'', hexec, hfinal, hdata, herror⟩ := h'
  refine ⟨parser'', ?_, hfinal, hdata, herror.trans h.error⟩
  rw [h.exec, hexec, List.length_append, Nat.add_assoc]

omit hstep hmax in
theorem finishes_of_fieldRun {u : Bytes} {s₂ : Nat}
    (h : FieldRun E.machine.step [.start_field] parser.mParser.cs u s₂ 10 [.done]
      http_parser_first_final) :
    Finishes E buffer p parser (u ++ [10]) parser.m_data := by
  have hdone : ∃ parser',
      act E buffer (p + u.length) { parser with mParser.field_start := p } .done = .ok parser' ∧
        parser'.m_data = parser.m_data ∧ parser'.m_error = parser.m_error := by
    rw [act]
    split
    · exact ⟨_, rfl, rfl, rfl⟩
    · exact ⟨_, rfl, rfl, rfl⟩
  obtain ⟨parser', hact, hdata, herror⟩ := hdone
  refine ⟨parser'.inState http_parser_first_final, ?_, Nat.le_refl _, hdata, herror⟩
  rw [exec_field [] (by decide) h]
  show (act E buffer (p + u.length) { parser with mParser.field_start := p } .done >>= pure) >>=
    _ = _
  rw [bind_pure, hact, List.length_append, List.length_singleton, ← Nat.add_assoc]
  rfl

omit hmax in
/-- The empty line. -/
theorem line_end_finishes (hcs : parser.mParser.cs = 13) (cr : Bool) :
    Finishes E buffer p parser (lineEnd cr) parser.m_data := by
  obtain ⟨hlf, hcr, hlast⟩ := (table_divides r).line_end
  rw [← hstep] at hlf hcr hlast
  rw [← hcs] at hlf hcr
  cases cr with
  | false => exact finishes_of_fieldRun (u := []) ⟨rfl, hlf⟩
  | true => exact finishes_of_fieldRun (u := [13]) ⟨18, hcr, rfl, hlast⟩

/-- The header lines, and the empty line behind them. -/
theorem lines_finish (hs : Stands E buffer p parser bs) (hcs : parser.mParser.cs = 13) :
    ∃ (lines : List HeaderLine) (last : Bool), (∀ l ∈ lines, l.WellFormed) ∧
      bs = lines.flatMap HeaderLine.text ++ lineEnd last ∧
      Finishes E buffer p parser bs
        (lines.foldl (fun req l => req.received E l.name l.value) parser.m_data) := by
  induction hn : bs.length using Nat.strong_induction_on generalizing bs p parser with
  | _ n ih =>
      by_cases hend : ∃ cr, lineEnd cr <+: bs
      · obtain ⟨cr, rest, rfl⟩ := hend
        have hends := hs.ends
        rw [hstep, hcs] at hends
        obtain rfl := eq_line_end hends
        rw [List.append_nil]
        exact ⟨[], cr, fun l hl => absurd hl List.not_mem_nil, rfl, line_end_finishes hstep hcs cr⟩
      · obtain ⟨l, hl, rest, parser', rfl, hconsumes, hs', hcs', hdata⟩ :=
          line_takes hstep hmax hs hcs (not_exists.mp hend)
        have hlt : rest.length < n := by
          rw [← hn, List.length_append, HeaderLine.text, List.length_append, List.length_cons]
          omega
        obtain ⟨lines, last, hlines, heq, hfinish⟩ := ih _ hlt hs' hcs' rfl
        refine ⟨l :: lines, last, List.forall_mem_cons.mpr ⟨hl, hlines⟩, ?_, ?_⟩
        · rw [List.flatMap_cons, List.append_assoc, ← heq]
        · rw [hdata] at hfinish
          exact hconsumes.finishes hfinish

end Parts

/-! ## The block -/

/-- The two ways to say that a block ends. -/
theorem ends_of_machine {M : Machine} {cs : Nat} {bs : Bytes} (h : M.Ends cs bs) :
    Ends M.step (· = Action.done) cs bs := by
  induction bs generalizing cs with
  | nil => exact h.elim
  | cons b bs ih =>
      rw [Machine.Ends] at h
      cases hstep : M.step cs b with
      | none => simp only [hstep] at h
      | some next =>
          obtain ⟨acts, cs'⟩ := next
          simp only [hstep] at h
          refine ⟨acts, cs', hstep, ?_⟩
          split at h
          next hdone => exact .inl ⟨⟨.done, hdone, rfl⟩, h⟩
          next hdone => exact .inr ⟨fun a ha heq => hdone (heq ▸ ha), ih h⟩

section Accepted

variable {E : Env μ} {h : Bytes} {parser : HttpRequestParser μ}

/-- The run of the loop over a block that it accepts. -/
theorem exec_of_accepted
    (hexec : http_parser_execute E h h.length (.new E) = .ok (parser, h.length))
    (hfinished : parser.isFinished = 1) :
    ∃ parser₁, exec E h h 0 (.new E) = .ok (parser₁, h.length) ∧
      parser = { parser₁ with mParser.nread := h.length } ∧
      Stands E h 0 (.new E) h := by
  have hfinal := isFinished_eq_one.mp hfinished
  have hlen : h.length ≠ 0 := by
    intro hzero
    rw [http_parser_execute, if_pos hzero] at hexec
    rw [← (Prod.mk.inj (Except.ok.inj hexec)).1] at hfinal
    exact absurd hfinal (show ¬http_parser_first_final ≤ http_parser_start by decide)
  obtain ⟨parser₁, p, hrun, hn, -, rfl, -⟩ := execute_ok hlen hexec
  have hp : h.length = p := by
    rw [hn]
    exact Nat.zero_add p
  rw [List.take_length, ← hp, ← Nat.zero_add h.length] at hrun
  obtain ⟨hends, -⟩ := exec_append [] []
    (show http_parser_start < http_parser_first_final by decide) hrun hfinal
  rw [Nat.zero_add] at hrun
  exact ⟨parser₁, hrun, rfl, ⟨List.prefix_rfl, ends_of_machine hends⟩⟩

/-- A block that the parser accepts is the text of well-formed parts, and the request is their
value, unless it starts with `<` or `@`. -/
theorem exists_requestText {r : Bool} (hM : E.machine = requestMachine r)
    (hmax : h.length ≤ 9223372036854775807)
    (hexec : http_parser_execute E h h.length (.new E) = .ok (parser, h.length))
    (hfinished : parser.isFinished = 1) (herror : parser.hasError = false)
    (hxml : h.head? ≠ some 60) (hjson : h.head? ≠ some 64) :
    ∃ (t : RequestText) (m : HttpMethod), t.WellFormed ∧ h = t.text ∧
      CharsToHttpMethod h = .ok m ∧ m ≠ .INVALID_METHOD ∧ parser.m_data = t.value E m := by
  have hstep : E.machine.step = (http_parser_table r).step := by
    rw [hM]
    rfl
  obtain ⟨parser₁, hrun, rfl, hs⟩ := exec_of_accepted hexec hfinished
  have hends := hs.ends
  rw [hstep] at hends
  obtain ⟨method, s₂, rest, hmethod⟩ := exists_methodSplit hends hxml hjson
  have hfield := hmethod.run
  rw [← hstep] at hfield
  have hlies : Lies h 0 (method ++ [32] ++ rest) := by
    rw [List.append_assoc, List.singleton_append, ← hmethod.eq]
    exact List.prefix_rfl
  have hrun' : exec E h (method ++ 32 :: rest) 0 (.new E) = .ok (parser₁, h.length) := by
    rw [← hmethod.eq]
    exact hrun
  rw [exec_method hlies.left hfield, bind_ok_iff] at hrun'
  obtain ⟨parser₂, hcall, hproceed⟩ := hrun'
  -- what the method leaves
  obtain ⟨m, hm, -⟩ := bind_ok_iff.mp hcall
  have heq := on_request_method_eq hmethod.token
    { HttpRequestParser.new E with mParser.mark := 0 } [] rest (m := m)
    (by rw [← hmethod.eq]; exact hm)
  rw [List.nil_append, ← hmethod.eq] at heq
  have hparser₂ := Except.ok.inj (hcall.symm.trans heq)
  rw [proceed, if_neg (by decide)] at hproceed
  -- the target, the version and the header lines
  have hs₂ : Stands E h (0 + method.length + 1) (parser₂.inState 3) rest := by
    have hright := hlies.right
    rw [List.length_append, List.length_singleton, ← Nat.add_assoc] at hright
    exact ⟨hright, hstep ▸ hmethod.ends⟩
  obtain ⟨target, htarget, rest₁, parser₃, rfl, hconsumes, hs₃, hcs₃, hdata₃⟩ :=
    target_takes hstep hmax hs₂ rfl
  obtain ⟨minor, cr, hminor, rest₂, parser₄, rfl, hconsumes', hs₄, hcs₄, hdata₄⟩ :=
    version_takes hstep hs₃ hcs₃
  obtain ⟨lines, last, hlines, rfl, hfinish⟩ := lines_finish hstep hmax hs₄ hcs₄
  obtain ⟨parser₅, hexec₅, -, hdata₅, herror₅⟩ := hconsumes.finishes (hconsumes'.finishes hfinish)
  have hsame : parser₁ = parser₅ :=
    (Prod.mk.inj (Except.ok.inj (hproceed.symm.trans hexec₅))).1
  have hvalid : m ≠ .INVALID_METHOD := by
    intro hinvalid
    rw [if_pos hinvalid] at hparser₂
    rw [HttpRequestParser.hasError] at herror
    have hzero : parser₁.m_error = 0 := by simpa using (Bool.or_eq_false_iff.mp herror).1
    rw [hsame, herror₅, hparser₂] at hzero
    cases hzero
  rw [if_neg hvalid] at hparser₂
  refine ⟨⟨method, target, minor, cr, lines, last⟩, m, ⟨hmethod.token, htarget, hminor, hlines⟩,
    ?_, hm, hvalid, ?_⟩
  · rw [hmethod.eq, RequestText.text]
    simp only [List.append_assoc, List.cons_append, List.nil_append]
  · show parser₁.m_data = _
    rw [hsame, hdata₅, hdata₄, hdata₃, hparser₂]
    rfl

/-- A `POST` with a query, a fragment and two header lines, the second without a value. -/
def postBlock : Bytes := bytes "POST /a?b=%20#c HTTP/1.1\r\nHost: d e\nX:\r\n\r\n"

theorem exists_requestText_post :
    ∃ (t : RequestText) (m : HttpMethod), t.WellFormed ∧ postBlock = t.text ∧
      CharsToHttpMethod postBlock = .ok m ∧ m ≠ .INVALID_METHOD ∧
      (parserBehind compiledEnv postBlock).m_data = t.value compiledEnv m := by
  have hexec : http_parser_execute compiledEnv postBlock postBlock.length (.new compiledEnv) =
      .ok (parserBehind compiledEnv postBlock, postBlock.length) := by decide +kernel
  exact exists_requestText (r := false) rfl (by decide) hexec (by decide +kernel)
    (by decide +kernel) (by decide) (by decide)

end Accepted

end Muqiu.Http
