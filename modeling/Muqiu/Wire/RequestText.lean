import Muqiu.Wire.RequestRun

/-!
# The parts of a header block

A `RequestText` is a header block in its parts: the method, the target with its scheme, path, query
and fragment, the version, and the header lines.  `WellFormed` is what the table asks of the parts,
and `value` is the request that they describe.

The table is more liberal than its grammar says: line ends may also be in the name of a header.  So
the empty line does not end a block whose last line has no colon.  A run over the table that ends
goes through the parts one after the other.
-/

namespace Muqiu.Http

open Transducer (Edge Table FieldStates FieldRun Ends ByteClass)

variable {μ : Type}

/-! ## The parts of a header block -/

/-- A line ends with LF or with CR LF. -/
def lineEnd (cr : Bool) : Bytes := if cr then [13, 10] else [10]

/-- A header line: a name, a colon, blanks, a value and a line end. -/
structure HeaderLine where
  name : Bytes
  blanks : Bytes
  value : Bytes
  cr : Bool
deriving DecidableEq, Repr

/-- The bytes of a line. -/
def HeaderLine.text (l : HeaderLine) : Bytes :=
  l.name ++ 58 :: (l.blanks ++ (l.value ++ lineEnd l.cr))

/-- A target, with the parts that it has. -/
structure Target where
  scheme : Option Bytes
  path : Bytes
  query : Option Bytes
  fragment : Option Bytes
deriving DecidableEq, Repr

/-- A part behind its delimiter. -/
def optional (c : UInt8) (part : Option Bytes) : Bytes := part.elim [] (c :: ·)

theorem optional_none (c : UInt8) : optional c none = [] := rfl

namespace Target

/-- The scheme, with its colon. -/
def schemeText (t : Target) : Bytes := t.scheme.elim [] (· ++ [58])

/-- The bytes of a target. -/
def text (t : Target) : Bytes :=
  t.schemeText ++ (t.path ++ (optional 63 t.query ++ optional 35 t.fragment))

theorem text_path (path : Bytes) (query fragment : Option Bytes) :
    (Target.mk none path query fragment).text ++ [32] =
      path ++ (optional 63 query ++ (optional 35 fragment ++ [32])) := by
  simp only [text, schemeText, Option.elim_none, List.nil_append, List.append_assoc]

theorem text_scheme (scheme path : Bytes) (query fragment : Option Bytes) :
    (Target.mk (some scheme) path query fragment).text =
      scheme ++ [58] ++ (Target.mk none path query fragment).text :=
  rfl

/-- The scheme is not kept, and what is not there leaves the request alone. -/
def apply (t : Target) (req : HttpRequest μ) : HttpRequest μ :=
  { req with
    m_path := t.path
    m_query := t.query.getD req.m_query
    m_fragment := t.fragment.getD req.m_fragment }

end Target

/-- A request up to its body.  `cr` and `last` say whether a CR stands in front of the LF, behind
the version and at the end. -/
structure RequestText where
  method : Bytes
  target : Target
  minor : UInt8
  cr : Bool
  lines : List HeaderLine
  last : Bool
deriving DecidableEq, Repr

namespace RequestText

/-- The bytes of a request. -/
def text (t : RequestText) : Bytes :=
  t.method ++ 32 :: (t.target.text ++ 32 :: (versionText t.minor ++ (lineEnd t.cr ++
    (t.lines.flatMap HeaderLine.text ++ lineEnd t.last))))

/-- The request with the method `m`. -/
def value (E : Env μ) (t : RequestText) (m : HttpMethod) : HttpRequest μ :=
  t.lines.foldl (fun req l => req.received E l.name l.value)
    { t.target.apply { HttpRequest.new E.map 0x11 true with m_method := m } with
      m_version := versionOf t.minor }

end RequestText

/-! ## What the table asks of them -/

/-- The characters of a scheme and a path.  The first are from the addresses in brackets. -/
def pathChars : ByteClass :=
  [(2, 6), (33, 33), (36, 59), (61, 61), (64, 91), (93, 95), (97, 123), (125, 126)]

/-- The characters of a query and a fragment. -/
def queryChars : ByteClass :=
  [(33, 33), (36, 59), (61, 61), (63, 90), (94, 95), (97, 123), (125, 126)]

/-- The characters of a header name.  The table takes more than a token has. -/
def nameChars : ByteClass :=
  [(1, 8), (10, 31), (33, 33), (35, 39), (42, 43), (45, 46), (48, 57), (65, 90), (94, 122),
   (124, 124), (126, 126)]

/-- The characters of a header value. -/
def valueChars : ByteClass := [(1, 9), (11, 12), (14, 126), (128, 255)]

/-- All bytes of a text are in a class. -/
def ByteClass.Of (C : ByteClass) (s : Bytes) : Prop := ∀ b ∈ s, C.has b = true

theorem ByteClass.Of.of_all {C : ByteClass} {s : Bytes} (h : s.all C.has = true) :
    ByteClass.Of C s :=
  List.all_eq_true.mp h

/-- What the table takes for a line. -/
structure HeaderLine.WellFormed (l : HeaderLine) : Prop where
  name : ByteClass.Of nameChars l.name
  name_ne_nil : l.name ≠ []
  /-- What starts with a line end is the end of the block. -/
  name_start : ∀ cr, ¬lineEnd cr <+: l.name
  blanks : ∀ b ∈ l.blanks, b = 9 ∨ b = 32
  value : ByteClass.Of valueChars l.value
  value_start : ∀ b ∈ l.value.head?, b ≠ 9 ∧ b ≠ 32

/-- What the table takes for a target. -/
structure Target.WellFormed (t : Target) : Prop where
  scheme : ∀ s ∈ t.scheme, s ≠ [] ∧ ByteClass.Of pathChars s
  path : ByteClass.Of pathChars t.path
  query : ∀ q ∈ t.query, ByteClass.Of queryChars q
  fragment : ∀ f ∈ t.fragment, ByteClass.Of queryChars f

/-- What the table takes for a request. -/
structure RequestText.WellFormed (t : RequestText) : Prop where
  method : MethodToken t.method
  target : t.target.WellFormed
  minor : t.minor = 48 ∨ t.minor = 49
  lines : ∀ l ∈ t.lines, l.WellFormed

/-! ## The fields of the table -/

/-- The states of a method, with the number of bytes behind its start. -/
def methodRank (s : Nat) : Nat := if s = 2 then 1 else s - 173

/-- A method, of up to twenty characters. -/
def methodField : FieldStates Action where
  first _ := false
  inside s := s = 2 || (175 ≤ s && s ≤ 193)
  enter := []
  chars := Known.tokenChars
  exits _ := [⟨32, 32, [.request_method], 3⟩]

/-- What is behind a path. -/
def pathExits : List (Edge Action) :=
  [⟨32, 32, [.request_path, .request_uri], 4⟩, ⟨35, 35, [.request_path, .request_uri], 20⟩,
   ⟨63, 63, [.request_path], 29⟩]

/-- A scheme, or a path without one. -/
def targetField : FieldStates Action where
  first s := s = 3
  inside s := s = 19 || (24 ≤ s && s ≤ 28) || (33 ≤ s && s ≤ 173)
  enter := [.mark]
  chars := pathChars
  exits s := if s = 173 then ⟨58, 58, [], 174⟩ :: pathExits else pathExits

/-- A path behind a scheme. -/
def pathField : FieldStates Action where
  first s := s = 174
  inside s := (26 ≤ s && s ≤ 28) || (33 ≤ s && s ≤ 172)
  enter := [.mark]
  chars := pathChars
  exits _ := pathExits

/-- A query, with its codes. -/
def queryField : FieldStates Action where
  first s := s = 29
  inside s := 30 ≤ s && s ≤ 32
  enter := [.start_query]
  chars := queryChars
  exits _ :=
    [⟨32, 32, [.query_string, .request_uri], 4⟩, ⟨35, 35, [.query_string, .request_uri], 20⟩]

/-- A fragment, with its codes. -/
def fragmentField : FieldStates Action where
  first s := s = 20
  inside s := 21 ≤ s && s ≤ 23
  enter := [.mark]
  chars := queryChars
  exits _ := [⟨32, 32, [.fragment], 4⟩]

/-- A header name, or the end of the block. -/
def nameField : FieldStates Action where
  first s := s = 13
  inside s := s = 14 || s = 18
  enter := [.start_field]
  chars := nameChars
  exits s :=
    if s = 13 then [⟨10, 10, [.done], 348⟩]
    else if s = 18 then [⟨10, 10, [.done], 348⟩, ⟨58, 58, [.write_field], 15⟩]
    else [⟨58, 58, [.write_field], 15⟩]

/-- What is behind a value. -/
def valueExits : List (Edge Action) :=
  [⟨10, 10, [.write_value], 13⟩, ⟨13, 13, [.write_value], 17⟩]

/-- A header value, with the blanks in front of it. -/
def valueField : FieldStates Action where
  first s := s = 15
  inside s := s = 16
  enter := [.start_value]
  chars := valueChars
  exits s := if s = 15 then ⟨9, 9, [], 15⟩ :: ⟨32, 32, [], 15⟩ :: valueExits else valueExits

/-- The other characters of the version. -/
def versionEdges : List (Edge Action) :=
  [⟨84, 84, [], 6⟩, ⟨84, 84, [], 7⟩, ⟨80, 80, [], 8⟩, ⟨47, 47, [], 9⟩, ⟨49, 49, [], 10⟩,
   ⟨46, 46, [], 11⟩, ⟨48, 49, [], 12⟩]

/-- What a table does over the parts. -/
structure Divides (T : Table Action) : Prop where
  method : methodField.check T = true
  target : targetField.check T = true
  path : pathField.check T = true
  query : queryField.check T = true
  fragment : fragmentField.check T = true
  name : nameField.check T = true
  value : valueField.check T = true
  /-- A block starts with a method, or with the start of another form of request. -/
  start : T.choices http_parser_start
    [⟨48, 57, [.mark], 2⟩, ⟨60, 60, [.mark], 194⟩, ⟨64, 64, [.mark], 198⟩,
     ⟨65, 90, [.mark], 2⟩] = true
  method_rank : T.checks (fun s e =>
    !methodField.inside s || e.acts ≠ [] ||
      methodField.inside e.next && methodRank e.next = methodRank s + 1) = true
  /-- Behind a carriage return there is a line feed. -/
  newline : T.only 17 [⟨10, 10, [], 13⟩] = true
  /-- The version starts with a letter. -/
  version_first : T.choices 4 [⟨72, 72, [.mark], 5⟩] = true
  version : T.only 5 versionEdges = true
  version_exits : T.choices 12 [⟨10, 10, [.http_version], 13⟩, ⟨13, 13, [.http_version], 17⟩] = true
  blank : ∀ b ∈ [9, 32], T.step 15 b = some ([.start_value], 15)
  /-- A line end at the start of a line. -/
  line_end : T.step 13 10 = some ([.start_field, .done], 348) ∧
    T.step 13 13 = some ([.start_field], 18) ∧ T.step 18 10 = some ([.done], 348)
  /-- Only a carriage return at the start of a line leads to the state behind it. -/
  return_reached : T.checks (fun s e =>
    e.next ≠ 18 || (s ≠ 13 || e = ⟨13, 13, [.start_field], 18⟩) && e.acts ≠ []) = true

theorem table_divides (r : Bool) : Divides (http_parser_table r) := by
  constructor <;> revert r <;> decide +kernel

theorem eq_of_covers {c b : UInt8} {acts : List Action} {next : Nat}
    (h : (Edge.mk c.toNat c.toNat acts next).covers b = true) : b = c := by
  rw [Edge.covers, Bool.and_eq_true, decide_eq_true_eq, decide_eq_true_eq] at h
  exact UInt8.toNat_inj.mp (Nat.le_antisymm h.2 h.1)

theorem versionEdges_text {u : Bytes}
    (h : List.Forall₂ (fun e b => Edge.covers e b = true) versionEdges u) :
    ∃ minor : UInt8, (minor = 48 ∨ minor = 49) ∧ 72 :: u = versionText minor := by
  obtain _ | ⟨hT, _ | ⟨hT', _ | ⟨hP, _ | ⟨hslash, _ | ⟨hone, _ | ⟨hdot, _ | ⟨hminor, ⟨⟩⟩⟩⟩⟩⟩⟩⟩ := h
  obtain rfl := eq_of_covers (c := 84) hT
  obtain rfl := eq_of_covers (c := 84) hT'
  obtain rfl := eq_of_covers (c := 80) hP
  obtain rfl := eq_of_covers (c := 47) hslash
  obtain rfl := eq_of_covers (c := 49) hone
  obtain rfl := eq_of_covers (c := 46) hdot
  refine ⟨_, ?_, rfl⟩
  rw [Edge.covers, Bool.and_eq_true, decide_eq_true_eq, decide_eq_true_eq] at hminor
  rcases Nat.lt_or_eq_of_le hminor.1 with hlt | heq
  · exact .inr (UInt8.toNat_inj.mp (Nat.le_antisymm hminor.2 hlt))
  · exact .inl (UInt8.toNat_inj.mp heq.symm)

/-! ## Runs over the parts -/

/-- A method in front of its space. -/
structure MethodSplit (r : Bool) (bs method : Bytes) (s₂ : Nat) (rest : Bytes) : Prop where
  eq : bs = method ++ 32 :: rest
  token : MethodToken method
  run : FieldRun (http_parser_table r).step [.mark] http_parser_start method s₂ 32
    [.request_method] 3
  ends : Ends (http_parser_table r).step (· = .done) 3 rest

theorem exists_methodSplit {r : Bool} {bs : Bytes}
    (hends : Ends (http_parser_table r).step (· = Action.done) http_parser_start bs)
    (hxml : bs.head? ≠ some 60) (hjson : bs.head? ≠ some 64) :
    ∃ method s₂ rest, MethodSplit r bs method s₂ rest := by
  cases bs with
  | nil => exact hends.elim
  | cons b bs =>
      obtain ⟨acts, s₁, hfirst, -⟩ := id hends
      obtain ⟨e, he, hcover, rfl, rfl⟩ := Table.step_of_choices (table_divides r).start hfirst
      have hb : e.acts = [.mark] ∧ e.next = 2 ∧ e.within Known.tokenChars = true := by
        simp only [List.mem_cons, List.not_mem_nil, or_false] at he
        rcases he with rfl | rfl | rfl | rfl
        · exact ⟨rfl, rfl, by decide⟩
        · exact absurd (congrArg some (eq_of_covers (c := 60) hcover)) hxml
        · exact absurd (congrArg some (eq_of_covers (c := 64) hcover)) hjson
        · exact ⟨rfl, rfl, by decide⟩
      obtain ⟨hacts, hnext, hwithin⟩ := hb
      rw [hacts, hnext] at hfirst
      obtain ⟨u, s₂, c, rest, x, h⟩ := FieldStates.exists_rest (table_divides r).method (by decide)
        (hends.of_step hfirst (by decide))
      obtain rfl := List.mem_singleton.mp h.exit
      obtain rfl := eq_of_covers (c := 32) h.covers
      have hrank : methodRank s₂ = methodRank 2 + u.length := by
        refine Transducer.quiet_counts (P := fun s => methodField.inside s = true)
          (fun {s b s'} hs hstep => ?_) rfl h.quiet
        obtain ⟨e, -, hp, hacts, rfl⟩ := Table.of_checks (table_divides r).method_rank hstep
        simpa [hs, hacts] using hp
      have hle : methodRank s₂ ≤ 20 := by
        have hin := h.inside
        simp only [methodField, Bool.or_eq_true, Bool.and_eq_true, decide_eq_true_eq] at hin
        rw [methodRank]
        split <;> omega
      have hone : methodRank 2 = 1 := rfl
      have hchars : ∀ c ∈ b :: u, Known.tokenChars.has c = true :=
        List.forall_mem_cons.mpr ⟨Edge.has_of_within hwithin hcover, h.chars⟩
      refine ⟨b :: u, s₂, rest, ?_, ⟨?_, ?_, fun c hc => Known.of_tokenChars (hchars c hc)⟩,
        ⟨2, hfirst, h.quiet, h.step⟩, h.ends (by decide)⟩
      · rw [h.eq]
        rfl
      · exact Nat.succ_le_succ (Nat.zero_le _)
      · rw [List.length_cons]
        omega

/-- A value in front of the byte behind it, with the blanks before it. -/
structure ValueSplit (r : Bool) (bs blanks value : Bytes) (s₂ : Nat) (c : UInt8) (s : Nat)
    (rest : Bytes) : Prop where
  eq : bs = blanks ++ (value ++ [c] ++ rest)
  blanks : ∀ b ∈ blanks, b ∈ [9, 32]
  chars : ByteClass.Of valueChars value
  start : ∀ b ∈ value.head?, b ∉ [9, 32]
  run : FieldRun (http_parser_table r).step [.start_value] 15 value s₂ c [.write_value] s
  exit : c = 10 ∧ s = 13 ∨ c = 13 ∧ s = 17
  ends : Ends (http_parser_table r).step (· = .done) s rest

theorem exists_valueSplit {r : Bool} {bs : Bytes}
    (hends : Ends (http_parser_table r).step (· = Action.done) 15 bs) :
    ∃ blanks value s₂ c s rest, ValueSplit r bs blanks value s₂ c s rest := by
  induction bs with
  | nil => exact hends.elim
  | cons b bs ih =>
      by_cases hblank : b ∈ [9, 32]
      · have hstep := (table_divides r).blank b hblank
        obtain ⟨blanks, value, s₂, c, s, rest, h⟩ := ih (hends.of_step hstep (by decide))
        refine ⟨b :: blanks, value, s₂, c, s, rest, { h with eq := ?_, blanks := ?_ }⟩
        · rw [h.eq]
          rfl
        · exact List.forall_mem_cons.mpr ⟨hblank, h.blanks⟩
      · obtain ⟨u, s₂, c, rest, x, h⟩ :=
          FieldStates.exists_split (table_divides r).value (by decide) (by decide) hends
        have hexit : x ∈ valueExits := by
          have hx := h.exit
          rw [valueField] at hx
          dsimp only at hx
          split at hx
          next hs₂ =>
            -- from the first state only an empty value is left
            have hu : u = [] := by
              by_contra hne
              have hin := h.inside hne
              rw [hs₂] at hin
              cases hin
            have hc : b = c := by
              have heq := h.eq
              rw [hu] at heq
              exact (List.cons.inj heq).1
            rcases List.mem_cons.mp hx with rfl | hx
            · refine absurd (eq_of_covers (c := 9) h.covers) fun h9 => hblank ?_
              rw [hc, h9]
              decide
            · rcases List.mem_cons.mp hx with rfl | hx
              · exact absurd (eq_of_covers (c := 32) h.covers) fun h32 =>
                  hblank (by rw [hc, h32]; decide)
              · exact hx
          next => exact hx
        have hacts : x.acts = [.write_value] ∧ (c = 10 ∧ x.next = 13 ∨ c = 13 ∧ x.next = 17) := by
          have hcovers := h.covers
          rcases List.mem_pair.mp hexit with rfl | rfl
          · exact ⟨rfl, .inl ⟨eq_of_covers (c := 10) hcovers, rfl⟩⟩
          · exact ⟨rfl, .inr ⟨eq_of_covers (c := 13) hcovers, rfl⟩⟩
        have hrun := h.run
        have hends' := h.ends
        rw [hacts.1] at hrun hends'
        refine ⟨[], u, s₂, c, x.next, rest, ⟨?_, fun d hd => absurd hd List.not_mem_nil, h.chars,
          fun d hd => ?_, hrun, hacts.2, hends' (by decide)⟩⟩
        · rw [List.nil_append, List.append_assoc]
          exact h.eq
        · cases u with
          | nil => cases hd
          | cons a u =>
              cases hd
              rw [← (List.cons.inj h.eq).1]
              exact hblank

/-- A name in front of its colon. -/
structure NameSplit (r : Bool) (bs name : Bytes) (s₂ : Nat) (rest : Bytes) : Prop where
  eq : bs = name ++ [58] ++ rest
  chars : ByteClass.Of nameChars name
  ne_nil : name ≠ []
  start : ∀ cr, ¬lineEnd cr <+: name
  run : FieldRun (http_parser_table r).step [.start_field] 13 name s₂ 58 [.write_field] 15
  ends : Ends (http_parser_table r).step (· = .done) 15 rest

/-- A line end at the start of a line is the last. -/
theorem eq_line_end {r cr : Bool} {rest : Bytes}
    (hends : Ends (http_parser_table r).step (· = Action.done) 13 (lineEnd cr ++ rest)) :
    rest = [] := by
  obtain ⟨hlf, hcr, hlast⟩ := (table_divides r).line_end
  cases cr with
  | false =>
      have hdone : ∃ a ∈ [Action.start_field, .done], a = Action.done := by decide
      exact Ends.nil_of_last hlf hdone hends
  | true =>
      have hdone : ∃ a ∈ [Action.done], a = Action.done := by decide
      exact Ends.nil_of_last hlast hdone (hends.of_step hcr (by decide))

theorem exists_nameSplit {r : Bool} {bs : Bytes}
    (hends : Ends (http_parser_table r).step (· = Action.done) 13 bs)
    (hstart : ∀ cr, ¬lineEnd cr <+: bs) : ∃ name s₂ rest, NameSplit r bs name s₂ rest := by
  obtain ⟨u, s₂, c, rest, x, h⟩ :=
    FieldStates.exists_split (table_divides r).name (by decide) (by decide) hends
  have hexit := h.exit
  rw [nameField] at hexit
  dsimp only at hexit
  -- the other exits are at a line end in front
  have hdone : x = ⟨10, 10, [.done], 348⟩ → (s₂ = 13 ∨ s₂ = 18) → False := by
    rintro rfl hs₂
    obtain rfl := eq_of_covers (c := 10) h.covers
    have heq := h.eq
    cases u with
    | nil => exact hstart false (heq ▸ List.prefix_append [10] rest)
    | cons b u =>
        obtain ⟨s₁, hfirst, hquiet, -⟩ := h.run
        have hin := h.inside (List.cons_ne_nil b u)
        rcases hs₂ with rfl | rfl
        · cases hin
        · have hnil : u = [] := by
            refine Transducer.quiet_nil_of_not_reached (fun {s b} hstep => ?_) hquiet
            obtain ⟨e, -, hp, hacts, hnext⟩ :=
              Table.of_checks (table_divides r).return_reached hstep
            rw [hacts, hnext] at hp
            simp at hp
          subst hnil
          cases hquiet
          obtain ⟨e, he, hp, hacts, hnext⟩ :=
            Table.of_checks (table_divides r).return_reached hfirst
          have hb : e = ⟨13, 13, [.start_field], 18⟩ ∧ ¬e.acts = [] := by
            rw [hnext] at hp
            simpa using hp
          rw [hb.1] at he
          obtain rfl := eq_of_covers (c := 13) he
          exact hstart true (heq ▸ List.prefix_append [13, 10] rest)
  have hcolon : x = ⟨58, 58, [.write_field], 15⟩ ∧ s₂ ≠ 13 := by
    split at hexit
    next hs₂ => exact absurd (.inl hs₂) (hdone (List.mem_singleton.mp hexit))
    next hs₂ =>
      refine ⟨?_, hs₂⟩
      split at hexit
      next hs₂ =>
        rcases List.mem_pair.mp hexit with hx | hx
        · exact absurd (.inr hs₂) (hdone hx)
        · exact hx
      next => exact List.mem_singleton.mp hexit
  obtain ⟨rfl, hs₂⟩ := hcolon
  obtain rfl := eq_of_covers (c := 58) h.covers
  refine ⟨u, s₂, rest, ?_, h.chars, ?_, fun cr hpre => hstart cr ?_, h.run, h.ends (by decide)⟩
  · rw [List.append_assoc]
    exact h.eq
  · rintro rfl
    exact hs₂ h.run.1
  · rw [h.eq]
    exact hpre.trans (List.prefix_append u _)

end Muqiu.Http
