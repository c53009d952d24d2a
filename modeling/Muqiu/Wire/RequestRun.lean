import Muqiu.Wire.RequestSafety
import Muqiu.Lib.Fallible

/-!
# Runs of the request parser

What the loop does over the bytes of a field of the table, as an equation: the actions at its first
byte, those at the byte behind it, and the rest of the loop.  No action looks at the state of the
table, so what the bytes between do is only to change it.

`Reads` is a part of the loop that ends at a byte of its own accord.  The parts of a request line
and of a header line are such parts, with the bytes of the buffer that they leave in the request.
-/

namespace Muqiu.Http

open Fallible (bind_eq_map)
open Transducer (FieldRun quiet)
open Window (window)

variable {μ : Type} {E : Env μ}

/-! ## The state of the table -/

/-- The parser in a state of the table. -/
def HttpRequestParser.inState (parser : HttpRequestParser μ) (cs : Nat) : HttpRequestParser μ :=
  { parser with mParser.cs := cs }

@[simp] theorem HttpRequestParser.inState_inState (parser : HttpRequestParser μ) (cs cs' : Nat) :
    (parser.inState cs).inState cs' = parser.inState cs' :=
  rfl

theorem act_inState (buffer : Bytes) (p : Nat) (parser : HttpRequestParser μ) (cs : Nat)
    (a : Action) :
    act E buffer p (parser.inState cs) a = (act E buffer p parser a).map (·.inState cs) := by
  cases a with
  | write_value =>
      refine bind_eq_map fun name => bind_eq_map fun val => ?_
      show (if parser.mParser.field_len = 0 then _ else _) = _
      split <;> rfl
  | request_method =>
      refine bind_eq_map fun m => ?_
      split
      · exact bind_eq_map fun _ => rfl
      · rfl
  | http_version =>
      refine bind_eq_map fun v11 => ?_
      split
      · rfl
      · refine bind_eq_map fun v10 => ?_
        split
        · rfl
        · exact bind_eq_map fun _ => rfl
  | fragment => exact bind_eq_map fun _ => rfl
  | query_string => exact bind_eq_map fun _ => rfl
  | request_path => exact bind_eq_map fun _ => rfl
  | done =>
      show (if parser.mParser.xml_sent ∨ parser.mParser.json_sent then _ else _) = _
      rw [act]
      split <;> rfl
  | _ => rfl

theorem acts_inState (buffer : Bytes) (p : Nat) (cs : Nat) (acts : List Action)
    (parser : HttpRequestParser μ) :
    acts.foldlM (act E buffer p) (parser.inState cs) =
      (acts.foldlM (act E buffer p) parser).map (·.inState cs) := by
  induction acts generalizing parser with
  | nil => rfl
  | cons a acts ih =>
      rw [List.foldlM_cons, List.foldlM_cons, act_inState]
      cases act E buffer p parser a with
      | error e => rfl
      | ok parser₁ => exact ih parser₁

/-! ## Fields -/

theorem exec_quiet {buffer : Bytes} (rest : Bytes) {u : Bytes} {p s : Nat}
    {parser : HttpRequestParser μ} (h : quiet E.machine.step parser.mParser.cs u = some s) :
    exec E buffer (u ++ rest) p parser = exec E buffer rest (p + u.length) (parser.inState s) := by
  induction u generalizing p parser with
  | nil =>
      cases h
      rfl
  | cons b u ih =>
      rw [quiet] at h
      split at h
      next s₁ hstep =>
        have h' : quiet E.machine.step (parser.inState s₁).mParser.cs u = some s := h
        rw [List.cons_append, exec_step _ hstep rfl, if_neg List.not_mem_nil]
        rw [show p + (b :: u).length = p + 1 + u.length by rw [List.length_cons]; omega]
        exact ih h'
      next => cases h

/-- What is behind the actions of a byte. -/
def proceed (E : Env μ) (buffer : Bytes) (acts : List Action) (s : Nat) (rest : Bytes) (p : Nat)
    (parser : HttpRequestParser μ) : Except Stop (HttpRequestParser μ × Nat) :=
  if .done ∈ acts then .ok (parser.inState s, p + 1)
  else exec E buffer rest (p + 1) (parser.inState s)

theorem exec_byte {buffer : Bytes} {c : UInt8} (rest : Bytes) {p s : Nat} {acts : List Action}
    {parser : HttpRequestParser μ}
    (hstep : E.machine.step parser.mParser.cs c = some (acts, s)) :
    exec E buffer (c :: rest) p parser =
      acts.foldlM (act E buffer p) parser >>= proceed E buffer acts s rest p := by
  rw [exec, hstep]
  rfl

theorem proceed_congr {acts acts' : List Action} (h : .done ∈ acts ↔ .done ∈ acts')
    (buffer : Bytes) (s : Nat) (rest : Bytes) (p : Nat) (parser : HttpRequestParser μ) :
    proceed E buffer acts s rest p parser = proceed E buffer acts' s rest p parser :=
  if_congr h rfl rfl

/-- Over a field and the byte behind it. -/
theorem exec_field {buffer : Bytes} (rest : Bytes) {u : Bytes} {c : UInt8} {p s₂ s' : Nat}
    {enter out : List Action} {parser : HttpRequestParser μ} (hno : .done ∉ enter)
    (h : FieldRun E.machine.step enter parser.mParser.cs u s₂ c out s') :
    exec E buffer (u ++ c :: rest) p parser =
      enter.foldlM (act E buffer p) parser >>= fun parser₁ =>
        out.foldlM (act E buffer (p + u.length)) parser₁ >>=
          proceed E buffer out s' rest (p + u.length) := by
  cases u with
  | nil =>
      obtain ⟨rfl, hstep⟩ := h
      have hdone : .done ∈ enter ++ out ↔ .done ∈ out := by
        rw [List.mem_append, or_iff_right hno]
      rw [List.nil_append, exec_byte rest hstep, List.foldlM_append, bind_assoc,
        funext (proceed_congr hdone buffer s' rest p)]
      rfl
  | cons b u =>
      obtain ⟨s₁, hfirst, hquiet, hstep⟩ := h
      rw [List.cons_append, exec_byte _ hfirst]
      refine bind_congr fun parser₁ => ?_
      have hquiet' : quiet E.machine.step (parser₁.inState s₁).mParser.cs u = some s₂ := hquiet
      have hstep' : E.machine.step (parser₁.inState s₂).mParser.cs c = some (out, s') := hstep
      rw [proceed, if_neg hno, exec_quiet _ hquiet', HttpRequestParser.inState_inState,
        exec_byte rest hstep', acts_inState,
        show p + 1 + u.length = p + (b :: u).length by rw [List.length_cons]; omega]
      cases out.foldlM (act E buffer (p + (b :: u).length)) parser₁ with
      | error e => rfl
      | ok parser₂ => rfl

theorem exec_field_ok {buffer : Bytes} {u : Bytes} {c : UInt8} {p s₂ s' : Nat}
    {enter out : List Action} {parser parser₁ parser₂ : HttpRequestParser μ}
    (h : FieldRun E.machine.step enter parser.mParser.cs u s₂ c out s')
    (hno : .done ∉ enter) (hno' : .done ∉ out)
    (henter : enter.foldlM (act E buffer p) parser = .ok parser₁)
    (hout : out.foldlM (act E buffer (p + u.length)) parser₁ = .ok parser₂) (rest : Bytes) :
    exec E buffer (u ++ c :: rest) p parser =
      exec E buffer rest (p + u.length + 1) (parser₂.inState s') := by
  rw [exec_field rest hno h, henter]
  show (out.foldlM (act E buffer (p + u.length)) parser₁ >>= _) = _
  rw [hout]
  exact if_neg hno'

/-! ## Parts of the buffer -/

/-- The bytes are in the buffer from `p` on. -/
def Lies (buffer : Bytes) (p : Nat) (bs : Bytes) : Prop := bs <+: buffer.drop p

namespace Lies

variable {buffer as bs : Bytes} {p : Nat}

theorem left (h : Lies buffer p (as ++ bs)) : Lies buffer p as := (List.prefix_append as bs).trans h

theorem right (h : Lies buffer p (as ++ bs)) : Lies buffer (p + as.length) bs := by
  obtain ⟨t, ht⟩ := h
  refine ⟨t, ?_⟩
  rw [← List.drop_drop, ← ht, List.append_assoc, List.drop_left]

theorem window_eq (h : Lies buffer p as) : window buffer p as.length = as := by
  obtain ⟨t, ht⟩ := h
  rw [window, ← ht, List.take_left]

theorem length_le (h : Lies buffer p as) (hne : as ≠ []) : p + as.length ≤ buffer.length := by
  have hlen := List.IsPrefix.length_le h
  have hpos := List.length_pos_of_ne_nil hne
  rw [List.length_drop] at hlen
  omega

end Lies

/-! ## Parts of the loop -/

/-- The loop takes the bytes of `text`, without an error of its own, and goes on with `parser'`. -/
structure Consumes (E : Env μ) (buffer : Bytes) (p : Nat) (parser : HttpRequestParser μ)
    (text : Bytes) (parser' : HttpRequestParser μ) : Prop where
  error : parser'.m_error = parser.m_error
  exec : ∀ rest, exec E buffer (text ++ rest) p parser =
    exec E buffer rest (p + text.length) parser'

/-- It goes on in the state `cs` with the request `data`. -/
def Reads (E : Env μ) (buffer : Bytes) (p : Nat) (parser : HttpRequestParser μ) (text : Bytes)
    (cs : Nat) (data : HttpRequest μ) : Prop :=
  ∃ parser', Consumes E buffer p parser text parser' ∧ parser'.mParser.cs = cs ∧
    parser'.m_data = data

section Reads

variable {buffer : Bytes} {p cs : Nat} {c : UInt8} {parser : HttpRequestParser μ}
  {data : HttpRequest μ}

theorem Consumes.trans {as bs : Bytes} {parser₁ parser₂ : HttpRequestParser μ}
    (h : Consumes E buffer p parser as parser₁)
    (h' : Consumes E buffer (p + as.length) parser₁ bs parser₂) :
    Consumes E buffer p parser (as ++ bs) parser₂ where
  error := h'.error.trans h.error
  exec rest := by
    rw [List.append_assoc, h.exec, h'.exec, List.length_append, Nat.add_assoc]

theorem Reads.trans {as bs : Bytes} {cs' : Nat} {data' : HttpRequest μ}
    (h : Reads E buffer p parser as cs data)
    (h' : ∀ parser' : HttpRequestParser μ, parser'.mParser.cs = cs → parser'.m_data = data →
      Reads E buffer (p + as.length) parser' bs cs' data') :
    Reads E buffer p parser (as ++ bs) cs' data' := by
  obtain ⟨parser₁, hconsumes, hcs, hdata⟩ := h
  obtain ⟨parser₂, hconsumes', hcs', hdata'⟩ := h' parser₁ hcs hdata
  exact ⟨parser₂, hconsumes.trans hconsumes', hcs', hdata'⟩

/-- A field whose actions go well. -/
theorem reads_field {u : Bytes} {s₂ s' : Nat} {enter out : List Action}
    {parser₁ parser₂ : HttpRequestParser μ}
    (h : FieldRun E.machine.step enter parser.mParser.cs u s₂ c out s')
    (hno : .done ∉ enter) (hno' : .done ∉ out)
    (henter : enter.foldlM (act E buffer p) parser = .ok parser₁)
    (hout : out.foldlM (act E buffer (p + u.length)) parser₁ = .ok parser₂)
    (herror : parser₂.m_error = parser.m_error) :
    Reads E buffer p parser (u ++ [c]) s' parser₂.m_data := by
  refine ⟨parser₂.inState s', ⟨herror, fun rest => ?_⟩, rfl, rfl⟩
  rw [List.append_assoc, List.singleton_append, exec_field_ok h hno hno' henter hout,
    List.length_append, List.length_singleton, Nat.add_assoc]

/-- Bytes without actions. -/
theorem reads_quiet {u : Bytes} {s : Nat} (h : quiet E.machine.step parser.mParser.cs u = some s) :
    Reads E buffer p parser u s parser.m_data :=
  ⟨parser.inState s, ⟨rfl, fun rest => exec_quiet rest h⟩, rfl, rfl⟩

/-- What is only marked. -/
theorem reads_mark {u : Bytes} {s₂ s' : Nat}
    (h : FieldRun E.machine.step [.mark] parser.mParser.cs u s₂ c [] s') :
    Reads E buffer p parser (u ++ [c]) s' parser.m_data := by
  have hno : [].foldlM (act E buffer (p + u.length)) { parser with mParser.mark := p } =
      .ok { parser with mParser.mark := p } := rfl
  have hreads := reads_field h (by decide) (by decide) rfl hno rfl
  exact hreads

section Field

variable (hmax : buffer.length ≤ 9223372036854775807) {u : Bytes} {s₂ s' : Nat}
  (hlies : Lies buffer p (u ++ [c]))

include hlies

theorem inside_of_lies : p + u.length ≤ buffer.length ∧ window buffer p u.length = u ∧
    LEN p (p + u.length) = u.length := by
  refine ⟨?_, hlies.left.window_eq, ?_⟩
  · have hle := hlies.length_le (List.append_ne_nil_of_right_ne_nil u (List.cons_ne_nil c []))
    rw [List.length_append] at hle
    omega
  · rw [LEN_of_le (Nat.le_add_right p u.length), Nat.add_sub_cancel_left]

/-- The method, if it is read. -/
theorem exec_method {s : Nat}
    (h : FieldRun E.machine.step [.mark] parser.mParser.cs u s₂ c [.request_method] s)
    (rest : Bytes) :
    exec E buffer (u ++ c :: rest) p parser =
      on_request_method buffer p u.length { parser with mParser.mark := p } >>=
        proceed E buffer [.request_method] s rest (p + u.length) := by
  obtain ⟨-, -, hlen⟩ := inside_of_lies hlies
  rw [exec_field rest (by decide) h]
  show (act E buffer (p + u.length) { parser with mParser.mark := p } .request_method >>= pure) >>=
    _ = _
  rw [bind_pure, act, hlen]

/-- The version. -/
def versionText (minor : UInt8) : Bytes := bytes "HTTP/1." ++ [minor]

/-- The version with a minor digit. -/
def versionOf (minor : UInt8) : UInt8 := if minor = 49 then 0x11 else 0x10

theorem on_request_version_text {minor : UInt8} (hminor : minor = 48 ∨ minor = 49)
    (hu : u = versionText minor) (parser : HttpRequestParser μ) :
    on_request_version buffer p u.length parser =
      .ok { parser with m_data.m_version := versionOf minor } := by
  obtain ⟨t, ht⟩ := hlies
  have hdrop : buffer.drop p = u ++ c :: t := by rw [← ht, List.append_assoc]; rfl
  have hstart : u <+: buffer.drop p := by rw [hdrop]; exact List.prefix_append u _
  rcases hminor with rfl | rfl
  · have htext : u = bytes "HTTP/1.0" := by rw [hu]; decide
    have hlonger : ¬buffer.drop p <+: bytes "HTTP/1.1" := by
      intro hpre
      have hle := hpre.length_le
      rw [hdrop, htext, List.length_append, List.length_cons,
        show (bytes "HTTP/1.0").length = 8 by decide,
        show (bytes "HTTP/1.1").length = 8 by decide] at hle
      omega
    have hother : ¬bytes "HTTP/1.1" <+: buffer.drop p := by
      intro hpre
      have heq := List.prefix_of_prefix_length_le hpre hstart (by rw [htext]; decide)
      rw [htext] at heq
      exact absurd heq (by decide)
    rw [on_request_version, htext, literal, literal,
      show (bytes "HTTP/1.0").length = (bytes "HTTP/1.1").length by decide,
      strncmp_differs (by decide) hother hlonger,
      show (bytes "HTTP/1.1").length = (bytes "HTTP/1.0").length by decide,
      strncmp_start (by decide) (htext ▸ hstart)]
    rfl
  · have htext : u = bytes "HTTP/1.1" := by rw [hu]; decide
    rw [on_request_version, htext, literal, strncmp_start (by decide) (htext ▸ hstart)]
    rfl

theorem reads_version {minor : UInt8} (hminor : minor = 48 ∨ minor = 49)
    (hu : u = versionText minor)
    (h : FieldRun E.machine.step [.mark] parser.mParser.cs u s₂ c [.http_version] s') :
    Reads E buffer p parser (u ++ [c]) s'
      { parser.m_data with m_version := versionOf minor } := by
  obtain ⟨-, -, hlen⟩ := inside_of_lies hlies
  have hversion : [Action.http_version].foldlM (act E buffer (p + u.length))
      { parser with mParser.mark := p } =
      .ok { parser with mParser.mark := p, m_data.m_version := versionOf minor } := by
    rw [List.foldlM_cons, act, hlen, on_request_version_text hlies hminor hu]
    rfl
  exact reads_field h (by decide) (by decide) rfl hversion rfl

include hmax

/-- A path, with what may be behind it. -/
theorem reads_path {out : List Action}
    (h : FieldRun E.machine.step [.mark] parser.mParser.cs u s₂ c (.request_path :: out) s')
    (hout : out = [] ∨ out = [.request_uri]) :
    Reads E buffer p parser (u ++ [c]) s' { parser.m_data with m_path := u } := by
  obtain ⟨hin, hwin, hlen⟩ := inside_of_lies hlies
  have hpath : (Action.request_path :: out).foldlM (act E buffer (p + u.length))
      { parser with mParser.mark := p } =
      .ok { parser with mParser.mark := p, m_data.m_path := u } := by
    rw [List.foldlM_cons, act, hlen, on_request_path_inside _ hin hmax, hwin]
    rcases hout with rfl | rfl <;> rfl
  refine reads_field h (by decide) ?_ rfl hpath rfl
  rcases hout with rfl | rfl <;> decide

theorem reads_query
    (h : FieldRun E.machine.step [.start_query] parser.mParser.cs u s₂ c
      [.query_string, .request_uri] s') :
    Reads E buffer p parser (u ++ [c]) s' { parser.m_data with m_query := u } := by
  obtain ⟨hin, hwin, hlen⟩ := inside_of_lies hlies
  have hquery : [Action.query_string, .request_uri].foldlM (act E buffer (p + u.length))
      { parser with mParser.query_start := p } =
      .ok { parser with mParser.query_start := p, m_data.m_query := u } := by
    rw [List.foldlM_cons, act, hlen, on_request_query_inside _ hin hmax, hwin]
    rfl
  exact reads_field h (by decide) (by decide) rfl hquery rfl

theorem reads_fragment
    (h : FieldRun E.machine.step [.mark] parser.mParser.cs u s₂ c [.fragment] s') :
    Reads E buffer p parser (u ++ [c]) s' { parser.m_data with m_fragment := u } := by
  obtain ⟨hin, hwin, hlen⟩ := inside_of_lies hlies
  have hfragment : [Action.fragment].foldlM (act E buffer (p + u.length))
      { parser with mParser.mark := p } =
      .ok { parser with mParser.mark := p, m_data.m_fragment := u } := by
    rw [List.foldlM_cons, act, hlen, on_request_fragment_inside _ hin hmax, hwin]
    rfl
  exact reads_field h (by decide) (by decide) rfl hfragment rfl

end Field

/-! ## Header lines -/

/-- A space or a tab in front of a value only moves the mark. -/
theorem exec_blanks {blanks : Bytes} {s : Nat}
    (hblanks : ∀ b ∈ blanks, E.machine.step s b = some ([.start_value], s))
    (hcs : parser.mParser.cs = s) (rest : Bytes) :
    ∃ mark, exec E buffer (blanks ++ rest) p parser =
      exec E buffer rest (p + blanks.length) { parser with mParser.mark := mark } := by
  induction blanks generalizing p parser with
  | nil => exact ⟨parser.mParser.mark, rfl⟩
  | cons b blanks ih =>
      obtain ⟨hb, hblanks⟩ := List.forall_mem_cons.mp hblanks
      rw [← hcs] at hb
      have hcs' : ({ parser with mParser.mark := p } : HttpRequestParser μ).mParser.cs = s := hcs
      obtain ⟨mark, hmark⟩ := ih (p := p + 1) hblanks hcs'
      refine ⟨mark, ?_⟩
      rw [List.cons_append, exec_step _ hb rfl, if_neg (by decide),
        show p + (b :: blanks).length = p + 1 + blanks.length by rw [List.length_cons]; omega]
      exact hmark

/-- A value behind a name of the buffer. -/
theorem act_write_value (hmax : buffer.length ≤ 9223372036854775807) {name value : Bytes}
    {f q : Nat} (hne : name ≠ []) (hname : Lies buffer f name)
    (hlies : Lies buffer q (value ++ [c])) (hstart : parser.mParser.field_start = f)
    (hlength : parser.mParser.field_len = name.length)
    (hmark : parser.mParser.mark = q) :
    act E buffer (q + value.length) parser .write_value =
      .ok { parser with m_data := parser.m_data.received E name value } := by
  obtain ⟨hin, hwin, hlen⟩ := inside_of_lies hlies
  have hlen' : name.length ≠ 0 := fun hzero => hne (List.eq_nil_of_length_eq_zero hzero)
  rw [act, hstart, hlength, hmark, hlen,
    on_request_http_field_inside parser (hname.length_le hne) hin hmax, if_neg hlen',
    hname.window_eq, hwin]

/-- A header line up to the byte behind its value. -/
theorem reads_line (hmax : buffer.length ≤ 9223372036854775807) {name blanks value : Bytes}
    {s₁ s₂ s s' : Nat}
    (hname : FieldRun E.machine.step [.start_field] parser.mParser.cs name s₁ 58 [.write_field] s)
    (hblanks : ∀ b ∈ blanks, E.machine.step s b = some ([.start_value], s))
    (hvalue : FieldRun E.machine.step [.start_value] s value s₂ c [.write_value] s')
    (hne : name ≠ []) (hlies : Lies buffer p (name ++ 58 :: (blanks ++ (value ++ [c])))) :
    Reads E buffer p parser (name ++ 58 :: (blanks ++ (value ++ [c]))) s'
      (parser.m_data.received E name value) := by
  have hlies' : Lies buffer (p + name.length + 1 + blanks.length) (value ++ [c]) := by
    have hcolon : Lies buffer (p + name.length) ([58] ++ (blanks ++ (value ++ [c]))) := hlies.right
    exact hcolon.right.right
  have hfield : [Action.write_field].foldlM (act E buffer (p + name.length))
      { parser with mParser.field_start := p } =
      .ok { parser with mParser.field_start := p, mParser.field_len := name.length } := by
    rw [List.foldlM_cons, act, LEN_of_le (Nat.le_add_right p name.length),
      Nat.add_sub_cancel_left]
    rfl
  have hreceived : [Action.write_value].foldlM
      (act E buffer (p + name.length + 1 + blanks.length + value.length))
      { parser with
        mParser.field_start := p
        mParser.field_len := name.length
        mParser.cs := s
        mParser.mark := p + name.length + 1 + blanks.length } =
      .ok { parser with
        mParser.field_start := p
        mParser.field_len := name.length
        mParser.cs := s
        mParser.mark := p + name.length + 1 + blanks.length
        m_data := parser.m_data.received E name value } := by
    rw [List.foldlM_cons, act_write_value hmax hne hlies.left hlies' rfl rfl rfl]
    rfl
  refine ⟨{ parser with
    mParser.field_start := p
    mParser.field_len := name.length
    mParser.cs := s'
    mParser.mark := p + name.length + 1 + blanks.length
    m_data := parser.m_data.received E name value }, ⟨rfl, fun rest => ?_⟩, rfl, rfl⟩
  have hcs : ({ parser with
      mParser.field_start := p
      mParser.field_len := name.length
      mParser.cs := s } : HttpRequestParser μ).mParser.cs = s := rfl
  obtain ⟨mark, hmark⟩ := exec_blanks (p := p + name.length + 1) hblanks hcs (value ++ c :: rest)
  simp only [List.append_assoc, List.cons_append, List.nil_append]
  rw [exec_field_ok hname (by decide) (by decide) rfl hfield]
  refine hmark.trans ?_
  rw [exec_field_ok hvalue (by decide) (by decide) rfl hreceived,
    show p + (name ++ 58 :: (blanks ++ (value ++ [c]))).length =
      p + name.length + 1 + blanks.length + value.length + 1 by
        simp only [List.length_append, List.length_cons, List.length_nil]; omega]
  rfl

end Reads

end Muqiu.Http
