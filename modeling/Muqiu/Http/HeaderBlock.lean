import Muqiu.Lib.Fallible
import Muqiu.Http.Parser

/-!
# Header blocks

Which bytes the loop of the parser gets through is up to the table alone: `Machine.walk` is
the state it reaches without an error and without `done`, and `Machine.Ends` says that `done`
comes on the last byte.  The callbacks read the buffer, and a read that stays inside it gives
the same in a longer one (`exec_append`).

`HeaderBlock` is a block that the parser accepts on its own.  `HeaderBlock.execute` says that
the first call of the parser accepts it with anything behind it.
-/

namespace Muqiu.Http

open Fallible (bind_ok_iff Extends)
open Window (window overwrite)

variable {μ : Type}

/-! ## The table on its own -/

namespace Machine

/-- The state after bytes that bring neither an error nor `done`. -/
def walk (M : Machine) : Nat → Bytes → Option Nat
  | cs, [] => some cs
  | cs, b :: bs =>
      match M.step cs b with
      | none => none
      | some (acts, cs') => if .done ∈ acts then none else walk M cs' bs

/-- `done` comes on the last byte. -/
def Ends (M : Machine) : Nat → Bytes → Prop
  | _, [] => False
  | cs, b :: bs =>
      match M.step cs b with
      | none => False
      | some (acts, cs') => if .done ∈ acts then bs = [] else Ends M cs' bs

/-- A state that is not final leads to none by `walk`. -/
theorem walk_not_final {M : Machine} :
    ∀ {cs c : Nat} {bs : Bytes}, cs < http_parser_first_final → M.walk cs bs = some c →
      c < http_parser_first_final
  | cs, c, [], hcs, h => by
      cases h
      exact hcs
  | cs, c, b :: bs, hcs, h => by
      rw [walk] at h
      cases hstep : M.step cs b with
      | none => rw [hstep] at h; cases h
      | some next =>
          obtain ⟨acts, cs'⟩ := next
          simp only [hstep] at h
          by_cases hd : Action.done ∈ acts
          · rw [if_pos hd] at h; cases h
          · rw [if_neg hd] at h
            exact walk_not_final (Nat.lt_of_not_le (mt (M.done_iff hstep).mpr hd)) h

/-- A block that is cut in two: a walk over the first part, and the end in the second. -/
theorem Ends.split {M : Machine} :
    ∀ {cs : Nat} {xs ys : Bytes}, M.Ends cs (xs ++ ys) → ys ≠ [] →
      ∃ c, M.walk cs xs = some c ∧ M.Ends c ys
  | cs, [], ys, h, _ => ⟨cs, rfl, h⟩
  | cs, b :: xs, ys, h, hys => by
      rw [List.cons_append, Ends] at h
      rw [walk]
      cases hstep : M.step cs b with
      | none => simp only [hstep] at h
      | some next =>
          obtain ⟨acts, cs'⟩ := next
          simp only [hstep] at h ⊢
          by_cases hd : Action.done ∈ acts
          · rw [if_pos hd, List.append_eq_nil_iff] at h
            exact absurd h.2 hys
          · rw [if_neg hd] at h
            rw [if_neg hd]
            exact Ends.split h hys

end Machine

/-! ## What the actions leave alone -/

/-- What no action touches. -/
def HttpRequestParser.Kept (parser parser' : HttpRequestParser μ) : Prop :=
  parser'.mParser.cs = parser.mParser.cs ∧ parser'.mParser.nread = parser.mParser.nread ∧
    parser'.m_data.m_body = parser.m_data.m_body

theorem HttpRequestParser.Kept.refl (parser : HttpRequestParser μ) : parser.Kept parser :=
  ⟨rfl, rfl, rfl⟩

theorem HttpRequestParser.Kept.trans {p₁ p₂ p₃ : HttpRequestParser μ} (h : p₁.Kept p₂)
    (h' : p₂.Kept p₃) : p₁.Kept p₃ :=
  ⟨h'.1.trans h.1, h'.2.1.trans h.2.1, h'.2.2.trans h.2.2⟩

variable {E : Env μ}

theorem on_request_method_kept {buffer : Bytes} {pos length : Nat}
    {parser parser' : HttpRequestParser μ}
    (h : on_request_method buffer pos length parser = .ok parser') :
    parser.Kept parser' := by
  rw [on_request_method, bind_ok_iff] at h
  obtain ⟨m, -, h⟩ := h
  by_cases hm : m = .INVALID_METHOD
  · rw [if_pos hm, bind_ok_iff] at h
    obtain ⟨_, -, ⟨⟩⟩ := h
    exact ⟨rfl, rfl, rfl⟩
  · rw [if_neg hm] at h
    cases h
    exact ⟨rfl, rfl, rfl⟩

theorem on_request_version_kept {buffer : Bytes} {pos length : Nat}
    {parser parser' : HttpRequestParser μ}
    (h : on_request_version buffer pos length parser = .ok parser') :
    parser.Kept parser' := by
  rw [on_request_version, bind_ok_iff] at h
  obtain ⟨v11, -, h⟩ := h
  by_cases h11 : v11 = true
  · rw [if_pos h11] at h
    cases h
    exact ⟨rfl, rfl, rfl⟩
  · rw [if_neg h11, bind_ok_iff] at h
    obtain ⟨v10, -, h⟩ := h
    by_cases h10 : v10 = true
    · rw [if_pos h10] at h
      cases h
      exact ⟨rfl, rfl, rfl⟩
    · rw [if_neg h10, bind_ok_iff] at h
      obtain ⟨_, -, ⟨⟩⟩ := h
      exact ⟨rfl, rfl, rfl⟩

theorem on_request_http_field_kept {buffer : Bytes} {pos flen value vlen : Nat}
    {parser parser' : HttpRequestParser μ}
    (h : on_request_http_field E buffer pos flen value vlen parser = .ok parser') :
    parser.Kept parser' := by
  rw [on_request_http_field, bind_ok_iff] at h
  obtain ⟨name, -, h⟩ := h
  rw [bind_ok_iff] at h
  obtain ⟨val, -, h⟩ := h
  by_cases hlen : flen = 0
  · rw [if_pos hlen] at h
    cases h
    exact ⟨rfl, rfl, rfl⟩
  · rw [if_neg hlen] at h
    cases h
    refine ⟨rfl, rfl, ?_⟩
    by_cases hconn :
        sameKey name (bytes "connection") = true ∧ sameKey val (bytes "keep-alive") = true
    · simp only [if_pos hconn]
      rfl
    · simp only [if_neg hconn]
      rfl

theorem act_kept {buffer : Bytes} {p : Nat} {parser parser' : HttpRequestParser μ} {a : Action}
    (h : act E buffer p parser a = .ok parser') : parser.Kept parser' := by
  cases a with
  | write_value => exact on_request_http_field_kept h
  | request_method => exact on_request_method_kept h
  | http_version => exact on_request_version_kept h
  | fragment =>
      obtain ⟨_, -, ⟨⟩⟩ := bind_ok_iff.mp h
      exact ⟨rfl, rfl, rfl⟩
  | query_string =>
      obtain ⟨_, -, ⟨⟩⟩ := bind_ok_iff.mp h
      exact ⟨rfl, rfl, rfl⟩
  | request_path =>
      obtain ⟨_, -, ⟨⟩⟩ := bind_ok_iff.mp h
      exact ⟨rfl, rfl, rfl⟩
  | done =>
      rw [act] at h
      by_cases hsent : parser.mParser.xml_sent = true ∨ parser.mParser.json_sent = true
      · rw [if_pos hsent] at h
        cases h
        exact ⟨rfl, rfl, rfl⟩
      · rw [if_neg hsent] at h
        cases h
        exact ⟨rfl, rfl, rfl⟩
  | _ =>
      cases h
      exact ⟨rfl, rfl, rfl⟩

theorem acts_kept {buffer : Bytes} {p : Nat} {parser parser' : HttpRequestParser μ}
    {acts : List Action} (h : acts.foldlM (act E buffer p) parser = .ok parser') :
    parser.Kept parser' :=
  Fallible.foldlM_keeps parser.Kept (fun hact hkept => hkept.trans (act_kept hact)) h (.refl _)

/-! ## Reads inside the buffer -/

theorem stringAt_extends (buffer rest : Bytes) (pos length : Nat) :
    Extends (stringAt buffer pos length) (stringAt (buffer ++ rest) pos length) := by
  rw [stringAt, stringAt]
  refine .ite (.refl _) ?_
  by_cases hwin : (window buffer pos length).length = length
  · have heq : window (buffer ++ rest) pos length = window buffer pos length := by
      by_cases hpos : pos + length ≤ buffer.length
      · exact Window.window_append_left hpos
      · rw [window, List.length_take, List.length_drop] at hwin
        have hlen : length = 0 := by omega
        rw [hlen, Window.window_zero, Window.window_zero]
    rw [heq]
    exact .refl _
  · rw [if_neg hwin]
    exact .of_error _ _

theorem strncmp_extends :
    ∀ (s t rest : Bytes) (n : Nat), Extends (strncmp s t n) (strncmp s (t ++ rest) n)
  | s, t, rest, 0 => by
      rw [strncmp, strncmp]
      exact .refl _
  | [], t, rest, n + 1 => by
      rw [strncmp]
      · exact .of_error _ _
      · simp
  | a :: s, [], rest, n + 1 => by
      rw [strncmp]
      · exact .of_error _ _
      · simp
  | a :: s, b :: t, rest, n + 1 => by
      rw [List.cons_append, strncmp, strncmp]
      exact .ite (.ite (.refl _) (strncmp_extends s t rest n)) (.refl _)

theorem charsToMethod_extends (m rest : Bytes) :
    ∀ table, Extends (charsToMethod m table) (charsToMethod (m ++ rest) table)
  | [] => .refl _
  | (name, string) :: table => by
      rw [charsToMethod, charsToMethod]
      exact (strncmp_extends _ m rest _).bind fun same =>
        .ite (.refl _) (charsToMethod_extends m rest table)

theorem act_extends (buffer rest : Bytes) (p : Nat) (parser : HttpRequestParser μ) (a : Action) :
    Extends (act E buffer p parser a) (act E (buffer ++ rest) p parser a) := by
  have hstr := stringAt_extends buffer rest
  cases a with
  | write_value =>
      exact (hstr _ _).bind fun name => (hstr _ _).bind fun val => .refl _
  | request_method =>
      have hdrop : (buffer ++ rest).drop parser.mParser.mark =
          buffer.drop parser.mParser.mark ++ rest.drop (parser.mParser.mark - buffer.length) :=
        List.drop_append
      rw [act, act, on_request_method, on_request_method, hdrop]
      exact (charsToMethod_extends _ _ _).bind fun m =>
        .ite ((hstr _ _).bind fun _ => .refl _) (.refl _)
  | fragment => exact (hstr _ _).bind fun _ => .refl _
  | query_string => exact (hstr _ _).bind fun _ => .refl _
  | request_path => exact (hstr _ _).bind fun _ => .refl _
  | http_version =>
      have hdrop : (buffer ++ rest).drop parser.mParser.mark =
          buffer.drop parser.mParser.mark ++ rest.drop (parser.mParser.mark - buffer.length) :=
        List.drop_append
      rw [act, act, on_request_version, on_request_version, hdrop]
      exact (strncmp_extends _ _ _ _).bind fun _ => .ite (.refl _) <|
        (strncmp_extends _ _ _ _).bind fun _ => .ite (.refl _) <|
          (hstr _ _).bind fun _ => .refl _
  | _ => exact .refl _

/-! ## The loop -/

/-- The cases of a round of the loop that gives something. -/
theorem exec_cons {buffer bs : Bytes} {b : UInt8} {p p' : Nat}
    {parser parser' : HttpRequestParser μ}
    (h : exec E buffer (b :: bs) p parser = .ok (parser', p')) :
    (E.machine.step parser.mParser.cs b = none ∧ p' = p ∧
      parser' = { parser with mParser.cs := http_parser_error }) ∨
    ∃ acts cs parser₁, E.machine.step parser.mParser.cs b = some (acts, cs) ∧
      acts.foldlM (act E buffer p) parser = .ok parser₁ ∧
      if .done ∈ acts then p' = p + 1 ∧ parser' = { parser₁ with mParser.cs := cs }
      else exec E buffer bs (p + 1) { parser₁ with mParser.cs := cs } = .ok (parser', p') := by
  rw [exec] at h
  cases hstep : E.machine.step parser.mParser.cs b with
  | none =>
      simp only [hstep] at h
      cases h
      exact .inl ⟨rfl, rfl, rfl⟩
  | some next =>
      obtain ⟨acts, cs⟩ := next
      simp only [hstep] at h
      obtain ⟨parser₁, hacts, h⟩ := bind_ok_iff.mp h
      refine .inr ⟨acts, cs, parser₁, rfl, hacts, ?_⟩
      by_cases hd : Action.done ∈ acts
      · rw [if_pos hd] at h ⊢
        cases h
        exact ⟨rfl, rfl⟩
      · rw [if_neg hd] at h ⊢
        exact h

/-- The loop leaves `nread` and the body of the request alone. -/
theorem exec_kept {buffer : Bytes} :
    ∀ {bs : Bytes} {p p' : Nat} {parser parser' : HttpRequestParser μ},
      exec E buffer bs p parser = .ok (parser', p') →
      parser'.mParser.nread = parser.mParser.nread ∧
        parser'.m_data.m_body = parser.m_data.m_body
  | [], _, _, _, _, h => by
      cases h
      exact ⟨rfl, rfl⟩
  | b :: bs, p, p', parser, parser', h => by
      rcases exec_cons h with ⟨-, -, rfl⟩ | ⟨acts, cs, parser₁, -, hacts, h⟩
      · exact ⟨rfl, rfl⟩
      · obtain ⟨-, hnread, hbody⟩ := acts_kept hacts
        by_cases hd : Action.done ∈ acts
        · rw [if_pos hd] at h
          rw [h.2]
          exact ⟨hnread, hbody⟩
        · rw [if_neg hd] at h
          obtain ⟨hnread', hbody'⟩ := exec_kept h
          exact ⟨hnread'.trans hnread, hbody'.trans hbody⟩

/-- The loop gets through what the table walks over. -/
theorem exec_walk {buffer : Bytes} :
    ∀ {bs : Bytes} {p p' c : Nat} {parser parser' : HttpRequestParser μ},
      E.machine.walk parser.mParser.cs bs = some c →
      exec E buffer bs p parser = .ok (parser', p') →
      p' = p + bs.length ∧ parser'.mParser.cs = c
  | [], p, p', c, parser, parser', hwalk, h => by
      cases hwalk
      cases h
      exact ⟨rfl, rfl⟩
  | b :: bs, p, p', c, parser, parser', hwalk, h => by
      rw [Machine.walk] at hwalk
      rcases exec_cons h with ⟨hstep, -, -⟩ | ⟨acts, cs, parser₁, hstep, hacts, h⟩
      · simp only [hstep] at hwalk
        cases hwalk
      · simp only [hstep] at hwalk
        by_cases hd : Action.done ∈ acts
        · rw [if_pos hd] at hwalk
          cases hwalk
        · rw [if_neg hd] at hwalk h
          obtain ⟨hp, hcs⟩ := exec_walk hwalk h
          refine ⟨?_, hcs⟩
          rw [hp, List.length_cons]
          omega

/-- And it is left on the byte that brings `done`, whatever comes behind. -/
theorem exec_ends {buffer : Bytes} :
    ∀ {h more : Bytes} {p p' : Nat} {parser parser' : HttpRequestParser μ},
      E.machine.Ends parser.mParser.cs h →
      exec E buffer (h ++ more) p parser = .ok (parser', p') →
      p' = p + h.length ∧ http_parser_first_final ≤ parser'.mParser.cs
  | [], _, _, _, _, _, hends, _ => hends.elim
  | b :: bs, more, p, p', parser, parser', hends, h => by
      rw [Machine.Ends] at hends
      rcases exec_cons h with ⟨hstep, -, -⟩ | ⟨acts, cs, parser₁, hstep, hacts, h⟩
      · simp only [hstep] at hends
      · simp only [hstep] at hends
        by_cases hd : Action.done ∈ acts
        · rw [if_pos hd] at hends h
          obtain ⟨rfl, rfl⟩ := h
          rw [hends]
          exact ⟨rfl, (E.machine.done_iff hstep).mp hd⟩
        · rw [if_neg hd] at hends h
          obtain ⟨hp, hcs⟩ := exec_ends hends h
          refine ⟨?_, hcs⟩
          rw [hp, List.length_cons]
          omega

/-- Bytes that bring the loop to a final state end there, and are read the same in a longer
buffer. -/
theorem exec_append {buffer : Bytes} (rest more : Bytes) {bs : Bytes} {p : Nat}
    {parser parser' : HttpRequestParser μ}
    (hcs : parser.mParser.cs < http_parser_first_final)
    (h : exec E buffer bs p parser = .ok (parser', p + bs.length))
    (hfinal : http_parser_first_final ≤ parser'.mParser.cs) :
    E.machine.Ends parser.mParser.cs bs ∧
      exec E (buffer ++ rest) (bs ++ more) p parser = .ok (parser', p + bs.length) := by
  induction bs generalizing p parser with
  | nil =>
      cases h
      exact absurd hcs (Nat.not_lt_of_le hfinal)
  | cons b bs ih =>
      rw [List.cons_append, Machine.Ends, exec]
      rcases exec_cons h with ⟨hstep, hp, -⟩ | ⟨acts, cs, parser₁, hstep, hacts, h⟩
      · rw [List.length_cons] at hp
        omega
      · have hacts' := Extends.foldlM (act_extends buffer rest p) acts parser parser₁ hacts
        simp only [hstep]
        rw [bind_ok_iff]
        by_cases hd : Action.done ∈ acts
        · rw [if_pos hd] at h ⊢
          obtain ⟨hp, rfl⟩ := h
          have hlen : bs.length = 0 := by
            rw [List.length_cons] at hp
            omega
          refine ⟨List.eq_nil_of_length_eq_zero hlen, parser₁, hacts', ?_⟩
          rw [if_pos hd, hp]
          rfl
        · rw [if_neg hd] at h ⊢
          have hlen : p + (b :: bs).length = p + 1 + bs.length := by
            rw [List.length_cons]
            omega
          rw [hlen] at h ⊢
          obtain ⟨hends, hexec⟩ :=
            ih (Nat.lt_of_not_le (mt (E.machine.done_iff hstep).mpr hd)) h
          refine ⟨hends, parser₁, hacts', ?_⟩
          rw [if_neg hd]
          exact hexec

/-! ## A call of the parser -/

theorem isFinished_eq_one {parser : HttpRequestParser μ} :
    parser.isFinished = 1 ↔ http_parser_first_final ≤ parser.mParser.cs := by
  rw [HttpRequestParser.isFinished]
  by_cases hzero : parser.mParser.cs = http_parser_error
  · rw [if_pos hzero, hzero]
    decide
  · rw [if_neg hzero]
    by_cases hfinal : http_parser_first_final ≤ parser.mParser.cs
    · rw [if_pos hfinal]
      exact iff_of_true rfl hfinal
    · rw [if_neg hfinal]
      exact iff_of_false (by decide) hfinal

/-- What a call that returns has done. -/
theorem execute_ok {buffer : Bytes} {len n : Nat} {parser parser' : HttpRequestParser μ}
    (hlen : len ≠ 0) (h : http_parser_execute E buffer len parser = .ok (parser', n)) :
    ∃ parser₁ p, exec E buffer (buffer.take len) 0 parser = .ok (parser₁, p) ∧
      n = parser.mParser.nread + p ∧ parser'.mParser.nread = n ∧
      parser' = { parser₁ with mParser.nread := n } ∧ parser'.mParser.inBounds len := by
  rw [http_parser_execute, if_neg hlen, bind_ok_iff] at h
  obtain ⟨⟨parser₁, p⟩, hexec, h⟩ := h
  have hnread := (exec_kept hexec).1
  simp only [hnread] at h
  by_cases hin :
      ({ parser₁.mParser with nread := parser.mParser.nread + p } : HttpParser).inBounds len
  · rw [if_pos hin] at h
    cases h
    exact ⟨parser₁, p, hexec, rfl, rfl, rfl, hin⟩
  · rw [if_neg hin] at h
    cases h

/-- A call never reports more than its length. -/
theorem execute_le {buffer : Bytes} {len n : Nat} {parser parser' : HttpRequestParser μ}
    (hlen : len ≠ 0) (h : http_parser_execute E buffer len parser = .ok (parser', n)) :
    n ≤ len := by
  obtain ⟨_, _, _, _, hn, _, hin⟩ := execute_ok hlen h
  rw [← hn]
  exact hin.1

/-- A call leaves the body of the request alone. -/
theorem execute_body {buffer : Bytes} {len n : Nat} {parser parser' : HttpRequestParser μ}
    (hlen : len ≠ 0) (h : http_parser_execute E buffer len parser = .ok (parser', n)) :
    parser'.m_data.m_body = parser.m_data.m_body := by
  obtain ⟨_, _, hexec, -, -, rfl, -⟩ := execute_ok hlen h
  exact (exec_kept hexec).2

/-- A call on bytes that do not end the block adds all of them to `nread`. -/
theorem execute_walk {buffer : Bytes} {len n c : Nat} {parser parser' : HttpRequestParser μ}
    (hlen : len ≠ 0) (hwalk : E.machine.walk parser.mParser.cs (buffer.take len) = some c)
    (h : http_parser_execute E buffer len parser = .ok (parser', n)) :
    n = parser.mParser.nread + (buffer.take len).length ∧ parser'.mParser.cs = c ∧
      parser'.mParser.nread = n := by
  obtain ⟨parser₁, p, hexec, hn, hnread, rfl, _⟩ := execute_ok hlen h
  obtain ⟨hp, hcs⟩ := exec_walk hwalk hexec
  rw [Nat.zero_add] at hp
  rw [hp] at hn
  exact ⟨hn, hcs, rfl⟩

/-- A call on the end of the block adds only the bytes of the block. -/
theorem execute_ends {buffer h more : Bytes} {len n : Nat} {parser parser' : HttpRequestParser μ}
    (hlen : len ≠ 0) (hends : E.machine.Ends parser.mParser.cs h)
    (htake : buffer.take len = h ++ more)
    (hexec : http_parser_execute E buffer len parser = .ok (parser', n)) :
    n = parser.mParser.nread + h.length ∧ parser'.isFinished = 1 := by
  obtain ⟨parser₁, p, hloop, hn, -, rfl, -⟩ := execute_ok hlen hexec
  rw [htake] at hloop
  obtain ⟨hp, hfinal⟩ := exec_ends hends hloop
  rw [hp, Nat.zero_add] at hn
  exact ⟨hn, isFinished_eq_one.mpr hfinal⟩

/-! ## Header blocks -/

/-- A block that the parser accepts on its own and the buffer has room for. -/
structure HeaderBlock (E : Env μ) (h : Bytes) (parser : HttpRequestParser μ) : Prop where
  short : h.length < http_request_buffer_size
  accepted : http_parser_execute E h h.length (.new E) = .ok (parser, h.length)
  finished : parser.isFinished = 1
  no_error : parser.hasError = false

namespace HeaderBlock

variable {h : Bytes} {parser : HttpRequestParser μ}

theorem length_ne_zero (hb : HeaderBlock E h parser) : h.length ≠ 0 := by
  intro hzero
  have haccepted := hb.accepted
  rw [http_parser_execute, if_pos hzero] at haccepted
  have hparser := (Prod.mk.inj (Except.ok.inj haccepted)).1
  have hfinal := isFinished_eq_one.mp hb.finished
  rw [← hparser] at hfinal
  exact absurd hfinal (show ¬http_parser_first_final ≤ http_parser_start by decide)

/-- The run of the loop over the block alone. -/
theorem exec_eq (hb : HeaderBlock E h parser) (rest more : Bytes) :
    ∃ parser₁, parser = { parser₁ with mParser.nread := h.length } ∧
      E.machine.Ends http_parser_start h ∧
      exec E (h ++ rest) (h ++ more) 0 (.new E) = .ok (parser₁, h.length) := by
  obtain ⟨parser₁, p, hexec, hn, hnread, heq, _⟩ := execute_ok hb.length_ne_zero hb.accepted
  have hstart : (HttpRequestParser.new E).mParser.nread = 0 := rfl
  have hcs : (HttpRequestParser.new E).mParser.cs < http_parser_first_final :=
    show http_parser_start < http_parser_first_final by decide
  have hfinal : http_parser_first_final ≤ parser₁.mParser.cs := by
    have := isFinished_eq_one.mp hb.finished
    rwa [heq] at this
  rw [hstart, Nat.zero_add] at hn
  rw [List.take_length, ← hn, ← Nat.zero_add h.length] at hexec
  obtain ⟨hends, happ⟩ := exec_append rest more hcs hexec hfinal
  rw [Nat.zero_add] at happ
  exact ⟨parser₁, heq, hends, happ⟩

theorem ends (hb : HeaderBlock E h parser) : E.machine.Ends http_parser_start h := by
  obtain ⟨_, -, hends, -⟩ := hb.exec_eq [] []
  exact hends

/-- The first call accepts the block with anything behind it in the buffer. -/
theorem execute (hb : HeaderBlock E h parser) (rest : Bytes) (k : Nat) :
    http_parser_execute E (h ++ rest) (h.length + k) (.new E) = .ok (parser, h.length) := by
  obtain ⟨parser₁, heq, -, hexec⟩ := hb.exec_eq rest (rest.take k)
  obtain ⟨_, _, _, _, _, _, hin⟩ := execute_ok hb.length_ne_zero hb.accepted
  have hlen : h.length + k ≠ 0 := by
    have := hb.length_ne_zero
    omega
  have htake : (h ++ rest).take (h.length + k) = h ++ rest.take k := List.take_length_add_append k
  rw [http_parser_execute, if_neg hlen, htake, bind_ok_iff]
  refine ⟨(parser₁, h.length), hexec, ?_⟩
  have hnread : parser₁.mParser.nread = 0 := (exec_kept hexec).1
  have hbounds : parser.mParser.inBounds (h.length + k) := by
    obtain ⟨h1, h2, h3, h4, h5⟩ := hin
    exact ⟨by omega, by omega, by omega, by omega, by omega⟩
  simp only [hnread, Nat.zero_add]
  rw [heq] at hbounds ⊢
  rw [if_pos hbounds]
  rfl

end HeaderBlock

end Muqiu.Http
