import Muqiu.Log.Locks
import Muqiu.Log.Render

/-!
# Malformed patterns

A pattern is malformed when it is read to a `%` in front of neither a letter nor a `%`, to a
directive that is not in the table, or to a brace that is not closed (`Contains`).  The last two
set `m_error`; a stray `%` is skipped with the character behind it and sets nothing.
-/

namespace Muqiu.Log

open Json (Text ascii)

/-- The defects of a pattern. -/
inductive Defect where
  /-- A `%` in front of neither a letter nor a `%`, or at the end. -/
  | stray
  /-- A directive whose letter is not in the table. -/
  | unknown
  /-- A brace that is not closed. -/
  | unclosed
deriving DecidableEq, Repr

/-- Reading the pattern from the left, one comes to a defect. -/
inductive Contains : Defect → Text → Prop where
  | lone : Contains .stray [37]
  | stray {c : UInt8} {rest : Text} :
      c ≠ 37 → isalpha c = false → Contains .stray (37 :: c :: rest)
  | unknown {c : UInt8} {rest : Text} :
      isalpha c = true → ¬Known c → Contains .unknown (37 :: c :: rest)
  | unclosed {c : UInt8} {body : Text} :
      isalpha c = true → 125 ∉ body → Contains .unclosed (37 :: c :: 123 :: body)
  | literal {d : Defect} {b : UInt8} {rest : Text} :
      b ≠ 37 → Contains d rest → Contains d (b :: rest)
  | percent {d : Defect} {rest : Text} : Contains d rest → Contains d (37 :: 37 :: rest)
  | skip {d : Defect} {c : UInt8} {rest : Text} :
      c ≠ 37 → isalpha c = false → Contains d rest → Contains d (37 :: c :: rest)
  | directive {d : Defect} {c : UInt8} {rest : Text} :
      isalpha c = true → rest.head? ≠ some 123 → Contains d rest → Contains d (37 :: c :: rest)
  | braced {d : Defect} {c : UInt8} {fmt rest : Text} :
      isalpha c = true → 125 ∉ fmt → Contains d rest →
      Contains d (37 :: c :: 123 :: (fmt ++ 125 :: rest))
  | opened {d : Defect} {c : UInt8} {body : Text} :
      isalpha c = true → 125 ∉ body → Contains d (123 :: body) →
      Contains d (37 :: c :: 123 :: body)

/-- The pattern has a defect. -/
def Malformed (pattern : Text) : Prop := ∃ d, Contains d pattern

/-! ## One unit at a time -/

section Inversion

variable {d : Defect} {b c : UInt8} {fmt body rest : Text}

theorem not_contains_nil : ¬Contains d [] := by
  intro h
  cases h

theorem contains_literal (hb : b ≠ 37) : Contains d (b :: rest) ↔ Contains d rest := by
  constructor
  · intro h
    cases h with
    | literal _ hrest => exact hrest
    | _ => exact absurd rfl hb
  · exact .literal hb

theorem contains_lone : Contains d [37] ↔ d = .stray := by
  constructor
  · intro h
    cases h with
    | lone => rfl
    | literal hb _ => exact absurd rfl hb
  · rintro rfl
    exact .lone

theorem contains_percent : Contains d (37 :: 37 :: rest) ↔ Contains d rest := by
  constructor
  · intro h
    generalize hp : 37 :: 37 :: rest = p at h
    cases h with
    | percent hrest =>
        cases hp
        exact hrest
    | lone => cases hp
    | literal hb _ => 
        cases hp
        exact absurd rfl hb
    | stray hc _ | skip hc _ _ =>
        cases hp
        exact absurd rfl hc
    | unknown halpha _ | unclosed halpha _ | directive halpha _ _ | braced halpha _ _
    | opened halpha _ _ =>
        cases hp
        exact absurd rfl (alpha_ne_percent halpha)
  · exact .percent

theorem contains_stray (hc : c ≠ 37) (halpha : isalpha c = false) :
    Contains d (37 :: c :: rest) ↔ d = .stray ∨ Contains d rest := by
  constructor
  · intro h
    generalize hp : 37 :: c :: rest = p at h
    cases h with
    | stray _ _ => exact Or.inl rfl
    | skip _ _ hrest =>
        cases hp
        exact Or.inr hrest
    | lone => cases hp
    | literal hb _ =>
        cases hp
        exact absurd rfl hb
    | percent _ =>
        cases hp
        exact absurd rfl hc
    | unknown h _ | unclosed h _ | directive h _ _ | braced h _ _ | opened h _ _ =>
        cases hp
        rw [halpha] at h
        cases h
  · rintro (rfl | hrest)
    · exact .stray hc halpha
    · exact .skip hc halpha hrest

/-- What a directive can be read to. -/
theorem contains_letter (halpha : isalpha c = true) (h : Contains d (37 :: c :: rest)) :
    d = .unknown ∧ ¬Known c ∨
      rest.head? ≠ some 123 ∧ Contains d rest ∨
      (∃ fmt behind, rest = 123 :: (fmt ++ 125 :: behind) ∧ 125 ∉ fmt ∧ Contains d behind) ∨
      ∃ body, rest = 123 :: body ∧ 125 ∉ body ∧ (d = .unclosed ∨ Contains d (123 :: body)) := by
  generalize hp : 37 :: c :: rest = p at h
  cases h with
  | unknown _ hunknown =>
      cases hp
      exact Or.inl ⟨rfl, hunknown⟩
  | directive _ hhead hrest =>
      cases hp
      exact Or.inr (Or.inl ⟨hhead, hrest⟩)
  | braced _ hfmt hrest =>
      cases hp
      exact Or.inr (Or.inr (Or.inl ⟨_, _, rfl, hfmt, hrest⟩))
  | unclosed _ hbody =>
      cases hp
      exact Or.inr (Or.inr (Or.inr ⟨_, rfl, hbody, Or.inl rfl⟩))
  | opened _ hbody hrest =>
      cases hp
      exact Or.inr (Or.inr (Or.inr ⟨_, rfl, hbody, Or.inr hrest⟩))
  | lone => cases hp
  | literal hb _ =>
      cases hp
      exact absurd rfl hb
  | percent _ =>
      cases hp
      exact absurd rfl (alpha_ne_percent halpha)
  | stray _ h | skip _ h _ =>
      cases hp
      rw [halpha] at h
      cases h

theorem contains_directive (halpha : isalpha c = true) (hrest : rest.head? ≠ some 123) :
    Contains d (37 :: c :: rest) ↔ (d = .unknown ∧ ¬Known c) ∨ Contains d rest := by
  constructor
  · intro h
    rcases contains_letter halpha h with h | ⟨-, h⟩ | ⟨fmt, behind, rfl, -⟩ | ⟨body, rfl, -⟩
    · exact Or.inl h
    · exact Or.inr h
    · exact absurd rfl hrest
    · exact absurd rfl hrest
  · rintro (⟨rfl, h⟩ | h)
    · exact .unknown halpha h
    · exact .directive halpha hrest h

theorem contains_braced (halpha : isalpha c = true) (hfmt : 125 ∉ fmt) :
    Contains d (37 :: c :: 123 :: (fmt ++ 125 :: rest)) ↔
      (d = .unknown ∧ ¬Known c) ∨ Contains d rest := by
  constructor
  · intro h
    rcases contains_letter halpha h with
      h | ⟨hhead, -⟩ | ⟨fmt', behind, heq, hfmt', h⟩ | ⟨body, heq, hbody, -⟩
    · exact Or.inl h
    · exact absurd rfl hhead
    · have hclosing := closing_append hfmt' behind
      rw [← List.tail_eq_of_cons_eq heq, closing_append hfmt] at hclosing
      cases hclosing
      exact Or.inr h
    · rw [← List.tail_eq_of_cons_eq heq] at hbody
      exact absurd (List.mem_append_right _ List.mem_cons_self) hbody
  · rintro (⟨rfl, h⟩ | h)
    · exact .unknown halpha h
    · exact .braced halpha hfmt h

theorem contains_opened (halpha : isalpha c = true) (hbody : 125 ∉ body) :
    Contains d (37 :: c :: 123 :: body) ↔
      (d = .unknown ∧ ¬Known c) ∨ d = .unclosed ∨ Contains d (123 :: body) := by
  constructor
  · intro h
    rcases contains_letter halpha h with
      h | ⟨hhead, -⟩ | ⟨fmt, behind, heq, -⟩ | ⟨body', heq, -, h⟩
    · exact Or.inl h
    · exact absurd rfl hhead
    · rw [List.tail_eq_of_cons_eq heq] at hbody
      exact absurd (List.mem_append_right _ List.mem_cons_self) hbody
    · cases heq
      exact Or.inr h
  · rintro (⟨rfl, h⟩ | rfl | h)
    · exact .unknown halpha h
    · exact .unclosed halpha hbody
    · exact .opened halpha hbody h

end Inversion

/-! ## What is flagged -/

theorem itemOf_directive_iff {c : UInt8} {fmt : Text} :
    (itemOf (.directive c fmt)).2 = true ↔ ¬Known c := by
  rw [Known, ← formatterItems_isSome c fmt, itemOf]
  cases formatterItems c fmt <;> simp

theorem any_flush (nstr : Text) : ((flush nstr).any fun i => (itemOf i).2) = false := by
  cases nstr <;> rfl

/-- The scan sets the error at a brace that is not closed. -/
theorem pieces_error_iff (p nstr : Text) : (pieces nstr p).2 = true ↔ Contains .unclosed p := by
  induction reading p generalizing nstr with
  | nil => simp [pieces_nil, not_contains_nil]
  | literal hb _ ih => rw [pieces_literal _ hb, contains_literal hb, ih]
  | percent _ ih => rw [pieces_percent, contains_percent, ih]
  | lone => simp [pieces_lone, contains_lone]
  | stray hc halpha _ ih =>
      rw [pieces_stray _ hc halpha, contains_stray hc halpha, ih]
      simp
  | directive halpha hhead _ ih =>
      rw [pieces_directive _ halpha hhead, contains_directive halpha hhead, ih]
      simp
  | braced halpha hfmt _ ih =>
      rw [pieces_braced _ halpha hfmt, contains_braced halpha hfmt, ih]
      simp
  | opened halpha hbody _ _ =>
      rw [pieces_opened _ halpha hbody, contains_opened halpha hbody]
      simp

/-- The table has no item for a piece where it has none for a directive of the pattern. -/
theorem pieces_unknown_iff (p nstr : Text) :
    ((pieces nstr p).1.any fun i => (itemOf i).2) = true ↔ Contains .unknown p := by
  induction reading p generalizing nstr with
  | nil => simp [pieces_nil, not_contains_nil]
  | literal hb _ ih => rw [pieces_literal _ hb, contains_literal hb, ih]
  | percent _ ih =>
      rw [pieces_percent, contains_percent, List.any_cons, itemOf, Bool.false_or, ih]
  | lone => simp [pieces_lone, contains_lone, any_flush]
  | stray hc halpha _ ih =>
      rw [pieces_stray _ hc halpha, contains_stray hc halpha, List.any_append, any_flush,
        Bool.false_or, ih]
      simp
  | directive halpha hhead _ ih =>
      rw [pieces_directive _ halpha hhead, contains_directive halpha hhead, List.any_append,
        any_flush, Bool.false_or, List.any_cons, Bool.or_eq_true, itemOf_directive_iff, ih]
      simp
  | braced halpha hfmt _ ih =>
      rw [pieces_braced _ halpha hfmt, contains_braced halpha hfmt, List.any_append,
        any_flush, Bool.false_or, List.any_cons, Bool.or_eq_true, itemOf_directive_iff, ih]
      simp
  | opened halpha hbody _ ih =>
      rw [pieces_opened _ halpha hbody, contains_opened halpha hbody, List.cons_append,
        List.any_cons, List.any_append, any_flush, Bool.false_or, Bool.or_eq_true,
        itemOf_directive_iff, ih]
      simp

theorem m_error_iff (pattern : Text) :
    (LogFormatter.ofPattern pattern).m_error = true ↔
      Contains .unknown pattern ∨ Contains .unclosed pattern := by
  have herror : (LogFormatter.ofPattern pattern).m_error =
      ((pieces [] pattern).2 || (pieces [] pattern).1.any fun i => (itemOf i).2) := rfl
  rw [herror, Bool.or_eq_true, pieces_error_iff, pieces_unknown_iff, or_comm]

/-- A pattern with an error leaves everything as it is. -/
theorem setFormatterPattern_refuses {pattern : Text} {n : Nat} {w : World}
    (herror : (LogFormatter.ofPattern pattern).m_error = true) (hn : n < w.loggers.length)
    (hfree : Mutex.logger n ∉ w.held) : setFormatterPattern n pattern w = .ok w := by
  rw [setFormatterPattern, locking_free hfree]
  simp only [List.getElem?_eq_getElem hn, herror, if_true]
  rfl

/-- The malformed patterns and no others are flagged, a logger refuses them, and the loop over the
index stays inside the pattern. -/
structure FlagsExactly (pattern : Text) : Prop where
  isError : (LogFormatter.ofPattern pattern).m_error = true ↔ Malformed pattern
  refuses : Malformed pattern → ∀ (n : Nat) (w : World), n < w.loggers.length →
    Mutex.logger n ∉ w.held → setFormatterPattern n pattern w = .ok w
  inRange : (initLoop pattern pattern.length {}).isSome = true

/-- The malformed patterns are flagged exactly where a stray `%` does not come alone. -/
theorem flagsExactly_iff (pattern : Text) :
    FlagsExactly pattern ↔
      (Contains .stray pattern → Contains .unknown pattern ∨ Contains .unclosed pattern) := by
  constructor
  · intro h hstray
    exact (m_error_iff pattern).mp (h.isError.mpr ⟨.stray, hstray⟩)
  · intro h
    have hflag : Malformed pattern → (LogFormatter.ofPattern pattern).m_error = true := by
      rintro ⟨d, hd⟩
      rw [m_error_iff]
      cases d with
      | stray => exact h hd
      | unknown => exact Or.inl hd
      | unclosed => exact Or.inr hd
    refine ⟨⟨fun herror => ?_, hflag⟩, fun hbad n w => setFormatterPattern_refuses (hflag hbad), ?_⟩
    · rcases (m_error_iff pattern).mp herror with hunknown | hunclosed
      · exact ⟨.unknown, hunknown⟩
      · exact ⟨.unclosed, hunclosed⟩
    · obtain ⟨s, hloop, _⟩ := initLoop_eq pattern
      rw [hloop]
      rfl

/-- The pattern `100%` is taken as it stands. -/
theorem percentAtEnd_not_flagged : ¬FlagsExactly (ascii "100%") := by
  intro h
  have hbad : Malformed (ascii "100%") :=
    ⟨.stray, .literal (by decide) (.literal (by decide) (.literal (by decide) .lone))⟩
  exact absurd (h.isError.mpr hbad) (by decide)

end Muqiu.Log
