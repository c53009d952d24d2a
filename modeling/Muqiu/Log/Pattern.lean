import Mathlib.Data.List.Basic
import Muqiu.Log.Formatter

/-!
# Reading a pattern

A pattern is read from the left, one unit at a time (`Reading`): a character as it is, `%%`, a
directive with or without braces, or a `%` that begins none of these.  The scan does on each
unit what its equation says, so what is proved of every pattern goes by induction on the
reading.

`init` itself moves an index over the pattern.  `initLoop` is this loop with every access of
`m_pattern` checked: a `std::string` may be read up to its terminator and no further.  It never
reads further, and its result is the scan's (`initLoop_eq`).
-/

namespace Muqiu.Log

open Json (Text ascii)

/-- How a pattern is read. -/
inductive Reading : Text → Prop where
  | nil : Reading []
  | literal {b : UInt8} {rest : Text} : b ≠ 37 → Reading rest → Reading (b :: rest)
  | percent {rest : Text} : Reading rest → Reading (37 :: 37 :: rest)
  /-- A `%` at the end. -/
  | lone : Reading [37]
  /-- A `%` in front of neither a letter nor a `%`. -/
  | stray {c : UInt8} {rest : Text} :
      c ≠ 37 → isalpha c = false → Reading rest → Reading (37 :: c :: rest)
  | directive {c : UInt8} {rest : Text} :
      isalpha c = true → rest.head? ≠ some 123 → Reading rest → Reading (37 :: c :: rest)
  | braced {c : UInt8} {fmt rest : Text} :
      isalpha c = true → 125 ∉ fmt → Reading rest →
      Reading (37 :: c :: 123 :: (fmt ++ 125 :: rest))
  /-- A brace that is not closed, read on as text. -/
  | opened {c : UInt8} {body : Text} :
      isalpha c = true → 125 ∉ body → Reading (123 :: body) → Reading (37 :: c :: 123 :: body)

/-- A text has a brace in it or none. -/
theorem exists_closing {body : Text} (h : 125 ∈ body) :
    ∃ fmt rest, body = fmt ++ 125 :: rest ∧ 125 ∉ fmt := by
  obtain ⟨fmt, rest, rfl, hfmt⟩ := List.eq_append_cons_of_mem h
  exact ⟨fmt, rest, rfl, hfmt⟩

/-- Every pattern can be read. -/
theorem reading_of_length : ∀ (n : Nat) {p : Text}, p.length ≤ n → Reading p
  | _, [], _ => .nil
  | n + 1, b :: rest, hlen => by
      rw [List.length_cons] at hlen
      by_cases hb : b = 37
      · subst hb
        match rest with
        | [] => exact .lone
        | c :: rest =>
            rw [List.length_cons] at hlen
            have hrest : Reading rest := reading_of_length n (by omega)
            by_cases hc : c = 37
            · subst hc
              exact .percent hrest
            cases halpha : isalpha c with
            | false => exact .stray hc halpha hrest
            | true =>
                by_cases hbrace : rest.head? = some 123
                · obtain ⟨body, rfl⟩ := List.head?_eq_some_iff.mp hbrace
                  by_cases hclosed : 125 ∈ body
                  · obtain ⟨fmt, behind, rfl, hfmt⟩ := exists_closing hclosed
                    refine .braced halpha hfmt (reading_of_length n ?_)
                    simp only [List.length_cons, List.length_append] at hlen
                    omega
                  · exact .opened halpha hclosed hrest
                · exact .directive halpha hbrace hrest
      · exact .literal hb (reading_of_length n (by omega))

theorem reading (p : Text) : Reading p := reading_of_length p.length (Nat.le_refl _)

/-! ## The scan, unit by unit -/

theorem closing_append {fmt : Text} (h : 125 ∉ fmt) (rest : Text) :
    closing (fmt ++ 125 :: rest) = some (fmt, rest) := by
  induction fmt with
  | nil => rw [List.nil_append, closing, if_pos rfl]
  | cons b fmt ih =>
      rw [List.mem_cons, not_or] at h
      obtain ⟨hb, hfmt⟩ := h
      rw [List.cons_append, closing, if_neg fun heq => hb heq.symm, ih hfmt]
      rfl

theorem closing_eq_none {body : Text} (h : 125 ∉ body) : closing body = none := by
  induction body with
  | nil => rfl
  | cons b body ih =>
      rw [List.mem_cons, not_or] at h
      obtain ⟨hb, hbody⟩ := h
      rw [closing, if_neg fun heq => hb heq.symm, ih hbody]
      rfl

theorem alpha_ne_percent {c : UInt8} (h : isalpha c = true) : c ≠ 37 := by
  rintro rfl
  exact absurd h (by decide)

section Equations

variable (fuel : Nat) (nstr : Text) {b c : UInt8} {fmt body rest : Text}

theorem scan_nil : scan fuel nstr [] = ([], false) := by
  cases fuel <;> rfl

theorem scan_literal (hb : b ≠ 37) :
    scan (fuel + 1) nstr (b :: rest) = scan fuel (nstr ++ [b]) rest := by
  simp [scan, hb]

theorem scan_lone : scan (fuel + 1) nstr [37] = (flush nstr, false) := by
  simp [scan]

theorem scan_percent :
    scan (fuel + 1) nstr (37 :: 37 :: rest) =
      (.text (nstr ++ [37]) :: (scan fuel [] rest).1, (scan fuel [] rest).2) := by
  simp [scan]

theorem scan_stray (hc : c ≠ 37) (halpha : isalpha c = false) :
    scan (fuel + 1) nstr (37 :: c :: rest) =
      (flush nstr ++ (scan fuel [] rest).1, (scan fuel [] rest).2) := by
  simp [scan, hc, halpha]

theorem scan_directive (halpha : isalpha c = true) (hrest : rest.head? ≠ some 123) :
    scan (fuel + 1) nstr (37 :: c :: rest) =
      (flush nstr ++ .directive c [] :: (scan fuel [] rest).1, (scan fuel [] rest).2) := by
  cases rest with
  | nil => simp [scan, scan_nil, alpha_ne_percent halpha, halpha]
  | cons d body =>
      have hd : d ≠ 123 := fun heq => hrest (by rw [heq]; rfl)
      simp [scan, alpha_ne_percent halpha, halpha, hd]

theorem scan_braced (halpha : isalpha c = true) (hfmt : 125 ∉ fmt) :
    scan (fuel + 1) nstr (37 :: c :: 123 :: (fmt ++ 125 :: rest)) =
      (flush nstr ++ .directive c fmt :: (scan fuel [] rest).1, (scan fuel [] rest).2) := by
  simp [scan, alpha_ne_percent halpha, halpha, closing_append hfmt]

theorem scan_opened (halpha : isalpha c = true) (hbody : 125 ∉ body) :
    scan (fuel + 1) nstr (37 :: c :: 123 :: body) =
      (.directive c (ascii "<<pattern_error>>") :: flush nstr ++ (scan fuel [] (123 :: body)).1,
        true) := by
  simp [scan, alpha_ne_percent halpha, halpha, closing_eq_none hbody]

end Equations

theorem exists_succ_of_lt {k n : Nat} (h : k < n) : ∃ n', n = n' + 1 ∧ k ≤ n' :=
  ⟨n - 1, by omega, by omega⟩

/-- More rounds than characters are as good as any. -/
theorem scan_fuel {p : Text} (h : Reading p) :
    ∀ {n m : Nat} {nstr : Text}, p.length < n → p.length < m → scan n nstr p = scan m nstr p := by
  induction h with
  | nil => exact fun _ _ => by rw [scan_nil, scan_nil]
  | lone =>
      intro n m nstr hn hm
      obtain ⟨n, rfl, hn'⟩ := exists_succ_of_lt hn
      obtain ⟨m, rfl, hm'⟩ := exists_succ_of_lt hm
      rw [scan_lone, scan_lone]
  | literal hb _ ih =>
      intro n m nstr hn hm
      obtain ⟨n, rfl, hn'⟩ := exists_succ_of_lt hn
      obtain ⟨m, rfl, hm'⟩ := exists_succ_of_lt hm
      rw [scan_literal _ _ hb, scan_literal _ _ hb, ih hn' hm']
  | percent _ ih =>
      intro n m nstr hn hm
      obtain ⟨n, rfl, hn'⟩ := exists_succ_of_lt hn
      obtain ⟨m, rfl, hm'⟩ := exists_succ_of_lt hm
      rw [scan_percent, scan_percent, ih (Nat.lt_of_succ_lt hn') (Nat.lt_of_succ_lt hm')]
  | stray hc halpha _ ih =>
      intro n m nstr hn hm
      obtain ⟨n, rfl, hn'⟩ := exists_succ_of_lt hn
      obtain ⟨m, rfl, hm'⟩ := exists_succ_of_lt hm
      rw [scan_stray _ _ hc halpha, scan_stray _ _ hc halpha,
        ih (Nat.lt_of_succ_lt hn') (Nat.lt_of_succ_lt hm')]
  | directive halpha hhead _ ih =>
      intro n m nstr hn hm
      obtain ⟨n, rfl, hn'⟩ := exists_succ_of_lt hn
      obtain ⟨m, rfl, hm'⟩ := exists_succ_of_lt hm
      rw [scan_directive _ _ halpha hhead, scan_directive _ _ halpha hhead,
        ih (Nat.lt_of_succ_lt hn') (Nat.lt_of_succ_lt hm')]
  | braced halpha hfmt _ ih =>
      intro n m nstr hn hm
      obtain ⟨n, rfl, hn'⟩ := exists_succ_of_lt hn
      obtain ⟨m, rfl, hm'⟩ := exists_succ_of_lt hm
      simp only [List.length_cons, List.length_append] at hn' hm'
      rw [scan_braced _ _ halpha hfmt, scan_braced _ _ halpha hfmt,
        ih (n := n) (m := m) (by omega) (by omega)]
  | opened halpha hbody _ ih =>
      intro n m nstr hn hm
      obtain ⟨n, rfl, hn'⟩ := exists_succ_of_lt hn
      obtain ⟨m, rfl, hm'⟩ := exists_succ_of_lt hm
      rw [scan_opened _ _ halpha hbody, scan_opened _ _ halpha hbody,
        ih (Nat.lt_of_succ_lt hn') (Nat.lt_of_succ_lt hm')]

/-- The scan with rounds enough. -/
def pieces (nstr p : Text) : List Piece × Bool := scan (p.length + 1) nstr p

theorem scan_eq_pieces {n : Nat} {p : Text} (h : p.length < n) (nstr : Text) :
    scan n nstr p = pieces nstr p :=
  scan_fuel (reading p) h (Nat.lt_succ_self _)

section Pieces

variable (nstr : Text) {b c : UInt8} {fmt body rest : Text}

theorem pieces_nil : pieces nstr [] = ([], false) := scan_nil _ nstr

theorem pieces_literal (hb : b ≠ 37) : pieces nstr (b :: rest) = pieces (nstr ++ [b]) rest :=
  scan_literal _ nstr hb

theorem pieces_lone : pieces nstr [37] = (flush nstr, false) := scan_lone _ nstr

theorem pieces_percent :
    pieces nstr (37 :: 37 :: rest) =
      (.text (nstr ++ [37]) :: (pieces [] rest).1, (pieces [] rest).2) := by
  rw [pieces, scan_percent, scan_eq_pieces (by simp only [List.length_cons]; omega)]

theorem pieces_stray (hc : c ≠ 37) (halpha : isalpha c = false) :
    pieces nstr (37 :: c :: rest) = (flush nstr ++ (pieces [] rest).1, (pieces [] rest).2) := by
  rw [pieces, scan_stray _ _ hc halpha, scan_eq_pieces (by simp only [List.length_cons]; omega)]

theorem pieces_directive (halpha : isalpha c = true) (hrest : rest.head? ≠ some 123) :
    pieces nstr (37 :: c :: rest) =
      (flush nstr ++ .directive c [] :: (pieces [] rest).1, (pieces [] rest).2) := by
  rw [pieces, scan_directive _ _ halpha hrest,
    scan_eq_pieces (by simp only [List.length_cons]; omega)]

theorem pieces_braced (halpha : isalpha c = true) (hfmt : 125 ∉ fmt) :
    pieces nstr (37 :: c :: 123 :: (fmt ++ 125 :: rest)) =
      (flush nstr ++ .directive c fmt :: (pieces [] rest).1, (pieces [] rest).2) := by
  rw [pieces, scan_braced _ _ halpha hfmt, scan_eq_pieces (by simp; omega)]

theorem pieces_opened (halpha : isalpha c = true) (hbody : 125 ∉ body) :
    pieces nstr (37 :: c :: 123 :: body) =
      (.directive c (ascii "<<pattern_error>>") :: flush nstr ++ (pieces [] (123 :: body)).1,
        true) := by
  rw [pieces, scan_opened _ _ halpha hbody, scan_eq_pieces (by simp)]

end Pieces

/-! ## The loop over the index -/

/-- `m_pattern[i]`: the terminator at the end, and no character behind it. -/
def charAt (m_pattern : Text) (i : Nat) : Option UInt8 :=
  if i = m_pattern.length then some 0 else m_pattern[i]?

/-- The loop to the closing brace, from `m` on: where it stops, if there is one. -/
def findBrace (m_pattern : Text) : Nat → Nat → Option (Option Nat)
  | 0, _ => some none
  | fuel + 1, m =>
      if m ≤ m_pattern.length then
        (charAt m_pattern m).bind fun c =>
          if c = 125 then some (some m) else findBrace m_pattern fuel (m + 1)
      else some none

/-- What stands behind a `%`: no letter, a letter, a letter with its braces and where they
close, or a letter with a brace that does not close. -/
inductive Behind where
  | nothing
  | letter (str : UInt8)
  | braced (str : UInt8) (fmt : Text) (m : Nat)
  | opened (str : UInt8)
deriving DecidableEq, Repr

/-- The inner part of a round, with `n` behind the `%`. -/
def parseDirective (m_pattern : Text) (n : Nat) : Option Behind :=
  if n < m_pattern.length then
    (charAt m_pattern n).bind fun c =>
      if isalpha c then
        if n + 1 < m_pattern.length then
          (charAt m_pattern (n + 1)).bind fun d =>
            if d = 123 then
              (findBrace m_pattern (m_pattern.length + 1) (n + 2)).map fun
                | some m => .braced c ((m_pattern.drop (n + 2)).take (m - (n + 2))) m
                | none => .opened c
            else some (.letter c)
        else some (.letter c)
      else some .nothing
  else some .nothing

/-- The variables of `init`. -/
structure Init where
  i : Nat := 0
  nstr : Text := []
  vec : List Piece := []
  m_error : Bool := false
deriving DecidableEq, Repr

/-- Whether the next character is a `%` too. -/
def isPercent (m_pattern : Text) (n : Nat) : Option Bool :=
  if n < m_pattern.length then (charAt m_pattern n).map fun c => c = 37 else some false

/-- The end of a round, with its `++i`. -/
def Init.push (s : Init) : Behind → Init
  | .nothing => { s with i := s.i + 1 + 1, nstr := [], vec := s.vec ++ flush s.nstr }
  | .letter c =>
      { s with i := s.i + 1 + 1, nstr := [], vec := s.vec ++ flush s.nstr ++ [.directive c []] }
  | .braced c fmt m =>
      { s with
        i := m - 1 + 1 + 1, nstr := [], vec := s.vec ++ flush s.nstr ++ [.directive c fmt] }
  | .opened c =>
      { i := s.i + 1 + 1, nstr := []
        vec := s.vec ++ [.directive c (ascii "<<pattern_error>>")] ++ flush s.nstr
        m_error := true }

/-- A round of the loop. -/
def initRound (m_pattern : Text) (s : Init) : Option Init :=
  (charAt m_pattern s.i).bind fun b =>
    if b ≠ 37 then some { s with i := s.i + 1, nstr := s.nstr ++ [b] }
    else
      (isPercent m_pattern (s.i + 1)).bind fun percent =>
        if percent then
          some { s with i := s.i + 1 + 1, nstr := [], vec := s.vec ++ [.text (s.nstr ++ [37])] }
        else (parseDirective m_pattern (s.i + 1)).map s.push

/-- The loop. -/
def initLoop (m_pattern : Text) : Nat → Init → Option Init
  | 0, s => some s
  | fuel + 1, s =>
      if s.i < m_pattern.length then (initRound m_pattern s).bind (initLoop m_pattern fuel)
      else some s

/-! ## The loop is the scan -/

section Positions

variable {m_pattern : Text} {i : Nat} {b : UInt8} {rest : Text}

theorem lt_of_drop (h : m_pattern.drop i = b :: rest) : i < m_pattern.length := by
  refine Nat.lt_of_not_le fun hle => ?_
  rw [List.drop_eq_nil_of_le hle] at h
  cases h

theorem charAt_of_drop (h : m_pattern.drop i = b :: rest) : charAt m_pattern i = some b := by
  rw [charAt, if_neg (Nat.ne_of_lt (lt_of_drop h))]
  have hhead := List.head?_drop (l := m_pattern) (i := i)
  rw [h] at hhead
  exact hhead.symm

theorem drop_succ_of_drop (h : m_pattern.drop i = b :: rest) : m_pattern.drop (i + 1) = rest := by
  rw [← List.tail_drop, h]
  rfl

end Positions

theorem findBrace_closed {m_pattern fmt rest : Text} (hfmt : 125 ∉ fmt) :
    ∀ {fuel m : Nat}, fmt.length < fuel → m_pattern.drop m = fmt ++ 125 :: rest →
      findBrace m_pattern fuel m = some (some (m + fmt.length)) := by
  induction fmt with
  | nil =>
      intro fuel m hfuel hdrop
      obtain ⟨fuel, rfl, _⟩ := exists_succ_of_lt hfuel
      rw [findBrace, if_pos (Nat.le_of_lt (lt_of_drop hdrop)), charAt_of_drop hdrop]
      rfl
  | cons b fmt ih =>
      intro fuel m hfuel hdrop
      obtain ⟨fuel, rfl, hfuel'⟩ := exists_succ_of_lt hfuel
      rw [List.mem_cons, not_or] at hfmt
      rw [findBrace, if_pos (Nat.le_of_lt (lt_of_drop hdrop)), charAt_of_drop hdrop,
        Option.bind_some, if_neg fun heq => hfmt.1 heq.symm,
        ih hfmt.2 hfuel' (drop_succ_of_drop hdrop), List.length_cons]
      congr 2
      omega

/-- The loop reads the terminator and stops behind it. -/
theorem findBrace_open {m_pattern body : Text} (hbody : 125 ∉ body) :
    ∀ {fuel m : Nat}, m_pattern.drop m = body → m ≤ m_pattern.length →
      findBrace m_pattern fuel m = some none := by
  induction body with
  | nil =>
      intro fuel m hdrop hm
      have heq : m = m_pattern.length := Nat.le_antisymm hm (List.drop_eq_nil_iff.mp hdrop)
      match fuel with
      | 0 => rfl
      | 1 => simp [findBrace, charAt, heq]
      | fuel + 2 => simp [findBrace, charAt, heq]
  | cons b body ih =>
      intro fuel m hdrop hm
      rw [List.mem_cons, not_or] at hbody
      match fuel with
      | 0 => rfl
      | fuel + 1 =>
          rw [findBrace, if_pos hm, charAt_of_drop hdrop, Option.bind_some,
            if_neg fun heq => hbody.1 heq.symm]
          exact ih hbody.2 (drop_succ_of_drop hdrop) (lt_of_drop hdrop)

/-- What the loop will end with: what it has, and what the scan makes of the rest. -/
def Init.outcome (m_pattern : Text) (s : Init) : List Piece × Bool :=
  let r := pieces s.nstr (m_pattern.drop s.i)
  (s.vec ++ r.1, s.m_error || r.2)

theorem isPercent_of_drop {m_pattern rest : Text} {n : Nat} (h : m_pattern.drop n = rest) :
    isPercent m_pattern n = some (decide (rest.head? = some 37)) := by
  rw [isPercent]
  cases rest with
  | nil =>
      rw [if_neg (Nat.not_lt.mpr (List.drop_eq_nil_iff.mp h))]
      rfl
  | cons c rest =>
      rw [if_pos (lt_of_drop h), charAt_of_drop h, Option.map_some]
      simp

/-- A round at a `%` that is not doubled. -/
theorem initRound_directive {m_pattern rest : Text} {s : Init} {d : Behind}
    (hp : m_pattern.drop s.i = 37 :: rest) (hrest : rest.head? ≠ some 37)
    (hd : parseDirective m_pattern (s.i + 1) = some d) :
    initRound m_pattern s = some (s.push d) := by
  rw [initRound, charAt_of_drop hp, Option.bind_some, if_neg (not_not.mpr rfl),
    isPercent_of_drop (drop_succ_of_drop hp), Option.bind_some, decide_eq_false hrest,
    if_neg Bool.false_ne_true, hd]
  rfl

section Behind

variable {m_pattern : Text} {n : Nat} {c : UInt8} {fmt body rest : Text}

theorem parseDirective_end (h : m_pattern.drop n = []) :
    parseDirective m_pattern n = some .nothing := by
  rw [parseDirective, if_neg (Nat.not_lt.mpr (List.drop_eq_nil_iff.mp h))]

theorem parseDirective_stray (h : m_pattern.drop n = c :: rest) (halpha : isalpha c = false) :
    parseDirective m_pattern n = some .nothing := by
  rw [parseDirective, if_pos (lt_of_drop h), charAt_of_drop h, Option.bind_some, halpha,
    if_neg Bool.false_ne_true]

theorem parseDirective_letter (h : m_pattern.drop n = c :: rest) (halpha : isalpha c = true)
    (hrest : rest.head? ≠ some 123) : parseDirective m_pattern n = some (.letter c) := by
  rw [parseDirective, if_pos (lt_of_drop h), charAt_of_drop h, Option.bind_some, if_pos halpha]
  have h' := drop_succ_of_drop h
  cases rest with
  | nil => rw [if_neg (Nat.not_lt.mpr (List.drop_eq_nil_iff.mp h'))]
  | cons d rest =>
      have hd : d ≠ 123 := fun heq => hrest (by rw [heq]; rfl)
      rw [if_pos (lt_of_drop h'), charAt_of_drop h', Option.bind_some, if_neg hd]

theorem parseDirective_braced (h : m_pattern.drop n = c :: 123 :: (fmt ++ 125 :: rest))
    (halpha : isalpha c = true) (hfmt : 125 ∉ fmt) :
    parseDirective m_pattern n = some (.braced c fmt (n + 2 + fmt.length)) := by
  have h₁ := drop_succ_of_drop h
  have h₂ : m_pattern.drop (n + 2) = fmt ++ 125 :: rest := drop_succ_of_drop h₁
  have hfuel : fmt.length < m_pattern.length + 1 := by
    have hlen := congrArg List.length h₂
    simp only [List.length_drop, List.length_append, List.length_cons] at hlen
    omega
  rw [parseDirective, if_pos (lt_of_drop h), charAt_of_drop h, Option.bind_some, if_pos halpha,
    if_pos (lt_of_drop h₁), charAt_of_drop h₁, Option.bind_some, if_pos rfl,
    findBrace_closed hfmt hfuel h₂, h₂, Option.map_some]
  simp only [Nat.add_sub_cancel_left, List.take_left]

theorem parseDirective_opened (h : m_pattern.drop n = c :: 123 :: body)
    (halpha : isalpha c = true) (hbody : 125 ∉ body) :
    parseDirective m_pattern n = some (.opened c) := by
  have h₁ := drop_succ_of_drop h
  rw [parseDirective, if_pos (lt_of_drop h), charAt_of_drop h, Option.bind_some, if_pos halpha,
    if_pos (lt_of_drop h₁), charAt_of_drop h₁, Option.bind_some, if_pos rfl,
    findBrace_open hbody (drop_succ_of_drop h₁) (lt_of_drop h₁)]
  rfl

end Behind

/-- A round reads inside the pattern, goes on and keeps the outcome. -/
theorem initRound_spec {m_pattern : Text} {s : Init} (h : s.i < m_pattern.length) :
    ∃ s', initRound m_pattern s = some s' ∧ s.i < s'.i ∧
      s'.outcome m_pattern = s.outcome m_pattern := by
  obtain ⟨p, hp⟩ : ∃ p, m_pattern.drop s.i = p := ⟨_, rfl⟩
  have htwo : s.i < s.i + 1 + 1 := Nat.lt_succ_of_lt (Nat.lt_succ_self _)
  rw [Init.outcome, hp]
  cases reading p with
  | nil => exact absurd (List.drop_eq_nil_iff.mp hp) (Nat.not_le.mpr h)
  | literal hb _ =>
      refine ⟨_, by rw [initRound, charAt_of_drop hp, Option.bind_some, if_pos hb],
        Nat.lt_succ_self _, ?_⟩
      rw [pieces_literal _ hb, Init.outcome, drop_succ_of_drop hp]
  | percent _ =>
      have hp' := drop_succ_of_drop hp
      refine ⟨_, by
        rw [initRound, charAt_of_drop hp, Option.bind_some, if_neg (not_not.mpr rfl),
          isPercent_of_drop hp']
        rfl, htwo, ?_⟩
      rw [pieces_percent, Init.outcome, drop_succ_of_drop hp', List.append_assoc]
      rfl
  | lone =>
      have hp' := drop_succ_of_drop hp
      have hend : m_pattern.drop (s.i + 1 + 1) = [] := by rw [← List.tail_drop, hp']; rfl
      refine ⟨_, initRound_directive hp (by simp) (parseDirective_end hp'), htwo, ?_⟩
      simp only [pieces_lone, Init.outcome, Init.push, hend, pieces_nil, List.append_nil]
  | stray hc halpha _ =>
      have hp' := drop_succ_of_drop hp
      refine ⟨_, initRound_directive hp (by simpa using hc) (parseDirective_stray hp' halpha),
        htwo, ?_⟩
      simp only [pieces_stray _ hc halpha, Init.outcome, Init.push, drop_succ_of_drop hp',
        List.append_assoc]
  | directive halpha hhead _ =>
      have hp' := drop_succ_of_drop hp
      refine ⟨_, initRound_directive hp (by simpa using alpha_ne_percent halpha)
        (parseDirective_letter hp' halpha hhead), htwo, ?_⟩
      simp only [pieces_directive _ halpha hhead, Init.outcome, Init.push, drop_succ_of_drop hp',
        List.append_assoc, List.cons_append, List.nil_append]
  | @braced c fmt rest halpha hfmt _ =>
      have hp' := drop_succ_of_drop hp
      have hpos : s.i + 1 + 2 + fmt.length - 1 + 1 + 1 = s.i + (3 + fmt.length) + 1 := by omega
      have hend : m_pattern.drop (s.i + (3 + fmt.length) + 1) = rest := by
        rw [Nat.add_assoc, ← List.drop_drop, hp]
        have hlen : 3 + fmt.length + 1 = (37 :: c :: 123 :: (fmt ++ [125])).length := by
          simp only [List.length_cons, List.length_append, List.length_nil]
          omega
        have hcut : 37 :: c :: 123 :: (fmt ++ 125 :: rest) =
            (37 :: c :: 123 :: (fmt ++ [125])) ++ rest := by simp
        rw [hlen, hcut, List.drop_left]
      refine ⟨_, initRound_directive hp (by simpa using alpha_ne_percent halpha)
        (parseDirective_braced hp' halpha hfmt), by simp only [Init.push]; omega, ?_⟩
      simp only [pieces_braced _ halpha hfmt, Init.outcome, Init.push, hpos, hend,
        List.append_assoc, List.cons_append, List.nil_append]
  | opened halpha hbody _ =>
      have hp' := drop_succ_of_drop hp
      refine ⟨_, initRound_directive hp (by simpa using alpha_ne_percent halpha)
        (parseDirective_opened hp' halpha hbody), htwo, ?_⟩
      simp only [pieces_opened _ halpha hbody, Init.outcome, Init.push, drop_succ_of_drop hp',
        List.append_assoc, List.cons_append, List.nil_append, Bool.true_or, Bool.or_true]

/-- The loop never reads outside the pattern, and ends with what the scan gives. -/
theorem initLoop_spec {m_pattern : Text} :
    ∀ {fuel : Nat} {s : Init}, m_pattern.length ≤ s.i + fuel →
      ∃ s', initLoop m_pattern fuel s = some s' ∧ (s'.vec, s'.m_error) = s.outcome m_pattern := by
  intro fuel
  induction fuel with
  | zero =>
      intro s hfuel
      refine ⟨s, rfl, ?_⟩
      rw [Init.outcome, List.drop_eq_nil_of_le (by omega), pieces_nil, List.append_nil,
        Bool.or_false]
  | succ fuel ih =>
      intro s hfuel
      by_cases hlt : s.i < m_pattern.length
      · obtain ⟨s₁, hround, hlater, hsame⟩ := initRound_spec hlt
        obtain ⟨s', hloop, hout⟩ := ih (s := s₁) (by omega)
        refine ⟨s', ?_, hout.trans hsame⟩
        rw [initLoop, if_pos hlt, hround, Option.bind_some, hloop]
      · refine ⟨s, by rw [initLoop, if_neg hlt], ?_⟩
        rw [Init.outcome, List.drop_eq_nil_of_le (Nat.not_lt.mp hlt), pieces_nil,
          List.append_nil, Bool.or_false]

/-- The pieces and the error of a formatter are those of the loop. -/
theorem initLoop_eq (m_pattern : Text) :
    ∃ s, initLoop m_pattern m_pattern.length {} = some s ∧
      (LogFormatter.ofPattern m_pattern).m_item = s.vec.map (fun i => (itemOf i).1) ∧
      (LogFormatter.ofPattern m_pattern).m_error =
        (s.m_error || s.vec.any fun i => (itemOf i).2) := by
  have hfuel : m_pattern.length ≤ ({} : Init).i + m_pattern.length := Nat.le_add_left _ _
  obtain ⟨s, hloop, hout⟩ := initLoop_spec hfuel
  have hscan : (s.vec, s.m_error) = scan (m_pattern.length + 1) [] m_pattern := hout
  refine ⟨s, hloop, ?_, ?_⟩
  · rw [LogFormatter.ofPattern, ← hscan]
  · rw [LogFormatter.ofPattern, ← hscan]

end Muqiu.Log
