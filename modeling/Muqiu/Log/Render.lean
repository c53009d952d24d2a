import Muqiu.Lib.Words
import Muqiu.Log.Model
import Muqiu.Log.Pattern

/-!
# What a formatter writes

A pattern is made of parts: literal text, `%%`, and directives of the table with or without an
argument in braces.  Its items should write the parts one behind the other.  The scan flushes the
literal text it has collected in front of a directive and at a `%%`, and nowhere else: text
behind the last of these is lost, and it is all that is lost (`format_trailing`).
-/

namespace Muqiu.Log

open Json (Text ascii natDigits intDigits)

/-! ## Format items -/

/-- A `LogEvent` with what the items read of it. -/
structure FormatEvent extends LogEvent where
  m_file : Text
  m_line : Int
  m_elapse : Nat
  m_threadId : Nat
  m_fiberId : Nat
  m_threadName : Text
  /-- `m_logger->getName()` -/
  loggerName : Text
deriving DecidableEq, Repr

section Format

-- `strftime` is what it and `localtime_r` put into the buffer of `DateTimeFormatItem`
variable (strftime : Text → Nat → Text) (level : Level) (event : FormatEvent)

/-- `FormatItem::format` -/
def FormatItem.format : FormatItem → Text
  | .message => event.content
  | .level => level.toText
  | .elapse => natDigits event.m_elapse
  | .name => event.loggerName
  | .threadId => natDigits event.m_threadId
  | .newLine => [10]
  | .dateTime format => strftime format event.time
  | .filename => event.m_file
  | .line => intDigits event.m_line
  | .tab => [9]
  | .fiberId => natDigits event.m_fiberId
  | .threadName => event.m_threadName
  | .string str => str

/-- `LogFormatter::format` -/
def LogFormatter.format (f : LogFormatter) : Text :=
  f.m_item.flatMap (FormatItem.format strftime level event)

/-! ## Parts of a pattern -/

/-- The parts of a pattern: text, `%%`, a directive, and one with a format in braces. -/
inductive Part where
  | literal (str : Text)
  | percent
  | directive (letter : UInt8)
  | braced (letter : UInt8) (fmt : Text)
deriving DecidableEq, Repr

/-- The part is text. -/
def Part.isLiteral : Part → Bool
  | .literal _ => true
  | _ => false

/-- How a part is written in a pattern. -/
def Part.text : Part → Text
  | .literal str => str
  | .percent => [37, 37]
  | .directive letter => [37, letter]
  | .braced letter fmt => 37 :: letter :: 123 :: (fmt ++ [125])

/-- The text of some parts. -/
def patternOf (parts : List Part) : Text := parts.flatMap Part.text

/-- What the item of a directive writes. -/
def directiveText (letter : UInt8) (fmt : Text) : Text :=
  match formatterItems letter fmt with
  | some item => item.format strftime level event
  | none => []

/-- What a part should come out as. -/
def Part.output : Part → Text
  | .literal str => str
  | .percent => [37]
  | .directive letter => directiveText strftime level event letter []
  | .braced letter fmt => directiveText strftime level event letter fmt

/-- The items write every part once, in order, and nothing else. -/
def Renders (parts : List Part) : Prop :=
  (LogFormatter.ofPattern (patternOf parts)).format strftime level event =
    parts.flatMap (Part.output strftime level event)

instance (parts : List Part) : Decidable (Renders strftime level event parts) :=
  inferInstanceAs (Decidable (_ = _))

end Format

/-- The letter is in the table. -/
def Known (letter : UInt8) : Prop := (formatterItems letter []).isSome = true

instance : DecidablePred Known := fun _ => inferInstanceAs (Decidable (_ = _))

/-- The parts of a pattern as they are read: no `%` in a text, known directives, no closing brace
in an argument, and no brace behind a directive without one. -/
def WellFormed : List Part → Prop
  | [] => True
  | .literal str :: parts => 37 ∉ str ∧ WellFormed parts
  | .percent :: parts => WellFormed parts
  | .directive letter :: parts =>
      Known letter ∧ (patternOf parts).head? ≠ some 123 ∧ WellFormed parts
  | .braced letter fmt :: parts => Known letter ∧ 125 ∉ fmt ∧ WellFormed parts

instance decidableWellFormed : DecidablePred WellFormed
  | [] => .isTrue trivial
  | .literal _ :: parts =>
      have := decidableWellFormed parts
      inferInstanceAs (Decidable (_ ∧ _))
  | .percent :: parts => decidableWellFormed parts
  | .directive _ :: parts =>
      have := decidableWellFormed parts
      inferInstanceAs (Decidable (_ ∧ _ ∧ _))
  | .braced _ _ :: parts =>
      have := decidableWellFormed parts
      inferInstanceAs (Decidable (_ ∧ _ ∧ _))

/-- The text behind the last directive or `%%`. -/
def trailing : List Part → Text
  | [] => []
  | .literal str :: parts =>
      if parts.all Part.isLiteral then str ++ trailing parts else trailing parts
  | _ :: parts => trailing parts

/-! ## The table -/

/-- The argument is passed on and not looked at. -/
theorem formatterItems_isSome (letter : UInt8) (fmt : Text) :
    (formatterItems letter fmt).isSome = (formatterItems letter []).isSome := by
  rw [formatterItems, formatterItems]
  simp only [apply_ite Option.isSome, Option.isSome_some]

theorem Known.alpha {letter : UInt8} (h : Known letter) : isalpha letter = true := by
  revert h
  exact Words.forall_uint8 (P := fun c => Known c → isalpha c = true) (by decide +kernel) letter

theorem itemOf_known {letter : UInt8} (h : Known letter) (fmt : Text) :
    ∃ item, formatterItems letter fmt = some item ∧
      itemOf (.directive letter fmt) = (item, false) := by
  have hsome : (formatterItems letter fmt).isSome = true :=
    (formatterItems_isSome letter fmt).trans h
  obtain ⟨item, hitem⟩ := Option.isSome_iff_exists.mp hsome
  exact ⟨item, hitem, by rw [itemOf, hitem]⟩

/-! ## What is written and what is lost -/

section Written

variable (strftime : Text → Nat → Text) (level : Level) (event : FormatEvent)

/-- What the item of a piece writes. -/
def Piece.output (piece : Piece) : Text := (itemOf piece).1.format strftime level event

theorem output_flush (nstr : Text) :
    (flush nstr).flatMap (Piece.output strftime level event) = nstr := by
  cases nstr with
  | nil => rfl
  | cons b nstr => exact List.append_nil _

theorem output_directive {letter : UInt8} (h : Known letter) (fmt : Text) :
    Piece.output strftime level event (.directive letter fmt) =
      directiveText strftime level event letter fmt := by
  obtain ⟨item, hitem, hof⟩ := itemOf_known h fmt
  rw [Piece.output, hof, directiveText, hitem]

theorem format_ofPattern (pattern : Text) :
    (LogFormatter.ofPattern pattern).format strftime level event =
      (pieces [] pattern).1.flatMap (Piece.output strftime level event) := by
  rw [LogFormatter.format, LogFormatter.ofPattern, List.flatMap_map]
  rfl

theorem pieces_text {str : Text} (h : 37 ∉ str) (nstr rest : Text) :
    pieces nstr (str ++ rest) = pieces (nstr ++ str) rest := by
  induction str generalizing nstr with
  | nil => rw [List.nil_append, List.append_nil]
  | cons b str ih =>
      rw [List.mem_cons, not_or] at h
      rw [List.cons_append, pieces_literal _ fun heq => h.1 heq.symm, ih h.2, List.append_assoc,
        List.singleton_append]

/-- What is written and the text at the end make up the text so far and the parts. -/
theorem pieces_trailing {parts : List Part} (h : WellFormed parts) (nstr : Text) :
    (pieces nstr (patternOf parts)).1.flatMap (Piece.output strftime level event) ++
        (if parts.all Part.isLiteral then nstr ++ trailing parts else trailing parts) =
      nstr ++ parts.flatMap (Part.output strftime level event) := by
  induction parts generalizing nstr with
  | nil => simp [patternOf, pieces_nil, trailing]
  | cons part parts ih =>
      have hnil : ∀ {text : Text}, WellFormed parts →
          text ++ ((pieces [] (patternOf parts)).1.flatMap (Piece.output strftime level event) ++
            trailing parts) = text ++ parts.flatMap (Part.output strftime level event) := by
        intro text hparts
        have := ih hparts []
        rw [List.nil_append, List.nil_append, ite_self] at this
        rw [this]
      cases part with
      | literal str =>
          rw [patternOf, List.flatMap_cons, Part.text, pieces_text h.1, ← patternOf]
          have := ih h.2 (nstr ++ str)
          rw [List.flatMap_cons, Part.output, ← List.append_assoc, ← this, List.all_cons,
            Part.isLiteral, Bool.true_and, trailing]
          congr 1
          split <;> simp
      | percent =>
          show (pieces nstr (37 :: 37 :: patternOf parts)).1.flatMap _ ++ trailing parts = _
          rw [pieces_percent, List.flatMap_cons, List.append_assoc, hnil h, List.flatMap_cons]
          exact List.append_assoc nstr [37] _
      | directive letter =>
          show (pieces nstr (37 :: letter :: patternOf parts)).1.flatMap _ ++ trailing parts = _
          rw [pieces_directive _ h.1.alpha h.2.1, List.flatMap_append, output_flush,
            List.flatMap_cons, output_directive _ _ _ h.1, List.append_assoc, List.append_assoc,
            hnil h.2.2, List.flatMap_cons]
          rfl
      | braced letter fmt =>
          have hpattern : patternOf (.braced letter fmt :: parts) =
              37 :: letter :: 123 :: (fmt ++ 125 :: patternOf parts) := by
            simp [patternOf, Part.text]
          rw [hpattern]
          show _ ++ trailing parts = _
          rw [pieces_braced _ h.1.alpha h.2.1, List.flatMap_append, output_flush,
            List.flatMap_cons, output_directive _ _ _ h.1, List.append_assoc, List.append_assoc,
            hnil h.2.2, List.flatMap_cons]
          rfl

/-- The items write all of the pattern but the text at its end. -/
theorem format_trailing {parts : List Part} (h : WellFormed parts) :
    (LogFormatter.ofPattern (patternOf parts)).format strftime level event ++ trailing parts =
      parts.flatMap (Part.output strftime level event) := by
  have hall := pieces_trailing strftime level event h []
  rwa [List.nil_append, List.nil_append, ite_self, ← format_ofPattern] at hall

/-- A pattern is rendered as it is exactly when no text stands behind its last directive or
`%%`. -/
theorem renders_iff {parts : List Part} (h : WellFormed parts) :
    Renders strftime level event parts ↔ trailing parts = [] := by
  rw [Renders, ← format_trailing strftime level event h]
  exact List.self_eq_append_right

end Written

/-- An event. -/
def someEvent : FormatEvent :=
  { time := 0, content := ascii "hello", m_file := ascii "main.cc", m_line := 7, m_elapse := 0,
    m_threadId := 1, m_fiberId := 0, m_threadName := ascii "main", loggerName := ascii "root" }

/-- `[%p] %m%n` is rendered. -/
theorem renders_levelAndMessage :
    Renders (fun _ _ => []) .info someEvent
      [.literal (ascii "["), .directive 112, .literal (ascii "] "), .directive 109,
        .directive 110] :=
  (renders_iff (fun _ _ => []) .info someEvent (by decide)).mpr rfl

/-- `%m [end]` loses its end. -/
theorem textAtEnd_not_renders :
    ¬Renders (fun _ _ => []) .info someEvent [.directive 109, .literal (ascii " [end]")] := by
  decide

end Muqiu.Log
