import Muqiu.Lib.Json

/-!
# Format patterns

`LogFormatter::init` scans a pattern into pieces, literal text and directives with an argument,
and makes an item of each piece.  A brace that is not closed and a directive that is not in the
table set `m_error`.

The scan goes over what is left of the pattern; `fuel` is a bound on its rounds, and each round
takes a character at least.
-/

namespace Muqiu.Log

open Json (Text ascii)

/-- `isalpha` of the C locale -/
def isalpha (b : UInt8) : Bool := (65 ≤ b && b ≤ 90) || (97 ≤ b && b ≤ 122)

/-- An entry of the vector of tuples: text as it is, or a directive with its argument. -/
inductive Piece where
  | text (str : Text)
  | directive (letter : UInt8) (fmt : Text)
deriving DecidableEq, Repr

/-- What comes before the closing brace, and what comes behind it. -/
def closing : Text → Option (Text × Text)
  | [] => none
  | b :: rest => if b = 125 then some ([], rest) else (closing rest).map fun r => (b :: r.1, r.2)

/-- The literal text so far, when there is any. -/
def flush (nstr : Text) : List Piece := if nstr.isEmpty then [] else [.text nstr]

/-- The rest of the scan, and whether it set `m_error`.  Text at the end is not flushed. -/
def scan : Nat → Text → Text → List Piece × Bool
  | 0, _, _ => ([], false)
  | _ + 1, _, [] => ([], false)
  | fuel + 1, nstr, b :: rest =>
      if b ≠ 37 then scan fuel (nstr ++ [b]) rest
      else
        match rest with
        | [] => (flush nstr, false)
        | c :: rest =>
            if c = 37 then
              let r := scan fuel [] rest
              (.text (nstr ++ [37]) :: r.1, r.2)
            else if isalpha c then
              match rest with
              | [] => (flush nstr ++ [.directive c []], false)
              | d :: body =>
                  if d = 123 then
                    match closing body with
                    | some (fmt, behind) =>
                        let r := scan fuel [] behind
                        (flush nstr ++ .directive c fmt :: r.1, r.2)
                    | none =>
                        -- the scan goes on with the brace
                        let r := scan fuel [] (d :: body)
                        (.directive c (ascii "<<pattern_error>>") :: flush nstr ++ r.1, true)
                  else
                    let r := scan fuel [] (d :: body)
                    (flush nstr ++ .directive c [] :: r.1, r.2)
            else
              -- neither a letter nor a percent sign: it is skipped
              let r := scan fuel [] rest
              (flush nstr ++ r.1, r.2)

/-- The classes of format items. -/
inductive FormatItem where
  | message
  | level
  | elapse
  | name
  | threadId
  | newLine
  | dateTime (format : Text)
  | filename
  | line
  | tab
  | fiberId
  | threadName
  | string (str : Text)
deriving DecidableEq, Repr

/-- The constructor of `DateTimeFormatItem`. -/
def dateTimeFormat (format : Text) : Text :=
  if format.isEmpty then ascii "%Y-%m-%d %H:%M:%S" else format

/-- The table of directives. -/
def formatterItems (letter : UInt8) (str : Text) : Option FormatItem :=
  if letter = 109 then some .message
  else if letter = 112 then some .level
  else if letter = 114 then some .elapse
  else if letter = 99 then some .name
  else if letter = 116 then some .threadId
  else if letter = 110 then some .newLine
  else if letter = 100 then some (.dateTime (dateTimeFormat str))
  else if letter = 102 then some .filename
  else if letter = 108 then some .line
  else if letter = 84 then some .tab
  else if letter = 70 then some .fiberId
  else if letter = 78 then some .threadName
  else none

/-- The item of a piece, and whether it sets `m_error`. -/
def itemOf : Piece → FormatItem × Bool
  | .text str => (.string str, false)
  | .directive letter fmt =>
      match formatterItems letter fmt with
      | some item => (item, false)
      | none => (.string (ascii "<<error_format %" ++ letter :: ascii ">>"), true)

/-- The pattern, the items that it has been compiled to, and whether anything is wrong with it. -/
structure LogFormatter where
  m_pattern : Text
  m_item : List FormatItem
  m_error : Bool
deriving DecidableEq, Repr

/-- The constructor, with `init`. -/
def LogFormatter.ofPattern (pattern : Text) : LogFormatter :=
  let vec := scan (pattern.length + 1) [] pattern
  { m_pattern := pattern
    m_item := vec.1.map fun i => (itemOf i).1
    m_error := vec.2 || vec.1.any fun i => (itemOf i).2 }

example : (LogFormatter.ofPattern (ascii "[%p] %m%n")).m_item =
    [.string (ascii "["), .level, .string (ascii "] "), .message, .newLine] := by decide

end Muqiu.Log
