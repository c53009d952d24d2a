import Mathlib.Algebra.Group.Nat.Defs
import Muqiu.Http.Message
import Muqiu.Lib.Words

/-!
# URL coding

`UrlEncode` leaves the bytes alone that `uri_chars` marks, and writes any other as `%` and two
digits, or a space as `+`.  `UrlDecode` reads both forms back.  The table marks the delimiter `=`
too.
-/

namespace Muqiu

namespace StringUtil

/-- The bytes `uri_chars` marks: `-`, `.`, the digits, `=`, the letters, `_` and `~`. -/
def CHAR_IS_UNRESERVED (c : UInt8) : Bool :=
  c = 45 || c = 46 || (48 ≤ c && c ≤ 57) || c = 61 || (65 ≤ c && c ≤ 90) || c = 95 ||
    (97 ≤ c && c ≤ 122) || c = 126

/-- `hexdigits[d]` -/
def hexdigit (d : UInt8) : UInt8 := if d < 10 then 48 + d else 55 + d

/-- `isxdigit` -/
def isxdigit (c : UInt8) : Bool :=
  (48 ≤ c && c ≤ 57) || (65 ≤ c && c ≤ 70) || (97 ≤ c && c ≤ 102)

/-- `xdigit_chars[c]` -/
def xdigit (c : UInt8) : UInt8 :=
  if 48 ≤ c && c ≤ 57 then c - 48
  else if 65 ≤ c && c ≤ 70 then c - 55
  else if 97 ≤ c && c ≤ 102 then c - 87
  else 0

/-- What `UrlEncode` writes for a byte. -/
def encodeChar (space_as_plus : Bool) (c : UInt8) : Bytes :=
  if CHAR_IS_UNRESERVED c then [c]
  else if c = 32 && space_as_plus then [43]
  else [37, hexdigit (c >>> 4), hexdigit (c &&& 15)]

/-- The text with the characters that are not in the set of URIs encoded. -/
def UrlEncode (str : Bytes) (space_as_plus : Bool) : Bytes := str.flatMap (encodeChar space_as_plus)

/-- What a byte stands for that starts no digits. -/
def decodeChar (space_as_plus : Bool) (c : UInt8) : UInt8 :=
  if c = 43 && space_as_plus then 32 else c

/-- The text with every `%` in front of two hexadecimal digits decoded. -/
def UrlDecode : Bytes → Bool → Bytes
  | c :: a :: b :: cs, space_as_plus =>
      if c = 37 && isxdigit a && isxdigit b then
        (xdigit a <<< 4 ||| xdigit b) :: UrlDecode cs space_as_plus
      else decodeChar space_as_plus c :: UrlDecode (a :: b :: cs) space_as_plus
  | c :: cs, space_as_plus => decodeChar space_as_plus c :: UrlDecode cs space_as_plus
  | [], _ => []

/-! ## One byte -/

/-- A byte that is left alone is no form of another one. -/
theorem unreserved_ne {c : UInt8} (h : CHAR_IS_UNRESERVED c = true) : c ≠ 43 ∧ c ≠ 37 ∧ c ≠ 38 := by
  refine ⟨?_, ?_, ?_⟩
  · rintro rfl
    cases h
  · rintro rfl
    cases h
  · rintro rfl
    cases h

/-- The two digits of a byte give it back. -/
theorem digits_spec (c : UInt8) :
    isxdigit (hexdigit (c >>> 4)) = true ∧ isxdigit (hexdigit (c &&& 15)) = true ∧
      xdigit (hexdigit (c >>> 4)) <<< 4 ||| xdigit (hexdigit (c &&& 15)) = c := by
  revert c
  exact Words.forall_uint8 (by decide +kernel)

/-- A byte other than `%` stands for itself or a space. -/
theorem UrlDecode_cons {c : UInt8} (h : c ≠ 37) (cs : Bytes) (plus : Bool) :
    UrlDecode (c :: cs) plus = decodeChar plus c :: UrlDecode cs plus := by
  rcases cs with - | ⟨a, - | ⟨b, cs⟩⟩
  · rfl
  · rfl
  · rw [UrlDecode, decide_eq_false h]
    rfl

theorem UrlDecode_plain {c : UInt8} (h : CHAR_IS_UNRESERVED c = true) (cs : Bytes) (plus : Bool) :
    UrlDecode (c :: cs) plus = c :: UrlDecode cs plus := by
  obtain ⟨hplus, hpercent, -⟩ := unreserved_ne h
  rw [UrlDecode_cons hpercent, decodeChar, decide_eq_false hplus]
  rfl

theorem UrlDecode_digits (c : UInt8) (cs : Bytes) (plus : Bool) :
    UrlDecode (37 :: hexdigit (c >>> 4) :: hexdigit (c &&& 15) :: cs) plus =
      c :: UrlDecode cs plus := by
  obtain ⟨hhigh, hlow, hc⟩ := digits_spec c
  rw [UrlDecode, hhigh, hlow, hc]
  rfl

/-- The three forms of a byte. -/
theorem encodeChar_cases (plus : Bool) (c : UInt8) :
    CHAR_IS_UNRESERVED c = true ∧ encodeChar plus c = [c] ∨
      CHAR_IS_UNRESERVED c = false ∧ c = 32 ∧ plus = true ∧ encodeChar plus c = [43] ∨
      CHAR_IS_UNRESERVED c = false ∧
        encodeChar plus c = [37, hexdigit (c >>> 4), hexdigit (c &&& 15)] := by
  rw [encodeChar]
  cases hc : CHAR_IS_UNRESERVED c with
  | true => exact Or.inl ⟨rfl, if_pos rfl⟩
  | false =>
      rw [if_neg Bool.false_ne_true]
      split
      next hspace =>
        rw [Bool.and_eq_true, decide_eq_true_eq] at hspace
        exact Or.inr (Or.inl ⟨rfl, hspace.1, hspace.2, rfl⟩)
      next => exact Or.inr (Or.inr ⟨rfl, rfl⟩)

/-! ## The round trip -/

theorem UrlEncode_append (plus : Bool) (a b : Bytes) :
    UrlEncode (a ++ b) plus = UrlEncode a plus ++ UrlEncode b plus := List.flatMap_append

theorem UrlEncode_cons (plus : Bool) (c : UInt8) (cs : Bytes) :
    UrlEncode (c :: cs) plus = encodeChar plus c ++ UrlEncode cs plus := List.flatMap_cons

/-- No byte is left out. -/
theorem length_encodeChar_pos (plus : Bool) (c : UInt8) : 1 ≤ (encodeChar plus c).length := by
  rcases encodeChar_cases plus c with ⟨-, heq⟩ | ⟨-, -, -, heq⟩ | ⟨-, heq⟩
  · exact Nat.le_of_eq (congrArg List.length heq).symm
  · exact Nat.le_of_eq (congrArg List.length heq).symm
  · rw [heq]
    exact Nat.le_add_left 1 2

theorem length_le_UrlEncode (s : Bytes) (plus : Bool) : s.length ≤ (UrlEncode s plus).length := by
  induction s with
  | nil => exact Nat.le_refl 0
  | cons c s ih =>
      have hc := length_encodeChar_pos plus c
      rw [UrlEncode_cons, List.length_append, List.length_cons]
      omega

/-- What is encoded is read back, whether spaces are written as `+` or as digits. -/
theorem UrlDecode_UrlEncode (plus : Bool) (str : Bytes) :
    UrlDecode (UrlEncode str plus) plus = str := by
  induction str with
  | nil => rfl
  | cons c str ih =>
      rw [UrlEncode_cons]
      rcases encodeChar_cases plus c with ⟨hc, heq⟩ | ⟨-, rfl, rfl, heq⟩ | ⟨-, heq⟩
      · rw [heq, List.singleton_append, UrlDecode_plain hc, ih]
      · rw [heq, List.singleton_append, UrlDecode_cons (by decide), ih]
        rfl
      · rw [heq]
        exact (UrlDecode_digits c _ plus).trans (congrArg (c :: ·) ih)

end StringUtil

end Muqiu
