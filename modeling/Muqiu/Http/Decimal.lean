import Muqiu.Http.Message

/-!
# Numbers in headers

`boost::lexical_cast<uint64_t>` reads a decimal with or without a sign and fails on any other
text and on a number of more than 64 bits.  A negative number wraps around.  `LexicalCast`
states this of a function, and `castDecimal` is one that does so.
-/

namespace Muqiu.Http

/-- A decimal digit. -/
def isDigit (b : UInt8) : Bool := 48 ≤ b && b ≤ 57

/-- One digit or more. -/
def isDecimal (text : Bytes) : Bool := !text.isEmpty && text.all isDigit

/-- The value of some digits. -/
def decimalValue (text : Bytes) : Nat := text.foldl (fun v b => 10 * v + (b.toNat - 48)) 0

/-- The text behind a sign. -/
def unsigned : Bytes → Bytes
  | [] => []
  | b :: text => if b = 43 ∨ b = 45 then text else b :: text

/-- The text starts with a minus sign. -/
def isNegative (text : Bytes) : Bool := text.head? = some 45

/-- The values of a `uint64_t`. -/
def uint64_range : Nat := 18446744073709551616

/-- The text is a number whose digits a `uint64_t` takes. -/
def isUint64 (text : Bytes) : Bool :=
  isDecimal (unsigned text) && decimalValue (unsigned text) < uint64_range

/-- What `boost::lexical_cast<uint64_t>` gives. -/
structure LexicalCast (cast : Bytes → Option UInt64) : Prop where
  number : ∀ text, isUint64 text = true → isNegative text = false →
    cast text = some (UInt64.ofNat (decimalValue (unsigned text)))
  negative : ∀ text, isUint64 text = true → isNegative text = true →
    cast text = some (0 - UInt64.ofNat (decimalValue (unsigned text)))
  fails : ∀ text, isUint64 text = false → cast text = none

/-- `boost::lexical_cast<uint64_t>`, which takes a minus sign and negates modulo 2^64. -/
def castDecimal (text : Bytes) : Option UInt64 :=
  if isUint64 text then
    let v := UInt64.ofNat (decimalValue (unsigned text))
    if isNegative text then some (0 - v) else some v
  else none

theorem castDecimal_lexicalCast : LexicalCast castDecimal := by
  refine ⟨fun text h hneg => ?_, fun text h hneg => ?_, fun text h => ?_⟩
  · rw [castDecimal, if_pos h, hneg, if_neg Bool.false_ne_true]
  · rw [castDecimal, if_pos h, hneg, if_pos rfl]
  · rw [castDecimal, h, if_neg Bool.false_ne_true]

/-! ## As a signed number -/

/-- A `uint64_t` taken for an `int64_t`. -/
def toInt64 (v : UInt64) : Int := v.toBitVec.toInt

theorem toNat_ofNat {n : Nat} (h : n < uint64_range) : (UInt64.ofNat n).toNat = n :=
  UInt64.toNat_ofNat_of_lt' h

theorem toInt64_ofNat {n : Nat} (h : n < 9223372036854775808) : toInt64 (UInt64.ofNat n) = n := by
  have hnat : (UInt64.ofNat n).toBitVec.toNat = n := by
    rw [UInt64.toNat_toBitVec, toNat_ofNat (by rw [uint64_range]; omega)]
  rw [toInt64, BitVec.toInt_eq_toNat_of_lt (by omega), hnat]

/-- A negative number of an `int64_t` comes out as none that is positive. -/
theorem toInt64_sub_le {n : Nat} (h : n ≤ 9223372036854775808) :
    toInt64 (0 - UInt64.ofNat n) ≤ 0 := by
  have hnat : (0 - UInt64.ofNat n).toBitVec.toNat =
      (18446744073709551616 - n) % 18446744073709551616 := by
    rw [UInt64.toNat_toBitVec, UInt64.toNat_sub, toNat_ofNat (by rw [uint64_range]; omega)]
    rfl
  rw [toInt64, BitVec.toInt_eq_toNat_cond, hnat]
  by_cases hzero : n = 0
  · rw [hzero]
    decide
  · rw [Nat.mod_eq_of_lt (by omega), if_neg (by omega)]
    omega

end Muqiu.Http
