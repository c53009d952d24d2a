import Muqiu.ByteArray.Numbers

/-!
# Signed overflow in the zigzag encoder

`EncodeZigzag32` and `EncodeZigzag64` compute one signed result on the way: `-v` for a negative `v`
and `v * 2` for the others.  The doubling of a negative `v` is done behind the cast, in the unsigned
type.  A signed result outside its type has no defined value, so here the encoders stand once more
with `none` for it.  `zigzag_defined_iff` says which arguments have a value.
-/

namespace Muqiu

namespace ByteArray

/-- In the range of the signed type of `w` bits. -/
def InRange (w : Nat) (x : Int) : Prop := -2 ^ (w - 1) ≤ x ∧ x < 2 ^ (w - 1)

instance (w : Nat) (x : Int) : Decidable (InRange w x) := inferInstanceAs (Decidable (_ ∧ _))

/-- The signed result on the way, as a number. -/
def intermediate (v : Int) : Int := if v < 0 then -v else v * 2

/-- A negative value is negated, and the others are doubled: the first fits but for the least value,
the second for the lower half. -/
theorem inRange_intermediate_iff {k : Nat} {v : Int} (h : InRange (k + 2) v) :
    InRange (k + 2) (intermediate v) ↔ -2 ^ (k + 1) < v ∧ v < 2 ^ k := by
  have hpow : (2 : Int) ^ (k + 1) = 2 * 2 ^ k := Int.pow_succ' 2 k
  have hpos : (0 : Int) < 2 ^ k := Int.pow_pos (by decide)
  obtain ⟨hlow, hhigh⟩ := h
  simp only [InRange, intermediate, show k + 2 - 1 = k + 1 from rfl] at *
  constructor
  · rintro ⟨hl, hh⟩
    split at hh
    next => constructor <;> omega
    next => constructor <;> omega
  · rintro ⟨hl, hh⟩
    split
    next => constructor <;> omega
    next => constructor <;> omega

namespace Strict

/-- A result of type `int32_t`. -/
def signed32 (exact : Int) : Option Int32 :=
  if InRange 32 exact then some (Int32.ofInt exact) else none

/-- A result of type `int64_t`. -/
def signed64 (exact : Int) : Option Int64 :=
  if InRange 64 exact then some (Int64.ofInt exact) else none

/-- Where the signed arithmetic is defined. -/
def EncodeZigzag32 (v : Int32) : Option UInt32 :=
  if v < 0 then (signed32 (-v.toInt)).map fun n => n.toUInt32 * 2 - 1
  else (signed32 (v.toInt * 2)).map fun n => n.toUInt32

/-- As `EncodeZigzag32`, on 64 bits. -/
def EncodeZigzag64 (v : Int64) : Option UInt64 :=
  if v < 0 then (signed64 (-v.toInt)).map fun n => n.toUInt64 * 2 - 1
  else (signed64 (v.toInt * 2)).map fun n => n.toUInt64

/-- The varint of the code, where that is defined. -/
def writeInt32 (mem : Nat → UInt8) (s : ByteArray) (value : Int32) :
    Option (Except Fault ByteArray) :=
  (EncodeZigzag32 value).map (s.writeUint32 mem)

/-- As `writeInt32`, on 64 bits. -/
def writeInt64 (mem : Nat → UInt8) (s : ByteArray) (value : Int64) :
    Option (Except Fault ByteArray) :=
  (EncodeZigzag64 value).map (s.writeUint64 mem)

/-- There is a value exactly when the signed result fits, and then it is the one computed with wrap
around. -/
theorem EncodeZigzag32_eq (v : Int32) :
    EncodeZigzag32 v =
      if InRange 32 (intermediate v.toInt) then some (ByteArray.EncodeZigzag32 v) else none := by
  have hneg : v < 0 ↔ v.toInt < 0 := Int32.lt_iff_toInt_lt
  rw [EncodeZigzag32, ByteArray.EncodeZigzag32, intermediate]
  by_cases h : v < 0
  · simp only [if_pos h, if_pos (hneg.mp h), signed32]
    split <;> simp
  · simp only [if_neg h, if_neg (fun hv => h (hneg.mpr hv)), signed32]
    split <;> simp

theorem EncodeZigzag64_eq (v : Int64) :
    EncodeZigzag64 v =
      if InRange 64 (intermediate v.toInt) then some (ByteArray.EncodeZigzag64 v) else none := by
  have hneg : v < 0 ↔ v.toInt < 0 := Int64.lt_iff_toInt_lt
  rw [EncodeZigzag64, ByteArray.EncodeZigzag64, intermediate]
  by_cases h : v < 0
  · simp only [if_pos h, if_pos (hneg.mp h), signed64]
    split <;> simp
  · simp only [if_neg h, if_neg (fun hv => h (hneg.mpr hv)), signed64]
    split <;> simp

end Strict

/-- Writing `v` with `writeInt32` is defined, and reading it gives `v`. -/
structure Defined32 (v : Int32) : Prop where
  inRange : InRange 32 (intermediate v.toInt)
  inverted : ∃ u, Strict.EncodeZigzag32 v = some u ∧ DecodeZigzag32 u = v
  written : ∀ mem s, Strict.writeInt32 mem s v = some (s.writeInt32 mem v)

/-- Writing `v` with `writeInt64` is defined, and reading it gives `v`. -/
structure Defined64 (v : Int64) : Prop where
  inRange : InRange 64 (intermediate v.toInt)
  inverted : ∃ u, Strict.EncodeZigzag64 v = some u ∧ DecodeZigzag64 u = v
  written : ∀ mem s, Strict.writeInt64 mem s v = some (s.writeInt64 mem v)

theorem defined32_iff (v : Int32) : Defined32 v ↔ InRange 32 (intermediate v.toInt) := by
  constructor
  · exact Defined32.inRange
  · intro h
    have hencode : Strict.EncodeZigzag32 v = some (EncodeZigzag32 v) :=
      (Strict.EncodeZigzag32_eq v).trans (if_pos h)
    refine ⟨h, ⟨_, hencode, DecodeZigzag32_EncodeZigzag32 v⟩, ?_⟩
    intro mem s
    rw [Strict.writeInt32, hencode]
    rfl

theorem defined64_iff (v : Int64) : Defined64 v ↔ InRange 64 (intermediate v.toInt) := by
  constructor
  · exact Defined64.inRange
  · intro h
    have hencode : Strict.EncodeZigzag64 v = some (EncodeZigzag64 v) :=
      (Strict.EncodeZigzag64_eq v).trans (if_pos h)
    refine ⟨h, ⟨_, hencode, DecodeZigzag64_EncodeZigzag64 v⟩, ?_⟩
    intro mem s
    rw [Strict.writeInt64, hencode]
    rfl

/-- A signed value has a defined encoding unless it is the least one or in the upper half of the
values that are not negative. -/
theorem zigzag_defined_iff (v : Int32) (w : Int64) :
    (Defined32 v ↔ -2 ^ 31 < v.toInt ∧ v.toInt < 2 ^ 30) ∧
    (Defined64 w ↔ -2 ^ 63 < w.toInt ∧ w.toInt < 2 ^ 62) := by
  constructor
  · rw [defined32_iff]
    exact inRange_intermediate_iff (k := 30) ⟨v.le_toInt, v.toInt_lt⟩
  · rw [defined64_iff]
    exact inRange_intermediate_iff (k := 62) ⟨w.le_toInt, w.toInt_lt⟩

/-- At both ends. -/
theorem zigzag_overflows :
    ¬Defined32 1073741824 ∧ ¬Defined32 (-2147483648) ∧
    ¬Defined64 4611686018427387904 ∧ ¬Defined64 (-9223372036854775808) := by
  refine ⟨?_, ?_, ?_, ?_⟩
  · rw [defined32_iff]
    decide
  · rw [defined32_iff]
    decide
  · rw [defined64_iff]
    decide
  · rw [defined64_iff]
    decide

end ByteArray

end Muqiu
