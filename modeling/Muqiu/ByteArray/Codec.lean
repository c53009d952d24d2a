import Muqiu.Lib.Words
import Muqiu.ByteArray.Sequential

/-!
# The numeric codecs

A value of a fixed width goes into the buffer as the bytes it has in memory, turned around
first when the byte order of the buffer is not the machine's.  A value of variable length
goes in as groups of seven bits, a signed one folded onto the unsigned ones before.  A
floating-point value is its bit pattern.

The signed arithmetic of the zigzag encoder wraps around.
-/

namespace Muqiu

/-- The byte order of the machine. -/
def SYLAR_BYTE_ORDER : Endian := .little

/-- `bswap_16`, `bswap_32` and `bswap_64`, on values of `k` bytes. -/
def byteswap (k value : Nat) : Nat := Words.swap k value

namespace ByteArray

/-! ## Fixed width -/

/-- Writing a value of `k` bytes. -/
def writeFixed (mem : Nat → UInt8) (s : ByteArray) (k value : Nat) : Except Fault ByteArray :=
  let value := if s.m_endian ≠ SYLAR_BYTE_ORDER then byteswap k value else value
  s.write mem (Words.ofNat k value)

/-- `XX(type)`: reading a value of `k` bytes. -/
def readFixed (s : ByteArray) (k : Nat) : Except Fault (Nat × ByteArray) := do
  let (v, s) ← s.read k
  if s.m_endian = SYLAR_BYTE_ORDER then .ok (Words.toNat v, s)
  else .ok (byteswap k (Words.toNat v), s)

section Write

variable (mem : Nat → UInt8) (s : ByteArray)

/-- A byte, with its sign. -/
def writeFint8 (value : Int8) : Except Fault ByteArray :=
  s.write mem (Words.ofNat 1 value.toUInt8.toNat)

/-- A byte. -/
def writeFuint8 (value : UInt8) : Except Fault ByteArray :=
  s.write mem (Words.ofNat 1 value.toNat)

/-- Two bytes, with a sign, in the byte order that is set. -/
def writeFint16 (value : Int16) : Except Fault ByteArray :=
  s.writeFixed mem 2 value.toUInt16.toNat

/-- Two bytes, in the byte order that is set. -/
def writeFuint16 (value : UInt16) : Except Fault ByteArray :=
  s.writeFixed mem 2 value.toNat

/-- Four bytes, with a sign. -/
def writeFint32 (value : Int32) : Except Fault ByteArray :=
  s.writeFixed mem 4 value.toUInt32.toNat

/-- Four bytes. -/
def writeFuint32 (value : UInt32) : Except Fault ByteArray :=
  s.writeFixed mem 4 value.toNat

/-- Eight bytes, with a sign. -/
def writeFint64 (value : Int64) : Except Fault ByteArray :=
  s.writeFixed mem 8 value.toUInt64.toNat

/-- Eight bytes. -/
def writeFuint64 (value : UInt64) : Except Fault ByteArray :=
  s.writeFixed mem 8 value.toNat

/-- The argument is the bit pattern of the `float`. -/
def writeFloat (value : UInt32) : Except Fault ByteArray := s.writeFuint32 mem value

/-- The argument is the bit pattern of the `double`. -/
def writeDouble (value : UInt64) : Except Fault ByteArray := s.writeFuint64 mem value

end Write

section Read

variable (s : ByteArray)

/-- The byte that `writeFint8` writes. -/
def readFint8 : Except Fault (Int8 × ByteArray) :=
  (s.read 1).map fun r => ((UInt8.ofNat (Words.toNat r.1)).toInt8, r.2)

/-- The byte that `writeFuint8` writes. -/
def readFuint8 : Except Fault (UInt8 × ByteArray) :=
  (s.read 1).map fun r => (UInt8.ofNat (Words.toNat r.1), r.2)

/-- The two bytes that `writeFint16` writes, in the byte order that is set now. -/
def readFint16 : Except Fault (Int16 × ByteArray) :=
  (s.readFixed 2).map fun r => ((UInt16.ofNat r.1).toInt16, r.2)

/-- The two bytes that `writeFuint16` writes, in the byte order that is set now. -/
def readFuint16 : Except Fault (UInt16 × ByteArray) :=
  (s.readFixed 2).map fun r => (UInt16.ofNat r.1, r.2)

/-- The four bytes that `writeFint32` writes. -/
def readFint32 : Except Fault (Int32 × ByteArray) :=
  (s.readFixed 4).map fun r => ((UInt32.ofNat r.1).toInt32, r.2)

/-- The four bytes that `writeFuint32` writes. -/
def readFuint32 : Except Fault (UInt32 × ByteArray) :=
  (s.readFixed 4).map fun r => (UInt32.ofNat r.1, r.2)

/-- The eight bytes that `writeFint64` writes. -/
def readFint64 : Except Fault (Int64 × ByteArray) :=
  (s.readFixed 8).map fun r => ((UInt64.ofNat r.1).toInt64, r.2)

/-- The eight bytes that `writeFuint64` writes. -/
def readFuint64 : Except Fault (UInt64 × ByteArray) :=
  (s.readFixed 8).map fun r => (UInt64.ofNat r.1, r.2)

/-- The bits of a `float`. -/
def readFloat : Except Fault (UInt32 × ByteArray) := s.readFuint32

/-- The bits of a `double`. -/
def readDouble : Except Fault (UInt64 × ByteArray) := s.readFuint64

end Read

/-! ## Variable length -/

/-- The negative numbers become the odd ones.  The signed arithmetic wraps around here. -/
def EncodeZigzag32 (v : Int32) : UInt32 :=
  if v < 0 then (-v).toUInt32 * 2 - 1 else (v * 2).toUInt32

/-- As `EncodeZigzag32`, on 64 bits. -/
def EncodeZigzag64 (v : Int64) : UInt64 :=
  if v < 0 then (-v).toUInt64 * 2 - 1 else (v * 2).toUInt64

/-- The numbers back from what `EncodeZigzag32` makes of them. -/
def DecodeZigzag32 (v : UInt32) : Int32 := ((v >>> 1) ^^^ -(v &&& 1)).toInt32

/-- As `DecodeZigzag32`, on 64 bits. -/
def DecodeZigzag64 (v : UInt64) : Int64 := ((v >>> 1) ^^^ -(v &&& 1)).toInt64

/-- What `writeUint32` and `writeUint64` put into `tmp`. -/
def varint (value : Nat) : List UInt8 :=
  if value ≥ 0x80 then UInt8.ofNat ((value &&& 0x7F) ||| 0x80) :: varint (value >>> 7)
  else [UInt8.ofNat value]
termination_by value
decreasing_by
  rw [Nat.shiftRight_eq_div_pow]
  omega

/-- Seven bits a byte, the lowest first. -/
def writeUint32 (mem : Nat → UInt8) (s : ByteArray) (value : UInt32) : Except Fault ByteArray :=
  s.write mem (varint value.toNat)

/-- As `writeUint32`, on 64 bits. -/
def writeUint64 (mem : Nat → UInt8) (s : ByteArray) (value : UInt64) : Except Fault ByteArray :=
  s.write mem (varint value.toNat)

/-- The zigzag code of the number, as a varint. -/
def writeInt32 (mem : Nat → UInt8) (s : ByteArray) (value : Int32) : Except Fault ByteArray :=
  s.writeUint32 mem (EncodeZigzag32 value)

/-- As `writeInt32`, on 64 bits. -/
def writeInt64 (mem : Nat → UInt8) (s : ByteArray) (value : Int64) : Except Fault ByteArray :=
  s.writeUint64 mem (EncodeZigzag64 value)

/-- The loop of `readUint32` and `readUint64` over `i`, in words of `w` bits: `rounds` are
the values of `i` below `w` still to come. -/
def readVarint (w : Nat) : Nat → Nat → Nat → ByteArray → Except Fault (Nat × ByteArray)
  | 0, _, result, s => .ok (result, s)
  | rounds + 1, i, result, s => do
      let (b, s) ← s.readFuint8
      if b < 0x80 then .ok ((result ||| b.toNat <<< i) % 2 ^ w, s)
      else readVarint w rounds (i + 7) ((result ||| (b.toNat &&& 0x7f) <<< i) % 2 ^ w) s

/-- A varint of 32 bits. -/
def readUint32 (s : ByteArray) : Except Fault (UInt32 × ByteArray) :=
  (readVarint 32 5 0 0 s).map fun r => (UInt32.ofNat r.1, r.2)

/-- A varint of 64 bits. -/
def readUint64 (s : ByteArray) : Except Fault (UInt64 × ByteArray) :=
  (readVarint 64 10 0 0 s).map fun r => (UInt64.ofNat r.1, r.2)

/-- The number that `writeInt32` has written. -/
def readInt32 (s : ByteArray) : Except Fault (Int32 × ByteArray) :=
  s.readUint32.map fun r => (DecodeZigzag32 r.1, r.2)

/-- The number that `writeInt64` has written. -/
def readInt64 (s : ByteArray) : Except Fault (Int64 × ByteArray) :=
  s.readUint64.map fun r => (DecodeZigzag64 r.1, r.2)

/-! ## What the writers emit and the readers find -/

/-- The bytes of a value of `k` bytes in byte order `e`. -/
def fixed (e : Endian) (k value : Nat) : List UInt8 :=
  match e with
  | .little => Words.ofNat k value
  | .big => (Words.ofNat k value).reverse

@[simp] theorem length_fixed (e : Endian) (k value : Nat) : (fixed e k value).length = k := by
  cases e <;> simp [fixed]

theorem emits_writeFixed (mem : Nat → UInt8) (e : Endian) (k value : Nat) :
    Emits e (fun s => s.writeFixed mem k value) (fixed e k value) := by
  intro s h he
  have hbytes : Words.ofNat k
      (if s.m_endian ≠ SYLAR_BYTE_ORDER then byteswap k value else value) =
        fixed e k value := by
    rw [he]
    cases e with
    | little => rfl
    | big => exact Words.ofNat_swap k value
  obtain ⟨s', hwrite, hw⟩ := emits_write mem e (fixed e k value) s h he
  refine ⟨s', ?_, hw⟩
  show s.write mem (Words.ofNat k _) = _
  rw [hbytes]
  exact hwrite

theorem reads_readFixed (e : Endian) {k value : Nat} (hk : 0 < k) (hvalue : value < 256 ^ k) :
    Reads e (fun s => s.readFixed k) (fixed e k value) value := by
  intro s rest h he hunread
  have hlen := length_fixed e k value
  have hne : fixed e k value ≠ [] := by
    rw [← List.length_pos_iff, hlen]
    exact hk
  obtain ⟨s', hread, hc, he'⟩ := reads_read e hne s rest h he hunread
  dsimp only at hread
  rw [hlen] at hread
  refine ⟨s', ?_, hc, he'⟩
  show s.readFixed k = _
  rw [readFixed, hread]
  show (if s'.m_endian = SYLAR_BYTE_ORDER then _ else _) = _
  rw [he']
  cases e with
  | little =>
      have hsame : Words.toNat (fixed .little k value) = value := Words.toNat_ofNat hvalue
      rw [if_pos (show Endian.little = SYLAR_BYTE_ORDER from rfl), hsame]
  | big =>
      have hturned : byteswap k (Words.toNat (fixed .big k value)) = value :=
        Words.swap_swap hvalue
      rw [if_neg (by decide), hturned]

theorem varint_eq_groups (value : Nat) : varint value = Words.groups value := by
  induction value using Nat.strong_induction_on with
  | _ value ih =>
      rw [varint]
      split
      next hge =>
        have hbyte : (value &&& 0x7F) ||| 0x80 = value % 128 + 128 := by
          have hand : value &&& 0x7F = value % 128 := Nat.and_two_pow_sub_one_eq_mod value 7
          have hor := Nat.shiftLeft_add_eq_or_of_lt
            (show value % 128 < 2 ^ 7 from Nat.mod_lt _ (by decide)) 1
          rw [hand, Nat.or_comm]
          exact hor.symm.trans (Nat.add_comm _ _)
        have hshift : value >>> 7 = value / 128 := Nat.shiftRight_eq_div_pow value 7
        rw [hbyte, hshift, ih _ (by omega), Words.groups_of_ge hge]
      next hlt => rw [Words.groups_of_lt (Nat.lt_of_not_ge hlt)]

/-- `tmp[5]` holds every value of `writeUint32`. -/
theorem length_varint_uint32 (value : UInt32) : (varint value.toNat).length ≤ 5 := by
  have h := value.toNat_lt
  rw [varint_eq_groups]
  exact Words.length_groups_le (by omega)

/-- `tmp[10]` holds every value of `writeUint64`. -/
theorem length_varint_uint64 (value : UInt64) : (varint value.toNat).length ≤ 10 := by
  have h := value.toNat_lt
  rw [varint_eq_groups]
  exact Words.length_groups_le (by omega)

theorem reads_readFuint8 (e : Endian) (value : UInt8) :
    Reads e readFuint8 [value] value := by
  have h := (reads_read e (List.cons_ne_nil value [])).map fun v => UInt8.ofNat (Words.toNat v)
  have hvalue : UInt8.ofNat (Words.toNat [value]) = value := by
    rw [Words.toNat, Words.toNat, Nat.mul_zero, Nat.add_zero, UInt8.ofNat_toNat]
  rw [hvalue] at h
  exact h

/-- One round of the loop: read a group, then stop or go on. -/
theorem readVarint_succ (w rounds i result : Nat) :
    readVarint w (rounds + 1) i result = fun s =>
      s.readFuint8 >>= fun (r : UInt8 × ByteArray) =>
      if r.1 < 0x80 then .ok ((result ||| r.1.toNat <<< i) % 2 ^ w, r.2)
      else readVarint w rounds (i + 7)
        ((result ||| (r.1.toNat &&& 0x7f) <<< i) % 2 ^ w) r.2 := rfl

/-- From `i` on the loop adds what the groups stand for, as long as it fits the word. -/
theorem reads_readVarint {w : Nat} (e : Endian) {rounds i result value : Nat}
    (hresult : result < 2 ^ i) (hfit : result + value * 2 ^ i < 2 ^ w)
    (hlen : (Words.groups value).length ≤ rounds) :
    Reads e (readVarint w rounds i result) (Words.groups value) (result + value * 2 ^ i) := by
  induction rounds generalizing i result value with
  | zero =>
      have hpos := List.length_pos_iff.mpr (Words.groups_ne_nil value)
      omega
  | succ rounds ih =>
      -- an accumulator below the shift takes the next group as a sum
      have hor : ∀ d, result ||| d <<< i = result + d * 2 ^ i := by
        intro d
        rw [Nat.or_comm, ← Nat.shiftLeft_add_eq_or_of_lt hresult, Nat.shiftLeft_eq, Nat.add_comm]
      rw [readVarint_succ]
      by_cases hlast : value < 128
      · have hbyte : (UInt8.ofNat value).toNat = value := by
          rw [UInt8.toNat_ofNat']
          omega
        have hlt : UInt8.ofNat value < 0x80 := by
          rw [UInt8.lt_iff_toNat_lt, hbyte]
          exact hlast
        rw [Words.groups_of_lt hlast, ← List.append_nil [UInt8.ofNat value]]
        refine (reads_readFuint8 e _).andThen ?_
        simp only [if_pos hlt, hbyte, hor, Nat.mod_eq_of_lt hfit]
        exact reads_ok e _
      · have hge : 128 ≤ value := Nat.le_of_not_lt hlast
        have hbyte : (UInt8.ofNat (value % 128 + 128)).toNat = value % 128 + 128 := by
          rw [UInt8.toNat_ofNat']
          omega
        have hnlt : ¬UInt8.ofNat (value % 128 + 128) < 0x80 := by
          rw [UInt8.lt_iff_toNat_lt, hbyte]
          exact Nat.not_lt.mpr (Nat.le_add_left 128 _)
        have hand : (value % 128 + 128) &&& 0x7f = value % 128 :=
          (Nat.and_two_pow_sub_one_eq_mod (value % 128 + 128) 7).trans (by omega)
        have hpow : 2 ^ (i + 7) = 2 ^ i * 128 := Nat.pow_add 2 i 7
        have hsum : result + value % 128 * 2 ^ i + value / 128 * 2 ^ (i + 7) =
            result + value * 2 ^ i := by
          conv_rhs => rw [← Nat.mod_add_div value 128]
          rw [hpow, Nat.add_mul, Nat.add_assoc, Nat.mul_comm 128 (value / 128), Nat.mul_assoc,
            Nat.mul_comm (2 ^ i) 128]
        have hdigit : value % 128 * 2 ^ i ≤ 127 * 2 ^ i := Nat.mul_le_mul_right _ (by omega)
        have hmod : (result + value % 128 * 2 ^ i) % 2 ^ w = result + value % 128 * 2 ^ i :=
          Nat.mod_eq_of_lt (by omega)
        rw [Words.groups_of_ge hge, List.length_cons] at hlen
        rw [Words.groups_of_ge hge, ← hsum, ← List.singleton_append]
        refine (reads_readFuint8 e _).andThen ?_
        simp only [if_neg hnlt, hbyte, hand, hor, hmod]
        exact ih (by omega) (by omega) (by omega)

end ByteArray

end Muqiu
