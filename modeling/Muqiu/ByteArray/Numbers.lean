import Muqiu.ByteArray.Codec

/-!
# Numeric serialisation

A list of numeric writes with switches of the byte order in between, and its replay: the
reads that correspond to the writes, and the same switches.  From any state of the buffer the
replay gives back the values and ends where the writing ended, provided that the byte order
is set back along with the cursor.  `setPosition` moves the cursor only.
-/

namespace Muqiu

namespace ByteArray

/-! ## Zigzag -/

theorem EncodeZigzag32_toBitVec (v : Int32) :
    (EncodeZigzag32 v).toBitVec = Words.zigzag v.toBitVec := by
  have hsign : v < 0 ↔ v.toBitVec.msb = true := by
    rw [Int32.lt_iff_toBitVec_slt, ← BitVec.slt_zero_eq_msb]
    rfl
  rw [EncodeZigzag32, Words.zigzag]
  split
  next hneg =>
    rw [if_pos (hsign.mp hneg)]
    rfl
  next hpos =>
    rw [if_neg (fun h => hpos (hsign.mpr h))]
    rfl

theorem EncodeZigzag64_toBitVec (v : Int64) :
    (EncodeZigzag64 v).toBitVec = Words.zigzag v.toBitVec := by
  have hsign : v < 0 ↔ v.toBitVec.msb = true := by
    rw [Int64.lt_iff_toBitVec_slt, ← BitVec.slt_zero_eq_msb]
    rfl
  rw [EncodeZigzag64, Words.zigzag]
  split
  next hneg =>
    rw [if_pos (hsign.mp hneg)]
    rfl
  next hpos =>
    rw [if_neg (fun h => hpos (hsign.mpr h))]
    rfl

theorem DecodeZigzag32_EncodeZigzag32 (v : Int32) : DecodeZigzag32 (EncodeZigzag32 v) = v := by
  apply Int32.toBitVec_inj.mp
  show Words.unzigzag (EncodeZigzag32 v).toBitVec = v.toBitVec
  rw [EncodeZigzag32_toBitVec, Words.unzigzag_zigzag (by decide)]

theorem DecodeZigzag64_EncodeZigzag64 (v : Int64) : DecodeZigzag64 (EncodeZigzag64 v) = v := by
  apply Int64.toBitVec_inj.mp
  show Words.unzigzag (EncodeZigzag64 v).toBitVec = v.toBitVec
  rw [EncodeZigzag64_toBitVec, Words.unzigzag_zigzag (by decide)]

/-! ## The codecs together -/

/-- The numeric codecs: each names a pair `write…` and `read…`. -/
inductive Codec where
  | fint8
  | fuint8
  | fint16
  | fuint16
  | fint32
  | fuint32
  | fint64
  | fuint64
  | int32
  | uint32
  | int64
  | uint64
  | float
  | double
deriving DecidableEq, Repr

namespace Codec

/-- The C++ type of the values.  Floating-point values are their bit patterns. -/
@[reducible] def Value : Codec → Type
  | .fint8 => Int8
  | .fuint8 => UInt8
  | .fint16 => Int16
  | .fuint16 => UInt16
  | .fint32 => Int32
  | .fuint32 => UInt32
  | .fint64 => Int64
  | .fuint64 => UInt64
  | .int32 => Int32
  | .uint32 => UInt32
  | .int64 => Int64
  | .uint64 => UInt64
  | .float => UInt32
  | .double => UInt64

/-- The writer of a codec. -/
def write (mem : Nat → UInt8) (s : ByteArray) :
    (c : Codec) → c.Value → Except Fault ByteArray
  | .fint8, v => s.writeFint8 mem v
  | .fuint8, v => s.writeFuint8 mem v
  | .fint16, v => s.writeFint16 mem v
  | .fuint16, v => s.writeFuint16 mem v
  | .fint32, v => s.writeFint32 mem v
  | .fuint32, v => s.writeFuint32 mem v
  | .fint64, v => s.writeFint64 mem v
  | .fuint64, v => s.writeFuint64 mem v
  | .int32, v => s.writeInt32 mem v
  | .uint32, v => s.writeUint32 mem v
  | .int64, v => s.writeInt64 mem v
  | .uint64, v => s.writeUint64 mem v
  | .float, v => s.writeFloat mem v
  | .double, v => s.writeDouble mem v

/-- The reader of a codec. -/
def read (s : ByteArray) : (c : Codec) → Except Fault (c.Value × ByteArray)
  | .fint8 => s.readFint8
  | .fuint8 => s.readFuint8
  | .fint16 => s.readFint16
  | .fuint16 => s.readFuint16
  | .fint32 => s.readFint32
  | .fuint32 => s.readFuint32
  | .fint64 => s.readFint64
  | .fuint64 => s.readFuint64
  | .int32 => s.readInt32
  | .uint32 => s.readUint32
  | .int64 => s.readInt64
  | .uint64 => s.readUint64
  | .float => s.readFloat
  | .double => s.readDouble

/-- The bytes of a value in byte order `e`. -/
def encode (e : Endian) : (c : Codec) → c.Value → List UInt8
  | .fint8, v => Words.ofNat 1 v.toUInt8.toNat
  | .fuint8, v => Words.ofNat 1 v.toNat
  | .fint16, v => fixed e 2 v.toUInt16.toNat
  | .fuint16, v => fixed e 2 v.toNat
  | .fint32, v => fixed e 4 v.toUInt32.toNat
  | .fuint32, v => fixed e 4 v.toNat
  | .fint64, v => fixed e 8 v.toUInt64.toNat
  | .fuint64, v => fixed e 8 v.toNat
  | .int32, v => varint (EncodeZigzag32 v).toNat
  | .uint32, v => varint v.toNat
  | .int64, v => varint (EncodeZigzag64 v).toNat
  | .uint64, v => varint v.toNat
  | .float, v => fixed e 4 v.toNat
  | .double, v => fixed e 8 v.toNat

/-- Every writer emits the bytes of its value. -/
theorem emits_write (mem : Nat → UInt8) (e : Endian) (c : Codec) (v : c.Value) :
    Emits e (fun s => c.write mem s v) (c.encode e v) := by
  cases c with
  | fint8 => exact ByteArray.emits_write mem e (Words.ofNat 1 v.toUInt8.toNat)
  | fuint8 => exact ByteArray.emits_write mem e (Words.ofNat 1 v.toNat)
  | fint16 => exact emits_writeFixed mem e 2 _
  | fuint16 => exact emits_writeFixed mem e 2 _
  | fint32 => exact emits_writeFixed mem e 4 _
  | fuint32 => exact emits_writeFixed mem e 4 _
  | fint64 => exact emits_writeFixed mem e 8 _
  | fuint64 => exact emits_writeFixed mem e 8 _
  | int32 => exact ByteArray.emits_write mem e _
  | uint32 => exact ByteArray.emits_write mem e _
  | int64 => exact ByteArray.emits_write mem e _
  | uint64 => exact ByteArray.emits_write mem e _
  | float => exact emits_writeFixed mem e 4 _
  | double => exact emits_writeFixed mem e 8 _

/-- A reader of a fixed width, with the conversion `f` from the bits to the value. -/
theorem reads_fixed {α : Type} (e : Endian) (k : Nat) {n : Nat} (hk : 0 < k)
    (hn : n < 256 ^ k) {f : Nat → α} {v : α} (hv : f n = v) :
    Reads e (fun s => (s.readFixed k).map fun r => (f r.1, r.2)) (fixed e k n) v := by
  rw [← hv]
  exact (reads_readFixed e hk hn).map f

theorem reads_byte {α : Type} (e : Endian) {n : Nat} (hn : n < 256) {f : Nat → α} {v : α}
    (hv : f n = v) :
    Reads e (fun s => (s.read 1).map fun r => (f (Words.toNat r.1), r.2)) (Words.ofNat 1 n)
      v := by
  have hread := (ByteArray.reads_read e (List.cons_ne_nil (UInt8.ofNat n) [])).map
    fun bytes => f (Words.toNat bytes)
  have hbits : Words.toNat [UInt8.ofNat n] = n :=
    Words.toNat_ofNat (k := 1) (Nat.lt_of_lt_of_eq hn (Nat.pow_one 256).symm)
  rw [hbits, hv] at hread
  exact hread

/-- A reader of variable length, with the conversion `f` from the word to the value. -/
theorem reads_varint {α : Type} (e : Endian) {w rounds n : Nat} (hn : n < 2 ^ w)
    (hlen : (varint n).length ≤ rounds) {f : Nat → α} {v : α} (hv : f n = v) :
    Reads e (fun s => (readVarint w rounds 0 0 s).map fun r => (f r.1, r.2)) (varint n) v := by
  have hsum : 0 + n * 2 ^ 0 = n := by rw [Nat.pow_zero, Nat.mul_one, Nat.zero_add]
  rw [varint_eq_groups] at hlen
  have hread := reads_readVarint (w := w) e (Nat.two_pow_pos 0) (by rw [hsum]; exact hn) hlen
  rw [hsum] at hread
  rw [← hv, varint_eq_groups]
  exact hread.map f

theorem reads_readUint32 (e : Endian) (v : UInt32) : Reads e readUint32 (varint v.toNat) v :=
  reads_varint e v.toNat_lt (length_varint_uint32 v) UInt32.ofNat_toNat

theorem reads_readUint64 (e : Endian) (v : UInt64) : Reads e readUint64 (varint v.toNat) v :=
  reads_varint e v.toNat_lt (length_varint_uint64 v) UInt64.ofNat_toNat

/-- Every reader finds the value in the bytes of its writer. -/
theorem reads_read (e : Endian) (c : Codec) (v : c.Value) :
    Reads e (fun s => c.read s) (c.encode e v) v := by
  cases c with
  | fint8 =>
      have hv : (UInt8.ofNat v.toUInt8.toNat).toInt8 = v := by
        rw [UInt8.ofNat_toNat, Int8.toInt8_toUInt8]
      exact reads_byte (f := fun n => (UInt8.ofNat n).toInt8) e v.toUInt8.toNat_lt hv
  | fuint8 => exact reads_byte e v.toNat_lt UInt8.ofNat_toNat
  | fint16 =>
      have hv : (UInt16.ofNat v.toUInt16.toNat).toInt16 = v := by
        rw [UInt16.ofNat_toNat, Int16.toInt16_toUInt16]
      exact reads_fixed (f := fun n => (UInt16.ofNat n).toInt16) e 2 (by decide)
        v.toUInt16.toNat_lt hv
  | fuint16 => exact reads_fixed e 2 (by decide) v.toNat_lt UInt16.ofNat_toNat
  | fint32 =>
      have hv : (UInt32.ofNat v.toUInt32.toNat).toInt32 = v := by
        rw [UInt32.ofNat_toNat, Int32.toInt32_toUInt32]
      exact reads_fixed (f := fun n => (UInt32.ofNat n).toInt32) e 4 (by decide)
        v.toUInt32.toNat_lt hv
  | fuint32 => exact reads_fixed e 4 (by decide) v.toNat_lt UInt32.ofNat_toNat
  | fint64 =>
      have hv : (UInt64.ofNat v.toUInt64.toNat).toInt64 = v := by
        rw [UInt64.ofNat_toNat, Int64.toInt64_toUInt64]
      exact reads_fixed (f := fun n => (UInt64.ofNat n).toInt64) e 8 (by decide)
        v.toUInt64.toNat_lt hv
  | fuint64 => exact reads_fixed e 8 (by decide) v.toNat_lt UInt64.ofNat_toNat
  | int32 =>
      have hread := (reads_readUint32 e (EncodeZigzag32 v)).map DecodeZigzag32
      rw [DecodeZigzag32_EncodeZigzag32] at hread
      exact hread
  | uint32 => exact reads_readUint32 e v
  | int64 =>
      have hread := (reads_readUint64 e (EncodeZigzag64 v)).map DecodeZigzag64
      rw [DecodeZigzag64_EncodeZigzag64] at hread
      exact hread
  | uint64 => exact reads_readUint64 e v
  | float => exact reads_fixed e 4 (by decide) v.toNat_lt UInt32.ofNat_toNat
  | double => exact reads_fixed e 8 (by decide) v.toNat_lt UInt64.ofNat_toNat

end Codec

/-! ## Lists of writes and their replay -/

/-- A numeric write or a switch of the byte order. -/
inductive Put where
  | write (c : Codec) (v : c.Value)
  | setIsLittleEndian (val : Bool)

/-- A numeric read or a switch of the byte order. -/
inductive Get where
  | read (c : Codec)
  | setIsLittleEndian (val : Bool)

/-- What corresponds to a write in the replay: it names the reader and nothing else. -/
def Put.get : Put → Get
  | .write c _ => .read c
  | .setIsLittleEndian val => .setIsLittleEndian val

/-- A value with its codec. -/
abbrev Num := (c : Codec) × c.Value

/-- The values of the writes, in order. -/
def values : List Put → List Num
  | [] => []
  | .write c v :: puts => ⟨c, v⟩ :: values puts
  | .setIsLittleEndian _ :: puts => values puts

/-- A list of writes and switches, each with the memory it obtains. -/
def writeAll (s : ByteArray) : List (Put × (Nat → UInt8)) → Except Fault ByteArray
  | [] => .ok s
  | (.write c v, mem) :: puts => do
      let s' ← c.write mem s v
      writeAll s' puts
  | (.setIsLittleEndian val, _) :: puts => writeAll (s.setIsLittleEndian val) puts

/-- A list of reads and switches: the values read, in order. -/
def readAll (s : ByteArray) : List Get → Except Fault (List Num × ByteArray)
  | [] => .ok ([], s)
  | .read c :: gets => do
      let (v, s') ← c.read s
      let (vs, s'') ← readAll s' gets
      .ok (⟨c, v⟩ :: vs, s'')
  | .setIsLittleEndian val :: gets => readAll (s.setIsLittleEndian val) gets

/-- The byte order a switch sets. -/
def order (val : Bool) : Endian := if val then .little else .big

/-- The bytes of a list of writes that begins in byte order `e`. -/
def encodeAll (e : Endian) : List Put → List UInt8
  | [] => []
  | .write c v :: puts => c.encode e v ++ encodeAll e puts
  | .setIsLittleEndian val :: puts => encodeAll (order val) puts

theorem setIsLittleEndian_eq (s : ByteArray) (val : Bool) :
    s.setIsLittleEndian val = { s with m_endian := order val } := by
  cases val <;> rfl

theorem Inv.withEndian {s : ByteArray} (h : s.Inv) (e : Endian) :
    Inv { s with m_endian := e } :=
  ⟨h.base_pos, h.uniform, h.root_ne, h.capacity, h.pos_le, h.size_le, h.cur⟩

theorem Inv.setIsLittleEndian {s : ByteArray} (h : s.Inv) (val : Bool) :
    (s.setIsLittleEndian val).Inv := by
  rw [setIsLittleEndian_eq]
  exact h.withEndian _

/-- The writes put their bytes at the cursor, one after the other. -/
theorem writeAll_written {s : ByteArray} (h : s.Inv) (puts : List (Put × (Nat → UInt8))) :
    ∃ s', s.writeAll puts = .ok s' ∧
      Written s s' (encodeAll s.m_endian (puts.map Prod.fst)) := by
  induction puts generalizing s with
  | nil => exact ⟨s, rfl, Written.refl h⟩
  | cons put puts ih =>
      obtain ⟨put, mem⟩ := put
      cases put with
      | write c v =>
          obtain ⟨s₁, (hwrite : c.write mem s v = .ok s₁), hw, he⟩ :=
            c.emits_write mem s.m_endian v s h rfl
          obtain ⟨s₂, hrest, hw'⟩ := ih hw.inv
          rw [he] at hw'
          refine ⟨s₂, ?_, hw.trans hw'⟩
          show (c.write mem s v >>= fun s' => s'.writeAll puts) = .ok s₂
          rw [hwrite]
          exact hrest
      | setIsLittleEndian val =>
          obtain ⟨s₂, hrest, hw'⟩ := ih (h.setIsLittleEndian val)
          rw [setIsLittleEndian_eq] at hrest hw'
          refine ⟨s₂, ?_, ⟨hw'.inv, hw'.base, hw'.position, hw'.memory, hw'.capacity_le,
            hw'.capacity_least⟩⟩
          rw [writeAll, setIsLittleEndian_eq]
          exact hrest

/-- The replay over those bytes, in the byte order the writing began in, gives the values. -/
theorem readAll_consumed {s : ByteArray} (h : s.Inv) (puts : List Put) {rest : List UInt8}
    (hunread : s.unread = encodeAll s.m_endian puts ++ rest) :
    ∃ s', s.readAll (puts.map Put.get) = .ok (values puts, s') ∧
      Consumed s s' (encodeAll s.m_endian puts).length := by
  induction puts generalizing s with
  | nil => exact ⟨s, rfl, Consumed.refl h⟩
  | cons put puts ih =>
      cases put with
      | write c v =>
          rw [encodeAll, List.append_assoc] at hunread
          obtain ⟨s₁, (hread : c.read s = .ok (v, s₁)), hc, he⟩ :=
            c.reads_read s.m_endian v s _ h rfl hunread
          have hunread₁ : s₁.unread = encodeAll s₁.m_endian puts ++ rest := by
            rw [hc.unread, hunread, List.drop_left' rfl, he]
          obtain ⟨s₂, hrest, hc'⟩ := ih hc.inv hunread₁
          refine ⟨s₂, ?_, ?_⟩
          · show (c.read s >>= fun r => (r.2.readAll (puts.map Put.get)) >>= fun rs =>
              .ok (⟨c, r.1⟩ :: rs.1, rs.2)) = _
            rw [hread]
            show (s₁.readAll (puts.map Put.get) >>= fun rs => .ok (⟨c, v⟩ :: rs.1, rs.2)) = _
            rw [hrest]
            rfl
          · rw [he] at hc'
            rw [encodeAll, List.length_append]
            exact hc.trans hc'
      | setIsLittleEndian val =>
          have hswitch := setIsLittleEndian_eq s val
          obtain ⟨s₂, hrest, hc⟩ := ih (s := s.setIsLittleEndian val)
            (h.setIsLittleEndian val) (by rw [hswitch]; exact hunread)
          rw [hswitch] at hrest hc
          refine ⟨s₂, ?_, ⟨hc.inv, hc.root, hc.capacity, hc.size, hc.position⟩⟩
          rw [List.map_cons, Put.get, readAll, hswitch]
          exact hrest

/-- Setting the cursor and the byte order back and reading gives the values written, and
ends where the writing ended. -/
theorem numbers_round_trip {s : ByteArray} (h : s.Inv) (puts : List (Put × (Nat → UInt8))) :
    ∃ s₁ s₂ s₃, s.writeAll puts = .ok s₁ ∧ s₁.setPosition s.m_position = .ok s₂ ∧
      (s₂.setIsLittleEndian s.isLittleEndian).readAll (puts.map fun put => put.1.get) =
        .ok (values (puts.map Prod.fst), s₃) ∧
      s₃.m_position = s₁.m_position := by
  obtain ⟨s₁, hwrite, hw⟩ := writeAll_written h puts
  obtain ⟨s₂, rest, hset, hinv, hpos, _, hunread⟩ := hw.setPosition h
  have hback : s₂.setIsLittleEndian s.isLittleEndian = { s₂ with m_endian := s.m_endian } := by
    rw [setIsLittleEndian_eq]
    cases he : s.m_endian <;> simp [isLittleEndian, he, order]
  obtain ⟨s₃, hread, hc⟩ := readAll_consumed (s := { s₂ with m_endian := s.m_endian })
    (hinv.withEndian _) (puts.map Prod.fst) hunread
  rw [List.map_map] at hread
  refine ⟨s₁, s₂, s₃, hwrite, hset, ?_, ?_⟩
  · rw [hback]
    exact hread
  · rw [hc.position, hw.position]
    show s₂.m_position + _ = _
    rw [hpos]

/-- A value in each of three forms, with a switch in between. -/
def mixedPuts : List (Put × (Nat → UInt8)) :=
  [.write .fint16 (-2), .setIsLittleEndian true, .write .int32 (-1),
    .write .double 0x3ff0000000000000].map fun put => (put, fun _ => 0)

/-- In blocks of three bytes. -/
theorem numbers_round_trip_mixed :
    ∃ s₁ s₂ s₃, (new (fun _ => 0) 3).writeAll mixedPuts = .ok s₁ ∧
      s₁.setPosition (new (fun _ => 0) 3).m_position = .ok s₂ ∧
      (s₂.setIsLittleEndian (new (fun _ => 0) 3).isLittleEndian).readAll
          (mixedPuts.map fun put => put.1.get) =
        .ok (values (mixedPuts.map Prod.fst), s₃) ∧
      s₃.m_position = s₁.m_position :=
  numbers_round_trip (new_inv _ (by decide)) mixedPuts

/-- The two bytes of a one in big byte order, with the cursor at `pos` and the order switched. -/
def afterSwitch (pos : Nat) : ByteArray where
  m_baseSize := 4
  m_position := pos
  m_capacity := 4
  m_size := 2
  m_endian := .little
  m_root := [[0, 1, 0, 0]]
  m_cur := some 0

/-- With the cursor alone set back, a value written before a switch is read after it. -/
theorem not_round_trip_without_order :
    ¬∀ (s s₁ s₂ : ByteArray) (puts : List (Put × (Nat → UInt8))), s.Inv →
      s.writeAll puts = .ok s₁ → s₁.setPosition s.m_position = .ok s₂ →
      ∃ s₃, s₂.readAll (puts.map fun put => put.1.get) =
        .ok (values (puts.map Prod.fst), s₃) ∧ s₃.m_position = s₁.m_position := by
  intro hround
  obtain ⟨s₃, hread, _⟩ := hround (new (fun _ => 0) 4) (afterSwitch 2) (afterSwitch 0)
    [(.write .fuint16 1, fun _ => 0), (.setIsLittleEndian true, fun _ => 0)]
    (new_inv _ (by decide)) rfl rfl
  have hreal : (afterSwitch 0).readAll [.read .fuint16, .setIsLittleEndian true] =
      .ok ([⟨.fuint16, 256⟩], afterSwitch 2) := rfl
  have hvalues := congrArg (Except.map Prod.fst) (hreal.symm.trans hread)
  simp [values, Except.map] at hvalues

end ByteArray

end Muqiu
