import Muqiu.ByteArray.Numbers

/-!
# String serialisation

A string goes into the buffer as its length, in one of four codecs, and its bytes.  The
length is converted to the codec's type, so `writeStringF32` writes the length of a string of
4 GiB and more modulo 2^32.

The readers read the length and then as many bytes with `read`.  `write` returns at once on
an empty buffer and `read` does not: reading nothing at the end of the capacity, where `m_cur`
is null, dereferences it.  Only the last string of a list can meet that, and does so exactly
when it is empty and the bytes written fill the capacity.
-/

namespace Muqiu

namespace ByteArray

/-- `std::string`.  Its size is a `size_t`. -/
structure StdString where
  bytes : List UInt8
  size_lt : bytes.length < UInt64.size

/-- `std::string::size` -/
def StdString.size (value : StdString) : Nat := value.bytes.length

/-! ## The writers and the readers -/

section Write

variable (mem mem' : Nat → UInt8) (s : ByteArray) (value : StdString)

/-- The size in two bytes, and the bytes. -/
def writeStringF16 : Except Fault ByteArray := do
  let s' ← s.writeFuint16 mem (UInt16.ofNat value.size)
  s'.write mem' value.bytes

/-- The size in four bytes, and the bytes. -/
def writeStringF32 : Except Fault ByteArray := do
  let s' ← s.writeFuint32 mem (UInt32.ofNat value.size)
  s'.write mem' value.bytes

/-- The size in eight bytes, and the bytes. -/
def writeStringF64 : Except Fault ByteArray := do
  let s' ← s.writeFuint64 mem (UInt64.ofNat value.size)
  s'.write mem' value.bytes

/-- The size as a varint, and the bytes. -/
def writeStringVint : Except Fault ByteArray := do
  let s' ← s.writeUint64 mem (UInt64.ofNat value.size)
  s'.write mem' value.bytes

end Write

section Read

variable (s : ByteArray)

/-- A string behind a size of two bytes. -/
def readStringF16 : Except Fault (List UInt8 × ByteArray) := do
  let (len, s') ← s.readFuint16
  s'.read len.toNat

/-- A string behind a size of four bytes. -/
def readStringF32 : Except Fault (List UInt8 × ByteArray) := do
  let (len, s') ← s.readFuint32
  s'.read len.toNat

/-- A string behind a size of eight bytes. -/
def readStringF64 : Except Fault (List UInt8 × ByteArray) := do
  let (len, s') ← s.readFuint64
  s'.read len.toNat

/-- A string behind a varint. -/
def readStringVint : Except Fault (List UInt8 × ByteArray) := do
  let (len, s') ← s.readUint64
  s'.read len.toNat

end Read

/-! ## The codecs together -/

/-- The string codecs: each names a pair `writeString…` and `readString…`. -/
inductive StringCodec where
  | f16
  | f32
  | f64
  | vint
deriving DecidableEq, Repr

namespace StringCodec

/-- The writer of a codec. -/
def write (mem mem' : Nat → UInt8) (s : ByteArray) (value : StdString) :
    StringCodec → Except Fault ByteArray
  | .f16 => s.writeStringF16 mem mem' value
  | .f32 => s.writeStringF32 mem mem' value
  | .f64 => s.writeStringF64 mem mem' value
  | .vint => s.writeStringVint mem mem' value

/-- The reader of a codec. -/
def read (s : ByteArray) : StringCodec → Except Fault (List UInt8 × ByteArray)
  | .f16 => s.readStringF16
  | .f32 => s.readStringF32
  | .f64 => s.readStringF64
  | .vint => s.readStringVint

/-- The length a codec stores for a string of `size` bytes. -/
def stored (size : Nat) : StringCodec → Nat
  | .f16 => (UInt16.ofNat size).toNat
  | .f32 => (UInt32.ofNat size).toNat
  | .f64 => (UInt64.ofNat size).toNat
  | .vint => (UInt64.ofNat size).toNat

/-- The bytes of the length in byte order `e`. -/
def lengthBytes (e : Endian) (size : Nat) (c : StringCodec) : List UInt8 :=
  match c with
  | .f16 => fixed e 2 (c.stored size)
  | .f32 => fixed e 4 (c.stored size)
  | .f64 => fixed e 8 (c.stored size)
  | .vint => varint (c.stored size)

/-- What the readers do first. -/
def readLength (s : ByteArray) : StringCodec → Except Fault (Nat × ByteArray)
  | .f16 => s.readFuint16.map fun r => (r.1.toNat, r.2)
  | .f32 => s.readFuint32.map fun r => (r.1.toNat, r.2)
  | .f64 => s.readFuint64.map fun r => (r.1.toNat, r.2)
  | .vint => s.readUint64.map fun r => (r.1.toNat, r.2)

/-- Then they read as many bytes as the length says. -/
theorem read_eq (s : ByteArray) (c : StringCodec) :
    c.read s = c.readLength s >>= fun r => r.2.read r.1 := by
  have hbind : ∀ {α : Type} (x : Except Fault (α × ByteArray)) (f : α → Nat),
      (x >>= fun r => r.2.read (f r.1)) =
        ((x.map fun r => (f r.1, r.2)) >>= fun r => r.2.read r.1) := by
    intro α x f
    cases x <;> rfl
  cases c with
  | f16 => exact hbind s.readFuint16 UInt16.toNat
  | f32 => exact hbind s.readFuint32 UInt32.toNat
  | f64 => exact hbind s.readFuint64 UInt64.toNat
  | vint => exact hbind s.readUint64 UInt64.toNat

theorem reads_readLength (e : Endian) (c : StringCodec) (size : Nat) :
    Reads e (fun s => c.readLength s) (c.lengthBytes e size) (c.stored size) := by
  cases c with
  | f16 => exact (Codec.reads_read e .fuint16 (UInt16.ofNat size)).map UInt16.toNat
  | f32 => exact (Codec.reads_read e .fuint32 (UInt32.ofNat size)).map UInt32.toNat
  | f64 => exact (Codec.reads_read e .fuint64 (UInt64.ofNat size)).map UInt64.toNat
  | vint => exact (Codec.reads_read e .uint64 (UInt64.ofNat size)).map UInt64.toNat

theorem emits_write (mem mem' : Nat → UInt8) (e : Endian) (c : StringCodec)
    (value : StdString) :
    Emits e (fun s => c.write mem mem' s value)
      (c.lengthBytes e value.size ++ value.bytes) := by
  have hbytes := ByteArray.emits_write mem' e value.bytes
  cases c with
  | f16 => exact (Codec.emits_write mem e .fuint16 (UInt16.ofNat value.size)).andThen hbytes
  | f32 => exact (Codec.emits_write mem e .fuint32 (UInt32.ofNat value.size)).andThen hbytes
  | f64 => exact (Codec.emits_write mem e .fuint64 (UInt64.ofNat value.size)).andThen hbytes
  | vint => exact (Codec.emits_write mem e .uint64 (UInt64.ofNat value.size)).andThen hbytes

theorem lengthBytes_ne_nil (e : Endian) (c : StringCodec) (size : Nat) :
    c.lengthBytes e size ≠ [] := by
  cases c with
  | f16 => exact List.ne_nil_of_length_pos (by rw [lengthBytes, length_fixed]; decide)
  | f32 => exact List.ne_nil_of_length_pos (by rw [lengthBytes, length_fixed]; decide)
  | f64 => exact List.ne_nil_of_length_pos (by rw [lengthBytes, length_fixed]; decide)
  | vint =>
      rw [lengthBytes, varint_eq_groups]
      exact Words.groups_ne_nil _

/-- How many bytes the length of a string takes. -/
def lengthSize (size : Nat) : StringCodec → Nat
  | .f16 => 2
  | .f32 => 4
  | .f64 => 8
  | .vint => (varint size).length

theorem stored_eq_of_lt {c : StringCodec} {size : Nat} (hsize : size < UInt64.size)
    (h16 : c = .f16 → size < UInt16.size) (h32 : c = .f32 → size < UInt32.size) :
    c.stored size = size := by
  cases c with
  | f16 => exact UInt16.toNat_ofNat_of_lt (h16 rfl)
  | f32 => exact UInt32.toNat_ofNat_of_lt (h32 rfl)
  | f64 => exact UInt64.toNat_ofNat_of_lt hsize
  | vint => exact UInt64.toNat_ofNat_of_lt hsize

theorem length_lengthBytes (e : Endian) (c : StringCodec) {size : Nat}
    (hsize : size < UInt64.size) : (c.lengthBytes e size).length = c.lengthSize size := by
  cases c with
  | f16 => exact length_fixed e 2 _
  | f32 => exact length_fixed e 4 _
  | f64 => exact length_fixed e 8 _
  | vint =>
      have hstored : StringCodec.vint.stored size = size := UInt64.toNat_ofNat_of_lt hsize
      rw [lengthBytes, hstored, lengthSize]

end StringCodec

/-! ## Lists of strings -/

/-- A string to write, its codec, and the memory the two writes obtain. -/
structure StringPut where
  codec : StringCodec
  value : StdString
  mem : Nat → UInt8
  mem' : Nat → UInt8

/-- Strings one behind the other, each with its own codec. -/
def writeStrings (s : ByteArray) : List StringPut → Except Fault ByteArray
  | [] => .ok s
  | put :: puts => do
      let s' ← put.codec.write put.mem put.mem' s put.value
      writeStrings s' puts

/-- The strings the readers give, in order. -/
def readStrings (s : ByteArray) : List StringCodec → Except Fault (List (List UInt8) × ByteArray)
  | [] => .ok ([], s)
  | c :: cs => do
      let (bs, s') ← c.read s
      let (bss, s'') ← readStrings s' cs
      .ok (bs :: bss, s'')

/-- The bytes of a list of strings. -/
def encodeStrings (e : Endian) : List StringPut → List UInt8
  | [] => []
  | put :: puts =>
      put.codec.lengthBytes e put.value.size ++ put.value.bytes ++ encodeStrings e puts

/-- How many bytes the writes of a list of strings take. -/
def stringsSize : List StringPut → Nat
  | [] => 0
  | put :: puts =>
      put.codec.lengthSize put.value.size + put.value.size + stringsSize puts

/-- The list ends with an empty string. -/
def EndsEmpty (puts : List StringPut) : Prop := ∃ put ∈ puts.getLast?, put.value.bytes = []

/-- Every length survives the conversion to the type of its codec. -/
def LengthsFit (puts : List StringPut) : Prop :=
  ∀ put ∈ puts, put.codec.stored put.value.size = put.value.size

theorem length_encodeStrings (e : Endian) (puts : List StringPut) :
    (encodeStrings e puts).length = stringsSize puts := by
  induction puts with
  | nil => rfl
  | cons put puts ih =>
      rw [encodeStrings, stringsSize, List.length_append, List.length_append, ih,
        put.codec.length_lengthBytes e (show put.value.size < UInt64.size from put.value.size_lt)]
      rfl

theorem endsEmpty_cons {put : StringPut} {puts : List StringPut} :
    EndsEmpty (put :: puts) ↔ puts = [] ∧ put.value.bytes = [] ∨ EndsEmpty puts := by
  cases puts with
  | nil => simp [EndsEmpty]
  | cons put' puts => simp [EndsEmpty, List.getLast?_cons_cons]

theorem lengthsFit_cons {put : StringPut} {puts : List StringPut} :
    LengthsFit (put :: puts) ↔
      put.codec.stored put.value.size = put.value.size ∧ LengthsFit puts :=
  List.forall_mem_cons

theorem writeStrings_written {s : ByteArray} (h : s.Inv) (puts : List StringPut) :
    ∃ s', s.writeStrings puts = .ok s' ∧ Written s s' (encodeStrings s.m_endian puts) ∧
      s'.m_endian = s.m_endian := by
  induction puts generalizing s with
  | nil => exact ⟨s, rfl, Written.refl h, rfl⟩
  | cons put puts ih =>
      obtain ⟨s₁, (hwrite : put.codec.write put.mem put.mem' s put.value = .ok s₁), hw, he⟩ :=
        put.codec.emits_write put.mem put.mem' s.m_endian put.value s h rfl
      obtain ⟨s₂, hrest, hw', he'⟩ := ih hw.inv
      rw [he] at hw'
      refine ⟨s₂, ?_, hw.trans hw', he'.trans he⟩
      show (put.codec.write put.mem put.mem' s put.value >>= fun s' => s'.writeStrings puts) = _
      rw [hwrite]
      exact hrest

/-! ## Reading the strings back -/

/-- A successful `read` gives as many bytes as asked for. -/
theorem length_of_read {s s' : ByteArray} (h : s.Inv) {n : Nat} {bs : List UInt8}
    (hread : s.read n = .ok (bs, s')) : bs.length = n := by
  have hsize := h.size_le
  have hlen := h.length_flatten
  rcases Nat.eq_zero_or_pos n with rfl | hn
  · rcases Nat.lt_or_ge s.m_position s.m_capacity with hlt | hge
    · rw [read_zero h hlt] at hread
      cases hread
      rfl
    · rw [read_zero_null h (Nat.le_antisymm (Nat.le_trans h.pos_le h.size_le) hge)] at hread
      cases hread
  · rcases Nat.lt_or_ge (s.m_size - s.m_position) n with hlong | hle
    · rw [read_error h hlong] at hread
      cases hread
    · obtain ⟨s₁, heq, _⟩ := read_after h hn hle
      rw [heq] at hread
      cases hread
      exact Window.length_window (by omega)

/-- When the first string is read, the rest decides. -/
theorem readStrings_cons {s s' : ByteArray} {c : StringCodec} {cs : List StringCodec}
    {bs : List UInt8} {bss : List (List UInt8)} (hread : c.read s = .ok (bs, s')) :
    (∃ s'', s.readStrings (c :: cs) = .ok (bs :: bss, s'')) ↔
      ∃ s'', s'.readStrings cs = .ok (bss, s'') := by
  have heq : s.readStrings (c :: cs) =
      (s'.readStrings cs >>= fun r => .ok (bs :: r.1, r.2)) := by
    rw [readStrings, hread]
    rfl
  rw [heq]
  cases s'.readStrings cs with
  | error fault => simp [bind, Except.bind]
  | ok r => simp [bind, Except.bind, Prod.ext_iff]

/-- The first string read is the first result. -/
theorem read_of_readStrings {s s' : ByteArray} {c : StringCodec} {cs : List StringCodec}
    {bs : List UInt8} {bss : List (List UInt8)}
    (hread : s.readStrings (c :: cs) = .ok (bs :: bss, s')) :
    ∃ s₁, c.read s = .ok (bs, s₁) := by
  rw [readStrings] at hread
  cases hc : c.read s with
  | error fault =>
      rw [hc] at hread
      cases hread
  | ok r =>
      rw [hc] at hread
      obtain ⟨bs', s₁⟩ := r
      cases hrest : s₁.readStrings cs with
      | error fault =>
          simp [bind, Except.bind, hrest] at hread
      | ok r' =>
          simp only [bind, Except.bind, hrest, Except.ok.injEq, Prod.mk.injEq,
            List.cons.injEq] at hread
          exact ⟨s₁, by rw [hread.1.1]⟩

/-- When its length fits, a string in front is read, an empty one only before the capacity. -/
theorem read_entry {s : ByteArray} (h : s.Inv) (put : StringPut) {rest : List UInt8}
    (hunread : s.unread =
      put.codec.lengthBytes s.m_endian put.value.size ++ (put.value.bytes ++ rest))
    (hfit : put.codec.stored put.value.size = put.value.size)
    (hplace : ¬(put.value.bytes = [] ∧
      s.m_position + (put.codec.lengthBytes s.m_endian put.value.size).length = s.m_capacity)) :
    ∃ s', put.codec.read s = .ok (put.value.bytes, s') ∧
      Consumed s s' ((put.codec.lengthBytes s.m_endian put.value.size).length +
        put.value.bytes.length) ∧ s'.m_endian = s.m_endian := by
  obtain ⟨s₁, (hlength : put.codec.readLength s = _), hc, he⟩ :=
    put.codec.reads_readLength s.m_endian put.value.size s _ h rfl hunread
  have hread : put.codec.read s = s₁.read put.value.size := by
    rw [StringCodec.read_eq, hlength, hfit]
    rfl
  by_cases hempty : put.value.bytes = []
  · have hsize : put.value.size = 0 := by rw [StdString.size, hempty, List.length_nil]
    have hlt : s₁.m_position < s₁.m_capacity := by
      refine Nat.lt_of_le_of_ne (Nat.le_trans hc.inv.pos_le hc.inv.size_le) fun hfull => ?_
      rw [hc.position, hc.capacity] at hfull
      exact hplace ⟨hempty, hfull⟩
    refine ⟨s₁, ?_, ?_, he⟩
    · rw [hread, hsize, read_zero hc.inv hlt, hempty]
    · rw [hempty]
      exact hc
  · have hunread₁ : s₁.unread = put.value.bytes ++ rest := by
      rw [hc.unread, hunread, List.drop_left' rfl]
    obtain ⟨s₂, hfirst, hc₂, he₂⟩ := read_consumed hc.inv hempty hunread₁
    exact ⟨s₂, hread.trans hfirst, hc.trans hc₂, he₂.trans he⟩

/-- And only then. -/
theorem fits_of_read {s s' : ByteArray} (h : s.Inv) {put : StringPut} {rest : List UInt8}
    (hunread : s.unread =
      put.codec.lengthBytes s.m_endian put.value.size ++ (put.value.bytes ++ rest))
    (hfirst : put.codec.read s = .ok (put.value.bytes, s')) :
    put.codec.stored put.value.size = put.value.size ∧
      ¬(put.value.bytes = [] ∧
        s.m_position + (put.codec.lengthBytes s.m_endian put.value.size).length =
          s.m_capacity) := by
  obtain ⟨s₁, (hlength : put.codec.readLength s = _), hc, _⟩ :=
    put.codec.reads_readLength s.m_endian put.value.size s _ h rfl hunread
  have hread : put.codec.read s = s₁.read (put.codec.stored put.value.size) := by
    rw [StringCodec.read_eq, hlength]
    rfl
  rw [hread] at hfirst
  have hfit : put.codec.stored put.value.size = put.value.size :=
    (length_of_read hc.inv hfirst).symm
  refine ⟨hfit, ?_⟩
  rintro ⟨hempty, hfull⟩
  have hsize : put.value.size = 0 := by rw [StdString.size, hempty, List.length_nil]
  rw [← hc.position, ← hc.capacity] at hfull
  rw [hfit, hsize, read_zero_null hc.inv hfull] at hfirst
  cases hfirst

/-- Nothing is encoded past the capacity. -/
theorem encodeStrings_full {s : ByteArray} (h : s.Inv) {e : Endian} {puts : List StringPut}
    {first rest : List UInt8} (hunread : s.unread = first ++ (encodeStrings e puts ++ rest))
    (hfull : s.m_position + first.length = s.m_capacity) : puts = [] := by
  have hlen := h.length_unread
  have hsize := h.size_le
  rw [hunread, List.length_append, List.length_append] at hlen
  cases puts with
  | nil => rfl
  | cons put puts =>
      have hpos := List.length_pos_iff.mpr (put.codec.lengthBytes_ne_nil e put.value.size)
      rw [encodeStrings, List.length_append, List.length_append] at hlen
      omega

/-- Over the bytes of a list of strings the readers give the strings exactly when every
length fits and no empty string ends the list at the end of the capacity. -/
theorem readStrings_iff {s : ByteArray} (h : s.Inv) (puts : List StringPut)
    {rest : List UInt8} (hunread : s.unread = encodeStrings s.m_endian puts ++ rest) :
    (∃ s', s.readStrings (puts.map (·.codec)) = .ok (puts.map (·.value.bytes), s')) ↔
      LengthsFit puts ∧
        ¬(EndsEmpty puts ∧
          s.m_position + (encodeStrings s.m_endian puts).length = s.m_capacity) := by
  induction puts generalizing s with
  | nil =>
      have hfit : LengthsFit [] := by
        intro put hput
        cases hput
      have hne : ¬EndsEmpty [] := by
        rintro ⟨put, hput, _⟩
        cases hput
      exact ⟨fun _ => ⟨hfit, fun hend => hne hend.1⟩, fun _ => ⟨s, rfl⟩⟩
  | cons put puts ih =>
      rw [encodeStrings, List.append_assoc, List.append_assoc] at hunread
      have hsum : (encodeStrings s.m_endian (put :: puts)).length =
          (put.codec.lengthBytes s.m_endian put.value.size).length + put.value.bytes.length +
            (encodeStrings s.m_endian puts).length := by
        rw [encodeStrings, List.length_append, List.length_append, Nat.add_assoc]
      rw [List.map_cons, List.map_cons, lengthsFit_cons, endsEmpty_cons]
      by_cases hentry : put.codec.stored put.value.size = put.value.size ∧
          ¬(put.value.bytes = [] ∧
            s.m_position + (put.codec.lengthBytes s.m_endian put.value.size).length =
              s.m_capacity)
      · obtain ⟨s₁, hfirst, hc, he⟩ := read_entry h put hunread hentry.1 hentry.2
        have hunread₁ : s₁.unread = encodeStrings s₁.m_endian puts ++ rest := by
          rw [hc.unread, hunread, he, ← List.append_assoc, List.drop_left' List.length_append]
        rw [readStrings_cons hfirst, ih hc.inv hunread₁, hc.position, hc.capacity, he, hsum,
          Nat.add_assoc]
        refine and_congr (by simp [hentry.1]) (not_congr (and_congr_left fun hend => ?_))
        -- an empty string read in front does not end the list at the capacity
        refine ⟨Or.inr, fun hlast => ?_⟩
        rcases hlast with ⟨rfl, hempty⟩ | hlast
        · rw [hempty] at hend
          exact absurd ⟨hempty, hend⟩ hentry.2
        · exact hlast
      · constructor
        · rintro ⟨s', hstrings⟩
          obtain ⟨s₁, hfirst⟩ := read_of_readStrings hstrings
          exact absurd (fits_of_read h hunread hfirst) hentry
        · rintro ⟨⟨hfit, _⟩, hend⟩
          obtain ⟨hempty, hfull⟩ := not_not.mp fun hplace => hentry ⟨hfit, hplace⟩
          rw [hempty, List.nil_append] at hunread
          obtain rfl := encodeStrings_full h hunread hfull
          refine absurd ⟨Or.inl ⟨rfl, hempty⟩, ?_⟩ hend
          rw [hsum, hempty]
          exact hfull

/-! ## The round trip -/

/-- A length comes back exactly when it fits the type of its codec. -/
theorem StringCodec.stored_eq_iff (c : StringCodec) {size : Nat} (hsize : size < UInt64.size) :
    c.stored size = size ↔ (c = .f16 → size < UInt16.size) ∧ (c = .f32 → size < UInt32.size) := by
  constructor
  · intro hstored
    refine ⟨?_, ?_⟩
    · rintro rfl
      rw [← hstored]
      exact (UInt16.ofNat size).toNat_lt
    · rintro rfl
      rw [← hstored]
      exact (UInt32.ofNat size).toNat_lt
  · rintro ⟨h16, h32⟩
    exact stored_eq_of_lt hsize h16 h32

/-- Only `writeStringF16` and `writeStringF32` can lose a length. -/
theorem lengthsFit_iff {puts : List StringPut}
    (h16 : ∀ put ∈ puts, put.codec = .f16 → put.value.size < UInt16.size) :
    LengthsFit puts ↔ ∀ put ∈ puts, put.codec = .f32 → put.value.size < UInt32.size := by
  refine forall₂_congr fun put hput => ?_
  have hlt : put.value.size < UInt64.size := put.value.size_lt
  rw [put.codec.stored_eq_iff hlt]
  exact and_iff_right (h16 put hput)

/-- The bytes written end with the capacity exactly when they fill whole blocks and reach
the end of the capacity there was. -/
theorem Written.full_iff {s s' : ByteArray} {bytes : List UInt8} (hw : Written s s' bytes) :
    s'.m_position = s'.m_capacity ↔
      s.m_baseSize ∣ s.m_position + bytes.length ∧ s.m_capacity ≤ s.m_position + bytes.length := by
  have hpos := hw.position
  have hle := Nat.le_trans hw.inv.pos_le hw.inv.size_le
  constructor
  · intro hfull
    rw [← hpos, hfull]
    refine ⟨⟨s'.m_root.length, ?_⟩, hw.capacity_le⟩
    rw [← hw.base]
    exact hw.inv.capacity
  · rintro ⟨hdvd, hcap⟩
    rw [← hpos] at hdvd hcap
    exact Nat.le_antisymm hle (hw.capacity_least _ hdvd hcap (Nat.le_refl _))

/-- Setting the cursor back and reading gives the strings written, without reading through a
null pointer, exactly when no string of `writeStringF32` has 4 GiB or more and the list does
not end with an empty string whose length ends with the last block. -/
theorem strings_round_trip_iff {s : ByteArray} (h : s.Inv) (puts : List StringPut)
    (h16 : ∀ put ∈ puts, put.codec = .f16 → put.value.size < UInt16.size) :
    (∃ s₁ s₂ s₃, s.writeStrings puts = .ok s₁ ∧ s₁.setPosition s.m_position = .ok s₂ ∧
      s₂.readStrings (puts.map (·.codec)) = .ok (puts.map (·.value.bytes), s₃)) ↔
      (∀ put ∈ puts, put.codec = .f32 → put.value.size < UInt32.size) ∧
        ¬(EndsEmpty puts ∧ s.m_baseSize ∣ s.m_position + stringsSize puts ∧
          s.m_capacity ≤ s.m_position + stringsSize puts) := by
  obtain ⟨s₁, hwrite, hw, he⟩ := writeStrings_written h puts
  obtain ⟨s₂, rest, hset, hinv, hpos, hcap, hunread⟩ := hw.setPosition h
  have he₂ : s₂.m_endian = s.m_endian := (setPosition_keeps hset).1.trans he
  rw [← he₂] at hunread
  have hread := readStrings_iff hinv puts hunread
  rw [hpos, hcap, length_encodeStrings, ← length_encodeStrings s.m_endian puts,
    ← hw.position, hw.full_iff, length_encodeStrings, lengthsFit_iff h16] at hread
  rw [← hread]
  constructor
  · rintro ⟨t₁, t₂, s₃, hwrite', hset', hstrings⟩
    obtain rfl : s₁ = t₁ := Except.ok.inj (hwrite.symm.trans hwrite')
    obtain rfl : s₂ = t₂ := Except.ok.inj (hset.symm.trans hset')
    exact ⟨s₃, hstrings⟩
  · rintro ⟨s₃, hstrings⟩
    exact ⟨s₁, s₂, s₃, hwrite, hset, hstrings⟩

/-- A NUL and a letter, then nothing. -/
def nulAndEmpty : List StringPut :=
  [⟨.f16, ⟨[0, 97], by decide⟩, fun _ => 0, fun _ => 0⟩,
    ⟨.vint, ⟨[], by decide⟩, fun _ => 0, fun _ => 0⟩]

/-- In blocks of three bytes. -/
theorem strings_round_trip_iff_nul :
    ∃ s₁ s₂ s₃, (new (fun _ => 0) 3).writeStrings nulAndEmpty = .ok s₁ ∧
      s₁.setPosition (new (fun _ => 0) 3).m_position = .ok s₂ ∧
      s₂.readStrings [.f16, .vint] = .ok ([[0, 97], []], s₃) := by
  have hsize : stringsSize nulAndEmpty = 5 := by
    have hempty : varint 0 = [0] := by rw [varint_eq_groups, Words.groups_of_lt (by decide)]; rfl
    show 2 + 2 + ((varint 0).length + 0 + 0) = 5
    rw [hempty]
    rfl
  refine (strings_round_trip_iff (new_inv _ (by decide)) nulAndEmpty (by decide)).mpr
    ⟨by decide, ?_⟩
  rw [hsize]
  rintro ⟨_, hdvd, _⟩
  exact absurd hdvd (by decide)

/-- The empty string, written by `writeStringF16`. -/
def emptyString : StringPut := ⟨.f16, ⟨[], by decide⟩, fun _ => 0, fun _ => 0⟩

/-- In blocks of two bytes its length fills the block. -/
theorem not_round_trip_empty :
    ¬∀ (base_size : Nat) (mem : Nat → UInt8) (puts : List StringPut), 1 ≤ base_size →
      (∀ put ∈ puts, put.codec = .f16 → put.value.size < UInt16.size) →
      ∃ s₁ s₂ s₃, (new mem base_size).writeStrings puts = .ok s₁ ∧
        s₁.setPosition 0 = .ok s₂ ∧
        s₂.readStrings (puts.map (·.codec)) = .ok (puts.map (·.value.bytes), s₃) := by
  intro hround
  obtain ⟨s₁, s₂, s₃, hwrite, hset, hread⟩ :=
    hround 2 (fun _ => 0) [emptyString] (by decide) (by decide)
  have hwrite' : (new (fun _ => 0) 2).writeStrings [emptyString] =
      .ok { new (fun _ => 0) 2 with m_position := 2, m_size := 2, m_cur := none } := rfl
  cases hwrite.symm.trans hwrite'
  have hset' : ByteArray.setPosition
      { new (fun _ => 0) 2 with m_position := 2, m_size := 2, m_cur := none } 0 =
      .ok { new (fun _ => 0) 2 with m_size := 2 } := rfl
  cases hset.symm.trans hset'
  have hread' : readStrings { new (fun _ => 0) 2 with m_size := 2 } [.f16] = .error .nullCur := rfl
  cases hread.symm.trans hread'

end ByteArray

end Muqiu
