import Muqiu.Lib.Marked
import Muqiu.ByteArray.Numbers

/-!
# The variable-length codec

`writeUint32` and `writeUint64` fill an array `tmp` of five and ten bytes group by group, and
`readUint32` and `readUint64` shift the groups back into a word.  The two count differently: the
writer goes on while there is a value left, the reader while the shift is below the width.

Here the loops stand with what can go wrong in them: an index behind the end of `tmp`, a shift of
the width or more, and one round too many.  None of it happens, whatever the value and whatever is
read, and the loops are those of `varint` and `readVarint`.
-/

namespace Muqiu

open Words (groups Marked number)

namespace ByteArray

/-! ## The writer's loop -/

/-- `tmp` and `i`. -/
structure Scratch (cap : Nat) where
  tmp : Vector UInt8 cap
  i : UInt8

/-- Why a loop has no result. -/
inductive Undefined where
  /-- More rounds than expected. -/
  | rounds
  /-- An index outside `tmp`. -/
  | index
  /-- A shift by the width of the word or more. -/
  | shift

/-- `tmp[i++] = b`. -/
def Scratch.push {cap : Nat} (t : Scratch cap) (b : UInt8) : Except Undefined (Scratch cap) :=
  if h : t.i.toNat < cap then .ok ⟨t.tmp.set t.i.toNat b h, t.i + 1⟩ else .error .index

/-- The loop of `writeUint32` and `writeUint64` and the byte behind it, with so many tests of the
condition at most. -/
def encodeLoop {cap : Nat} : Nat → Nat → Scratch cap → Except Undefined (Scratch cap)
  | 0, _, _ => .error .rounds
  | tests + 1, value, t =>
      if value ≥ 0x80 then do
        let t ← t.push (UInt8.ofNat ((value &&& 0x7F) ||| 0x80))
        encodeLoop tests (value >>> 7) t
      else t.push (UInt8.ofNat value)

/-- The `i` bytes that `write(tmp, i)` takes. -/
def Scratch.bytes {cap : Nat} (t : Scratch cap) : List UInt8 := t.tmp.toList.take t.i.toNat

/-- A byte more, while there is room. -/
theorem Scratch.push_eq {cap : Nat} {t : Scratch cap} (h : t.i.toNat < cap) (hcap : cap < 256)
    (b : UInt8) :
    ∃ t', t.push b = .ok t' ∧ t'.i.toNat = t.i.toNat + 1 ∧ t'.bytes = t.bytes ++ [b] := by
  have hi : (t.i + 1).toNat = t.i.toNat + 1 := by
    rw [UInt8.toNat_add]
    exact Nat.mod_eq_of_lt (by show t.i.toNat + 1 < 256; omega)
  refine ⟨⟨t.tmp.set t.i.toNat b h, t.i + 1⟩, dif_pos h, hi, ?_⟩
  have hlen : t.i.toNat < t.tmp.toList.length := by
    rw [Vector.length_toList]
    exact h
  rw [bytes, bytes, hi, Vector.toList_set, List.take_add_one, List.getElem?_set_self hlen,
    List.take_set_of_le (Nat.le_refl _)]
  rfl

/-- The loop stays in `tmp` and puts the groups there, if there is room for them. -/
theorem encodeLoop_eq {cap tests v : Nat} {t : Scratch cap} (hcap : cap < 256)
    (hroom : t.i.toNat + (varint v).length ≤ cap) (htests : (varint v).length ≤ tests) :
    ∃ t', encodeLoop tests v t = .ok t' ∧
      t'.i.toNat = t.i.toNat + (varint v).length ∧ t'.bytes = t.bytes ++ varint v := by
  induction tests generalizing v t with
  | zero =>
      have hpos := List.length_pos_iff.mpr (Words.groups_ne_nil v)
      rw [varint_eq_groups] at htests
      omega
  | succ tests ih =>
      rw [encodeLoop]
      by_cases hge : v ≥ 0x80
      · have hgroups : varint v =
            UInt8.ofNat ((v &&& 0x7F) ||| 0x80) :: varint (v >>> 7) := by
          rw [varint, if_pos hge]
        rw [hgroups, List.length_cons] at hroom htests
        obtain ⟨t₁, hpush, hi, hbytes⟩ := Scratch.push_eq (t := t) (by omega) hcap
          (UInt8.ofNat ((v &&& 0x7F) ||| 0x80))
        obtain ⟨t₂, hloop, hi₂, hbytes₂⟩ := ih (v := v >>> 7) (t := t₁)
          (by omega) (by omega)
        refine ⟨t₂, ?_, ?_, ?_⟩
        · rw [if_pos hge, hpush]
          exact hloop
        · rw [hi₂, hi, hgroups, List.length_cons]
          omega
        · rw [hbytes₂, hbytes, hgroups, List.append_assoc]
          rfl
      · have hgroups : varint v = [UInt8.ofNat v] := by rw [varint, if_neg hge]
        rw [hgroups, List.length_singleton] at hroom
        obtain ⟨t₁, hpush, hi, hbytes⟩ := Scratch.push_eq (t := t) (by omega) hcap
          (UInt8.ofNat v)
        exact ⟨t₁, (if_neg hge).trans hpush, by rw [hi, hgroups]; rfl, by rw [hbytes, hgroups]⟩

/-! ## The reader's loop -/

/-- `x << i` in words of `w` bits. -/
def shiftLeft (w x i : Nat) : Except Undefined Nat :=
  if i < w then .ok ((x <<< i) % 2 ^ w) else .error .shift

/-- The loop of `readUint32` and `readUint64`, with so many tests of the condition at most. -/
def decodeLoop (w : Nat) :
    Nat → Nat → Nat → ByteArray → Except Undefined (Except Fault (Nat × ByteArray))
  | 0, _, _, _ => .error .rounds
  | tests + 1, i, result, s =>
      if i < w then
        match s.readFuint8 with
        | .error e => .ok (.error e)
        | .ok (b, s) =>
            if b < 0x80 then do
              let x ← shiftLeft w b.toNat i
              .ok (.ok (result ||| x, s))
            else do
              let x ← shiftLeft w (b.toNat &&& 0x7f) i
              decodeLoop w tests (i + 7) (result ||| x) s
      else .ok (.ok (result, s))

theorem or_shiftLeft_mod {w result : Nat} (h : result < 2 ^ w) (x i : Nat) :
    result ||| ((x <<< i) % 2 ^ w) = (result ||| x <<< i) % 2 ^ w := by
  rw [Nat.or_mod_two_pow, Nat.mod_eq_of_lt h]

/-- It ends after as many rounds as there are shifts below the width, and shifts by those only. -/
theorem decodeLoop_eq {w rounds i result : Nat} {s : ByteArray} (hlow : w ≤ i + 7 * rounds)
    (hhigh : i + 7 * rounds < w + 7) (hresult : result < 2 ^ w) :
    decodeLoop w (rounds + 1) i result s = .ok (readVarint w rounds i result s) := by
  induction rounds generalizing i result s with
  | zero => rw [decodeLoop, if_neg (by omega), readVarint]
  | succ rounds ih =>
      have hi : i < w := by omega
      have hround : ∀ x, result ||| ((x <<< i) % 2 ^ w) = (result ||| x <<< i) % 2 ^ w :=
        fun x => or_shiftLeft_mod hresult x i
      rw [decodeLoop, if_pos hi, readVarint]
      simp only [shiftLeft, if_pos hi]
      cases s.readFuint8 with
      | error e => rfl
      | ok r =>
          show (if r.1 < 0x80 then _ else _) = Except.ok (if r.1 < 0x80 then _ else _)
          split
          next => rw [← hround]; rfl
          next =>
            have hrest := ih (s := r.2) (i := i + 7) (by omega) (by omega)
              (Nat.mod_lt (result ||| (r.1.toNat &&& 0x7f) <<< i) (Nat.two_pow_pos w))
            rw [← hround] at hrest ⊢
            exact hrest

/-! ## The two widths -/

/-- `writeUint32` with `readUint32`, and `writeUint64` with `readUint64`. -/
inductive Width where
  | uint32
  | uint64
deriving DecidableEq, Repr

namespace Width

/-- The type of the numbers. -/
def Word : Width → Type
  | uint32 => UInt32
  | uint64 => UInt64

/-- How many bits they have. -/
def bits : Width → Nat
  | uint32 => 32
  | uint64 => 64

/-- The length of `tmp`. -/
def cap : Width → Nat
  | uint32 => 5
  | uint64 => 10

/-- The value of a number. -/
def toNat : (w : Width) → w.Word → Nat
  | uint32, (v : UInt32) => v.toNat
  | uint64, (v : UInt64) => v.toNat

/-- The number of a value, which is cut to the width. -/
def word : (w : Width) → Nat → w.Word
  | uint32, n => UInt32.ofNat n
  | uint64, n => UInt64.ofNat n

/-- `writeUint32` or `writeUint64` -/
def write (mem : Nat → UInt8) (s : ByteArray) : (w : Width) → w.Word → Except Fault ByteArray
  | uint32, (v : UInt32) => s.writeUint32 mem v
  | uint64, (v : UInt64) => s.writeUint64 mem v

/-- `readUint32` or `readUint64` -/
def read (s : ByteArray) : (w : Width) → Except Fault (w.Word × ByteArray)
  | uint32 => s.readUint32
  | uint64 => s.readUint64

/-- What the writer leaves in its array, whose bytes are anything at first. -/
def encode (w : Width) (tmp : Vector UInt8 w.cap) (value : w.Word) :
    Except Undefined (Scratch w.cap) :=
  encodeLoop w.cap (w.toNat value) ⟨tmp, 0⟩

/-- The reader with the shifts of the source, which are undefined from the width on. -/
def decode (w : Width) (s : ByteArray) : Except Undefined (Except Fault (w.Word × ByteArray)) :=
  (decodeLoop w.bits (w.cap + 1) 0 0 s).map fun r => r.map fun p => (w.word p.1, p.2)

theorem write_eq (mem : Nat → UInt8) (s : ByteArray) (w : Width) (value : w.Word) :
    write mem s w value = s.write mem (varint (w.toNat value)) := by
  cases w with
  | uint32 => rfl
  | uint64 => rfl

theorem length_varint (w : Width) (value : w.Word) :
    (varint (w.toNat value)).length ≤ w.cap := by
  cases w with
  | uint32 => exact length_varint_uint32 value
  | uint64 => exact length_varint_uint64 value

/-- The writer's loop ends within its array, with the groups in it. -/
theorem encode_eq (w : Width) (tmp : Vector UInt8 w.cap) (value : w.Word) :
    ∃ t, w.encode tmp value = .ok t ∧ t.i.toNat = t.bytes.length ∧
      t.bytes = varint (w.toNat value) := by
  have hcap : w.cap < 256 := by
    cases w with
    | uint32 => decide
    | uint64 => decide
  have hlen := w.length_varint value
  have hroom : (⟨tmp, 0⟩ : Scratch w.cap).i.toNat + (varint (w.toNat value)).length ≤ w.cap :=
    (Nat.zero_add _).symm ▸ hlen
  obtain ⟨t, hloop, hi, hbytes⟩ := encodeLoop_eq (t := ⟨tmp, 0⟩) hcap hroom hlen
  have hgroups : t.bytes = varint (w.toNat value) := hbytes
  refine ⟨t, hloop, ?_, hgroups⟩
  rw [hi, hgroups]
  exact Nat.zero_add _

/-- The reader's loop ends, shifts by less than the width, and is the one of the model. -/
theorem decode_eq (w : Width) (s : ByteArray) : w.decode s = .ok (read s w) := by
  cases w with
  | uint32 =>
      have hloop : decodeLoop 32 6 0 0 s = .ok (readVarint 32 5 0 0 s) :=
        decodeLoop_eq (by decide) (by decide) (by decide)
      show (decodeLoop 32 6 0 0 s).map _ = _
      rw [hloop]
      rfl
  | uint64 =>
      have hloop : decodeLoop 64 11 0 0 s = .ok (readVarint 64 10 0 0 s) :=
        decodeLoop_eq (by decide) (by decide) (Nat.two_pow_pos 64)
      show (decodeLoop 64 11 0 0 s).map _ = _
      rw [hloop]
      rfl

theorem reads_varint (e : Endian) (w : Width) (value : w.Word) :
    Reads e (fun s => read s w) (varint (w.toNat value)) value := by
  cases w with
  | uint32 => exact Codec.reads_readUint32 e value
  | uint64 => exact Codec.reads_readUint64 e value

/-- What `t` is to `value` when the loop of `writeUint32` or `writeUint64` leaves `t`. -/
structure Encodes (w : Width) (value : w.Word) (t : Scratch w.cap) : Prop where
  length : t.i.toNat = t.bytes.length
  least : 1 ≤ t.i.toNat
  most : t.i.toNat ≤ w.cap
  marked : Marked t.bytes
  number_eq : number t.bytes = w.toNat value
  /-- Any other form of the value is longer. -/
  minimal : ∀ bs, Marked bs → number bs = w.toNat value →
    bs = t.bytes ∨ t.bytes.length < bs.length
  written : ∀ mem s, write mem s w value = s.write mem t.bytes
  /-- In front of anything, it is read and nothing more is. -/
  read_back : ∀ s rest, s.Inv → s.unread = t.bytes ++ rest →
    ∃ s', read s w = .ok (value, s') ∧ s'.m_position = s.m_position + t.bytes.length ∧
      s'.unread = rest

theorem encodes_of_eq {w : Width} {value : w.Word} {t : Scratch w.cap}
    (hlen : t.i.toNat = t.bytes.length) (hbytes : t.bytes = varint (w.toNat value)) :
    w.Encodes value t where
  length := hlen
  least := by
    rw [hlen, hbytes, varint_eq_groups]
    exact List.length_pos_iff.mpr (Words.groups_ne_nil _)
  most := by
    rw [hlen, hbytes]
    exact w.length_varint value
  marked := by
    rw [hbytes, varint_eq_groups]
    exact Words.marked_groups _
  number_eq := by rw [hbytes, varint_eq_groups, Words.number_groups]
  minimal := by
    intro bs hmarked hnumber
    rw [hbytes, varint_eq_groups, ← hnumber]
    exact hmarked.eq_groups_or_longer
  written := by
    intro mem s
    rw [write_eq, hbytes]
  read_back := by
    intro s rest hinv hunread
    rw [hbytes] at hunread
    obtain ⟨s', hread, hc, -⟩ := w.reads_varint s.m_endian value s rest hinv rfl hunread
    refine ⟨s', hread, ?_, ?_⟩
    · rw [hc.position, hbytes]
    · rw [hc.unread, hunread, List.drop_left]

end Width

/-- The variable-length codec of either width: the writer's loop ends in its array with the one
shortest form of the value, no form begins another one, and the reader's loop, which ends and shifts
by less than the width whatever it reads, takes that form for the value. -/
theorem varint_coding (w : Width) :
    (∀ tmp value, ∃ t, w.encode tmp value = .ok t ∧ w.Encodes value t) ∧
    (∀ tmp tmp' value value' t t', w.encode tmp value = .ok t → w.encode tmp' value' = .ok t' →
      t.bytes <+: t'.bytes → t.bytes = t'.bytes) ∧
    ∀ s, w.decode s = .ok (w.read s) := by
  refine ⟨?_, ?_, w.decode_eq⟩
  · intro tmp value
    obtain ⟨t, henc, hlen, hbytes⟩ := w.encode_eq tmp value
    exact ⟨t, henc, Width.encodes_of_eq hlen hbytes⟩
  · intro tmp tmp' value value' t t' henc henc' hprefix
    obtain ⟨u, hu, hlen, hbytes⟩ := w.encode_eq tmp value
    obtain ⟨u', hu', hlen', hbytes'⟩ := w.encode_eq tmp' value'
    cases henc.symm.trans hu
    cases henc'.symm.trans hu'
    exact (Width.encodes_of_eq hlen hbytes).marked.eq_of_prefix
      (Width.encodes_of_eq hlen' hbytes').marked hprefix

end ByteArray

end Muqiu
