import Muqiu.Lib.Attempt
import Muqiu.ByteArray.Strings

/-!
# Reads that fail

The header says of every read function that it throws `std::out_of_range` when fewer bytes are
readable than the value takes.  `read` throws before it assigns anything, so a function that
calls it once leaves the buffer as it was.  The functions of variable length read byte by byte,
and the string functions read the length first and ask for a buffer of that length before they
look for the bytes.  So they leave the buffer as it was only when already their first `read`
throws.

`front` is what stands at the front of some bytes, or `none` when they end before it does.
-/

namespace Muqiu

namespace ByteArray

/-! ## The read functions, with the state they leave -/

/-- How a read function ends without a value. -/
inductive Thrown where
  | fault (f : Fault)
  /-- `resize` throws `std::length_error` or `std::bad_alloc`. -/
  | resize
deriving DecidableEq, Repr

/-- `throw std::out_of_range("not enough len")` -/
def notEnough : Thrown := .fault (.outOfRange "not enough len")

/-- What a read function leaves.  The log holds the sizes of the buffers it asked for. -/
abbrev Call (α : Type) := Attempt Thrown ByteArray Nat α

/-- A function that calls `read` once. -/
def once {α : Type} (reader : ByteArray → Except Fault (α × ByteArray)) (s : ByteArray) : Call α :=
  Attempt.once .fault reader s

/-- The loop of `readUint32` and `readUint64`. -/
def tryVarint (w : Nat) : Nat → Nat → Nat → ByteArray → Call Nat
  | 0, _, result, s => .ok result s
  | rounds + 1, i, result, s =>
      (once readFuint8 s).bind fun b s =>
        if b < 0x80 then .ok ((result ||| b.toNat <<< i) % 2 ^ w) s
        else tryVarint w rounds (i + 7) ((result ||| (b.toNat &&& 0x7f) <<< i) % 2 ^ w) s

/-- `buff.resize(len)`, for an allocator that grants some sizes. -/
def resize (grants : Nat → Bool) (len : Nat) (s : ByteArray) : Call Unit :=
  ⟨if grants len then .ok () else .error .resize, s, [len]⟩

namespace Codec

/-- A call of a reader of numbers, with the state it leaves when it throws. -/
def attempt (s : ByteArray) : (c : Codec) → Call c.Value
  | .fint8 => once readFint8 s
  | .fuint8 => once readFuint8 s
  | .fint16 => once readFint16 s
  | .fuint16 => once readFuint16 s
  | .fint32 => once readFint32 s
  | .fuint32 => once readFuint32 s
  | .fint64 => once readFint64 s
  | .fuint64 => once readFuint64 s
  | .int32 => (tryVarint 32 5 0 0 s).map fun n => DecodeZigzag32 (UInt32.ofNat n)
  | .uint32 => (tryVarint 32 5 0 0 s).map UInt32.ofNat
  | .int64 => (tryVarint 64 10 0 0 s).map fun n => DecodeZigzag64 (UInt64.ofNat n)
  | .uint64 => (tryVarint 64 10 0 0 s).map UInt64.ofNat
  | .float => once readFloat s
  | .double => once readDouble s

end Codec

namespace StringCodec

/-- The call that reads the length of a string. -/
def attemptLength (s : ByteArray) : StringCodec → Call Nat
  | .f16 => (Codec.attempt s .fuint16).map UInt16.toNat
  | .f32 => (Codec.attempt s .fuint32).map UInt32.toNat
  | .f64 => (Codec.attempt s .fuint64).map UInt64.toNat
  | .vint => (Codec.attempt s .uint64).map UInt64.toNat

/-- A call of a reader of strings: the length, the buffer for the bytes, and the bytes. -/
def attempt (grants : Nat → Bool) (s : ByteArray) (c : StringCodec) : Call (List UInt8) :=
  (c.attemptLength s).bind fun len s =>
    (resize grants len s).bind fun _ s => once (fun s => s.read len) s

end StringCodec

/-! ## They read what the readers read -/

theorem mapError_bind {ε ε' α β : Type} (lift : ε → ε') (x : Except ε α) (f : α → Except ε β) :
    (x >>= f).mapError lift = x.mapError lift >>= fun a => (f a).mapError lift := by
  cases x with
  | error e => rfl
  | ok a => rfl

theorem mapError_map {ε ε' α β : Type} (lift : ε → ε') (f : α → β) (x : Except ε α) :
    (x.map f).mapError lift = (x.mapError lift).map f := by
  cases x with
  | error e => rfl
  | ok a => rfl

theorem toExcept_tryVarint (w : Nat) : ∀ (rounds i result : Nat) (s : ByteArray),
    (tryVarint w rounds i result s).toExcept = (readVarint w rounds i result s).mapError .fault
  | 0, _, _, _ => rfl
  | rounds + 1, i, result, s => by
      rw [readVarint_succ, mapError_bind, tryVarint, Attempt.toExcept_bind, once,
        Attempt.toExcept_once]
      congr 1
      funext r
      split
      · rfl
      · exact toExcept_tryVarint w rounds _ _ r.2

namespace Codec

/-- But for the state of a function that throws, these are the functions of `Codec.read`. -/
theorem toExcept_attempt (s : ByteArray) (c : Codec) :
    (c.attempt s).toExcept = (c.read s).mapError .fault := by
  cases c with
  | fint8 => exact Attempt.toExcept_once _ _ s
  | fuint8 => exact Attempt.toExcept_once _ _ s
  | fint16 => exact Attempt.toExcept_once _ _ s
  | fuint16 => exact Attempt.toExcept_once _ _ s
  | fint32 => exact Attempt.toExcept_once _ _ s
  | fuint32 => exact Attempt.toExcept_once _ _ s
  | fint64 => exact Attempt.toExcept_once _ _ s
  | fuint64 => exact Attempt.toExcept_once _ _ s
  | int32 =>
      rw [attempt, Attempt.toExcept_map, toExcept_tryVarint, ← mapError_map, read, readInt32,
        readUint32]
      cases readVarint 32 5 0 0 s <;> rfl
  | uint32 =>
      rw [attempt, Attempt.toExcept_map, toExcept_tryVarint, ← mapError_map, read, readUint32]
  | int64 =>
      rw [attempt, Attempt.toExcept_map, toExcept_tryVarint, ← mapError_map, read, readInt64,
        readUint64]
      cases readVarint 64 10 0 0 s <;> rfl
  | uint64 =>
      rw [attempt, Attempt.toExcept_map, toExcept_tryVarint, ← mapError_map, read, readUint64]
  | float => exact Attempt.toExcept_once _ _ s
  | double => exact Attempt.toExcept_once _ _ s

end Codec

namespace StringCodec

theorem toExcept_attemptLength (s : ByteArray) (c : StringCodec) :
    (c.attemptLength s).toExcept = (c.readLength s).mapError .fault := by
  cases c with
  | f16 => rw [attemptLength, Attempt.toExcept_map, Codec.toExcept_attempt, ← mapError_map,
      Codec.read, readLength]
  | f32 => rw [attemptLength, Attempt.toExcept_map, Codec.toExcept_attempt, ← mapError_map,
      Codec.read, readLength]
  | f64 => rw [attemptLength, Attempt.toExcept_map, Codec.toExcept_attempt, ← mapError_map,
      Codec.read, readLength]
  | vint => rw [attemptLength, Attempt.toExcept_map, Codec.toExcept_attempt, ← mapError_map,
      Codec.read, readLength]

/-- With an allocator that grants every size these are the functions of `StringCodec.read`. -/
theorem toExcept_attempt (s : ByteArray) (c : StringCodec) :
    (c.attempt (fun _ => true) s).toExcept = (c.read s).mapError .fault := by
  rw [read_eq, mapError_bind, attempt, Attempt.toExcept_bind, toExcept_attemptLength]
  congr 1
  funext r
  rw [Attempt.toExcept_bind]
  exact Attempt.toExcept_once Thrown.fault (fun s => s.read r.1) r.2

end StringCodec

/-! ## What stands at the front of some bytes -/

/-- The number some bytes hold in byte order `e`. -/
def unfixed (e : Endian) (bytes : List UInt8) : Nat :=
  match e with
  | .little => Words.toNat bytes
  | .big => Words.toNat bytes.reverse

/-- The number in the first `k` bytes. -/
def fixedFront (k : Nat) (e : Endian) (bytes : List UInt8) : Option (Nat × Nat) :=
  if bytes.length < k then none else some (unfixed e (bytes.take k), k)

/-- The number in the groups of seven bits, as a word of `w` bits. -/
def varintFront (w rounds : Nat) (bytes : List UInt8) : Option (Nat × Nat) :=
  (Words.ungroup rounds bytes).map fun r => (r.1 % 2 ^ w, r.2)

/-- The value found, and the number of its bytes. -/
def found {α β : Type} (f : α → β) (r : Option (α × Nat)) : Option (β × Nat) :=
  r.map fun r => (f r.1, r.2)

namespace Codec

/-- The number at the front of some bytes, and how many of them it takes. -/
def front (e : Endian) (bytes : List UInt8) : (c : Codec) → Option (c.Value × Nat)
  | .fint8 => found (fun n => (UInt8.ofNat n).toInt8) (fixedFront 1 e bytes)
  | .fuint8 => found UInt8.ofNat (fixedFront 1 e bytes)
  | .fint16 => found (fun n => (UInt16.ofNat n).toInt16) (fixedFront 2 e bytes)
  | .fuint16 => found UInt16.ofNat (fixedFront 2 e bytes)
  | .fint32 => found (fun n => (UInt32.ofNat n).toInt32) (fixedFront 4 e bytes)
  | .fuint32 => found UInt32.ofNat (fixedFront 4 e bytes)
  | .fint64 => found (fun n => (UInt64.ofNat n).toInt64) (fixedFront 8 e bytes)
  | .fuint64 => found UInt64.ofNat (fixedFront 8 e bytes)
  | .int32 => found (fun n => DecodeZigzag32 (UInt32.ofNat n)) (varintFront 32 5 bytes)
  | .uint32 => found UInt32.ofNat (varintFront 32 5 bytes)
  | .int64 => found (fun n => DecodeZigzag64 (UInt64.ofNat n)) (varintFront 64 10 bytes)
  | .uint64 => found UInt64.ofNat (varintFront 64 10 bytes)
  | .float => found UInt32.ofNat (fixedFront 4 e bytes)
  | .double => found UInt64.ofNat (fixedFront 8 e bytes)

/-- How many bytes the first `read` asks for. -/
def firstRead : Codec → Nat
  | .fint16 | .fuint16 => 2
  | .fint32 | .fuint32 | .float => 4
  | .fint64 | .fuint64 | .double => 8
  | .fint8 | .fuint8 | .int32 | .uint32 | .int64 | .uint64 => 1

end Codec

namespace StringCodec

/-- The length at the front. -/
def lengthFront (e : Endian) (bytes : List UInt8) : StringCodec → Option (Nat × Nat)
  | .f16 => found UInt16.toNat (Codec.front e bytes .fuint16)
  | .f32 => found UInt32.toNat (Codec.front e bytes .fuint32)
  | .f64 => found UInt64.toNat (Codec.front e bytes .fuint64)
  | .vint => found UInt64.toNat (Codec.front e bytes .uint64)

/-- How many bytes the first `read` of the length asks for. -/
def firstRead : StringCodec → Nat
  | .f16 => 2
  | .f32 => 4
  | .f64 => 8
  | .vint => 1

end StringCodec

/-! ## What the functions leave -/

theorem size_fixedFront {α β : Type} {f : α → β} {g : Nat → α} {k n : Nat} {e : Endian}
    {bytes : List UInt8} {v : β} (h : found f (found g (fixedFront k e bytes)) = some (v, n)) :
    k = n := by
  rw [fixedFront] at h
  split at h
  · cases h
  · cases h
    rfl

/-- From `s` the function finds what `r` says and takes its bytes.  Without anything to find it
throws `out_of_range`, and has taken no byte exactly when fewer than `first` are readable. -/
def Takes {α : Type} (first : Nat) (s : ByteArray) (x : Call α) : Option (α × Nat) → Prop
  | some (v, n) => ∃ s', x = .ok v s' ∧ Consumed s s' n ∧ s'.m_endian = s.m_endian
  | none => ∃ s' n, x = .throw notEnough s' ∧ Consumed s s' n ∧
      (n = 0 ↔ s.m_size - s.m_position < first) ∧ (n = 0 → s' = s)

theorem Takes.map {α β : Type} {first : Nat} {s : ByteArray} {x : Call α} {r : Option (α × Nat)}
    (h : Takes first s x r) (f : α → β) : Takes first s (x.map f) (found f r) := by
  cases r with
  | some r =>
      obtain ⟨s', rfl, hc⟩ := h
      exact ⟨s', rfl, hc⟩
  | none =>
      obtain ⟨s', n, rfl, hc⟩ := h
      exact ⟨s', n, rfl, hc⟩

theorem fixed_unfixed (e : Endian) (bytes : List UInt8) :
    fixed e bytes.length (unfixed e bytes) = bytes := by
  cases e with
  | little => exact Words.ofNat_toNat bytes
  | big =>
      have h := Words.ofNat_toNat bytes.reverse
      rw [List.length_reverse] at h
      rw [fixed, unfixed, h, List.reverse_reverse]

theorem unfixed_lt (e : Endian) (bytes : List UInt8) : unfixed e bytes < 256 ^ bytes.length := by
  cases e with
  | little => exact Words.toNat_lt bytes
  | big =>
      have h := Words.toNat_lt bytes.reverse
      rwa [List.length_reverse] at h

/-- A function that calls `read` once. -/
theorem takes_once {α : Type} {k : Nat} {reader : ByteArray → Except Fault (α × ByteArray)}
    {f : Nat → α} {s : ByteArray} (h : s.Inv)
    (hreads : ∀ n, n < 256 ^ k → Reads s.m_endian reader (fixed s.m_endian k n) (f n))
    (hfails : ∀ fault, s.read k = .error fault → reader s = .error fault) :
    Takes k s (once reader s) (found f (fixedFront k s.m_endian s.unread)) := by
  have hlen := h.length_unread
  rw [fixedFront]
  split
  next hshort =>
    rw [hlen] at hshort
    refine ⟨s, 0, ?_, Consumed.refl h, iff_of_true rfl hshort, fun _ => rfl⟩
    exact Attempt.once_of_error (hfails _ (read_error h hshort))
  next hlong =>
    have htake : (s.unread.take k).length = k := List.length_take_of_le (Nat.le_of_not_lt hlong)
    have hbytes := fixed_unfixed s.m_endian (s.unread.take k)
    have hlt := unfixed_lt s.m_endian (s.unread.take k)
    rw [htake] at hbytes hlt
    have hunread : s.unread =
        fixed s.m_endian k (unfixed s.m_endian (s.unread.take k)) ++ s.unread.drop k := by
      rw [hbytes, List.take_append_drop]
    obtain ⟨s', hread, hc, he⟩ := hreads _ hlt s _ h rfl hunread
    rw [length_fixed] at hc
    exact ⟨s', Attempt.once_of_ok hread, hc, he⟩

/-- An accumulator below the shift takes the next group as a sum. -/
theorem accumulate_eq {w i result : Nat} (hresult : result < 2 ^ i) (d : Nat) :
    (result % 2 ^ w ||| d <<< i) % 2 ^ w = (result + d * 2 ^ i) % 2 ^ w := by
  have hlt := Nat.lt_of_le_of_lt (Nat.mod_le result (2 ^ w)) hresult
  rw [Nat.or_comm, ← Nat.shiftLeft_add_eq_or_of_lt hlt, Nat.shiftLeft_eq, Nat.add_comm,
    Nat.mod_add_mod]

/-- One round of the loop, after the byte `b`. -/
theorem tryVarint_round {w rounds i result : Nat} {s s₁ : ByteArray} {b : UInt8}
    (hresult : result < 2 ^ i) (hread : readFuint8 s = .ok (b, s₁)) :
    tryVarint w (rounds + 1) i (result % 2 ^ w) s =
      if b < 0x80 then .ok ((result + b.toNat * 2 ^ i) % 2 ^ w) s₁
      else tryVarint w rounds (i + 7) ((result + (b.toNat % 128) * 2 ^ i) % 2 ^ w) s₁ := by
  rw [tryVarint, once, Attempt.once_of_ok hread, Attempt.bind_ok, accumulate_eq hresult,
    accumulate_eq hresult, show b.toNat &&& 0x7f = b.toNat % 128 from
      Nat.and_two_pow_sub_one_eq_mod _ 7]

/-- The loop from `i` on adds what the groups stand for, as a word. -/
theorem takes_tryVarint {w : Nat} (rounds : Nat) {i result : Nat} {s : ByteArray} (h : s.Inv)
    (hresult : result < 2 ^ i) : Takes 1 s (tryVarint w rounds i (result % 2 ^ w) s)
      (found (fun n => (result + n * 2 ^ i) % 2 ^ w) (Words.ungroup rounds s.unread)) := by
  induction rounds generalizing i result s with
  | zero =>
      have hsum : result + 0 * 2 ^ i = result := by rw [Nat.zero_mul, Nat.add_zero]
      refine ⟨s, ?_, Consumed.refl h, rfl⟩
      dsimp only
      rw [hsum]
      rfl
  | succ rounds ih =>
      have hlen := h.length_unread
      cases hunread : s.unread with
      | nil =>
          rw [hunread, List.length_nil] at hlen
          have hfails : readFuint8 s = .error (.outOfRange "not enough len") := by
            rw [readFuint8, read_error h (by omega)]
            rfl
          refine ⟨s, 0, ?_, Consumed.refl h, iff_of_true rfl (by omega), fun _ => rfl⟩
          rw [tryVarint, once, Attempt.once_of_error hfails]
          rfl
      | cons b bs =>
          rw [hunread, List.length_cons] at hlen
          obtain ⟨s₁, hread, hc, he⟩ := reads_readFuint8 s.m_endian b s bs h rfl hunread
          have hunread₁ : s₁.unread = bs := by
            rw [hc.unread, hunread]
            rfl
          rw [tryVarint_round hresult hread]
          by_cases hlast : b < 0x80
          · rw [if_pos hlast, Words.ungroup_of_lt hlast]
            exact ⟨s₁, rfl, hc, he⟩
          · have hpow : 2 ^ (i + 7) = 2 ^ i * 128 := Nat.pow_add 2 i 7
            have hdigit : b.toNat % 128 * 2 ^ i ≤ 127 * 2 ^ i :=
              Nat.mul_le_mul_right _ (by omega)
            have hbelow : result + b.toNat % 128 * 2 ^ i < 2 ^ (i + 7) := by omega
            have hrest := ih hc.inv hbelow
            rw [if_neg hlast, Words.ungroup_of_ge hlast]
            rw [hunread₁] at hrest
            cases hgroups : Words.ungroup rounds bs with
            | none =>
                rw [hgroups] at hrest
                obtain ⟨s', n, hthrow, hc', -⟩ := hrest
                refine ⟨s', 1 + n, hthrow, hc.trans hc', iff_of_false (by omega) ?_, by omega⟩
                omega
            | some r =>
                rw [hgroups] at hrest
                obtain ⟨s', hok, hc', he'⟩ := hrest
                refine ⟨s', ?_, ?_, he'.trans he⟩
                · have hsum : result + b.toNat % 128 * 2 ^ i + r.1 * 2 ^ (i + 7) =
                      result + (b.toNat % 128 + 128 * r.1) * 2 ^ i := by
                    rw [hpow, Nat.add_mul, Nat.add_assoc, Nat.mul_comm 128 r.1, Nat.mul_assoc,
                      Nat.mul_comm (2 ^ i) 128]
                  dsimp only at hok ⊢
                  rw [hok, hsum]
                · show Consumed s s' (r.2 + 1)
                  rw [Nat.add_comm]
                  exact hc.trans hc'

/-- A function that reads a number of `k` bytes. -/
theorem takes_fixed {α : Type} {k : Nat} (hk : 0 < k) (f : Nat → α) {s : ByteArray} (h : s.Inv) :
    Takes k s (once (fun s => (s.readFixed k).map fun r => (f r.1, r.2)) s)
      (found f (fixedFront k s.m_endian s.unread)) := by
  refine takes_once h (fun n hn => Codec.reads_fixed s.m_endian k hk hn rfl) fun fault hfault => ?_
  rw [readFixed, hfault]
  rfl

theorem takes_byte {α : Type} (f : Nat → α) {s : ByteArray} (h : s.Inv) :
    Takes 1 s (once (fun s => (s.read 1).map fun r => (f (Words.toNat r.1), r.2)) s)
      (found f (fixedFront 1 s.m_endian s.unread)) := by
  refine takes_once h (fun n hn => ?_) fun fault hfault => ?_
  · have hsame : fixed s.m_endian 1 n = Words.ofNat 1 n := by cases s.m_endian <;> rfl
    rw [hsame]
    exact Codec.reads_byte s.m_endian hn rfl
  · rw [hfault]
    rfl

/-- A function that reads a number of variable length. -/
theorem takes_varint {α : Type} (w rounds : Nat) (f : Nat → α) {s : ByteArray} (h : s.Inv) :
    Takes 1 s ((tryVarint w rounds 0 0 s).map f) (found f (varintFront w rounds s.unread)) := by
  have hloop := takes_tryVarint (w := w) rounds (i := 0) h Nat.one_pos
  have hfront : found (fun n => (0 + n * 2 ^ 0) % 2 ^ w) (Words.ungroup rounds s.unread) =
      varintFront w rounds s.unread := by
    have hsum : ∀ n, 0 + n * 2 ^ 0 = n := fun n => by rw [Nat.pow_zero, Nat.mul_one, Nat.zero_add]
    simp only [hsum]
    rfl
  rw [hfront, Nat.zero_mod] at hloop
  exact hloop.map f

namespace Codec

/-- Every numeric function takes what stands at the front. -/
theorem takes_attempt {s : ByteArray} (h : s.Inv) (c : Codec) :
    Takes c.firstRead s (c.attempt s) (c.front s.m_endian s.unread) := by
  cases c with
  | fint8 => exact takes_byte (fun n => (UInt8.ofNat n).toInt8) h
  | fuint8 => exact takes_byte UInt8.ofNat h
  | fint16 => exact takes_fixed (by decide) (fun n => (UInt16.ofNat n).toInt16) h
  | fuint16 => exact takes_fixed (by decide) UInt16.ofNat h
  | fint32 => exact takes_fixed (by decide) (fun n => (UInt32.ofNat n).toInt32) h
  | fuint32 => exact takes_fixed (by decide) UInt32.ofNat h
  | fint64 => exact takes_fixed (by decide) (fun n => (UInt64.ofNat n).toInt64) h
  | fuint64 => exact takes_fixed (by decide) UInt64.ofNat h
  | int32 => exact takes_varint 32 5 (fun n => DecodeZigzag32 (UInt32.ofNat n)) h
  | uint32 => exact takes_varint 32 5 UInt32.ofNat h
  | int64 => exact takes_varint 64 10 (fun n => DecodeZigzag64 (UInt64.ofNat n)) h
  | uint64 => exact takes_varint 64 10 UInt64.ofNat h
  | float => exact takes_fixed (by decide) UInt32.ofNat h
  | double => exact takes_fixed (by decide) UInt64.ofNat h

end Codec

namespace StringCodec

theorem takes_attemptLength {s : ByteArray} (h : s.Inv) (c : StringCodec) :
    Takes c.firstRead s (c.attemptLength s) (c.lengthFront s.m_endian s.unread) := by
  cases c with
  | f16 => exact (Codec.takes_attempt h .fuint16).map UInt16.toNat
  | f32 => exact (Codec.takes_attempt h .fuint32).map UInt32.toNat
  | f64 => exact (Codec.takes_attempt h .fuint64).map UInt64.toNat
  | vint => exact (Codec.takes_attempt h .uint64).map UInt64.toNat

/-- A length that is found takes the bytes of the first `read` at least. -/
theorem firstRead_le {e : Endian} {bytes : List UInt8} {c : StringCodec} {len n : Nat}
    (h : c.lengthFront e bytes = some (len, n)) : c.firstRead ≤ n := by
  cases c with
  | f16 => exact Nat.le_of_eq (size_fixedFront h)
  | f32 => exact Nat.le_of_eq (size_fixedFront h)
  | f64 => exact Nat.le_of_eq (size_fixedFront h)
  | vint =>
      obtain ⟨r, hr, heq⟩ := Option.map_eq_some_iff.mp h
      obtain ⟨r', hr', rfl⟩ := Option.map_eq_some_iff.mp hr
      obtain ⟨v, hv, rfl⟩ := Option.map_eq_some_iff.mp hr'
      cases heq
      exact Words.ungroup_pos hv

/-- What is left behind a length that is found. -/
theorem attempt_of_length (grants : Nat → Bool) {s s' : ByteArray} {c : StringCodec} {len : Nat}
    (h : c.attemptLength s = .ok len s') :
    (c.attempt grants s).log = [len] ∧
      (s'.getReadSize < len → (c.attempt grants s).state = s') := by
  rw [attempt, h, Attempt.bind_ok, resize]
  cases grants len with
  | false => exact ⟨rfl, fun _ => rfl⟩
  | true =>
      constructor
      · simp only [Attempt.bind, once, Attempt.once]
        cases s'.read len <;> rfl
      · intro hlong
        have hfails : s'.read len = .error (.outOfRange "not enough len") := by
          rw [ByteArray.read, if_pos hlong]
        simp only [Attempt.bind, once, Attempt.once, hfails]
        rfl

end StringCodec

/-! ## Reads that leave the buffer as it was -/

/-- The read functions. -/
inductive Reader where
  | number (c : Codec)
  | string (c : StringCodec)
deriving DecidableEq, Repr

namespace Reader

/-- How many bytes the value at the front takes, if the bytes there tell. -/
def extent (e : Endian) (bytes : List UInt8) : Reader → Option Nat
  | .number c => (c.front e bytes).map Prod.snd
  | .string c => (c.lengthFront e bytes).map fun r => r.2 + r.1

/-- How many bytes the first `read` asks for. -/
def firstRead : Reader → Nat
  | .number c => c.firstRead
  | .string c => c.firstRead

/-- A call of any reader, without what it reads. -/
def attempt (grants : Nat → Bool) (s : ByteArray) : Reader → Call Unit
  | .number c => (c.attempt s).map fun _ => ()
  | .string c => (c.attempt grants s).map fun _ => ()

/-- Fewer bytes are readable than the value takes. -/
def Short (s : ByteArray) (r : Reader) : Prop :=
  ∀ n, r.extent s.m_endian s.unread = some n → s.getReadSize < n

/-- A value that is too short is refused and leaves the buffer as it was, and no buffer is asked
for that is larger than what is readable. -/
structure Atomic (grants : Nat → Bool) (s : ByteArray) (r : Reader) : Prop where
  throws : r.Short s → (r.attempt grants s).result = .error notEnough ∧
    (r.attempt grants s).state = s
  allocated : ∀ n ∈ (r.attempt grants s).log, n ≤ s.getReadSize

end Reader

/-- The cursor is where it was exactly when nothing was taken. -/
theorem Consumed.eq_zero {s : ByteArray} {n : Nat} (h : Consumed s s n) : n = 0 := by
  have := h.position
  omega

theorem Consumed.le {s s' : ByteArray} {n : Nat} (h : Consumed s s' n) :
    n ≤ s.m_size - s.m_position := by
  have hpos := h.inv.pos_le
  rw [h.position, h.size] at hpos
  omega

namespace Reader

variable {grants : Nat → Bool} {s : ByteArray}

/-- Where nothing is found, the function throws and has asked for no buffer. -/
theorem atomic_of_none {α : Type} {x : Call α} (h : s.Inv) {r : Reader}
    (hcall : r.attempt grants s = x.map fun _ => ()) (hnone : r.extent s.m_endian s.unread = none)
    (htakes : Takes r.firstRead s x none) :
    r.Atomic grants s ↔ (r.Short s → s.getReadSize < r.firstRead) := by
  obtain ⟨s', n, rfl, hc, hzero, hsame⟩ := htakes
  have hshort : r.Short s := by
    intro m hm
    rw [hnone] at hm
    cases hm
  rw [h.getReadSize, ← hzero]
  constructor
  · intro hatomic _
    have hstate := (hatomic.throws hshort).2
    rw [hcall] at hstate
    rw [show s' = s from hstate] at hc
    exact hc.eq_zero
  · intro hn
    obtain rfl := hsame (hn hshort)
    refine ⟨fun _ => ?_, ?_⟩
    · rw [hcall]
      exact ⟨rfl, rfl⟩
    · rw [hcall]
      intro m hm
      cases hm

/-- A read function is atomic exactly when a value that is too short already lacks the bytes of
the first `read`. -/
theorem atomic_iff (h : s.Inv) (r : Reader) :
    r.Atomic grants s ↔ (r.Short s → s.getReadSize < r.firstRead) := by
  cases r with
  | number c =>
      have htakes := c.takes_attempt h
      cases hfront : c.front s.m_endian s.unread with
      | none =>
          rw [hfront] at htakes
          exact atomic_of_none h rfl (by rw [extent, hfront]; rfl) htakes
      | some p =>
          rw [hfront] at htakes
          obtain ⟨s', hok, hc, -⟩ := htakes
          have hlong : ¬(Reader.number c).Short s := by
            intro hshort
            have := hshort p.2 (by rw [extent, hfront]; rfl)
            rw [h.getReadSize] at this
            exact absurd hc.le (by omega)
          refine iff_of_true ⟨fun hshort => absurd hshort hlong, ?_⟩ (absurd · hlong)
          rw [attempt, hok]
          intro m hm
          cases hm
  | string c =>
      have htakes := c.takes_attemptLength h
      cases hfront : c.lengthFront s.m_endian s.unread with
      | none =>
          rw [hfront] at htakes
          obtain ⟨s', n, hthrow, hc⟩ := htakes
          have htakes' : Takes (Reader.string c).firstRead s (c.attempt grants s) none :=
            ⟨s', n, by rw [StringCodec.attempt, hthrow]; rfl, hc⟩
          exact atomic_of_none h rfl (by rw [extent, hfront]; rfl) htakes'
      | some p =>
          obtain ⟨len, n⟩ := p
          rw [hfront] at htakes
          obtain ⟨s', hok, hc, -⟩ := htakes
          obtain ⟨hlog, hstate⟩ := StringCodec.attempt_of_length grants hok
          have hextent : (Reader.string c).extent s.m_endian s.unread = some (n + len) := by
            rw [extent, hfront]
            rfl
          have hleft : s'.getReadSize + n = s.getReadSize := by
            have := hc.le
            rw [h.getReadSize, hc.inv.getReadSize, hc.size, hc.position]
            omega
          by_cases hlong : s.getReadSize < n + len
          · -- the length is gone and the bytes are not there
            have hshort : (Reader.string c).Short s := by
              intro m hm
              rw [hextent] at hm
              cases hm
              exact hlong
            refine iff_of_false (fun hatomic => ?_) fun hfirst => ?_
            · have hsame : s' = s := (hstate (by omega)).symm.trans (hatomic.throws hshort).2
              rw [hsame] at hc
              have hpos := StringCodec.firstRead_le hfront
              rw [hc.eq_zero] at hpos
              cases c <;> cases hpos
            · have hfirst : s.getReadSize < c.firstRead := hfirst hshort
              have := StringCodec.firstRead_le hfront
              omega
          · have hnot : ¬(Reader.string c).Short s := fun hshort => hlong (hshort _ hextent)
            refine iff_of_true ⟨fun hshort => absurd hshort hnot, fun m hm => ?_⟩
              fun hshort => absurd hshort hnot
            have hm : m ∈ (c.attempt grants s).log := hm
            rw [hlog, List.mem_singleton] at hm
            omega

end Reader

/-! ## Short values -/

/-- Some bytes in one block, with the cursor at the first one. -/
def received (bytes : List UInt8) : ByteArray where
  m_baseSize := bytes.length
  m_position := 0
  m_capacity := bytes.length
  m_size := bytes.length
  m_endian := .big
  m_root := [bytes]
  m_cur := some 0

theorem received_inv {bytes : List UInt8} (h : 0 < bytes.length) : (received bytes).Inv where
  base_pos := h
  uniform := fun _ hmem => congrArg List.length (List.mem_singleton.mp hmem)
  root_ne := List.cons_ne_nil bytes []
  capacity := (Nat.mul_one _).symm
  pos_le := Nat.zero_le _
  size_le := Nat.le_refl _
  cur := by rw [nodeAt, received, Nat.zero_div]; rfl

/-- Three bytes of a number of four are left as they are, and so is a string that is all there. -/
theorem received_atomic :
    (Reader.number .fuint32).Atomic (fun _ => true) (received [1, 2, 3]) ∧
      (Reader.string .vint).Atomic (fun _ => true) (received [2, 97, 98]) := by
  refine ⟨(Reader.atomic_iff (received_inv (by decide)) (.number .fuint32)).mpr fun _ => by decide,
    (Reader.atomic_iff (received_inv (by decide)) (.string .vint)).mpr fun hshort => ?_⟩
  have hthere := hshort 3 rfl
  exact absurd hthere (by decide)

/-- The first byte of two is taken although the second has not come. -/
theorem short_not_atomic :
    ¬∀ (grants : Nat → Bool) (s : ByteArray) (r : Reader), s.Inv → r.Atomic grants s := by
  intro hatomic
  have hvarint := (hatomic (fun _ => true) (received [0x80]) (.number .uint32)
    (received_inv (by decide))).throws (fun n hn => by cases hn)
  exact absurd (congrArg m_position hvarint.2) (by decide)

end ByteArray

end Muqiu
