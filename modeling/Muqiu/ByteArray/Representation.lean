import Muqiu.ByteArray.Atomic
import Muqiu.ByteArray.Positional
import Muqiu.Lib.Runs

/-!
# The representation over whole runs

`Represents` says how the members of a `ByteArray` hang together.  The public functions are
called in any order, a call that throws is caught, and the state it leaves is what the next call
finds.  Memory is not endless here: `new` grants some blocks and then throws.

Three calls break the representation or run into a null pointer.  `addCapacity` mends `m_cur`
behind its loop, and an exception in the loop leaves it null before the new blocks.  A string
function reads the bytes of an empty string where the cursor may be at the end of the capacity.
And `read` at a position walks from the cursor.  Every other call keeps the representation,
whether it returns or throws.
-/

namespace Muqiu

open Window

namespace ByteArray

/-! ## Memory -/

/-- The memory a call finds: the bytes of the blocks it obtains, how many blocks `new` grants
before it throws, and the sizes a `std::string` is given room for. -/
structure Memory where
  bytes : Nat → UInt8
  blocks : Nat
  strings : Nat → Bool

/-- The empty string needs no room. -/
def Memory.grants (m : Memory) (len : Nat) : Bool := len = 0 || m.strings len

/-- `count` in `addCapacity`. -/
def blocksFor (s : ByteArray) (size : Nat) : Nat :=
  let old_cap := s.getCapacity
  if old_cap ≥ size then 0 else (size - old_cap + s.m_baseSize - 1) / s.m_baseSize

/-- `addCapacity`, where the loop ends with an exception. -/
def partlyGrown (m : Memory) (s : ByteArray) : ByteArray :=
  { s with
    m_root := s.m_root ++ newNodes m.bytes s.m_baseSize m.blocks
    m_capacity := s.m_capacity + m.blocks * s.m_baseSize }

/-! ## Calls and the state they leave -/

/-- How a call ends. -/
inductive Ending where
  | returned
  | threw
  /-- A null pointer is dereferenced. -/
  | null
deriving DecidableEq, Repr

/-- A buffer after a call. -/
structure Outcome where
  buffer : ByteArray
  ending : Ending
deriving DecidableEq, Repr

theorem returned_ne_null : Ending.returned ≠ .null := by decide

theorem threw_ne_null : Ending.threw ≠ .null := by decide

namespace Outcome

/-- A call that throws before it assigns anything. -/
def ofExcept (s : ByteArray) : Except Fault ByteArray → Outcome
  | .ok s' => ⟨s', .returned⟩
  | .error (.outOfRange _) => ⟨s, .threw⟩
  | .error .nullCur => ⟨s, .null⟩

/-- What a call of a reader leaves: a null cursor is followed, other faults are thrown. -/
def ofCall {α : Type} (x : Call α) : Outcome :=
  match x.result with
  | .ok _ => ⟨x.state, .returned⟩
  | .error (.fault .nullCur) => ⟨x.state, .null⟩
  | .error _ => ⟨x.state, .threw⟩

/-- The next call, unless this one has thrown or gone wrong. -/
def andThen (o : Outcome) (next : ByteArray → Outcome) : Outcome :=
  match o.ending with
  | .returned => next o.buffer
  | _ => o

end Outcome

/-- A call that begins with `addCapacity(size)` and goes on as `call` when every block is
granted. -/
def growing (m : Memory) (s : ByteArray) (size : Nat) (call : Except Fault ByteArray) : Outcome :=
  if s.blocksFor size ≤ m.blocks then .ofExcept s call else ⟨s.partlyGrown m, .threw⟩

/-- A call of a public function.  `writeStringWithoutLength` is a `write`, and `readFromFile` a run
of them. -/
inductive Act where
  | write (m : Memory) (buf : List UInt8)
  | writeNumber (m : Memory) (v : Num)
  | writeString (m m' : Memory) (c : StringCodec) (value : StdString)
  | read (size : Nat)
  | readNumber (c : Codec)
  | readString (m : Memory) (c : StringCodec)
  | readAt (size position : Nat)
  | setPosition (v : Nat)
  | clear
  | getReadBuffers (len : Nat)
  | getWriteBuffers (m : Memory) (len : Nat)
  | toString (m : Memory)
  | setIsLittleEndian (val : Bool)

namespace Act

/-- A read of the bytes themselves is one of a byte at least. -/
def Asks : Act → Prop
  | .read size => 1 ≤ size
  | .readAt size _ => 1 ≤ size
  | _ => True

/-- What a call leaves.  A string writer calls `write` twice. -/
def call (s : ByteArray) : Act → Outcome
  | .write m buf => s.growing m buf.length (s.write m.bytes buf)
  | .writeNumber m v =>
      s.growing m (v.1.encode s.m_endian v.2).length (v.1.write m.bytes s v.2)
  | .writeString m m' c value =>
      let len := c.lengthBytes s.m_endian value.size
      (s.growing m len.length (s.write m.bytes len)).andThen fun s =>
        s.growing m' value.size (s.write m'.bytes value.bytes)
  | .read size => .ofExcept s ((s.read size).map Prod.snd)
  | .readNumber c => .ofCall (c.attempt s)
  | .readString m c => .ofCall (c.attempt m.grants s)
  | .readAt size position => .ofExcept s ((s.readAt size position).map fun _ => s)
  | .setPosition v => .ofExcept s (s.setPosition v)
  | .clear => ⟨s.clear, .returned⟩
  | .getReadBuffers len => .ofExcept s ((s.getReadBuffers len).map fun _ => s)
  | .getWriteBuffers m len =>
      s.growing m len ((s.getWriteBuffers m.bytes len).map fun r => r.2.2)
  | .toString m =>
      if m.grants s.getReadSize then .ofExcept s (s.toString.map fun _ => s) else ⟨s, .threw⟩
  | .setIsLittleEndian val => ⟨s.setIsLittleEndian val, .returned⟩

/-- One more call, unless the last one has dereferenced a null pointer. -/
def step (o : Outcome) (a : Act) : Option Outcome :=
  if o.ending = .null then none else some (a.call o.buffer)

end Act

/-! ## The string writers -/

theorem writeFixed_eq (mem : Nat → UInt8) (s : ByteArray) (k value : Nat) :
    s.writeFixed mem k value = s.write mem (fixed s.m_endian k value) := by
  rw [writeFixed]
  cases s.m_endian with
  | little => rfl
  | big =>
      have hswap : Words.ofNat k (byteswap k value) = fixed .big k value :=
        Words.ofNat_swap k value
      rw [← hswap]
      rfl

/-- A string writer writes the length and then the bytes. -/
theorem StringCodec.write_eq (mem mem' : Nat → UInt8) (s : ByteArray) (c : StringCodec)
    (value : StdString) :
    c.write mem mem' s value =
      s.write mem (c.lengthBytes s.m_endian value.size) >>= fun s => s.write mem' value.bytes := by
  cases c with
  | f16 => exact congrArg (· >>= _) (writeFixed_eq mem s 2 _)
  | f32 => exact congrArg (· >>= _) (writeFixed_eq mem s 4 _)
  | f64 => exact congrArg (· >>= _) (writeFixed_eq mem s 8 _)
  | vint => rfl

/-! ## What the representation says -/

/-- How the members hang together. -/
structure Represents (base_size : Nat) (s : ByteArray) : Prop where
  base : s.m_baseSize = base_size
  position_le : s.m_position ≤ s.m_size
  size_le : s.m_size ≤ s.m_capacity
  root_ne : s.m_root ≠ []
  capacity : s.m_capacity = base_size * s.m_root.length
  block : ∀ nd ∈ s.m_root, nd.length = base_size
  cur : ∀ c, s.m_cur = some c → c = s.m_position / base_size ∧ c < s.m_root.length
  cur_null : s.m_cur = none ↔ s.m_position = s.m_capacity

/-- That is the invariant of the block size. -/
theorem represents_iff {base_size : Nat} (hb : 0 < base_size) {s : ByteArray} :
    s.Represents base_size ↔ s.Inv ∧ s.m_baseSize = base_size := by
  constructor
  · intro h
    obtain rfl := h.base
    refine ⟨⟨hb, h.block, h.root_ne, h.capacity, h.position_le, h.size_le, ?_⟩, rfl⟩
    cases hcur : s.m_cur with
    | none =>
        have hfull := h.cur_null.mp hcur
        rw [nodeAt, if_neg]
        rw [hfull, h.capacity, Nat.mul_div_cancel_left _ hb]
        exact Nat.lt_irrefl _
    | some c =>
        obtain ⟨rfl, hlt⟩ := h.cur c hcur
        rw [nodeAt, if_pos hlt]
  · rintro ⟨h, rfl⟩
    refine ⟨rfl, h.pos_le, h.size_le, h.root_ne, h.capacity, h.uniform, ?_, ?_⟩
    · intro c hcur
      rw [h.cur, nodeAt] at hcur
      split at hcur
      next hlt =>
        cases hcur
        exact ⟨rfl, hlt⟩
      next => cases hcur
    · refine ⟨fun hcur => ?_, h.cur_none⟩
      have hle := Nat.le_trans h.pos_le h.size_le
      rcases Nat.lt_or_eq_of_le hle with hlt | heq
      · rw [(h.cur_some hlt).2] at hcur
        cases hcur
      · exact heq

/-- The call has kept the representation and met no null pointer. -/
def Outcome.Sound (base_size : Nat) (o : Outcome) : Prop :=
  o.ending ≠ .null ∧ o.buffer.Represents base_size

/-! ## Calls that need memory -/

/-- With the cursor at `p`, at the end of the capacity, some of the blocks for `n` bytes are
granted and some are not. -/
def StrandsAt (s : ByteArray) (m : Memory) (p n : Nat) : Prop :=
  s.m_capacity ≤ p ∧ s.m_baseSize ∣ p ∧ 0 < m.blocks ∧ m.blocks * s.m_baseSize < n

section Step

variable {s : ByteArray} {m : Memory} {n : Nat}

theorem sound_iff (h : s.Inv) (o : Outcome) :
    o.Sound s.m_baseSize ↔
      o.ending ≠ .null ∧ o.buffer.Inv ∧ o.buffer.m_baseSize = s.m_baseSize := by
  rw [Outcome.Sound, represents_iff h.base_pos]

theorem blocksFor_le_iff (h : s.Inv) {k : Nat} :
    s.blocksFor n ≤ k ↔ s.m_position + n ≤ s.m_capacity + k * s.m_baseSize := by
  have hb := h.base_pos
  have hpos : s.m_position ≤ s.m_capacity := Nat.le_trans h.pos_le h.size_le
  rw [blocksFor, h.getCapacity]
  split
  next hfit => exact iff_of_true (Nat.zero_le k) (by omega)
  next hlong =>
    rw [Nat.div_le_iff_le_mul hb]
    omega

/-- An exception in the loop of `addCapacity` does no harm where `m_cur` is not null, or where
no block has been appended. -/
theorem partlyGrown_inv_iff (h : s.Inv) :
    (s.partlyGrown m).Inv ↔ m.blocks = 0 ∨ s.m_position < s.m_capacity := by
  have hb := h.base_pos
  have hpos : s.m_position ≤ s.m_capacity := Nat.le_trans h.pos_le h.size_le
  constructor
  · intro hgrown
    by_contra hstranded
    have hblocks : 0 < m.blocks * s.m_baseSize := Nat.mul_pos (by omega) hb
    have hlt : (s.partlyGrown m).m_position < (s.partlyGrown m).m_capacity := by
      show s.m_position < s.m_capacity + m.blocks * s.m_baseSize
      omega
    have hnull : (s.partlyGrown m).m_cur = none := h.cur_none (by omega)
    rw [(hgrown.cur_some hlt).2] at hnull
    cases hnull
  · intro hsafe
    refine ⟨hb, ?_, ?_, ?_, h.pos_le, Nat.le_trans h.size_le (Nat.le_add_right _ _), ?_⟩
    · exact uniform_append.mpr ⟨h.uniform, newNodes_uniform _ _ _⟩
    · exact List.append_ne_nil_of_left_ne_nil h.root_ne _
    · show s.m_capacity + m.blocks * s.m_baseSize = s.m_baseSize * (s.m_root ++ _).length
      rw [List.length_append, length_newNodes, h.capacity, Nat.mul_add, Nat.mul_comm m.blocks]
    · show s.m_cur = _
      rw [nodeAt]
      show s.m_cur = if s.m_position / s.m_baseSize < (s.m_root ++ _).length then _ else _
      rw [List.length_append, length_newNodes]
      rcases hsafe with hzero | hlt
      · rw [hzero, Nat.add_zero]
        exact h.cur
      · obtain ⟨hidx, hcur⟩ := h.cur_some hlt
        rw [if_pos (by omega), hcur]
        rfl

/-- A call that needs `n` bytes at the cursor is sound unless it strands the cursor. -/
theorem growing_sound_iff (h : s.Inv) {call : Except Fault ByteArray}
    (hcall : ∃ s', call = .ok s' ∧ s'.Inv ∧ s'.m_baseSize = s.m_baseSize) :
    (s.growing m n call).Sound s.m_baseSize ↔ ¬s.StrandsAt m s.m_position n := by
  have hpos : s.m_position ≤ s.m_capacity := Nat.le_trans h.pos_le h.size_le
  rw [sound_iff h, growing]
  split
  next hgranted =>
    have hroom := (blocksFor_le_iff h).mp hgranted
    obtain ⟨s', rfl, hinv, hbase⟩ := hcall
    refine iff_of_true ⟨returned_ne_null, hinv, hbase⟩ ?_
    rintro ⟨hfull, -, -, hfew⟩
    omega
  next hfew =>
    rw [blocksFor_le_iff h] at hfew
    show _ ∧ (s.partlyGrown m).Inv ∧ _ ↔ _
    rw [partlyGrown_inv_iff h]
    constructor
    · rintro ⟨-, hsafe, -⟩ ⟨hfull, -, hsome, -⟩
      omega
    · intro hnot
      refine ⟨threw_ne_null, ?_, rfl⟩
      by_contra hstranded
      have hfull : s.m_position = s.m_capacity := by omega
      exact hnot ⟨by omega, ⟨_, hfull.trans h.capacity⟩, by omega, by omega⟩

theorem write_kept (h : s.Inv) (mem : Nat → UInt8) (buf : List UInt8) :
    ∃ s', s.write mem buf = .ok s' ∧ s'.Inv ∧ s'.m_baseSize = s.m_baseSize := by
  obtain ⟨s', hwrite, hw⟩ := write_written mem h buf
  exact ⟨s', hwrite, hw.inv, hw.base⟩

theorem writeNumber_kept (h : s.Inv) (mem : Nat → UInt8) (v : Num) :
    ∃ s', v.1.write mem s v.2 = .ok s' ∧ s'.Inv ∧ s'.m_baseSize = s.m_baseSize := by
  obtain ⟨s', hwrite, hw, -⟩ := Codec.emits_write mem s.m_endian v.1 v.2 s h rfl
  exact ⟨s', hwrite, hw.inv, hw.base⟩

theorem getWriteBuffers_kept (h : s.Inv) (mem : Nat → UInt8) (len : Nat) :
    ∃ s', (s.getWriteBuffers mem len).map (fun r => r.2.2) = .ok s' ∧ s'.Inv ∧
      s'.m_baseSize = s.m_baseSize := by
  rcases Nat.eq_zero_or_pos len with rfl | hlen
  · exact ⟨s, rfl, h, rfl⟩
  · obtain ⟨vs, g, count, hok, hg, hinv, -⟩ := getWriteBuffers_spec mem h hlen
    exact ⟨g, by rw [hok]; rfl, hinv, hg.base⟩

/-- Two writes, one behind the other. -/
theorem growing_twice_sound_iff (h : s.Inv) (m' : Memory) (bs cs : List UInt8) :
    ((s.growing m bs.length (s.write m.bytes bs)).andThen fun s =>
        s.growing m' cs.length (s.write m'.bytes cs)).Sound s.m_baseSize ↔
      ¬s.StrandsAt m s.m_position bs.length ∧
        (s.m_position + bs.length ≤ s.m_capacity + m.blocks * s.m_baseSize →
          ¬s.StrandsAt m' (s.m_position + bs.length) cs.length) := by
  have hfirst := growing_sound_iff (m := m) (n := bs.length) h (write_kept h m.bytes bs)
  obtain ⟨s', hwrite, hw⟩ := write_written m.bytes h bs
  by_cases hroom : s.m_position + bs.length ≤ s.m_capacity + m.blocks * s.m_baseSize
  · have hgranted : s.growing m bs.length (s.write m.bytes bs) = ⟨s', .returned⟩ := by
      rw [growing, if_pos ((blocksFor_le_iff h).mpr hroom), hwrite]
      rfl
    have hsound : Outcome.Sound s.m_baseSize ⟨s', .returned⟩ :=
      (sound_iff h _).mpr ⟨returned_ne_null, hw.inv, hw.base⟩
    rw [hgranted] at hfirst ⊢
    show (s'.growing m' cs.length (s'.write m'.bytes cs)).Sound s.m_baseSize ↔ _
    rw [← hw.base, growing_sound_iff hw.inv (write_kept hw.inv m'.bytes cs), hw.base,
      and_iff_right (hfirst.mp hsound), imp_iff_right hroom]
    -- the cursor is at the end of the capacity there is now, or of the one there was
    have hfull : s'.m_capacity ≤ s'.m_position ∧ s'.m_baseSize ∣ s'.m_position ↔
        s.m_capacity ≤ s.m_position + bs.length ∧
          s.m_baseSize ∣ s.m_position + bs.length := by
      have hle := Nat.le_trans hw.inv.pos_le hw.inv.size_le
      rw [and_comm (a := s.m_capacity ≤ _), ← hw.full_iff]
      constructor
      · exact fun hend => Nat.le_antisymm hle hend.1
      · intro heq
        exact ⟨Nat.le_of_eq heq.symm, ⟨_, heq.trans hw.inv.capacity⟩⟩
    rw [StrandsAt, StrandsAt, ← and_assoc, hfull, and_assoc, hw.base]
  · have hthrew : s.growing m bs.length (s.write m.bytes bs) = ⟨s.partlyGrown m, .threw⟩ := by
      rw [growing, if_neg fun hgranted => hroom ((blocksFor_le_iff h).mp hgranted)]
    rw [hthrew] at hfirst ⊢
    show Outcome.Sound s.m_baseSize ⟨s.partlyGrown m, .threw⟩ ↔ _
    rw [hfirst, and_iff_left fun hfits => absurd hfits hroom]

/-! ## Reads -/

theorem Consumed.base {s' : ByteArray} (h : s.Inv) (hc : Consumed s s' n) :
    s'.m_baseSize = s.m_baseSize := by
  obtain ⟨nd, rest, hroot⟩ := List.exists_cons_of_ne_nil h.root_ne
  have hmem : nd ∈ s.m_root := hroot ▸ List.mem_cons_self
  exact (hc.inv.uniform nd (hc.root ▸ hmem)).symm.trans (h.uniform nd hmem)

/-- A read of no bytes needs a block. -/
theorem read_sound_iff (h : s.Inv) (size : Nat) :
    (Outcome.ofExcept s ((s.read size).map Prod.snd)).Sound s.m_baseSize ↔
      size = 0 → s.m_position < s.m_capacity := by
  rw [sound_iff h]
  rcases Nat.eq_zero_or_pos size with rfl | hsize
  · rw [imp_iff_right rfl]
    rcases Nat.lt_or_ge s.m_position s.m_capacity with hlt | hge
    · rw [read_zero h hlt]
      exact iff_of_true ⟨returned_ne_null, h, rfl⟩ hlt
    · rw [read_zero_null h (Nat.le_antisymm (Nat.le_trans h.pos_le h.size_le) hge)]
      exact iff_of_false (fun hsound => hsound.1 rfl) (Nat.not_lt_of_ge hge)
  · refine iff_of_true ?_ fun hzero => absurd hzero (Nat.ne_of_gt hsize)
    rcases Nat.lt_or_ge (s.m_size - s.m_position) size with hlong | hfit
    · rw [read_error h hlong]
      exact ⟨threw_ne_null, h, rfl⟩
    · obtain ⟨s', hread, hafter⟩ := read_after h hsize hfit
      rw [hread]
      exact ⟨returned_ne_null, hafter.inv, hafter.base⟩

/-- A function that takes what stands at the front, or throws. -/
theorem Takes.sound (h : s.Inv) {α : Type} {first : Nat} {x : Call α} {r : Option (α × Nat)}
    (htakes : Takes first s x r) : (Outcome.ofCall x).Sound s.m_baseSize := by
  rw [sound_iff h]
  cases r with
  | some r =>
      obtain ⟨s', rfl, hc, -⟩ := htakes
      exact ⟨returned_ne_null, hc.inv, hc.base h⟩
  | none =>
      obtain ⟨s', n, rfl, hc, -⟩ := htakes
      exact ⟨threw_ne_null, hc.inv, hc.base h⟩

/-- The length at the cursor is 0, and behind it there is no block. -/
def EmptyAtEnd (s : ByteArray) (c : StringCodec) : Prop :=
  ∃ k, c.lengthFront s.m_endian s.unread = some (0, k) ∧ s.m_position + k = s.m_capacity

/-- A string function reads the length, and then the bytes if it gets room for them. -/
theorem readString_sound_iff (h : s.Inv) (c : StringCodec) :
    (Outcome.ofCall (c.attempt m.grants s)).Sound s.m_baseSize ↔ ¬s.EmptyAtEnd c := by
  have htakes := c.takes_attemptLength h
  rw [EmptyAtEnd]
  cases hfront : c.lengthFront s.m_endian s.unread with
  | none =>
      rw [hfront] at htakes
      obtain ⟨s', n, hthrow, hc⟩ := htakes
      have hattempt : Takes c.firstRead s (c.attempt m.grants s) none :=
        ⟨s', n, by rw [StringCodec.attempt, hthrow]; rfl, hc⟩
      refine iff_of_true (hattempt.sound h) fun hempty => ?_
      obtain ⟨_, hlen, -⟩ := hempty
      cases hlen
  | some p =>
      obtain ⟨len, k⟩ := p
      rw [hfront] at htakes
      obtain ⟨s', hok, hc, -⟩ := htakes
      have hend : (∃ k', some (len, k) = some (0, k') ∧ s.m_position + k' = s.m_capacity) ↔
          len = 0 ∧ s'.m_position = s'.m_capacity := by
        rw [hc.position, hc.capacity]
        constructor
        · rintro ⟨k', heq, hfull⟩
          cases heq
          exact ⟨rfl, hfull⟩
        · rintro ⟨rfl, hfull⟩
          exact ⟨k, rfl, hfull⟩
      rw [hend, StringCodec.attempt, hok, Attempt.bind_ok, resize]
      cases hgrants : m.grants len with
      | false =>
          have hlen : len ≠ 0 := by
            rintro rfl
            cases hgrants
          refine iff_of_true ((sound_iff h _).mpr ?_) fun hempty => hlen hempty.1
          exact ⟨threw_ne_null, hc.inv, hc.base h⟩
      | true =>
          have hread : Outcome.ofCall ((⟨.ok (), s', [len]⟩ : Call Unit).bind fun _ s =>
              once (fun s => s.read len) s) = .ofExcept s' ((s'.read len).map Prod.snd) := by
            rw [Attempt.bind, once, Attempt.once]
            cases s'.read len with
            | ok r => rfl
            | error fault => cases fault <;> rfl
          have hle := Nat.le_trans hc.inv.pos_le hc.inv.size_le
          rw [if_pos rfl, hread, ← hc.base h, read_sound_iff hc.inv, not_and]
          exact imp_congr_right fun _ => ⟨Nat.ne_of_lt, Nat.lt_of_le_of_ne hle⟩

/-- Without a refusal only a null pointer fails it. -/
theorem nullCur_of_readAt {size position : Nat} (hroom : size ≤ sizeSub s.m_size position)
    {fault : Fault} (hread : s.readAt size position = .error fault) : fault = .nullCur := by
  rw [readAt, if_neg (Nat.not_lt_of_ge hroom)] at hread
  split at hread
  · cases hread
    rfl
  · split at hread
    · cases hread
      rfl
    · cases hread

/-- A read at a position is refused or stays inside the blocks from the cursor on. -/
theorem readAt_sound_iff (h : s.Inv) {size position : Nat} (hsize : 1 ≤ size) :
    (Outcome.ofExcept s ((s.readAt size position).map fun _ => s)).Sound s.m_baseSize ↔
      sizeSub s.m_size position < size ∨
        s.m_position < s.m_capacity ∧ s.walkStart position + size ≤ s.m_capacity := by
  rw [sound_iff h]
  rcases Nat.lt_or_ge (sizeSub s.m_size position) size with hlong | hroom
  · rw [(readAt_refused_iff s size position).mpr hlong]
    exact iff_of_true ⟨threw_ne_null, h, rfl⟩ (Or.inl hlong)
  · have hok := readAt_ok_iff h hsize hroom
    rw [or_iff_right (Nat.not_lt_of_ge hroom)]
    cases hread : s.readAt size position with
    | ok bytes =>
        obtain ⟨hlt, hfit, -⟩ := (hok bytes).mp hread
        exact iff_of_true ⟨returned_ne_null, h, rfl⟩ ⟨hlt, hfit⟩
    | error fault =>
        obtain rfl := nullCur_of_readAt hroom hread
        refine iff_of_false (fun hsound => hsound.1 rfl) fun hserves => ?_
        rw [(hok _).mpr ⟨hserves.1, hserves.2, rfl⟩] at hread
        cases hread

/-! ## Calls that cannot fail so -/

theorem setPosition_sound (h : s.Inv) (v : Nat) :
    (Outcome.ofExcept s (s.setPosition v)).Sound s.m_baseSize := by
  rw [sound_iff h]
  rcases Nat.lt_or_ge s.m_capacity v with hlong | hfit
  · rw [setPosition, if_pos hlong]
    exact ⟨threw_ne_null, h, rfl⟩
  · obtain ⟨s', hset, hafter⟩ := setPosition_after h hfit
    rw [hset]
    exact ⟨returned_ne_null, hafter.inv, hafter.base⟩

/-- A function that only looks. -/
theorem const_sound (h : s.Inv) {α : Type} {x : Except Fault α} (hok : ∃ a, x = .ok a) :
    (Outcome.ofExcept s (x.map fun _ => s)).Sound s.m_baseSize := by
  obtain ⟨a, rfl⟩ := hok
  exact (sound_iff h _).mpr ⟨returned_ne_null, h, rfl⟩

end Step

/-! ## Runs -/

namespace Act

/-- The call does not strand the cursor, does not read the bytes of an empty string behind the
last block, and walks from the cursor only where there are blocks enough. -/
def Safe (s : ByteArray) : Act → Prop
  | .write m buf => ¬s.StrandsAt m s.m_position buf.length
  | .writeNumber m v => ¬s.StrandsAt m s.m_position (v.1.encode s.m_endian v.2).length
  | .writeString m m' c value =>
      let len := (c.lengthBytes s.m_endian value.size).length
      ¬s.StrandsAt m s.m_position len ∧
        (s.m_position + len ≤ s.m_capacity + m.blocks * s.m_baseSize →
          ¬s.StrandsAt m' (s.m_position + len) value.size)
  | .getWriteBuffers m len => ¬s.StrandsAt m s.m_position len
  | .readString _ c => ¬s.EmptyAtEnd c
  | .readAt size position =>
      sizeSub s.m_size position < size ∨
        s.m_position < s.m_capacity ∧ s.walkStart position + size ≤ s.m_capacity
  | _ => True

/-- One call keeps the representation and meets no null pointer exactly when it is safe. -/
theorem call_sound_iff {s : ByteArray} (h : s.Inv) {a : Act} (hasks : a.Asks) :
    (a.call s).Sound s.m_baseSize ↔ a.Safe s := by
  cases a with
  | write m buf => exact growing_sound_iff h (write_kept h m.bytes buf)
  | writeNumber m v => exact growing_sound_iff h (writeNumber_kept h m.bytes v)
  | writeString m m' c value =>
      exact growing_twice_sound_iff h m' (c.lengthBytes s.m_endian value.size) value.bytes
  | read size =>
      have hsize : size ≠ 0 := Nat.ne_of_gt hasks
      exact iff_of_true ((read_sound_iff h size).mpr fun hzero => absurd hzero hsize) trivial
  | readNumber c => exact iff_of_true ((c.takes_attempt h).sound h) trivial
  | readString m c => exact readString_sound_iff h c
  | readAt size position => exact readAt_sound_iff h hasks
  | setPosition v => exact iff_of_true (setPosition_sound h v) trivial
  | clear =>
      have hafter := clear_after h
      refine iff_of_true ((sound_iff h _).mpr ?_) trivial
      exact ⟨returned_ne_null, hafter.inv, hafter.base⟩
  | getReadBuffers len =>
      obtain ⟨vs, hok, -⟩ := getReadBuffers_spec h len
      exact iff_of_true (const_sound h ⟨_, hok⟩) trivial
  | getWriteBuffers m len => exact growing_sound_iff h (getWriteBuffers_kept h m.bytes len)
  | toString m =>
      refine iff_of_true ?_ trivial
      rw [call]
      split
      · exact const_sound h ⟨_, toString_flat h⟩
      · exact (sound_iff h _).mpr ⟨threw_ne_null, h, rfl⟩
  | setIsLittleEndian val =>
      refine iff_of_true ((sound_iff h _).mpr ?_) trivial
      refine ⟨returned_ne_null, h.setIsLittleEndian val, ?_⟩
      cases val <;> rfl

theorem step_of_sound {base_size : Nat} {o : Outcome} (h : o.Sound base_size) (a : Act) :
    step o a = some (a.call o.buffer) := by
  rw [step, if_neg h.1]

end Act

/-- A new buffer. -/
def start (mem : Nat → UInt8) (base_size : Nat) : Outcome := ⟨new mem base_size, .returned⟩

theorem start_sound (mem : Nat → UInt8) {base_size : Nat} (hb : 1 ≤ base_size) :
    (start mem base_size).Sound base_size :=
  ⟨returned_ne_null, (represents_iff hb).mpr ⟨new_inv mem hb, rfl⟩⟩

/-- A call keeps the representation exactly when it is safe, and so does a run. -/
theorem throughout_sound_iff {base_size : Nat} (hb : 0 < base_size) {o : Outcome}
    (ho : o.Sound base_size) {as : List Act} (hasks : ∀ a ∈ as, a.Asks) :
    Runs.Throughout Act.step (Outcome.Sound base_size) o as ↔
      Runs.Along Act.step (fun o a _ => a.Safe o.buffer) o as := by
  refine Runs.throughout_iff_along (J := fun _ => True) (fun _ _ _ _ _ _ => trivial) ?_ hasks
    trivial ho
  intro o a o' ha _ ho hstep
  rw [Act.step_of_sound ho a] at hstep
  cases hstep
  obtain ⟨hinv, rfl⟩ := (represents_iff hb).mp ho.2
  exact Act.call_sound_iff hinv ha

/-- Neither a position nor a string is read, and every block that is asked for is granted. -/
def Act.Plain (base_size : Nat) : Act → Prop
  | .write m buf => buf.length ≤ m.blocks * base_size
  | .writeNumber m v => ∀ e, (v.1.encode e v.2).length ≤ m.blocks * base_size
  | .writeString m m' c value =>
      (∀ e, (c.lengthBytes e value.size).length ≤ m.blocks * base_size) ∧
        value.size ≤ m'.blocks * base_size
  | .getWriteBuffers m len => len ≤ m.blocks * base_size
  | .readString _ _ => False
  | .readAt _ _ => False
  | _ => True

theorem not_strandsAt {s : ByteArray} {m : Memory} {p n : Nat}
    (h : n ≤ m.blocks * s.m_baseSize) : ¬s.StrandsAt m p n :=
  fun hstrands => Nat.not_lt_of_ge h hstrands.2.2.2

theorem Act.Plain.safe {s : ByteArray} {a : Act} (h : a.Plain s.m_baseSize) : a.Safe s := by
  cases a with
  | write m buf => exact not_strandsAt h
  | writeNumber m v => exact not_strandsAt (h s.m_endian)
  | writeString m m' c value =>
      exact ⟨not_strandsAt (h.1 s.m_endian), fun _ => not_strandsAt h.2⟩
  | getWriteBuffers m len => exact not_strandsAt h
  | readString m c => exact h.elim
  | readAt size position => exact h.elim
  | read size => trivial
  | readNumber c => trivial
  | setPosition v => trivial
  | clear => trivial
  | getReadBuffers len => trivial
  | toString m => trivial
  | setIsLittleEndian val => trivial

/-- With memory enough, the calls at the cursor keep the representation in any order. -/
theorem plain_keeps {base_size : Nat} (hb : 0 < base_size) (mem : Nat → UInt8) {as : List Act}
    (hplain : ∀ a ∈ as, a.Asks ∧ a.Plain base_size) :
    Runs.Throughout Act.step (Outcome.Sound base_size) (start mem base_size) as := by
  refine Runs.throughout_of_invariant ?_ hplain (start_sound mem hb)
  rintro o a o' ⟨hasks, hplain⟩ ho hstep
  rw [Act.step_of_sound ho a] at hstep
  cases hstep
  obtain ⟨hinv, rfl⟩ := (represents_iff hb).mp ho.2
  exact (Act.call_sound_iff hinv hasks).mpr hplain.safe

/-- Every state of a run has the representation and no call of it meets a null pointer exactly
when every call is safe. -/
theorem represents_throughout_iff {base_size : Nat} (hb : 1 ≤ base_size) (mem : Nat → UInt8)
    (as : List Act) (hasks : ∀ a ∈ as, a.Asks) :
    Runs.Throughout Act.step (Outcome.Sound base_size) (start mem base_size) as ↔
      Runs.Along Act.step (fun o a _ => a.Safe o.buffer) (start mem base_size) as :=
  throughout_sound_iff hb (start_sound mem hb) hasks

/-- Three bytes, two of them read again, and a position past the end. -/
theorem represents_throughout_four :
    Runs.Throughout Act.step (Outcome.Sound 4) (start (fun _ => 0) 4)
      [.setPosition 3, .readAt 2 0, .setPosition 5, .read 1] :=
  (represents_throughout_iff (by decide) (fun _ => 0)
    [.setPosition 3, .readAt 2 0, .setPosition 5, .read 1] (by simp [Act.Asks])).mpr
    ⟨trivial, Or.inr (by decide), trivial, trivial, trivial⟩

/-- No block is left. -/
def noMemory : Memory := ⟨fun _ => 0, 0, fun _ => true⟩

/-- One block is left. -/
def oneBlock : Memory := ⟨fun _ => 0, 1, fun _ => true⟩

/-- A byte is read at a position when the cursor is behind the last block, an empty string is
read there, and the second block of two is not granted there. -/
theorem not_represents_throughout :
    ¬Runs.Throughout Act.step (Outcome.Sound 4) (start (fun _ => 0) 4)
        [.write noMemory [1, 2, 3, 4], .readAt 1 0] ∧
      ¬Runs.Throughout Act.step (Outcome.Sound 2) (start (fun _ => 0) 2)
        [.writeString noMemory noMemory .f16 ⟨[], by decide⟩, .setPosition 0,
          .readString noMemory .f16] ∧
      ¬Runs.Throughout Act.step (Outcome.Sound 2) (start (fun _ => 0) 2)
        [.write noMemory [1, 2], .write oneBlock [3, 4, 5]] := by
  have hnull : ∀ {base_size : Nat} {o : Outcome} {as : List Act} {o' : Outcome},
      Runs.exec Act.step o as = some o' → o'.ending = .null →
        ¬Runs.Throughout Act.step (Outcome.Sound base_size) o as :=
    fun hrun hend hkeeps => (hkeeps.final hrun).1 hend
  refine ⟨hnull rfl rfl, hnull rfl rfl, fun hkeeps => ?_⟩
  -- the pointer is null before the end of the capacity
  obtain ⟨o, hrun, hcur, hlt⟩ : ∃ o, Runs.exec Act.step (start (fun _ => 0) 2)
      [.write noMemory [1, 2], .write oneBlock [3, 4, 5]] = some o ∧ o.buffer.m_cur = none ∧
        o.buffer.m_position < o.buffer.m_capacity := ⟨_, rfl, rfl, by decide⟩
  exact absurd ((hkeeps.final hrun).2.cur_null.mp hcur) (Nat.ne_of_lt hlt)

end ByteArray

end Muqiu
