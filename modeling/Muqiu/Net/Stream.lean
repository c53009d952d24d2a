import Muqiu.ByteArray.Buffers
import Muqiu.Net.Socket

/-!
# The stream path of a `ByteArray`

`SocketStream::write(ba, length)` hands the pieces of `getReadBuffers` to `sendmsg` and
`SocketStream::read(ba, length)` the pieces of `getWriteBuffers` to `recvmsg`; both move the
cursor on by the result when it is positive.  `Stream::writeFixSize` and
`Stream::readFixSize` call them until `length` bytes have gone or a result is not positive.

The socket is an outcome for every call.  It may stop anywhere, inside a piece or between
two, and may fail at any call.
-/

namespace Muqiu

open Window

/-- `INT_MAX` -/
def INT_MAX : Nat := 2147483647

theorem toInt32_of_le {n : Nat} (h : n ≤ INT_MAX) : Conn.toInt32 n = n := by
  have hmax : INT_MAX = 2147483647 := rfl
  rw [Conn.toInt32, BitVec.toInt_ofNat', Int.bmod_def]
  omega

/-- What a call that sends finds: the socket not connected, a result of 0 or less, or room
for `n` bytes. -/
inductive SendOutcome where
  | disconnected
  | failed (rt : Int) (nonpos : rt ≤ 0)
  | accepts (n : Nat)

/-- What a call that receives finds: the socket not connected, a result of 0 or less, or
bytes. -/
inductive RecvOutcome where
  | disconnected
  | failed (rt : Int) (nonpos : rt ≤ 0)
  | delivers (bs : List UInt8)

/-! ## One call -/

namespace SocketStream

/-- `Socket::send(const iovec *, …)` over the bytes of the pieces: the result and the bytes
that go out. -/
def send (o : SendOutcome) (bytes : List UInt8) : Int × List UInt8 :=
  match o with
  | .disconnected => (-1, [])
  | .failed rt _ => (rt, [])
  | .accepts n => (Conn.toInt32 (bytes.take n).length, bytes.take n)

/-- `Socket::recv(iovec *, …)` over pieces of `total` bytes: the result and the bytes that
come in. -/
def recv (o : RecvOutcome) (total : Nat) : Int × List UInt8 :=
  match o with
  | .disconnected => (-1, [])
  | .failed rt _ => (rt, [])
  | .delivers bs => (Conn.toInt32 (bs.take total).length, bs.take total)

/-- The end of both calls: the cursor moves on by a positive result. -/
def advance (rt : Int) (bs : List UInt8) (ba : ByteArray) :
    Except Fault (Int × List UInt8 × ByteArray) :=
  if rt > 0 then do
    let ba' ← ba.setPosition (ba.getPosition + rt.toNat)
    .ok (rt, bs, ba')
  else .ok (rt, bs, ba)

/-- `write(ba, length)`: the result, the bytes sent and the buffer. -/
def write (o : SendOutcome) (ba : ByteArray) (length : Nat) :
    Except Fault (Int × List UInt8 × ByteArray) :=
  match o with
  | .disconnected => .ok (-1, [], ba)
  | o => do
      let (_, iovs) ← ba.getReadBuffers length
      let (rt, sent) := send o (ByteArray.gather ba.m_root iovs)
      advance rt sent ba

/-- `read(ba, length)`: the result, the bytes received and the buffer. -/
def read (mem : Nat → UInt8) (o : RecvOutcome) (ba : ByteArray) (length : Nat) :
    Except Fault (Int × List UInt8 × ByteArray) :=
  match o with
  | .disconnected => .ok (-1, [], ba)
  | o => do
      let (_, iovs, ba) ← ba.getWriteBuffers mem length
      let (rt, got) := recv o (ByteArray.span iovs)
      advance rt got { ba with m_root := ByteArray.scatter ba.m_root iovs got }

theorem advance_nonpos {rt : Int} (h : rt ≤ 0) (bs : List UInt8) (ba : ByteArray) :
    advance rt bs ba = .ok (rt, bs, ba) := by
  rw [advance, if_neg (by omega)]

theorem advance_pos {n : Nat} (h : 0 < n) (bs : List UInt8) {ba ba' : ByteArray}
    (hset : ba.setPosition (ba.m_position + n) = .ok ba') :
    advance n bs ba = .ok ((n : Int), bs, ba') := by
  rw [advance, if_pos (by omega), ByteArray.getPosition, Int.toNat_natCast, hset]
  rfl

end SocketStream

/-! ## The loops -/

namespace Stream

/-- A call on the stream, in its round: the result, the bytes transferred and the buffer. -/
abbrev Call := Nat → ByteArray → Nat → Except Fault (Int × List UInt8 × ByteArray)

/-- `while (left > 0)` of `readFixSize` and `writeFixSize`: the result that ends it, if one
does, the results of the calls, the bytes transferred and the buffer. -/
def fixLoop (call : Call) (round : Nat) (ba : ByteArray) (left : Int) :
    Except Fault (Option Int × List Int × List UInt8 × ByteArray) :=
  if 0 < left then
    match call round ba left.toNat with
    | .error f => .error f
    | .ok (len, bs, ba') =>
        if len ≤ 0 then .ok (some len, [len], bs, ba')
        else
          (fixLoop call (round + 1) ba' (left - len)).map fun r =>
            (r.1, len :: r.2.1, bs ++ r.2.2.1, r.2.2.2)
  else .ok (none, [], [], ba)
termination_by left.toNat

/-- Both functions: the result, the results of the calls, the bytes and the buffer. -/
def fixSize (call : Call) (ba : ByteArray) (length : Nat) :
    Except Fault (Int × List Int × List UInt8 × ByteArray) :=
  (fixLoop call 0 ba length).map fun r =>
    (match r.1 with
      | some len => len
      | none => Conn.toInt32 length, r.2)

/-- `Stream::readFixSize` -/
def readFixSize (mem : Nat → Nat → UInt8) (recvs : Nat → RecvOutcome) (ba : ByteArray)
    (length : Nat) : Except Fault (Int × List Int × List UInt8 × ByteArray) :=
  fixSize (fun round => SocketStream.read (mem round) (recvs round)) ba length

/-- How a transfer of `moved` out of `length` bytes ends, by the results of its calls. -/
structure Ends (length moved : Nat) (rts : List Int) (result : Int) : Prop where
  moved_le : moved ≤ length
  all_iff : result = length ↔ moved = length
  /-- Otherwise the last call is the first whose result is not positive, and gives it. -/
  first_nonpos : moved ≠ length →
    ∃ before, rts = before ++ [result] ∧ (∀ rt ∈ before, 0 < rt) ∧ result ≤ 0

/-- Every call transfers what `R` relates: as many bytes as its result says, or none. -/
structure Transfers (call : Call) (R : ByteArray → ByteArray → List UInt8 → Prop) : Prop where
  refl : ∀ {s : ByteArray}, s.Inv → R s s []
  trans : ∀ {s s₁ s₂ : ByteArray} {bs cs : List UInt8}, R s s₁ bs → R s₁ s₂ cs →
    R s s₂ (bs ++ cs)
  inv : ∀ {s s' : ByteArray} {bs : List UInt8}, R s s' bs → s'.Inv
  step : ∀ (round : Nat) {s : ByteArray} {left : Nat}, s.Inv → 0 < left → left ≤ INT_MAX →
    ∃ rt bs s', call round s left = .ok (rt, bs, s') ∧ R s s' bs ∧ bs.length ≤ left ∧
      (rt = bs.length ∨ bs = [] ∧ rt ≤ 0)

section Loop

variable {call : Call} {R : ByteArray → ByteArray → List UInt8 → Prop}

theorem Transfers.fixLoop (h : Transfers call R) {left : Nat} (hleft : left ≤ INT_MAX) :
    ∀ (round : Nat) {s : ByteArray}, s.Inv →
      ∃ ended rts bs s', Stream.fixLoop call round s left = .ok (ended, rts, bs, s') ∧
        R s s' bs ∧
        (ended = none ∧ bs.length = left ∨
          ∃ before rt, ended = some rt ∧ bs.length < left ∧ rts = before ++ [rt] ∧
            (∀ rt' ∈ before, 0 < rt') ∧ rt ≤ 0) := by
  induction left using Nat.strong_induction_on with
  | _ left ih =>
      intro round s hinv
      rw [Stream.fixLoop]
      rcases Nat.eq_zero_or_pos left with rfl | hpos
      · rw [if_neg (by omega)]
        exact ⟨none, [], [], s, rfl, h.refl hinv, Or.inl ⟨rfl, rfl⟩⟩
      · obtain ⟨rt, bs, s₁, hcall, hR, hle, hrt⟩ := h.step round hinv hpos hleft
        rw [if_pos (by omega), Int.toNat_natCast, hcall]
        dsimp only
        by_cases hstop : rt ≤ 0
        · have hnone : bs = [] := by
            rcases hrt with hrt | ⟨hnone, _⟩
            · exact List.length_eq_zero_iff.mp (by omega)
            · exact hnone
          subst hnone
          rw [if_pos hstop]
          exact ⟨some rt, [rt], [], s₁, rfl, hR,
            Or.inr ⟨[], rt, rfl, hpos, rfl, by simp, hstop⟩⟩
        · have hrt' : rt = bs.length := by
            rcases hrt with hrt | ⟨_, hnonpos⟩
            · exact hrt
            · exact absurd hnonpos hstop
          have hsub : (left : Int) - rt = ((left - bs.length : Nat) : Int) := by omega
          obtain ⟨ended, rts, cs, s₂, hloop, hR', hend⟩ :=
            ih (left - bs.length) (by omega) (by omega) (round + 1) (h.inv hR)
          rw [if_neg hstop, hsub, hloop]
          refine ⟨ended, rt :: rts, bs ++ cs, s₂, rfl, h.trans hR hR', ?_⟩
          rw [List.length_append]
          rcases hend with ⟨hended, hlen⟩ | ⟨before, rt', hended, hlen, hrts, hbefore, hrt''⟩
          · exact Or.inl ⟨hended, by omega⟩
          · refine Or.inr ⟨rt :: before, rt', hended, by omega, by rw [hrts]; rfl, ?_, hrt''⟩
            exact List.forall_mem_cons.mpr ⟨by omega, hbefore⟩

theorem Transfers.fixSize (h : Transfers call R) {s : ByteArray} (hinv : s.Inv) {length : Nat}
    (hlen : length ≤ INT_MAX) :
    ∃ result rts bs s', Stream.fixSize call s length = .ok (result, rts, bs, s') ∧ R s s' bs ∧
      Ends length bs.length rts result := by
  obtain ⟨ended, rts, bs, s', hloop, hR, hend⟩ := h.fixLoop hlen 0 hinv
  rw [Stream.fixSize, hloop]
  rcases hend with ⟨rfl, hall⟩ | ⟨before, rt, rfl, hlt, hrts, hbefore, hrt⟩
  · refine ⟨_, rts, bs, s', rfl, hR, Nat.le_of_eq hall, ?_, fun hne => absurd hall hne⟩
    exact ⟨fun _ => hall, fun _ => toInt32_of_le hlen⟩
  · refine ⟨rt, rts, bs, s', rfl, hR, Nat.le_of_lt hlt, ?_, fun _ => ⟨before, hrts, hbefore, hrt⟩⟩
    constructor
    · intro heq
      omega
    · intro heq
      omega

end Loop

/-! ## Sending -/

/-- `bs` are the first unread bytes and have been passed over. -/
structure Sent (s s' : ByteArray) (bs : List UInt8) : Prop where
  consumed : ByteArray.Consumed s s' bs.length
  first : bs <+: s.unread

theorem Sent.trans {s s₁ s₂ : ByteArray} {bs cs : List UInt8} (h : Sent s s₁ bs)
    (h' : Sent s₁ s₂ cs) : Sent s s₂ (bs ++ cs) := by
  obtain ⟨rest, hrest⟩ := h.first
  obtain ⟨rest', hrest'⟩ := h'.first
  rw [h.consumed.unread, ← hrest, List.drop_left' rfl] at hrest'
  refine ⟨?_, rest', by rw [List.append_assoc, hrest', hrest]⟩
  rw [List.length_append]
  exact h.consumed.trans h'.consumed

theorem Sent.refl {s : ByteArray} (h : s.Inv) : Sent s s [] :=
  ⟨ByteArray.Consumed.refl h, List.nil_prefix⟩

/-- `bs` stand at the old cursor and the cursor behind them.  Nothing else in the memory has
changed, which may have grown by `extra`. -/
structure Received (s s' : ByteArray) (bs : List UInt8) : Prop where
  inv : s'.Inv
  position : s'.m_position = s.m_position + bs.length
  size : s'.m_size = max s.m_size (s.m_position + bs.length)
  memory : ∃ extra, s'.m_root.flatten = overwrite (s.m_root.flatten ++ extra) s.m_position bs ∧
    s.m_position + bs.length ≤ (s.m_root.flatten ++ extra).length

theorem Received.refl {s : ByteArray} (h : s.Inv) : Received s s [] := by
  have hpos := h.pos_le
  have hsize := h.size_le
  have hlen := h.length_flatten
  refine ⟨h, rfl, (Nat.max_eq_left hpos).symm, [], ?_, ?_⟩
  · rw [overwrite_nil, List.append_nil]
  · rw [List.append_nil, hlen]
    show s.m_position ≤ s.m_capacity
    omega

theorem Received.trans {s s₁ s₂ : ByteArray} {bs cs : List UInt8} (h : Received s s₁ bs)
    (h' : Received s₁ s₂ cs) : Received s s₂ (bs ++ cs) := by
  obtain ⟨extra, hmemory, hfits⟩ := h.memory
  obtain ⟨extra', hmemory', hfits'⟩ := h'.memory
  have hposition := h.position
  have hall : s₁.m_root.flatten ++ extra' =
      overwrite (s.m_root.flatten ++ (extra ++ extra')) s.m_position bs := by
    rw [hmemory, ← List.append_assoc, overwrite_append_left hfits]
  have hlong : s.m_position + bs.length ≤ (s.m_root.flatten ++ (extra ++ extra')).length := by
    rw [← List.append_assoc, List.length_append]
    omega
  refine ⟨h'.inv, ?_, ?_, extra ++ extra', ?_, ?_⟩
  · rw [h'.position, hposition, List.length_append, Nat.add_assoc]
  · rw [h'.size, h.size, hposition, List.length_append]
    omega
  · rw [hmemory', hall, hposition, overwrite_overwrite hlong]
  · rw [hall, length_overwrite hlong, hposition] at hfits'
    rw [List.length_append]
    omega

/-- The pieces filled from their start, with the cursor not yet moved. -/
theorem scattered {mem : Nat → UInt8} {s g : ByteArray} {left count : Nat}
    {vs : List ByteArray.IoVec} {bs : List UInt8}
    (hg : ByteArray.Grown mem s g left count) (hinv : g.Inv) (hle : bs.length ≤ left)
    (hu : Uniform g.m_baseSize (ByteArray.scatter g.m_root vs bs))
    (hlen : (ByteArray.scatter g.m_root vs bs).length = g.m_root.length)
    (hflat : (ByteArray.scatter g.m_root vs bs).flatten =
      overwrite g.m_root.flatten g.m_position bs) :
    ByteArray.Inv { g with m_root := ByteArray.scatter g.m_root vs bs } ∧
      ∃ extra, (ByteArray.scatter g.m_root vs bs).flatten =
        overwrite (s.m_root.flatten ++ extra) s.m_position bs ∧
        s.m_position + bs.length ≤ (s.m_root.flatten ++ extra).length := by
  have hfits := hg.fits
  have hcap := hinv.length_flatten
  refine ⟨⟨hinv.base_pos, hu, ?_, hinv.capacity.trans (by rw [hlen]), hinv.pos_le, hinv.size_le,
    hinv.cur.trans ?_⟩, (ByteArray.newNodes mem s.m_baseSize count).flatten, ?_, ?_⟩
  · have hroot := List.length_pos_iff.mpr hinv.root_ne
    rw [← hlen] at hroot
    exact List.length_pos_iff.mp hroot
  · simp only [ByteArray.nodeAt, hlen]
  · rw [hflat, hg.root, hg.position, List.flatten_append]
  · rw [← List.flatten_append, ← hg.root, hcap]
    omega

/-- One `read` puts the bytes received at the cursor and moves it behind them. -/
theorem read_received (mem : Nat → UInt8) (o : RecvOutcome) {s : ByteArray} {left : Nat}
    (h : s.Inv) (hpos : 0 < left) (hleft : left ≤ INT_MAX) :
    ∃ rt bs s', SocketStream.read mem o s left = .ok (rt, bs, s') ∧ Received s s' bs ∧
      bs.length ≤ left ∧ (rt = bs.length ∨ bs = [] ∧ rt ≤ 0) := by
  obtain ⟨vs, g, count, hbuffers, hg, hinv, hspan, hscatter⟩ :=
    ByteArray.getWriteBuffers_spec mem h hpos
  have hnone : Received s { g with m_root := ByteArray.scatter g.m_root vs [] } [] := by
    obtain ⟨hu, hlen, hflat⟩ := hscatter [] (Nat.zero_le _)
    obtain ⟨hinv', hmemory⟩ := scattered hg hinv (Nat.zero_le _) hu hlen hflat
    refine ⟨hinv', hg.position, ?_, hmemory⟩
    show g.m_size = _
    rw [hg.size]
    exact (Nat.max_eq_left h.pos_le).symm
  cases o with
  | disconnected =>
      exact ⟨-1, [], s, rfl, Received.refl h, Nat.zero_le _, Or.inr ⟨rfl, by decide⟩⟩
  | failed rt nonpos =>
      have hread : SocketStream.read mem (.failed rt nonpos) s left =
          SocketStream.advance rt [] { g with m_root := ByteArray.scatter g.m_root vs [] } := by
        rw [SocketStream.read, hbuffers]
        · rfl
        · rintro ⟨⟩
      exact ⟨rt, [], _, hread.trans (SocketStream.advance_nonpos nonpos [] _), hnone,
        Nat.zero_le _, Or.inr ⟨rfl, nonpos⟩⟩
  | delivers bs =>
      have hle : (bs.take left).length ≤ left := List.length_take_le left bs
      have hread : SocketStream.read mem (.delivers bs) s left =
          SocketStream.advance (bs.take left).length (bs.take left)
            { g with m_root := ByteArray.scatter g.m_root vs (bs.take left) } := by
        rw [SocketStream.read, hbuffers]
        · show SocketStream.advance (Conn.toInt32 (bs.take (ByteArray.span vs)).length)
            (bs.take (ByteArray.span vs)) { g with
              m_root := ByteArray.scatter g.m_root vs (bs.take (ByteArray.span vs)) } = _
          rw [hspan, toInt32_of_le (Nat.le_trans hle hleft)]
        · rintro ⟨⟩
      rw [hread]
      generalize bs.take left = got at hle
      rcases Nat.eq_zero_or_pos got.length with hzero | hgot
      · have hnil := List.length_eq_zero_iff.mp hzero
        subst hnil
        exact ⟨0, [], _, SocketStream.advance_nonpos (Int.le_refl 0) [] _, hnone, Nat.zero_le _,
          Or.inl rfl⟩
      · obtain ⟨hu, hlen, hflat⟩ := hscatter got hle
        obtain ⟨hinv', hmemory⟩ := scattered hg hinv hle hu hlen hflat
        have hfits := hg.fits
        have hposition := hg.position
        obtain ⟨s', hset, hafter⟩ := ByteArray.setPosition_after hinv'
          (v := g.m_position + got.length)
          (show g.m_position + got.length ≤ g.m_capacity by omega)
        have hcursor : s'.m_position = g.m_position + got.length :=
          congrArg ByteArray.Flat.position hafter.flat
        have hdata : s'.m_size = max g.m_size (g.m_position + got.length) :=
          congrArg ByteArray.Flat.size hafter.flat
        refine ⟨got.length, got, s', SocketStream.advance_pos hgot got hset,
          ⟨hafter.inv, ?_, ?_, ?_⟩, hle, Or.inl rfl⟩
        · rw [hcursor, hposition]
        · rw [hdata, hg.size, hposition]
        · rw [(ByteArray.setPosition_keeps hset).2.1]
          exact hmemory

end Stream

end Muqiu
