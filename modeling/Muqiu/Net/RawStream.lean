import Muqiu.Lib.Fallible
import Muqiu.Net.Stream

/-!
# Reading into a buffer

`Stream::readFixSize(void *, size_t)` is the loop of the overload for a `ByteArray` but for one
comparison: it only ends for a result below 0.  At the end of the stream `recv` gives 0 every time
it is called, so the loop calls it for ever, and the model of the loop counts its rounds down from
a bound.
-/

namespace Muqiu

open Window

namespace RecvOutcome

/-- The peer has closed, and the call gives 0. -/
def AtEnd : RecvOutcome → Prop
  | .disconnected => False
  | .failed rt _ => rt = 0
  | .delivers bs => bs = []

end RecvOutcome

/-- What the calls that receive find, in turn.  Once the peer has closed it stays so. -/
structure Peer where
  recvs : Nat → RecvOutcome
  closed : ∀ round, (recvs round).AtEnd → (recvs (round + 1)).AtEnd

namespace Stream

/-- `while (left > 0)` of `readFixSize(void *, size_t)`: the result that ends it, if one does, the
results of the calls, the bytes received and the buffer; `none` when the rounds are used up. -/
def bufferLoop (recvs : Nat → RecvOutcome) : Nat → Nat → List UInt8 → Nat → Int →
    Option (Option Int × List Int × List UInt8 × List UInt8)
  | 0, _, _, _, _ => none
  | rounds + 1, round, buffer, offset, left =>
      if 0 < left then
        match SocketStream.recv (recvs round) left.toNat with
        | (len, bs) =>
            if len < 0 then some (some len, [len], bs, overwrite buffer offset bs)
            else
              (bufferLoop recvs rounds (round + 1) (overwrite buffer offset bs)
                (offset + len.toNat) (left - len)).map fun r =>
                  (r.1, len :: r.2.1, bs ++ r.2.2.1, r.2.2.2)
      else some (none, [], [], buffer)

/-- `readFixSize(void *, size_t)` -/
def readFixSizeBuffer (recvs : Nat → RecvOutcome) (rounds : Nat) (buffer : List UInt8)
    (length : Nat) : Option (Int × List Int × List UInt8 × List UInt8) :=
  (bufferLoop recvs rounds 0 buffer 0 length).map fun r =>
    (match r.1 with
      | some len => len
      | none => Conn.toInt32 length, r.2)

/-- The call returns.  It puts the bytes received at the front of the buffer, in order, and ends
as the call for any `ByteArray` does, which is given the same results. -/
def Completes (recvs : Nat → RecvOutcome) (buffer : List UInt8) (length : Nat) : Prop :=
  ∃ rounds result rts received buffer',
    readFixSizeBuffer recvs rounds buffer length = some (result, rts, received, buffer') ∧
      buffer' = overwrite buffer 0 received ∧ window buffer' 0 received.length = received ∧
      Ends length received.length rts result ∧
      ∀ (mem : Nat → Nat → UInt8) (s : ByteArray), s.Inv →
        ∃ s', readFixSize mem recvs s length = .ok (result, rts, received, s')

/-- From the call `round` on the peer closes when fewer than `left` bytes have come. -/
inductive ClosesWithin (recvs : Nat → RecvOutcome) : Nat → Nat → Prop where
  | now {round left : Nat} : 0 < left → (recvs round).AtEnd → ClosesWithin recvs round left
  | later {round left : Nat} {bs : List UInt8} : recvs round = .delivers bs →
      ClosesWithin recvs (round + 1) (left - bs.length) → ClosesWithin recvs round left

/-! ## One call -/

theorem recv_spec (o : RecvOutcome) {left : Nat} (hleft : left ≤ INT_MAX) :
    (SocketStream.recv o left).2.length ≤ left ∧
      ((SocketStream.recv o left).1 = (SocketStream.recv o left).2.length ∨
        (SocketStream.recv o left).2 = [] ∧ (SocketStream.recv o left).1 ≤ 0) := by
  cases o with
  | disconnected => exact ⟨Nat.zero_le _, Or.inr ⟨rfl, Int.negSucc_le_zero 0⟩⟩
  | failed rt nonpos => exact ⟨Nat.zero_le _, Or.inr ⟨rfl, nonpos⟩⟩
  | delivers bs =>
      have hle : (bs.take left).length ≤ left := List.length_take_le left bs
      exact ⟨hle, Or.inl (toInt32_of_le (Nat.le_trans hle hleft))⟩

theorem recv_zero_iff (o : RecvOutcome) {left : Nat} (hpos : 0 < left) (hleft : left ≤ INT_MAX) :
    (SocketStream.recv o left).1 = 0 ↔ o.AtEnd := by
  cases o with
  | disconnected => exact iff_of_false (fun h => by cases h) id
  | failed rt nonpos => exact Iff.rfl
  | delivers bs =>
      have hle : (bs.take left).length ≤ INT_MAX :=
        Nat.le_trans (List.length_take_le left bs) hleft
      rw [SocketStream.recv, toInt32_of_le hle, Int.natCast_eq_zero, List.length_eq_zero_iff,
        List.take_eq_nil_iff]
      exact or_iff_right (by omega)

/-- A positive result is that of bytes. -/
theorem delivers_of_pos {o : RecvOutcome} {left : Nat} (h : 0 < (SocketStream.recv o left).1) :
    ∃ bs, o = .delivers bs := by
  cases o with
  | disconnected => cases h
  | failed rt nonpos => exact absurd nonpos (Int.not_le.mpr h)
  | delivers bs => exact ⟨bs, rfl⟩

/-- The call on a `ByteArray` has the result and the bytes of the `recv`. -/
theorem read_recv (mem : Nat → UInt8) (o : RecvOutcome) {s : ByteArray} {left : Nat}
    (h : s.Inv) (hpos : 0 < left) (hleft : left ≤ INT_MAX) :
    ∃ s', SocketStream.read mem o s left =
      .ok ((SocketStream.recv o left).1, (SocketStream.recv o left).2, s') ∧ s'.Inv := by
  obtain ⟨rt, bs, s', hread, hreceived, -⟩ := read_received mem o h hpos hleft
  suffices heq : (rt, bs) = SocketStream.recv o left by
    rw [← heq]
    exact ⟨s', hread, hreceived.inv⟩
  obtain ⟨vs, g, count, hbuffers, -, -, hspan, -⟩ := ByteArray.getWriteBuffers_spec mem h hpos
  have hadvance : ∀ {rt' : Int} {bs' : List UInt8} {ba : ByteArray},
      SocketStream.advance rt' bs' ba = .ok (rt, bs, s') → (rt, bs) = (rt', bs') := by
    intro rt' bs' ba hadv
    rw [SocketStream.advance] at hadv
    split at hadv
    · obtain ⟨ba', -, hok⟩ := (Fallible.bind_ok_iff ..).mp hadv
      cases hok
      rfl
    · cases hadv
      rfl
  cases o with
  | disconnected =>
      cases hread
      rfl
  | failed rt' nonpos =>
      rw [SocketStream.read, hbuffers] at hread
      · exact hadvance hread
      · rintro ⟨⟩
  | delivers bs' =>
      rw [SocketStream.read, hbuffers] at hread
      · have hgot := hadvance hread
        rw [hspan] at hgot
        exact hgot
      · rintro ⟨⟩

/-! ## The results of a whole call -/

/-- What the calls from `round` on come to when `left` bytes are wanted, and the first result that
is not positive ends them. -/
inductive Receives (recvs : Nat → RecvOutcome) :
    Nat → Nat → Option Int → List Int → List UInt8 → Prop where
  | all {round : Nat} : Receives recvs round 0 none [] []
  | ends {round left : Nat} : 0 < left → (SocketStream.recv (recvs round) left).1 ≤ 0 →
      Receives recvs round left (some (SocketStream.recv (recvs round) left).1)
        [(SocketStream.recv (recvs round) left).1] []
  | more {round left : Nat} {ended : Option Int} {rts : List Int} {bs : List UInt8} :
      0 < left → 0 < (SocketStream.recv (recvs round) left).1 →
      Receives recvs (round + 1) (left - (SocketStream.recv (recvs round) left).2.length) ended
        rts bs →
      Receives recvs round left ended ((SocketStream.recv (recvs round) left).1 :: rts)
        ((SocketStream.recv (recvs round) left).2 ++ bs)

variable {recvs : Nat → RecvOutcome} {round left : Nat} {ended : Option Int} {rts : List Int}
  {bs : List UInt8}

theorem recv_of_nonpos (o : RecvOutcome) (hleft : left ≤ INT_MAX)
    (h : (SocketStream.recv o left).1 ≤ 0) : (SocketStream.recv o left).2 = [] := by
  rcases (recv_spec o hleft).2 with hrt | ⟨hnil, -⟩
  · exact List.length_eq_zero_iff.mp (by omega)
  · exact hnil

theorem recv_of_pos (o : RecvOutcome) (hleft : left ≤ INT_MAX)
    (h : 0 < (SocketStream.recv o left).1) :
    (SocketStream.recv o left).1 = (SocketStream.recv o left).2.length := by
  rcases (recv_spec o hleft).2 with hrt | ⟨-, hnonpos⟩
  · exact hrt
  · omega

theorem Receives.ends_spec (h : Receives recvs round left ended rts bs)
    (hleft : left ≤ INT_MAX) :
    ended = none ∧ bs.length = left ∨ ∃ before rt, ended = some rt ∧ bs.length < left ∧
      rts = before ++ [rt] ∧ (∀ rt' ∈ before, 0 < rt') ∧ rt ≤ 0 := by
  induction h with
  | all => exact Or.inl ⟨rfl, rfl⟩
  | ends hpos hnonpos => exact Or.inr ⟨[], _, rfl, hpos, rfl, by rintro _ ⟨⟩, hnonpos⟩
  | @more round left ended rts bs hpos hrt _ ih =>
      have hle := (recv_spec (recvs round) hleft).1
      rw [List.length_append]
      rcases ih (by omega) with ⟨hended, hlen⟩ | ⟨before, rt, hended, hlen, hrts, hbefore, hnonpos⟩
      · exact Or.inl ⟨hended, by omega⟩
      · exact Or.inr ⟨_ :: before, rt, hended, by omega, by rw [hrts]; rfl,
          List.forall_mem_cons.mpr ⟨hrt, hbefore⟩, hnonpos⟩

/-- The overload for a `ByteArray` takes these calls. -/
theorem Receives.fixLoop (h : Receives recvs round left ended rts bs) (hleft : left ≤ INT_MAX)
    (mem : Nat → Nat → UInt8) {s : ByteArray} (hs : s.Inv) :
    ∃ s', Stream.fixLoop (fun round => SocketStream.read (mem round) (recvs round)) round s left =
      .ok (ended, rts, bs, s') := by
  induction h generalizing s with
  | all =>
      rw [Stream.fixLoop, if_neg (by omega)]
      exact ⟨s, rfl⟩
  | @ends round left hpos hnonpos =>
      obtain ⟨s', hread, -⟩ := read_recv (mem round) (recvs round) hs hpos hleft
      rw [Stream.fixLoop, if_pos (by omega), Int.toNat_natCast, hread]
      simp only
      rw [if_pos hnonpos, recv_of_nonpos _ hleft hnonpos]
      exact ⟨s', rfl⟩
  | @more round left ended rts bs hpos hrt _ ih =>
      obtain ⟨s₁, hread, hs₁⟩ := read_recv (mem round) (recvs round) hs hpos hleft
      obtain ⟨s', hloop⟩ := ih (by omega) hs₁
      have hle := (recv_spec (recvs round) hleft).1
      have hlen := recv_of_pos (recvs round) hleft hrt
      rw [Stream.fixLoop, if_pos (by omega), Int.toNat_natCast, hread]
      simp only
      rw [if_neg (by omega), hlen, ← Int.ofNat_sub hle, hloop]
      exact ⟨s', rfl⟩

/-! ## The loop -/

theorem overwrite_front {buffer bs cs : List UInt8} {offset : Nat}
    (h : offset + (bs ++ cs).length ≤ buffer.length) :
    overwrite (overwrite buffer offset bs) (offset + bs.length) cs =
      overwrite buffer offset (bs ++ cs) := by
  rw [List.length_append] at h
  exact overwrite_overwrite (by omega)

/-- Where the peer does not close too early the loop ends. -/
theorem bufferLoop_returns (hleft : left ≤ INT_MAX) :
    ∀ (round offset : Nat) (buffer : List UInt8), ¬ ClosesWithin recvs round left →
      offset + left ≤ buffer.length →
      ∃ rounds ended rts bs, Receives recvs round left ended rts bs ∧ bs.length ≤ left ∧
        bufferLoop recvs rounds round buffer offset left =
          some (ended, rts, bs, overwrite buffer offset bs) := by
  induction left using Nat.strong_induction_on with
  | _ left ih =>
      intro round offset buffer hopen hfits
      rcases Nat.eq_zero_or_pos left with rfl | hpos
      · refine ⟨1, none, [], [], .all, Nat.zero_le _, ?_⟩
        rw [bufferLoop, if_neg (by omega), overwrite_nil]
      · have hzero : (SocketStream.recv (recvs round) left).1 ≠ 0 := fun heq =>
          hopen (.now hpos ((recv_zero_iff _ hpos hleft).mp heq))
        rcases Int.lt_or_lt_of_ne hzero with hneg | hrt
        · refine ⟨1, _, _, _, .ends hpos (Int.le_of_lt hneg), Nat.zero_le _, ?_⟩
          rw [bufferLoop, if_pos (by omega), Int.toNat_natCast]
          simp only
          rw [if_pos hneg, recv_of_nonpos _ hleft (Int.le_of_lt hneg)]
        · obtain ⟨bs, hdelivers⟩ := delivers_of_pos hrt
          have hle := (recv_spec (recvs round) hleft).1
          have hlen := recv_of_pos (recvs round) hleft hrt
          have htake : (SocketStream.recv (recvs round) left).2 = bs.take left := by
            rw [hdelivers, SocketStream.recv]
          have hsub : left - (SocketStream.recv (recvs round) left).2.length =
              left - bs.length := by
            rw [htake, List.length_take]
            omega
          have hwritten : (overwrite buffer offset
              (SocketStream.recv (recvs round) left).2).length = buffer.length :=
            length_overwrite (by omega)
          obtain ⟨rounds, ended, rts, cs, hreceives, hcs, hloop⟩ :=
            ih (left - (SocketStream.recv (recvs round) left).2.length) (by omega) (by omega)
              (round + 1) (offset + (SocketStream.recv (recvs round) left).2.length)
              (overwrite buffer offset (SocketStream.recv (recvs round) left).2)
              (fun hcloses => hopen (.later hdelivers (hsub ▸ hcloses)))
              (by rw [hwritten]; omega)
          refine ⟨rounds + 1, ended, _, _, .more hpos hrt hreceives, ?_, ?_⟩
          · rw [List.length_append]
            omega
          · rw [bufferLoop, if_pos (by omega), Int.toNat_natCast]
            simp only
            rw [if_neg (by omega), hlen, Int.toNat_natCast, ← Int.ofNat_sub hle, hloop,
              Option.map_some, overwrite_front (by rw [List.length_append]; omega)]

/-- At the end of the stream the loop goes on for ever. -/
theorem bufferLoop_atEnd {peer : Peer} (hpos : 0 < left) (hleft : left ≤ INT_MAX) :
    ∀ (rounds : Nat) {round : Nat} (offset : Nat) (buffer : List UInt8),
      (peer.recvs round).AtEnd → bufferLoop peer.recvs rounds round buffer offset left = none
  | 0, _, _, _, _ => rfl
  | rounds + 1, round, offset, buffer, hend => by
      have hzero := (recv_zero_iff (peer.recvs round) hpos hleft).mpr hend
      rw [bufferLoop, if_pos (by omega), Int.toNat_natCast]
      simp only
      rw [hzero, if_neg (Int.lt_irrefl 0), Int.sub_zero,
        bufferLoop_atEnd hpos hleft rounds _ _ (peer.closed round hend), Option.map_none]

theorem ClosesWithin.pos (h : ClosesWithin recvs round left) : 0 < left := by
  induction h with
  | now hpos _ => exact hpos
  | later _ _ ih => omega

/-- A peer that closes too early keeps the loop running. -/
theorem bufferLoop_closes {peer : Peer} (h : ClosesWithin peer.recvs round left)
    (hleft : left ≤ INT_MAX) (rounds offset : Nat) (buffer : List UInt8) :
    bufferLoop peer.recvs rounds round buffer offset left = none := by
  induction h generalizing rounds offset buffer with
  | now hpos hend => exact bufferLoop_atEnd hpos hleft rounds offset buffer hend
  | @later round left bs hdelivers hcloses ih =>
      cases rounds with
      | zero => rfl
      | succ rounds =>
          have hpos := hcloses.pos
          have hle : (bs.take left).length ≤ left := List.length_take_le left bs
          have hsub : left - (bs.take left).length = left - bs.length := by
            rw [List.length_take]
            omega
          have hrecv : SocketStream.recv (.delivers bs) left =
              (((bs.take left).length : Int), bs.take left) := by
            rw [SocketStream.recv, toInt32_of_le (Nat.le_trans hle hleft)]
          rw [bufferLoop, if_pos (by omega), Int.toNat_natCast, hdelivers, hrecv]
          simp only
          rw [if_neg (by omega), Int.toNat_natCast, ← Int.ofNat_sub hle, hsub, ih (by omega),
            Option.map_none]

/-! ## Whole calls -/

/-- For every behaviour of the peer, `readFixSize(void *, size_t)` returns, with what the overload
for a `ByteArray` returns, exactly when the peer does not close before all bytes have come or a
call has failed. -/
theorem completes_iff (peer : Peer) {buffer : List UInt8} {length : Nat}
    (hlen : length ≤ INT_MAX) (hbuffer : length ≤ buffer.length) :
    Completes peer.recvs buffer length ↔ ¬ ClosesWithin peer.recvs 0 length := by
  constructor
  · rintro ⟨rounds, result, rts, received, buffer', hread, -⟩ hcloses
    rw [readFixSizeBuffer, bufferLoop_closes hcloses hlen] at hread
    cases hread
  · intro hopen
    obtain ⟨rounds, ended, rts, bs, hreceives, hle, hloop⟩ :=
      bufferLoop_returns hlen 0 0 buffer hopen (by omega)
    have hwindow : window (overwrite buffer 0 bs) 0 bs.length = bs := window_overwrite (by omega)
    have hfix : ∀ (mem : Nat → Nat → UInt8) (s : ByteArray), s.Inv →
        ∃ s', fixLoop (fun round => SocketStream.read (mem round) (peer.recvs round)) 0 s length =
          .ok (ended, rts, bs, s') := fun mem s hs => hreceives.fixLoop hlen mem hs
    rcases hreceives.ends_spec hlen with ⟨rfl, hall⟩ | ⟨before, rt, rfl, hlt, hrts, hbefore, hrt⟩
    · refine ⟨rounds, Conn.toInt32 length, rts, bs, _, ?_, rfl, hwindow,
        ⟨hle, iff_of_true (toInt32_of_le hlen) hall, fun hne => absurd hall hne⟩,
        fun mem s hs => ?_⟩
      · rw [readFixSizeBuffer, hloop]
        rfl
      · obtain ⟨s', hs'⟩ := hfix mem s hs
        exact ⟨s', by rw [readFixSize, fixSize, hs']; rfl⟩
    · refine ⟨rounds, rt, rts, bs, _, ?_, rfl, hwindow,
        ⟨hle, iff_of_false (by omega) (by omega), fun _ => ⟨before, hrts, hbefore, hrt⟩⟩,
        fun mem s hs => ?_⟩
      · rw [readFixSizeBuffer, hloop]
        rfl
      · obtain ⟨s', hs'⟩ := hfix mem s hs
        exact ⟨s', by rw [readFixSize, fixSize, hs']; rfl⟩

end Stream

end Muqiu
