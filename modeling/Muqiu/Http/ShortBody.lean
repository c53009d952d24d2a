import Muqiu.Http.BodyLength
import Muqiu.Net.RawStream

/-!
# Peers that close in a body

`recvRequest` reads what is missing of a body with `readFixSize(void *, size_t)`.  The reads of a
connection are calls that receive, so that a body which never comes keeps `recvRequest` in the
loop of `readFixSize`.
-/

namespace Muqiu

namespace Conn

/-- What the call that reads from a connection finds. -/
def outcome (c : Conn) (left : Nat) : RecvOutcome :=
  if h : (c.read left).1 ≤ 0 then .failed (c.read left).1 h else .delivers (c.read left).2.1

/-- What the calls find when `readFixSize` reads `left` bytes from a connection. -/
def feed : Conn → Nat → Nat → RecvOutcome
  | c, left, 0 => c.outcome left
  | c, left, round + 1 => feed (c.read left).2.2 (left - (c.read left).2.1.length) round

end Conn

namespace Stream

open Conn

theorem ClosesWithin.shift {recvs : Nat → RecvOutcome} {round left : Nat} :
    ClosesWithin recvs (round + 1) left ↔ ClosesWithin (fun k => recvs (k + 1)) round left := by
  constructor
  · intro h
    generalize hr : round + 1 = r at h
    induction h generalizing round with
    | now hpos hend => exact .now hpos (by rw [hr]; exact hend)
    | later hdelivers _ ih => exact .later (by rw [hr]; exact hdelivers) (ih (by rw [hr]))
  · intro h
    induction h with
    | now hpos hend => exact .now hpos hend
    | later hdelivers _ ih => exact .later hdelivers ih

/-- Behind bytes the calls go on from the next connection. -/
theorem closesWithin_delivers {recvs : Nat → RecvOutcome} {bs : List UInt8} {left : Nat}
    (h : recvs 0 = .delivers bs) (hbs : bs ≠ []) :
    ClosesWithin recvs 0 left ↔ ClosesWithin (fun k => recvs (k + 1)) 0 (left - bs.length) := by
  rw [← ClosesWithin.shift]
  constructor
  · intro hcloses
    cases hcloses with
    | now _ hend =>
        rw [h] at hend
        exact absurd hend hbs
    | later hdelivers hcloses =>
        rw [h] at hdelivers
        cases hdelivers
        exact hcloses
  · exact .later h

/-- The peer of a connection closes too early exactly when its bytes do not suffice and the
stream then ends. -/
theorem closesWithin_feed {left : Nat} :
    ∀ {c : Conn}, c.closed = false →
      (ClosesWithin (c.feed left) 0 left ↔ c.pending.length < left ∧ c.ending = .eof) := by
  induction left using Nat.strong_induction_on with
  | _ left ih =>
      intro c hopen
      rcases Nat.eq_zero_or_pos left with rfl | hpos
      · exact iff_of_false (fun h => absurd h.pos (Nat.lt_irrefl 0)) (by omega)
      · by_cases hp : c.pending = []
        · have hread := Conn.read_of_no_pending hopen hp left
          have hnonpos : c.ending.result ≤ 0 := by cases c.ending <;> decide
          have hfirst : c.feed left 0 = .failed c.ending.result hnonpos := by
            simp only [feed, outcome, hread]
            exact dif_pos hnonpos
          cases hending : c.ending with
          | eof =>
              refine iff_of_true (.now hpos ?_) ⟨by rw [hp]; exact hpos, rfl⟩
              rw [hfirst]
              change c.ending.result = 0
              rw [hending]
              rfl
          | error =>
              refine iff_of_false (fun h => ?_) (by rintro ⟨-, ⟨⟩⟩)
              cases h with
              | now _ hend =>
                  rw [hfirst] at hend
                  change c.ending.result = 0 at hend
                  rw [hending] at hend
                  cases hend
              | later hdelivers _ =>
                  rw [hfirst] at hdelivers
                  cases hdelivers
        · have hread := Conn.read_of_pending hopen hp left
          have hpos' := Conn.taken_pos hp hpos
          have hle := c.taken_le_pending left
          have hlen : (c.pending.take (c.taken left)).length = c.taken left :=
            List.length_take_of_le hle
          have hfirst : c.feed left 0 = .delivers (c.pending.take (c.taken left)) := by
            simp only [feed, outcome, hread]
            exact dif_neg (by omega)
          have hrest : (fun k => c.feed left (k + 1)) =
              (c.skip (c.taken left)).feed (left - c.taken left) := by
            funext k
            rw [feed, hread, hlen]
          have hopen' : (c.skip (c.taken left)).closed = false := hopen
          rw [closesWithin_delivers hfirst (List.ne_nil_of_length_pos (by omega)), hrest, hlen,
            ih (left - c.taken left) (by omega) hopen', Conn.pending_skip, List.length_drop,
            Conn.ending_skip]
          have hbound := c.taken_le left
          exact and_congr_left fun _ => by omega

end Stream

namespace Http

open Muqiu.Stream

variable {μ : Type} {E : Env μ}

/-- `recvBody` does not return exactly when the peer closes before the rest of the body has
come. -/
theorem recvBody_hangs_iff {s : Filling μ} (hs : s.Ok) :
    (recvBody E s).outcome = .stopped .hang ↔
      ∃ size : Nat, bodyLength E s.parser.m_data = size ∧ size ≤ E.heap ∧ s.offset < size ∧
        ClosesWithin (s.conn.feed (size - s.offset)) 0 (size - s.offset) := by
  rcases Int.lt_or_le 0 (bodyLength E s.parser.m_data) with hpos | hneg
  · obtain ⟨size, hsize⟩ := Int.eq_ofNat_of_zero_le (Int.le_of_lt hpos)
    have hiff : (∃ size : Nat, bodyLength E s.parser.m_data = size ∧ size ≤ E.heap ∧
        s.offset < size ∧ ClosesWithin (s.conn.feed (size - s.offset)) 0 (size - s.offset)) ↔
        size ≤ E.heap ∧ s.offset < size ∧ s.conn.pending.length < size - s.offset ∧
          s.conn.ending = .eof := by
      simp only [closesWithin_feed hs.isOpen, hsize, Int.natCast_inj, exists_eq_left']
    rw [hiff]
    rcases Nat.lt_or_ge E.heap size with hheap | hheap
    · rw [recvBody_throws hsize (by omega) hheap]
      exact iff_of_false (by rintro ⟨⟩) (by omega)
    rcases Nat.lt_or_ge s.offset size with hlt | hle
    · rcases Nat.lt_or_ge s.conn.pending.length (size - s.offset) with hshort | hrest
      · rw [recvBody]
        simp only [hsize, Int.toNat_natCast]
        rw [if_neg (by omega), if_neg (by omega), if_neg (by omega),
          Conn.readFixSize_spec hs.isOpen, if_neg (by omega)]
        cases s.conn.ending with
        | eof => exact iff_of_true rfl ⟨hheap, hlt, hshort, rfl⟩
        | error => exact iff_of_false (by rintro ⟨⟩) (by rintro ⟨-, -, -, ⟨⟩⟩)
      · rw [recvBody_rest hs hsize hheap hlt hrest]
        refine iff_of_false ?_ (by omega)
        split
        · rintro ⟨⟩
        · rintro ⟨⟩
    · rw [recvBody_buffered hsize (by omega) hheap hle]
      exact iff_of_false (by rintro ⟨⟩) (by omega)
  · rw [recvBody_none hneg]
    refine iff_of_false (by rintro ⟨⟩) ?_
    rintro ⟨size, hsize, -, hlt, -⟩
    omega

/-- `readFixSize` into a buffer completes exactly when the peer does not close too early, and
`recvRequest` does not return exactly when the peer closes too early in its body. -/
theorem readFixSize_recvRequest_iff :
    (∀ (peer : Peer) (buffer : List UInt8) (length : Nat), length ≤ INT_MAX →
      length ≤ buffer.length →
      (Completes peer.recvs buffer length ↔ ¬ ClosesWithin peer.recvs 0 length)) ∧
    ∀ (buffer : Buffer) (conn : Conn) (s : Filling μ), recvLoop E buffer conn = .parsed s →
      ((recvRequest E buffer conn).outcome = .stopped .hang ↔
        ∃ size : Nat, bodyLength E s.parser.m_data = size ∧ size ≤ E.heap ∧ s.offset < size ∧
          ClosesWithin (s.conn.feed (size - s.offset)) 0 (size - s.offset)) := by
  refine ⟨fun peer buffer length hlen hbuffer => completes_iff peer hlen hbuffer,
    fun buffer conn s hparsed => ?_⟩
  obtain ⟨-, hs, -⟩ := recvLoop_parsed hparsed
  rw [recvRequest_parsed hparsed, recvBody_hangs_iff hs]

/-- A peer that sends two bytes and closes. -/
def twoBytes : Peer where
  recvs round := if round = 0 then .delivers [1, 2] else .failed 0 (by decide)
  closed _ _ := rfl

/-- Two bytes are read as they are wanted, and a body that has come does not hang. -/
theorem readFixSize_two :
    Completes twoBytes.recvs [0, 0] 2 ∧
      (recvRequest plainEnv zeroBuffer (bringing plainRequest)).outcome ≠ .stopped .hang := by
  have h := readFixSize_recvRequest_iff (E := plainEnv)
  have hpending : (bringing plainRequest).pending = plainRequest.text := Pieces.all_one _
  have htaken : (bringing plainRequest).taken http_request_buffer_size =
      plainRequest.header.length + 3 := by
    rw [Conn.taken_eq (by decide), bringing, Pieces.front_one]
    decide
  have hstart : plainRequest.header <+: (bringing plainRequest).pending :=
    hpending ▸ List.prefix_append _ _
  obtain ⟨s, hloop, -, hparser, hoffset, -⟩ :=
    recvLoop_first plainRequest.block rfl hstart (by omega) zeroBuffer
  have hlength : bodyLength plainEnv s.parser.m_data = (3 : Nat) := by
    rw [hparser]
    decide +kernel
  refine ⟨(h.1 twoBytes [0, 0] 2 (by decide) (by decide)).mpr fun hcloses => ?_, fun hhang => ?_⟩
  · cases hcloses with
    | now _ hend => cases hend
    | later hdelivers hcloses =>
        cases hdelivers
        exact absurd hcloses.pos (by decide)
  · obtain ⟨size, hsize, -, hlt, -⟩ := (h.2 zeroBuffer _ s hloop).mp hhang
    omega

/-- The header block of a body of three bytes, and one byte of it. -/
def shortRequest : Conn := ⟨.one (plainRequest.header ++ bytes "a"), .eof, false⟩

/-- The peer closes before the third byte, and the calls never return. -/
theorem closed_hangs :
    ¬ Completes twoBytes.recvs [0, 0, 0] 3 ∧
      (recvRequest plainEnv zeroBuffer shortRequest).outcome = .stopped .hang := by
  constructor
  · rw [completes_iff twoBytes (by decide) (by decide), not_not]
    exact .later rfl (.now (by decide) rfl)
  · have hpending : shortRequest.pending = plainRequest.header ++ bytes "a" := Pieces.all_one _
    have hfirst : plainRequest.header.length ≤ shortRequest.taken http_request_buffer_size := by
      rw [Conn.taken_eq (by decide), shortRequest, Pieces.front_one]
      decide
    obtain ⟨s, hloop, hs, hparser, hoffset, hconn, -⟩ := recvLoop_first plainRequest.block rfl
      (hpending ▸ List.prefix_append _ _) hfirst zeroBuffer
    have htaken : shortRequest.taken http_request_buffer_size = plainRequest.header.length + 1 := by
      rw [Conn.taken_eq (by decide), shortRequest, Pieces.front_one]
      decide
    have hlength : bodyLength plainEnv s.parser.m_data = (3 : Nat) := by
      rw [hparser]
      decide +kernel
    rw [recvRequest_parsed hloop, recvBody_hangs_iff hs]
    refine ⟨3, hlength, by decide, by omega, (closesWithin_feed hs.isOpen).mpr ⟨?_, ?_⟩⟩
    · rw [hconn, Conn.pending_skip, hpending, htaken, List.length_drop, List.length_append]
      have hone : (bytes "a").length = 1 := by decide
      omega
    · rw [hconn]
      rfl

end Http

end Muqiu
