import Muqiu.Lib.Pieces

/-!
# Reading from a socket

`SocketStream::read` over `recv` and `Stream::readFixSize(void *, size_t)`.  A connection is
what the peer has sent, in the pieces the network makes of it, and how it ends.  A `recv`
gives bytes of one piece, no more than asked for.  At the end it gives 0 when the peer has
shut down and -1 on an error, and does so every time.

`Stop` lists the ways in which a call does not come back with a value.
-/

namespace Muqiu

/-- A call that does not return. -/
inductive Stop where
  /-- a failed `assert` -/
  | abort
  /-- an exception -/
  | throws
  /-- a read outside the buffer -/
  | wild
  /-- a loop without an end -/
  | hang
deriving DecidableEq, Repr

/-- What follows the bytes of the peer. -/
inductive Ending where
  | eof
  | error
deriving DecidableEq, Repr

/-- The result of `recv` at the end. -/
def Ending.result : Ending → Int
  | .eof => 0
  | .error => -1

/-- A connected socket. -/
structure Conn where
  incoming : Pieces UInt8
  ending : Ending
  closed : Bool
deriving DecidableEq

namespace Conn

/-- The bytes not yet read. -/
def pending (c : Conn) : List UInt8 := c.incoming.all

/-- The connection with `n` bytes read. -/
def skip (c : Conn) (n : Nat) : Conn := { c with incoming := c.incoming.skip n }

/-- `close` -/
def close (c : Conn) : Conn := { c with closed := true }

/-- The most that one `recv` gives. -/
def MAX_RW_COUNT : Nat := 0x7ffff000

/-- `SocketStream::read`: the result, the bytes and the connection after it. -/
def read (c : Conn) (length : Nat) : Int × List UInt8 × Conn :=
  if c.closed then (-1, [], c)
  else if c.incoming.front = [] then (c.ending.result, [], c)
  else
    let got := c.incoming.front.take (min length MAX_RW_COUNT)
    (got.length, got, c.skip got.length)

/-! ## `readFixSize` -/

/-- A `size_t` returned as an `int`. -/
def toInt32 (n : Nat) : Int := (BitVec.ofNat 32 n).toInt

/-- `while (left > 0)`: a negative result of a read or none, the bytes and the connection.
Every round but one that reads nothing takes a byte off `left`, so `left` rounds are enough;
one that reads nothing finds the same connection again. -/
def readLoop : Nat → Conn → Nat → List UInt8 → Except Stop (Option Int × List UInt8 × Conn)
  | _, c, 0, acc => .ok (none, acc, c)
  | 0, _, _ + 1, _ => .error .hang
  | rounds + 1, c, left + 1, acc =>
      match c.read (left + 1) with
      | (len, got, c') =>
          if len < 0 then .ok (some len, acc, c')
          else if len = 0 then .error .hang
          else readLoop rounds c' (left + 1 - got.length) (acc ++ got)

/-- `readFixSize`: its result, the bytes and the connection after it. -/
def readFixSize (c : Conn) (length : Nat) : Except Stop (Int × List UInt8 × Conn) :=
  match readLoop length c length [] with
  | .ok (none, got, c') => .ok (toInt32 length, got, c')
  | .ok (some len, got, c') => .ok (len, got, c')
  | .error e => .error e

/-! ## What a read does -/

@[simp] theorem pending_skip (c : Conn) (n : Nat) : (c.skip n).pending = c.pending.drop n :=
  Pieces.all_skip c.incoming n

@[simp] theorem closed_skip (c : Conn) (n : Nat) : (c.skip n).closed = c.closed := rfl

@[simp] theorem ending_skip (c : Conn) (n : Nat) : (c.skip n).ending = c.ending := rfl

theorem skip_skip (c : Conn) (m n : Nat) : (c.skip m).skip n = c.skip (m + n) := by
  rw [skip, skip, skip]
  congr 1
  exact Pieces.skip_skip c.incoming m n

theorem skip_zero (c : Conn) : c.skip 0 = c := by
  rw [skip, Pieces.skip_zero]

/-- How many bytes a read takes off the front piece. -/
def taken (c : Conn) (length : Nat) : Nat :=
  min (min length MAX_RW_COUNT) c.incoming.front.length

theorem taken_le (c : Conn) (length : Nat) : c.taken length ≤ length :=
  Nat.le_trans (Nat.min_le_left _ _) (Nat.min_le_left _ _)

theorem taken_le_front (c : Conn) (length : Nat) : c.taken length ≤ c.incoming.front.length :=
  Nat.min_le_right _ _

theorem taken_le_pending (c : Conn) (length : Nat) : c.taken length ≤ c.pending.length :=
  Nat.le_trans (c.taken_le_front length) (Pieces.length_front_le _)

theorem taken_pos {c : Conn} (hp : c.pending ≠ []) {length : Nat} (h : 0 < length) :
    0 < c.taken length := by
  have hfront : c.incoming.front ≠ [] := mt (Pieces.front_eq_nil_iff _).mp hp
  exact Nat.lt_min.mpr ⟨Nat.lt_min.mpr ⟨h, by decide⟩, List.length_pos_iff.mpr hfront⟩

/-- Nothing but the front piece bounds a read of a buffer. -/
theorem taken_eq {c : Conn} {length : Nat} (h : length ≤ MAX_RW_COUNT) :
    c.taken length = min length c.incoming.front.length := by
  rw [taken, Nat.min_eq_left h]

/-- With bytes pending a read takes the first of them. -/
theorem read_of_pending {c : Conn} (hopen : c.closed = false) (hp : c.pending ≠ [])
    (length : Nat) :
    c.read length =
      ((c.taken length : Int), c.pending.take (c.taken length), c.skip (c.taken length)) := by
  have hfront : c.incoming.front ≠ [] := mt (Pieces.front_eq_nil_iff _).mp hp
  have htake : c.incoming.front.take (min length MAX_RW_COUNT) =
      c.pending.take (c.taken length) := by
    rw [pending, ← Pieces.take_front (c.taken_le_front length), taken, ← List.take_eq_take_min]
  have hlen : (c.pending.take (c.taken length)).length = c.taken length :=
    List.length_take_of_le (c.taken_le_pending length)
  rw [read, hopen, if_neg Bool.false_ne_true, if_neg hfront, htake]
  simp only [hlen]

/-- With none it gives the end. -/
theorem read_of_no_pending {c : Conn} (hopen : c.closed = false) (hp : c.pending = []) (n : Nat) :
    c.read n = (c.ending.result, [], c) := by
  rw [read, hopen, if_neg Bool.false_ne_true, if_pos ((Pieces.front_eq_nil_iff _).mpr hp)]

theorem readLoop_spec :
    ∀ {rounds : Nat} {c : Conn} {left : Nat} {acc : List UInt8}, c.closed = false → left ≤ rounds →
      readLoop rounds c left acc =
        if left ≤ c.pending.length then .ok (none, acc ++ c.pending.take left, c.skip left)
        else match c.ending with
          | .eof => .error .hang
          | .error => .ok (some (-1), acc ++ c.pending, c.skip c.pending.length)
  | rounds, c, 0, acc, _, _ => by
      have hle : 0 ≤ c.pending.length := Nat.zero_le _
      cases rounds <;> rw [readLoop, if_pos hle, List.take_zero, List.append_nil, skip_zero]
  | 0, _, _ + 1, _, _, h => by omega
  | rounds + 1, c, left + 1, acc, hopen, h => by
      rw [readLoop]
      by_cases hp : c.pending = []
      · have hgt : ¬left + 1 ≤ c.pending.length := by rw [hp]; simp
        rw [read_of_no_pending hopen hp, if_neg hgt, hp]
        cases c.ending with
        | eof => rfl
        | error => simp [Ending.result, skip_zero]
      · rw [read_of_pending hopen hp]
        have hpos := taken_pos hp (Nat.succ_pos left)
        have hle := c.taken_le_pending (left + 1)
        have hleft := c.taken_le (left + 1)
        generalize c.taken (left + 1) = k at hpos hle hleft
        have hlen : (c.pending.take k).length = k := List.length_take_of_le hle
        have hopen' : (c.skip k).closed = false := hopen
        have hsum : k + (left + 1 - k) = left + 1 := by omega
        simp only [hlen]
        rw [if_neg (by omega), if_neg (by omega), readLoop_spec hopen' (by omega),
          pending_skip, List.length_drop]
        by_cases henough : left + 1 ≤ c.pending.length
        · rw [if_pos (by omega), if_pos henough, skip_skip, List.append_assoc,
            ← List.take_add, hsum]
        · rw [if_neg (by omega), if_neg henough, ending_skip]
          cases c.ending with
          | eof => rfl
          | error =>
              have hall : k + (c.pending.length - k) = c.pending.length := by omega
              simp only [skip_skip, List.append_assoc, List.take_append_drop, hall]

/-- `readFixSize` gives the next `length` bytes and `(int)length`, or there are not that
many. -/
theorem readFixSize_spec {c : Conn} (hopen : c.closed = false) (length : Nat) :
    c.readFixSize length =
      if length ≤ c.pending.length then
        .ok (toInt32 length, c.pending.take length, c.skip length)
      else match c.ending with
        | .eof => .error .hang
        | .error => .ok (-1, c.pending, c.skip c.pending.length) := by
  rw [readFixSize, readLoop_spec hopen (Nat.le_refl length)]
  by_cases h : length ≤ c.pending.length
  · rw [if_pos h, if_pos h]; rfl
  · rw [if_neg h, if_neg h]
    cases c.ending <;> rfl

end Conn

end Muqiu
