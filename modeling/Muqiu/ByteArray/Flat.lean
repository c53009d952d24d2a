import Muqiu.ByteArray.Model
import Mathlib.Data.List.Forall2
import Mathlib.Order.Lattice.Nat

/-!
# What a byte buffer is for

Two abstract buffers, neither translated from the source.

`Flat` is one array of bytes with a cursor.  A write overwrites at the cursor and extends
the data, a read copies and advances, `setPosition` is refused exactly past the capacity.
The block size appears twice only: the capacity grows by the least number of whole blocks
that fits a write, and `clear` keeps one block.

`Tape` has no capacity and no block size.  Its cells are unbounded and know only the bytes
written since the last `clear`.  It answers a read with what it knows of each byte, and
`Matches` says that an actual result agrees with that.
-/

namespace Muqiu

open Window

namespace ByteArray

/-! ## The flat array -/

/-- A flat array of bytes with a cursor. -/
structure Flat where
  /-- All bytes of the capacity. -/
  bytes : List UInt8
  /-- The cursor. -/
  position : Nat
  /-- Bytes of data. -/
  size : Nat

namespace Flat

/-- `n` bytes of newly obtained memory. -/
def fresh (mem : Nat → UInt8) (n : Nat) : List UInt8 := (List.range n).map mem

/-- An empty array over the memory of one block. -/
def new (mem : Nat → UInt8) (b : Nat) : Flat := ⟨fresh mem b, 0, 0⟩

/-- The least number of whole blocks of `b` bytes that makes `n` bytes fit at the cursor. -/
noncomputable def blocks (b : Nat) (f : Flat) (n : Nat) : Nat :=
  sInf { k | f.position + n ≤ f.bytes.length + k * b }

/-- `buf` over the bytes at the cursor, after the capacity has grown. -/
noncomputable def write (mem : Nat → UInt8) (b : Nat) (f : Flat) (buf : List UInt8) : Flat where
  bytes := overwrite (f.bytes ++ fresh mem (f.blocks b buf.length * b)) f.position buf
  position := f.position + buf.length
  size := max f.size (f.position + buf.length)

/-- One call. -/
noncomputable def call (mem : Nat → UInt8) (b : Nat) (f : Flat) : Op → Res × Flat
  | .write buf => (.unit, f.write mem b buf)
  | .read n =>
      if n > f.size - f.position then (.outOfRange "not enough len", f)
      else (.bytes (window f.bytes f.position n), { f with position := f.position + n })
  | .setPosition v =>
      if v > f.bytes.length then (.outOfRange "set_position out of range", f)
      else (.unit, { f with position := v, size := max f.size v })
  | .clear => (.unit, ⟨f.bytes.take b, 0, 0⟩)
  | .getReadSize => (.size (f.size - f.position), f)
  | .getSize => (.size f.size, f)
  | .toString => (.bytes (window f.bytes f.position (f.size - f.position)), f)

/-- A sequence of calls and their results in order. -/
noncomputable def run (b : Nat) (f : Flat) : List (Op × (Nat → UInt8)) → List Res × Flat
  | [] => ([], f)
  | (op, mem) :: calls =>
      let r := f.call mem b op
      let rs := run b r.2 calls
      (r.1 :: rs.1, rs.2)

/-- The cursor is inside the data and the data inside the capacity. -/
structure Ok (f : Flat) : Prop where
  pos_le : f.position ≤ f.size
  size_le : f.size ≤ f.bytes.length

/-- Growing by `blocks` makes room: `b` bytes a block, with `b` at least one. -/
theorem fits {b : Nat} (hb : 0 < b) (f : Flat) (n : Nat) :
    f.position + n ≤ f.bytes.length + f.blocks b n * b := by
  have hne : { k | f.position + n ≤ f.bytes.length + k * b }.Nonempty := by
    refine ⟨f.position + n, ?_⟩
    have h := Nat.le_mul_of_pos_right (f.position + n) hb
    show f.position + n ≤ f.bytes.length + (f.position + n) * b
    omega
  exact Nat.sInf_mem hne

/-- No smaller number of blocks makes room. -/
theorem blocks_le {b : Nat} {f : Flat} {n k : Nat}
    (h : f.position + n ≤ f.bytes.length + k * b) : f.blocks b n ≤ k := Nat.sInf_le h

@[simp] theorem length_fresh (mem : Nat → UInt8) (n : Nat) : (fresh mem n).length = n := by
  simp [fresh]

theorem new_ok (mem : Nat → UInt8) (b : Nat) : (new mem b).Ok := ⟨Nat.le_refl _, Nat.zero_le _⟩

theorem write_ok {mem : Nat → UInt8} {b : Nat} (hb : 0 < b) {f : Flat} (h : f.Ok)
    (buf : List UInt8) : (f.write mem b buf).Ok := by
  have hfit := f.fits hb buf.length
  have hlen : (f.bytes ++ fresh mem (f.blocks b buf.length * b)).length =
      f.bytes.length + f.blocks b buf.length * b := by
    rw [List.length_append, length_fresh]
  refine ⟨Nat.le_max_right _ _, ?_⟩
  rw [write, length_overwrite (by rw [hlen]; exact hfit), hlen]
  exact Nat.max_le.mpr ⟨Nat.le_trans h.size_le (Nat.le_add_right _ _), hfit⟩

theorem call_ok {mem : Nat → UInt8} {b : Nat} (hb : 0 < b) {f : Flat} (h : f.Ok) (op : Op) :
    (f.call mem b op).2.Ok := by
  have hpos := h.pos_le
  have hsize := h.size_le
  cases op with
  | write buf => exact write_ok hb h buf
  | read n =>
      by_cases hn : n > f.size - f.position
      · rw [call, if_pos hn]; exact h
      · rw [call, if_neg hn]
        exact ⟨show f.position + n ≤ f.size by omega, hsize⟩
  | setPosition v =>
      by_cases hv : v > f.bytes.length
      · rw [call, if_pos hv]; exact h
      · rw [call, if_neg hv]
        exact ⟨Nat.le_max_right _ _, Nat.max_le.mpr ⟨hsize, Nat.le_of_not_gt hv⟩⟩
  | clear => exact ⟨Nat.le_refl _, Nat.zero_le _⟩
  | getReadSize => exact h
  | getSize => exact h
  | toString => exact h

end Flat

/-! ## The unbounded tape -/

/-- An unbounded buffer that knows the bytes written since the last `clear`. -/
structure Tape where
  /-- What was written at a position, if anything was. -/
  cells : Nat → Option UInt8
  /-- The cursor. -/
  position : Nat
  /-- Bytes of data. -/
  size : Nat

namespace Tape

/-- An empty tape. -/
def new : Tape := ⟨fun _ => none, 0, 0⟩

/-- The cells of a window. -/
def peek (t : Tape) (n : Nat) : List (Option UInt8) :=
  (List.range n).map fun i => t.cells (t.position + i)

/-- What the tape knows of the result of a call. -/
inductive Res where
  | unit
  | bytes (cells : List (Option UInt8))
  | size (n : Nat)
  | outOfRange (what : String)

/-- One call.  `setPosition` is never refused. -/
def call (t : Tape) : Op → Res × Tape
  | .write buf =>
      (.unit,
        { cells := fun i =>
            if t.position ≤ i ∧ i < t.position + buf.length then buf[i - t.position]?
            else t.cells i
          position := t.position + buf.length
          size := max t.size (t.position + buf.length) })
  | .read n =>
      if n > t.size - t.position then (.outOfRange "not enough len", t)
      else (.bytes (t.peek n), { t with position := t.position + n })
  | .setPosition v => (.unit, { t with position := v, size := max t.size v })
  | .clear => (.unit, new)
  | .getReadSize => (.size (t.size - t.position), t)
  | .getSize => (.size t.size, t)
  | .toString => (.bytes (t.peek (t.size - t.position)), t)

/-- The results of a sequence of calls, in order. -/
def run (t : Tape) : List Op → List Res
  | [] => []
  | op :: ops => (t.call op).1 :: run (t.call op).2 ops

/-- An actual result agrees with what the tape knows: every known byte is the byte read. -/
inductive Matches : Res → ByteArray.Res → Prop where
  | unit : Matches .unit .unit
  | bytes {cells : List (Option UInt8)} {bs : List UInt8} :
      List.Forall₂ (fun cell b => ∀ x, cell = some x → b = x) cells bs →
      Matches (.bytes cells) (.bytes bs)
  | size {n : Nat} : Matches (.size n) (.size n)
  | outOfRange {what : String} : Matches (.outOfRange what) (.outOfRange what)

end Tape

/-- The flat array holds every byte the tape knows. -/
structure Flat.Holds (f : Flat) (t : Tape) : Prop where
  position : t.position = f.position
  size : t.size = f.size
  cells : ∀ i x, t.cells i = some x → f.bytes[i]? = some x

theorem Flat.Holds.new (mem : Nat → UInt8) (b : Nat) : (Flat.new mem b).Holds Tape.new :=
  ⟨rfl, rfl, by intro i x h; simp [Tape.new] at h⟩

/-- What the tape knows of a window agrees with the window. -/
theorem Flat.Holds.peek {f : Flat} {t : Tape} (h : f.Holds t) {n : Nat}
    (hn : f.position + n ≤ f.bytes.length) :
    List.Forall₂ (fun cell b => ∀ x, cell = some x → b = x) (t.peek n)
      (window f.bytes f.position n) := by
  have hlen := length_window hn
  rw [List.forall₂_iff_get]
  refine ⟨by rw [hlen]; simp [Tape.peek], ?_⟩
  intro i hi hi' x hx
  have hcell : t.cells (f.position + i) = some x := by
    rw [← h.position]
    simpa [Tape.peek] using hx
  have hget : (window f.bytes f.position n)[i]? = some x := by
    rw [getElem?_window, if_pos (by omega)]
    exact h.cells _ _ hcell
  rw [List.get_eq_getElem]
  exact Option.some.inj ((List.getElem?_eq_getElem hi').symm.trans hget)

/-- A write keeps the agreement: the window is what was written, the rest is as it was. -/
theorem Flat.Holds.write {mem : Nat → UInt8} {b : Nat} (hb : 0 < b) {f : Flat} {t : Tape}
    (h : f.Holds t) (buf : List UInt8) :
    (f.write mem b buf).Holds (t.call (.write buf)).2 := by
  have hfit : f.position + buf.length ≤
      (f.bytes ++ Flat.fresh mem (f.blocks b buf.length * b)).length := by
    rw [List.length_append, Flat.length_fresh]
    exact f.fits hb buf.length
  refine ⟨by simp [Tape.call, Flat.write, h.position],
    by simp [Tape.call, Flat.write, h.position, h.size], ?_⟩
  intro i x hx
  simp only [Tape.call, h.position] at hx
  rw [Flat.write, getElem?_overwrite hfit]
  by_cases hin : f.position ≤ i ∧ i < f.position + buf.length
  · rw [if_pos hin] at hx ⊢
    exact hx
  · rw [if_neg hin] at hx ⊢
    have hold := h.cells i x hx
    rw [List.getElem?_append_left (List.getElem?_eq_some_iff.mp hold).1]
    exact hold

/-- A call that is no refused `setPosition` keeps the agreement, and its result agrees. -/
theorem Flat.Holds.call {mem : Nat → UInt8} {b : Nat} (hb : 0 < b) {f : Flat} {t : Tape}
    (h : f.Holds t) (hok : f.Ok) (op : Op)
    (hset : ∀ v, op = .setPosition v → (f.call mem b op).1 = .unit) :
    Tape.Matches (t.call op).1 (f.call mem b op).1 ∧
      (f.call mem b op).2.Holds (t.call op).2 := by
  have hpos := hok.pos_le
  have hsize := hok.size_le
  cases op with
  | write buf => exact ⟨.unit, h.write hb buf⟩
  | read n =>
      by_cases hn : n > f.size - f.position
      · simp only [Flat.call, Tape.call, h.position, h.size, if_pos hn]
        exact ⟨.outOfRange, h⟩
      · simp only [Flat.call, Tape.call, h.position, h.size, if_neg hn]
        exact ⟨.bytes (h.peek (by omega)), rfl, rfl, h.cells⟩
  | setPosition v =>
      have hres := hset v rfl
      by_cases hv : v > f.bytes.length
      · simp [Flat.call, hv] at hres
      · simp only [Flat.call, Tape.call, if_neg hv, h.size]
        exact ⟨.unit, rfl, rfl, h.cells⟩
  | clear => exact ⟨.unit, rfl, rfl, by intro i x hx; simp [Tape.call, Tape.new] at hx⟩
  | getReadSize =>
      simp only [Flat.call, Tape.call, h.position, h.size]
      exact ⟨.size, h⟩
  | getSize =>
      simp only [Flat.call, Tape.call, h.size]
      exact ⟨.size, h⟩
  | toString =>
      simp only [Flat.call, Tape.call, h.position, h.size]
      exact ⟨.bytes (h.peek (by omega)), h⟩

/-- No call of the sequence is a refused `setPosition`. -/
def SetPositionOk (ops : List Op) (ress : List Res) : Prop :=
  ∀ v res, (Op.setPosition v, res) ∈ ops.zip ress → res = .unit

/-- The results of a flat array agree with the tape, as long as `setPosition` is not
refused. -/
theorem Flat.run_matches {b : Nat} (hb : 0 < b) :
    ∀ (calls : List (Op × (Nat → UInt8))) {f : Flat} {t : Tape}, f.Holds t → f.Ok →
      SetPositionOk (calls.map Prod.fst) (f.run b calls).1 →
      List.Forall₂ Tape.Matches (t.run (calls.map Prod.fst)) (f.run b calls).1
  | [], _, _, _, _, _ => .nil
  | (op, mem) :: calls, f, t, h, hok, hset => by
      have hhead : ∀ v, op = .setPosition v → (f.call mem b op).1 = .unit := by
        intro v hv
        refine hset v _ ?_
        simp [Flat.run, hv]
      have hstep := h.call hb hok op hhead
      have htail : SetPositionOk (calls.map Prod.fst) ((f.call mem b op).2.run b calls).1 := by
        intro v res hmem
        refine hset v res ?_
        simp only [List.map_cons, Flat.run, List.zip_cons_cons]
        exact List.mem_cons_of_mem _ hmem
      exact .cons hstep.1
        (Flat.run_matches hb calls hstep.2 (Flat.call_ok hb hok op) htail)

end ByteArray

end Muqiu
