import Muqiu.ByteArray.Buffers

/-!
# Reading at a position

Two functions are given the position they read at.  Neither of them forgets the cursor.

`read(buf, size, position)` compares `size` with `m_size - position`, which wraps for a position
past the data, and then walks from the block of the cursor.  So it reads at `position` only
when that is in the block of the cursor; anywhere else it reads as far into that block as
`position` is into its own.

`getReadBuffers(buffers, len, position)` walks from the first block, but what it cuts `len` to
is what is readable from the cursor.
-/

namespace Muqiu

open Window

namespace ByteArray

/-- The data, before and behind the cursor. -/
def content (s : ByteArray) : List UInt8 := s.m_root.flatten.take s.m_size

/-- A window inside the data is one of the memory. -/
theorem window_content {s : ByteArray} {position n : Nat} (h : position + n ≤ s.m_size) :
    window s.content position n = window s.m_root.flatten position n := by
  rw [content, window, window, List.drop_take, List.take_take, Nat.min_eq_left (by omega)]

/-! ## Walks from any block -/

section Walk

variable {b : Nat} {nodes : List Node} {c o n : Nat}

/-- A walk past the last block reads through the null pointer. -/
theorem readLoop_none (hb : 0 < b) (hu : Uniform b nodes) (ho : o < b)
    (hlen : nodes.flatten.length < o + n) : readLoop nodes o n = none := by
  induction nodes generalizing o n with
  | nil => rfl
  | cons nd rest ih =>
      obtain ⟨hnd, hrest⟩ := uniform_cons.mp hu
      rw [List.flatten_cons, List.length_append, hnd] at hlen
      rw [readLoop, hnd, if_neg (by omega), ih hrest hb (by omega)]
      rfl

/-- From offset `o` of block `c` a walk reads the memory there. -/
theorem readLoop_drop (hb : 0 < b) (hu : Uniform b nodes) (hc : c ≤ nodes.length) (ho : o < b)
    (hn : 0 < n) (hlen : b * c + o + n ≤ nodes.flatten.length) :
    readLoop (nodes.drop c) o n = some (window nodes.flatten (b * c + o) n, (o + n) / b) := by
  have htake := hu.length_take_flatten hc
  have hsplit := flatten_take_drop nodes c
  have hflat := congrArg List.length hsplit
  rw [List.length_append, htake] at hflat
  rw [readLoop_spec hb n (hu.drop c) ho hn (by omega)]
  conv_rhs => rw [hsplit]
  rw [window_append_right (by omega), htake, Nat.add_sub_cancel_left]

theorem readLoop_drop_none (hb : 0 < b) (hu : Uniform b nodes) (hc : c ≤ nodes.length)
    (ho : o < b) (hlen : nodes.flatten.length < b * c + o + n) :
    readLoop (nodes.drop c) o n = none := by
  have hflat := congrArg List.length (flatten_take_drop nodes c)
  rw [List.length_append, hu.length_take_flatten hc] at hflat
  exact readLoop_none hb (hu.drop c) ho (by omega)

end Walk

/-! ## `read` at a position -/

/-- Where the walk of `readAt` begins: as far into the block of the cursor as `position` is into
its own. -/
def walkStart (s : ByteArray) (position : Nat) : Nat :=
  s.m_baseSize * (s.m_position / s.m_baseSize) + position % s.m_baseSize

/-- The bytes at `position` are refused past the end of the data, and copied otherwise. -/
structure ReadsAt (s : ByteArray) (size position : Nat) : Prop where
  refused : s.readAt size position = .error (.outOfRange "not enough len") ↔
    s.m_size < position + size
  copies : position + size ≤ s.m_size →
    s.readAt size position = .ok (window s.content position size)

/-- The walk from the block of the cursor stays inside the blocks and finds the same bytes. -/
structure CursorServes (s : ByteArray) (size position : Nat) : Prop where
  cur : s.m_position < s.m_capacity
  fits : s.walkStart position + size ≤ s.m_capacity
  same : window s.m_root.flatten (s.walkStart position) size = window s.content position size

variable {s : ByteArray} {size position : Nat}

/-- In the block of the cursor the walk begins at `position`. -/
theorem cursorServes_of_block (h : s.Inv) (hsize : 0 < size)
    (hblock : position / s.m_baseSize = s.m_position / s.m_baseSize)
    (hfit : position + size ≤ s.m_size) : s.CursorServes size position := by
  have hcap := h.size_le
  have hstart : s.walkStart position = position := by
    rw [walkStart, ← hblock, Nat.div_add_mod]
  have hcur : s.m_position < s.m_capacity := by
    have hlt : position / s.m_baseSize < s.m_root.length := by
      rw [Nat.div_lt_iff_lt_mul h.base_pos, Nat.mul_comm, ← h.capacity]
      omega
    rw [hblock, Nat.div_lt_iff_lt_mul h.base_pos, Nat.mul_comm, ← h.capacity] at hlt
    exact hlt
  refine ⟨hcur, ?_, ?_⟩
  · rw [hstart]
    omega
  · rw [hstart, window_content hfit]

/-- Without a refusal `readAt` copies from where its walk begins, if it begins at a block and
ends before the last one does. -/
theorem readAt_ok_iff (h : s.Inv) (hsize : 0 < size)
    (hroom : size ≤ sizeSub s.m_size position) (bytes : List UInt8) :
    s.readAt size position = .ok bytes ↔
      s.m_position < s.m_capacity ∧ s.walkStart position + size ≤ s.m_capacity ∧
        window s.m_root.flatten (s.walkStart position) size = bytes := by
  have hlen := h.length_flatten
  have hoff : position % s.m_baseSize < s.m_baseSize := Nat.mod_lt _ h.base_pos
  rw [readAt, if_neg (by omega)]
  rcases Nat.lt_or_ge s.m_position s.m_capacity with hlt | hge
  · obtain ⟨hidx, hcur⟩ := h.cur_some hlt
    by_cases hfit : s.walkStart position + size ≤ s.m_capacity
    · have hloop := readLoop_drop h.base_pos h.uniform (Nat.le_of_lt hidx) hoff hsize
        (Nat.le_trans hfit (Nat.le_of_eq hlen.symm))
      simp only [hcur, hloop]
      constructor
      · intro hok
        cases hok
        exact ⟨hlt, hfit, rfl⟩
      · rintro ⟨-, -, rfl⟩
        rfl
    · have hloop : readLoop (s.m_root.drop (s.m_position / s.m_baseSize))
          (position % s.m_baseSize) size = none :=
        readLoop_drop_none h.base_pos h.uniform (Nat.le_of_lt hidx) hoff
          (by rw [hlen]; exact Nat.lt_of_not_le hfit)
      simp only [hcur, hloop]
      exact iff_of_false (fun hok => by cases hok) fun hserves => hfit hserves.2.1
  · have hcur := h.cur_none (Nat.le_antisymm (Nat.le_trans h.pos_le h.size_le) hge)
    simp only [hcur]
    exact iff_of_false (fun hok => by cases hok) fun hserves => by omega

/-- A position past the data is refused only where the subtraction wraps to less than `size`. -/
theorem readAt_refused_iff (s : ByteArray) (size position : Nat) :
    s.readAt size position = .error (.outOfRange "not enough len") ↔
      sizeSub s.m_size position < size := by
  rw [readAt]
  constructor
  · intro hrefused
    split at hrefused
    next hlong => exact hlong
    next =>
      split at hrefused
      · cases hrefused
      · split at hrefused <;> cases hrefused
  · intro hlong
    rw [if_pos hlong]

/-- `readAt` does what its position says exactly when the walk from the cursor finds the same
bytes, and a position past the data is so large that the subtraction does not help. -/
theorem readsAt_iff (h : s.Inv) (hsize : 0 < size) :
    s.ReadsAt size position ↔
      (position + size ≤ s.m_size → s.CursorServes size position) ∧
        (s.m_size < position + size →
          position ≤ s.m_size ∨ 2 ^ 64 + s.m_size < position + size) := by
  rcases Nat.lt_or_ge s.m_size (position + size) with hlong | hfit
  · have hsub : sizeSub s.m_size position < size ↔
        position ≤ s.m_size ∨ 2 ^ 64 + s.m_size < position + size := by
      rw [sizeSub]
      split <;> omega
    rw [← hsub, ← readAt_refused_iff]
    constructor
    · exact fun hreads => ⟨fun _ => by omega, fun _ => hreads.refused.mpr hlong⟩
    · exact fun hreads => ⟨iff_of_true (hreads.2 hlong) hlong, fun _ => by omega⟩
  · have hroom : size ≤ sizeSub s.m_size position := by
      rw [sizeSub_of_le (by omega)]
      omega
    constructor
    · intro hreads
      obtain ⟨hcur, hfits, hsame⟩ := (readAt_ok_iff h hsize hroom _).mp (hreads.copies hfit)
      exact ⟨fun _ => ⟨hcur, hfits, hsame⟩, fun _ => by omega⟩
    · rintro ⟨hserves, -⟩
      obtain ⟨hcur, hfits, hsame⟩ := hserves hfit
      refine ⟨?_, fun _ => (readAt_ok_iff h hsize hroom _).mpr ⟨hcur, hfits, hsame⟩⟩
      rw [readAt_refused_iff]
      omega

/-- Two blocks of two bytes, with the cursor at `position`. -/
def twoBlocks (position : Nat) : ByteArray where
  m_baseSize := 2
  m_position := position
  m_capacity := 4
  m_size := 4
  m_endian := .big
  m_root := [[1, 2], [3, 4]]
  m_cur := if position / 2 < 2 then some (position / 2) else none

theorem twoBlocks_inv {position : Nat} (h : position ≤ 4) : (twoBlocks position).Inv where
  base_pos := Nat.two_pos
  uniform := uniform_cons.mpr ⟨rfl, uniform_cons.mpr ⟨rfl, fun _ hmem => by cases hmem⟩⟩
  root_ne := List.cons_ne_nil _ _
  capacity := rfl
  pos_le := h
  size_le := Nat.le_refl 4
  cur := rfl

/-- Across the end of the block of the cursor. -/
theorem twoBlocks_readsAt : (twoBlocks 0).ReadsAt 3 1 :=
  (readsAt_iff (twoBlocks_inv (by decide)) (by decide)).mpr
    ⟨fun hfit => cursorServes_of_block (twoBlocks_inv (by decide)) (by decide) (by decide) hfit,
      fun hlong => absurd hlong (by decide)⟩

/-- With the cursor in the second block the first one cannot be read. -/
theorem not_readsAt : ¬∀ (s : ByteArray) (size position : Nat), s.Inv → 1 ≤ size →
    s.ReadsAt size position := by
  intro hreads
  have hcopies := (hreads (twoBlocks 2) 2 0 (twoBlocks_inv (by decide)) (by decide)).copies
    (by decide)
  exact absurd hcopies (by decide)

/-! ## `getReadBuffers` at a position -/

/-- `getReadBuffers(buffers, len, position) const`: the result and the pieces.  No block is left
where the walk to block `count` goes past the last one. -/
def getReadBuffersAt (s : ByteArray) (len position : Nat) : Except Fault (Nat × List IoVec) :=
  let len := if len > s.getReadSize then s.getReadSize else len
  if len = 0 then .ok (0, [])
  else
    let npos := position % s.m_baseSize
    let count := position / s.m_baseSize
    match buffersLoop (s.m_root.drop count) count npos len with
    | none => .error .nullCur
    | some buffers => .ok (len, buffers)

/-- The pieces hold as many bytes as the result says, which are the data at `position`. -/
def BuffersAt (s : ByteArray) (len position : Nat) : Prop :=
  ∃ result vs, s.getReadBuffersAt len position = .ok (result, vs) ∧ span vs = result ∧
    gather s.m_root vs = window s.content position result ∧ position + result ≤ s.m_size

/-- The pieces from offset `o` of block `c` on. -/
theorem buffersLoop_drop {b : Nat} {nodes : List Node} {c o n : Nat} (hb : 0 < b)
    (hu : Uniform b nodes) (hc : c ≤ nodes.length) (ho : o < b) (hn : 0 < n)
    (hlen : b * c + o + n ≤ nodes.flatten.length) :
    ∃ vs, buffersLoop (nodes.drop c) c o n = some vs ∧ span vs = n ∧
      gather nodes vs = window nodes.flatten (b * c + o) n := by
  have htake := hu.length_take_flatten hc
  have hsplit := flatten_take_drop nodes c
  have hflat := congrArg List.length hsplit
  rw [List.length_append, htake] at hflat
  obtain ⟨vs, hloop, hspan⟩ : ∃ vs, buffersLoop (nodes.drop c) c o n = some vs ∧ span vs = n :=
    buffersLoop_some hb (hu.drop c) ho hn (by omega)
  have hgather := gather_buffers (hu.drop c) ho (by omega) (List.length_take_of_le hc) hloop
  refine ⟨vs, hloop, hspan, ?_⟩
  rw [List.take_append_drop] at hgather
  rw [hgather]
  conv_rhs => rw [hsplit]
  rw [window_append_right (by omega), htake, Nat.add_sub_cancel_left]

/-- What is cut is what is readable from the cursor. -/
theorem getReadBuffersAt_result (h : s.Inv) {len result : Nat} {vs : List IoVec}
    (hok : s.getReadBuffersAt len position = .ok (result, vs)) :
    result = min len (s.m_size - s.m_position) := by
  rw [getReadBuffersAt, clipped h] at hok
  dsimp only at hok
  split at hok
  next hzero =>
    cases hok
    exact hzero.symm
  next =>
    split at hok
    · cases hok
    · cases hok
      rfl

theorem getReadBuffersAt_spec (h : s.Inv) {len : Nat}
    (hfit : position + min len (s.m_size - s.m_position) ≤ s.m_size) :
    ∃ vs, s.getReadBuffersAt len position = .ok (min len (s.m_size - s.m_position), vs) ∧
      span vs = min len (s.m_size - s.m_position) ∧
      gather s.m_root vs = window s.content position (min len (s.m_size - s.m_position)) := by
  rw [getReadBuffersAt, clipped h]
  rcases Nat.eq_zero_or_pos (min len (s.m_size - s.m_position)) with hzero | hpos
  · rw [hzero, window_zero]
    exact ⟨[], rfl, rfl, rfl⟩
  · have hsize := h.size_le
    have hblock : position / s.m_baseSize ≤ s.m_root.length := by
      apply Nat.le_of_lt
      rw [Nat.div_lt_iff_lt_mul h.base_pos, Nat.mul_comm, ← h.capacity]
      omega
    have hstart : s.m_baseSize * (position / s.m_baseSize) + position % s.m_baseSize = position :=
      Nat.div_add_mod _ _
    obtain ⟨vs, hloop, hspan, hgather⟩ := buffersLoop_drop h.base_pos h.uniform hblock
      (Nat.mod_lt position h.base_pos) hpos (by rw [hstart, h.length_flatten]; omega)
    refine ⟨vs, ?_, hspan, ?_⟩
    · rw [if_neg (by omega)]
      simp only [hloop]
    · rw [hgather, hstart, window_content hfit]

/-- The pieces are the data at `position` exactly when the bytes readable from the cursor, `len`
of them at most, would fit there. -/
theorem buffersAt_iff (h : s.Inv) (len : Nat) :
    s.BuffersAt len position ↔ position + min len (s.m_size - s.m_position) ≤ s.m_size := by
  constructor
  · rintro ⟨result, vs, hok, -, -, hfit⟩
    rw [← getReadBuffersAt_result h hok]
    exact hfit
  · intro hfit
    obtain ⟨vs, hok, hspan, hgather⟩ := getReadBuffersAt_spec h hfit
    exact ⟨_, vs, hok, hspan, hgather, hfit⟩

/-- The data behind the cursor, from one byte further. -/
theorem twoBlocks_buffersAt : (twoBlocks 2).BuffersAt 10 1 :=
  (buffersAt_iff (twoBlocks_inv (by decide)) 10).mpr (by decide)

/-- From the second byte on there are three, and the cursor has four before it. -/
theorem not_buffersAt : ¬∀ (s : ByteArray) (len position : Nat), s.Inv → position ≤ s.m_size →
    s.BuffersAt len position := by
  intro hbuffers
  obtain ⟨result, vs, hok, -⟩ := hbuffers (twoBlocks 0) 4 1 (twoBlocks_inv (by decide)) (by decide)
  have hnull : (twoBlocks 0).getReadBuffersAt 4 1 = .error .nullCur := rfl
  rw [hnull] at hok
  cases hok

end ByteArray

end Muqiu
