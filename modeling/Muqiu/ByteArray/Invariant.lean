import Muqiu.ByteArray.Model

/-!
# The representation invariant

`Inv` ties the counters to the blocks: every block has `m_baseSize` bytes, `m_capacity`
counts them all, the cursor is inside the data, and `m_cur` is the block the cursor is in,
null exactly when the cursor stands at the capacity.

Each loop over the blocks has one specification in terms of the flat memory.  From an offset
below the block size, `writeLoop` overwrites the flat memory, `readLoop` copies a window of
it, and both move `m_cur` on by `(npos + size) / b`.  `seekLoop` from the first block goes on
by `v / b`.  None of them runs off the list as long as the flat memory is long enough.
-/

namespace Muqiu

open Window

namespace ByteArray

/-! ## Division of positions -/

/-- Inside the block the cursor is in, the walk moves on exactly at its end. -/
theorem div_of_le {b p : Nat} (hp : 0 < b) (h : p ≤ b) : p / b = if b = p then 1 else 0 := by
  by_cases hb : b = p
  · rw [if_pos hb, ← hb, Nat.div_self hp]
  · rw [if_neg hb, Nat.div_eq_of_lt (by omega)]

/-- Past the end of a block the rest of the walk starts afresh. -/
theorem div_of_ge {b p : Nat} (hp : 0 < b) (h : b ≤ p) : (p - b) / b + 1 = p / b := by
  rw [Nat.div_eq p b, if_pos ⟨hp, h⟩]

/-! ## The loops -/

theorem writeLoop_spec {b : Nat} (hb : 0 < b) :
    ∀ {nodes : List Node} {npos : Nat} (buf : List UInt8), Uniform b nodes → npos < b →
      0 < buf.length → npos + buf.length ≤ nodes.flatten.length →
      ∃ nodes', writeLoop nodes npos buf = some (nodes', (npos + buf.length) / b) ∧
        Uniform b nodes' ∧ nodes'.length = nodes.length ∧
        nodes'.flatten = overwrite nodes.flatten npos buf
  | [], npos, buf, _, _, hpos, hlen => by
      rw [List.flatten_nil, List.length_nil] at hlen
      omega
  | nd :: rest, npos, buf, hu, hn, hpos, hlen => by
      obtain ⟨hnd, hrest⟩ := uniform_cons.mp hu
      rw [List.flatten_cons, List.length_append, hnd] at hlen
      by_cases hfit : b - npos ≥ buf.length
      · refine ⟨overwrite nd npos buf :: rest, ?_, ?_, rfl, ?_⟩
        · rw [div_of_le hb (show npos + buf.length ≤ b by omega)]
          simp only [writeLoop, hnd]
          rw [if_pos hfit]
        · refine uniform_cons.mpr ⟨?_, hrest⟩
          rw [length_overwrite (by omega), hnd]
        · rw [List.flatten_cons, List.flatten_cons, overwrite_append_left (by omega)]
      · have hdrop : (buf.drop (b - npos)).length = buf.length - (b - npos) := List.length_drop
        have htake : (buf.take (b - npos)).length = b - npos := by
          rw [List.length_take]; omega
        obtain ⟨nodes', hloop, hu', hlen', hflat⟩ :=
          writeLoop_spec hb (buf.drop (b - npos)) hrest hb (by omega) (by omega)
        refine ⟨overwrite nd npos (buf.take (b - npos)) :: nodes', ?_, ?_, ?_, ?_⟩
        · rw [← div_of_ge hb (show b ≤ npos + buf.length by omega),
            show npos + buf.length - b = 0 + (buf.drop (b - npos)).length by omega]
          simp only [writeLoop, hnd]
          rw [if_neg hfit, hloop]
          rfl
        · refine uniform_cons.mpr ⟨?_, hu'⟩
          rw [length_overwrite (by omega), hnd]
        · rw [List.length_cons, List.length_cons, hlen']
        · rw [List.flatten_cons, List.flatten_cons, hflat,
            overwrite_append_across (by omega) (by omega), hnd]

theorem readLoop_spec {b : Nat} (hb : 0 < b) :
    ∀ {nodes : List Node} {npos : Nat} (size : Nat), Uniform b nodes → npos < b → 0 < size →
      npos + size ≤ nodes.flatten.length →
      readLoop nodes npos size = some (window nodes.flatten npos size, (npos + size) / b)
  | [], npos, size, _, _, hpos, hlen => by
      rw [List.flatten_nil, List.length_nil] at hlen
      omega
  | nd :: rest, npos, size, hu, hn, hpos, hlen => by
      obtain ⟨hnd, hrest⟩ := uniform_cons.mp hu
      rw [List.flatten_cons, List.length_append, hnd] at hlen
      rw [List.flatten_cons]
      by_cases hfit : b - npos ≥ size
      · rw [div_of_le hb (show npos + size ≤ b by omega), window_append_left (by omega)]
        simp only [readLoop, hnd]
        rw [if_pos hfit]
      · have ih := readLoop_spec hb (size - (b - npos)) hrest hb (by omega) (by omega)
        rw [← div_of_ge hb (show b ≤ npos + size by omega),
          window_append_across (by omega) (by omega), hnd,
          show npos + size - b = 0 + (size - (b - npos)) by omega]
        simp only [readLoop, hnd]
        rw [if_neg hfit, ih]
        rfl

theorem seekLoop_spec {b : Nat} (hb : 0 < b) :
    ∀ {nodes : List Node} {v : Nat}, Uniform b nodes → nodes ≠ [] →
      v ≤ nodes.flatten.length → seekLoop nodes v = some (v / b)
  | [], _, _, hne, _ => absurd rfl hne
  | nd :: rest, v, hu, _, hlen => by
      obtain ⟨hnd, hrest⟩ := uniform_cons.mp hu
      rw [List.flatten_cons, List.length_append, hnd] at hlen
      simp only [seekLoop, hnd]
      by_cases hv : v > b
      · have hne : rest ≠ [] := by
          intro h
          rw [h, List.flatten_nil, List.length_nil] at hlen
          omega
        rw [if_pos hv, seekLoop_spec hb hrest hne (by omega), Option.map_some,
          div_of_ge hb (by omega)]
      · rw [if_neg hv, div_of_le hb (by omega)]
        by_cases hb' : v = b
        · rw [if_pos hb', if_pos hb'.symm]
        · rw [if_neg hb', if_neg (fun h => hb' h.symm)]

/-! ## The invariant -/

/-- The representation invariant. -/
structure Inv (s : ByteArray) : Prop where
  base_pos : 0 < s.m_baseSize
  uniform : Uniform s.m_baseSize s.m_root
  root_ne : s.m_root ≠ []
  capacity : s.m_capacity = s.m_baseSize * s.m_root.length
  pos_le : s.m_position ≤ s.m_size
  size_le : s.m_size ≤ s.m_capacity
  cur : s.m_cur = s.nodeAt (s.m_position / s.m_baseSize)

namespace Inv

variable {s : ByteArray}

theorem length_flatten (h : s.Inv) : s.m_root.flatten.length = s.m_capacity := by
  rw [h.uniform.length_flatten, h.capacity]

theorem getReadSize (h : s.Inv) : s.getReadSize = s.m_size - s.m_position :=
  sizeSub_of_le h.pos_le

theorem getCapacity (h : s.Inv) : s.getCapacity = s.m_capacity - s.m_position :=
  sizeSub_of_le (Nat.le_trans h.pos_le h.size_le)

theorem offset_lt (h : s.Inv) : s.m_position % s.m_baseSize < s.m_baseSize :=
  Nat.mod_lt _ h.base_pos

/-- Before the end of the capacity `m_cur` is the block of the cursor. -/
theorem cur_some (h : s.Inv) (hlt : s.m_position < s.m_capacity) :
    s.m_position / s.m_baseSize < s.m_root.length ∧
      s.m_cur = some (s.m_position / s.m_baseSize) := by
  have hidx : s.m_position / s.m_baseSize < s.m_root.length := by
    rw [Nat.div_lt_iff_lt_mul h.base_pos, Nat.mul_comm, ← h.capacity]
    exact hlt
  exact ⟨hidx, by rw [h.cur, nodeAt, if_pos hidx]⟩

/-- At the end of the capacity `m_cur` is null. -/
theorem cur_none (h : s.Inv) (heq : s.m_position = s.m_capacity) : s.m_cur = none := by
  rw [h.cur, nodeAt, if_neg]
  rw [heq, h.capacity, Nat.mul_div_cancel_left _ h.base_pos]
  omega

/-- The flat memory, cut at the block of the cursor. -/
theorem split (h : s.Inv) (hlt : s.m_position < s.m_capacity) :
    s.m_root.flatten =
        (s.m_root.take (s.m_position / s.m_baseSize)).flatten ++
          (s.m_root.drop (s.m_position / s.m_baseSize)).flatten ∧
      (s.m_root.take (s.m_position / s.m_baseSize)).flatten.length + s.m_position % s.m_baseSize =
        s.m_position := by
  refine ⟨flatten_take_drop _ _, ?_⟩
  rw [h.uniform.length_take_flatten (Nat.le_of_lt (h.cur_some hlt).1)]
  exact Nat.div_add_mod _ _

/-- How far the blocks from `m_cur` on reach. -/
theorem length_drop (h : s.Inv) (hlt : s.m_position < s.m_capacity) :
    s.m_position % s.m_baseSize + (s.m_capacity - s.m_position) =
      (s.m_root.drop (s.m_position / s.m_baseSize)).flatten.length := by
  obtain ⟨hsplit, hoff⟩ := h.split hlt
  have hlen := h.length_flatten
  rw [hsplit, List.length_append] at hlen
  omega

/-- Moving on by the blocks a walk of `n` bytes crosses reaches the block of the new
cursor. -/
theorem moved (_ : s.Inv) (n : Nat) :
    s.m_position / s.m_baseSize + (s.m_position % s.m_baseSize + n) / s.m_baseSize =
      (s.m_position + n) / s.m_baseSize := by
  by_cases hb : s.m_baseSize = 0
  · simp [hb]
  · have hpos : 0 < s.m_baseSize := Nat.pos_of_ne_zero hb
    conv_rhs => rw [← Nat.div_add_mod s.m_position s.m_baseSize, Nat.add_assoc]
    rw [Nat.mul_add_div hpos]

end Inv

theorem newNodes_uniform (mem : Nat → UInt8) (b count : Nat) :
    Uniform b (newNodes mem b count) := by
  intro nd hnd
  obtain ⟨i, _, rfl⟩ := List.mem_map.mp hnd
  simp

@[simp] theorem length_newNodes (mem : Nat → UInt8) (b count : Nat) :
    (newNodes mem b count).length = count := by simp [newNodes]

/-- The new blocks, laid end to end, are the memory obtained. -/
theorem newNodes_flatten (mem : Nat → UInt8) (b : Nat) :
    ∀ count, (newNodes mem b count).flatten = (List.range (count * b)).map mem
  | 0 => by simp [newNodes]
  | count + 1 => by
      rw [newNodes, List.range_succ, List.map_append, List.flatten_append, ← newNodes,
        newNodes_flatten mem b count, Nat.succ_mul, List.range_add, List.map_append,
        List.map_map]
      simp [Function.comp_def]

theorem new_inv (mem : Nat → UInt8) {b : Nat} (hb : 0 < b) : (new mem b).Inv where
  base_pos := hb
  uniform := newNodes_uniform mem b 1
  root_ne := by simp [new, newNodes]
  capacity := by simp [new]
  pos_le := Nat.le_refl _
  size_le := Nat.zero_le _
  cur := by simp [new, nodeAt]

/-! ## Growing -/

/-- What `addCapacity` does: some number of new blocks at the end, room for `n` bytes at the
cursor, and nothing else. -/
structure Grown (mem : Nat → UInt8) (s s' : ByteArray) (n count : Nat) : Prop where
  root : s'.m_root = s.m_root ++ newNodes mem s.m_baseSize count
  base : s'.m_baseSize = s.m_baseSize
  position : s'.m_position = s.m_position
  size : s'.m_size = s.m_size
  endian : s'.m_endian = s.m_endian
  capacity : s'.m_capacity = s.m_capacity + count * s.m_baseSize
  fits : s.m_position + n ≤ s'.m_capacity
  /-- Fewer blocks do not fit. -/
  least : ∀ k, s.m_position + n ≤ s.m_capacity + k * s.m_baseSize → count ≤ k

theorem addCapacity_grown (mem : Nat → UInt8) {s : ByteArray} (h : s.Inv) {n : Nat}
    (hn : 0 < n) : ∃ count, Grown mem s (s.addCapacity mem n) n count ∧
      (s.addCapacity mem n).Inv := by
  have hpos : s.m_position ≤ s.m_capacity := Nat.le_trans h.pos_le h.size_le
  rw [addCapacity, if_neg (by omega), h.getCapacity]
  by_cases hfit : s.m_capacity - s.m_position ≥ n
  · simp only [if_pos hfit]
    refine ⟨0, ⟨by simp [newNodes], rfl, rfl, rfl, rfl, by simp, by omega, ?_⟩, h⟩
    intro k _
    exact Nat.zero_le k
  · simp only [if_neg hfit]
    have hceil : ∀ k, (n - (s.m_capacity - s.m_position) + s.m_baseSize - 1) / s.m_baseSize ≤ k ↔
        s.m_position + n ≤ s.m_capacity + k * s.m_baseSize := by
      intro k
      have hb := h.base_pos
      rw [Nat.div_le_iff_le_mul hb]
      omega
    generalize hcount :
      (n - (s.m_capacity - s.m_position) + s.m_baseSize - 1) / s.m_baseSize = count at hceil
    have hroom := (hceil count).mp (Nat.le_refl _)
    have hone : 0 < count := by
      cases count with
      | zero => omega
      | succ c => exact Nat.succ_pos c
    refine ⟨count, ⟨rfl, rfl, rfl, rfl, rfl, rfl, hroom, fun k hk => (hceil k).mpr hk⟩, ?_⟩
    refine ⟨h.base_pos, ?_, ?_, ?_, h.pos_le, ?_, ?_⟩
    · exact uniform_append.mpr ⟨h.uniform, newNodes_uniform _ _ _⟩
    · simp [h.root_ne]
    · simp only [List.length_append, length_newNodes, h.capacity, Nat.mul_add]
      rw [Nat.mul_comm count]
    · exact Nat.le_trans h.size_le (Nat.le_add_right _ _)
    · by_cases hend : s.m_capacity - s.m_position = 0
      · have heq : s.m_position = s.m_capacity := by omega
        have hidx : s.m_position / s.m_baseSize = s.m_root.length := by
          rw [heq, h.capacity, Nat.mul_div_cancel_left _ h.base_pos]
        simp only [nodeAt, if_pos hend, hidx, List.length_append, length_newNodes]
        rw [if_pos (by omega)]
      · obtain ⟨hidx, hcur⟩ := h.cur_some (by omega)
        simp only [nodeAt, if_neg hend, List.length_append, length_newNodes, hcur]
        rw [if_pos (by omega)]

end ByteArray

end Muqiu
