import Muqiu.ByteArray.Flat
import Muqiu.ByteArray.Invariant

/-!
# The chunked buffer refines the flat array

`flat` lays the blocks of a `ByteArray` end to end.  From a state with the representation
invariant every call does on the blocks what it does on the flat array: the same result or
the same `out_of_range`, a state whose flat array is the flat array after the call, and the
invariant again.  So no run over non-empty reads dereferences a null pointer, and its results
are those of the flat array.

The flat array still knows the block size, through its capacity and through what `clear`
keeps.  The tape does not.  A run in which no `setPosition` is refused agrees with the tape,
that is, its results depend on the block size in bytes never written since the last `clear`
only.
-/

namespace Muqiu

open Window

namespace ByteArray

/-- The blocks laid end to end. -/
def flat (s : ByteArray) : Flat := ⟨s.m_root.flatten, s.m_position, s.m_size⟩

/-- `s'` is `s` after a call, `f'` the flat array after it. -/
structure After (s s' : ByteArray) (f' : Flat) : Prop where
  inv : s'.Inv
  base : s'.m_baseSize = s.m_baseSize
  flat : s'.flat = f'

theorem new_flat (mem : Nat → UInt8) (b : Nat) : (new mem b).flat = Flat.new mem b := by
  simp only [flat, new, Flat.new, Flat.fresh, newNodes_flatten, Nat.one_mul]

theorem Inv.flat_ok {s : ByteArray} (h : s.Inv) : s.flat.Ok :=
  ⟨h.pos_le, by rw [flat, h.length_flatten]; exact h.size_le⟩

/-! ## Writing -/

/-- `addCapacity` appends the least number of whole blocks that fits. -/
theorem Grown.flatten {mem : Nat → UInt8} {s s' : ByteArray} {n count : Nat} (h : s.Inv)
    (hg : Grown mem s s' n count) :
    s'.m_root.flatten =
      s.m_root.flatten ++ Flat.fresh mem (s.flat.blocks s.m_baseSize n * s.m_baseSize) := by
  have hlen : s.flat.bytes.length = s.m_capacity := h.length_flatten
  have hfit : s.m_position + n ≤ s.flat.bytes.length + count * s.m_baseSize := by
    rw [hlen, ← hg.capacity]
    exact hg.fits
  have hroom : s.m_position + n ≤
      s.m_capacity + s.flat.blocks s.m_baseSize n * s.m_baseSize := by
    rw [← hlen]
    exact Flat.fits h.base_pos s.flat n
  have hcount : count = s.flat.blocks s.m_baseSize n :=
    Nat.le_antisymm (hg.least _ hroom) (Flat.blocks_le hfit)
  rw [hg.root, List.flatten_append, newNodes_flatten, hcount, Flat.fresh]

theorem write_nil (mem : Nat → UInt8) (s : ByteArray) : s.write mem [] = .ok s := rfl

/-- An empty write leaves the flat array as it is. -/
theorem Flat.write_nil (mem : Nat → UInt8) {b : Nat} {f : Flat} (h : f.Ok) :
    f.write mem b [] = f := by
  have hpos := h.pos_le
  have hzero : f.blocks b 0 = 0 :=
    Nat.le_zero.mp (Flat.blocks_le (by have := h.size_le; omega))
  simp [Flat.write, hzero, Flat.fresh, Nat.max_eq_left hpos]

/-- `write` with room at the cursor: it overwrites the flat memory there. -/
theorem write_room {s : ByteArray} (h : s.Inv) {buf : List UInt8} (hn : 0 < buf.length)
    (hroom : s.m_position + buf.length ≤ s.m_capacity) :
    ∃ c nodes moved, s.m_cur = some c ∧
      writeLoop (s.m_root.drop c) (s.m_position % s.m_baseSize) buf = some (nodes, moved) ∧
      c + moved = (s.m_position + buf.length) / s.m_baseSize ∧
      (s.m_root.take c ++ nodes).length = s.m_root.length ∧
      Uniform s.m_baseSize (s.m_root.take c ++ nodes) ∧
      (s.m_root.take c ++ nodes).flatten =
        overwrite s.m_root.flatten s.m_position buf := by
  have hlt : s.m_position < s.m_capacity := by omega
  obtain ⟨hidx, hcur⟩ := h.cur_some hlt
  obtain ⟨hsplit, hoff⟩ := h.split hlt
  have hdrop := h.length_drop hlt
  obtain ⟨nodes, hloop, hu, hlen, hflat⟩ :=
    writeLoop_spec h.base_pos buf (h.uniform.drop (s.m_position / s.m_baseSize))
      h.offset_lt hn (by omega)
  refine ⟨_, nodes, _, hcur, hloop, h.moved _, ?_, ?_, ?_⟩
  · rw [List.length_append, hlen, List.length_take, List.length_drop]
    omega
  · exact uniform_append.mpr ⟨h.uniform.take _, hu⟩
  · rw [List.flatten_append, hflat, hsplit, overwrite_append_right (by omega),
      show s.m_position - (s.m_root.take (s.m_position / s.m_baseSize)).flatten.length =
        s.m_position % s.m_baseSize by omega]

theorem write_after (mem : Nat → UInt8) {s : ByteArray} (h : s.Inv) (buf : List UInt8) :
    ∃ s', s.write mem buf = .ok s' ∧ After s s' (s.flat.write mem s.m_baseSize buf) := by
  by_cases hempty : buf = []
  · subst hempty
    exact ⟨s, write_nil mem s, h, rfl, (Flat.write_nil mem h.flat_ok).symm⟩
  · have hn : 0 < buf.length := List.length_pos_iff.mpr hempty
    obtain ⟨count, hg, hinv⟩ := addCapacity_grown mem h hn
    generalize hgrow : s.addCapacity mem buf.length = g at hg hinv
    obtain ⟨c, nodes, moved, hcur, hloop, hidx, hlen, hu, hflat⟩ :=
      write_room hinv hn (by rw [hg.position]; exact hg.fits)
    have hmax : ∀ p z : Nat, (if p > z then p else z) = max z p := by
      intro p z
      by_cases hp : p > z
      · rw [if_pos hp, Nat.max_eq_right (by omega)]
      · rw [if_neg hp, Nat.max_eq_left (by omega)]
    refine ⟨{ g with
      m_root := g.m_root.take c ++ nodes
      m_position := g.m_position + buf.length
      m_size := if g.m_position + buf.length > g.m_size then g.m_position + buf.length
        else g.m_size
      m_cur := g.nodeAt (c + moved) }, ?_, ?_⟩
    · rw [write, if_neg (by omega), hgrow]
      simp only [hcur, hloop]
    · refine ⟨⟨hinv.base_pos, hu, ?_, ?_, ?_, ?_, ?_⟩, hg.base, ?_⟩
      · have hroot := List.length_pos_iff.mpr hinv.root_ne
        rw [← hlen] at hroot
        exact List.length_pos_iff.mp hroot
      · exact hinv.capacity.trans (by rw [hlen])
      · simp only [hmax]
        exact Nat.le_max_right _ _
      · simp only [hmax]
        refine Nat.max_le.mpr ⟨hinv.size_le, ?_⟩
        rw [hg.position]
        exact hg.fits
      · simp only [nodeAt, hlen, hidx]
      · simp only [flat, hmax, hflat, hg.flatten h, hg.position, hg.size, Flat.write]

/-! ## Reading -/

/-- The walk of `read` from the cursor copies the window of the flat memory there. -/
theorem readLoop_room {s : ByteArray} (h : s.Inv) {n : Nat} (hn : 0 < n)
    (hroom : s.m_position + n ≤ s.m_capacity) :
    ∃ c moved, s.m_cur = some c ∧
      readLoop (s.m_root.drop c) (s.m_position % s.m_baseSize) n =
        some (window s.m_root.flatten s.m_position n, moved) ∧
      c + moved = (s.m_position + n) / s.m_baseSize := by
  have hlt : s.m_position < s.m_capacity := by omega
  obtain ⟨hidx, hcur⟩ := h.cur_some hlt
  obtain ⟨hsplit, hoff⟩ := h.split hlt
  have hdrop := h.length_drop hlt
  refine ⟨_, _, hcur, ?_, h.moved n⟩
  rw [readLoop_spec h.base_pos _ (h.uniform.drop _) h.offset_lt hn (by omega), hsplit,
    window_append_right (by omega),
    show s.m_position - (s.m_root.take (s.m_position / s.m_baseSize)).flatten.length =
      s.m_position % s.m_baseSize by omega]

theorem read_after {s : ByteArray} (h : s.Inv) {n : Nat} (hn : 0 < n)
    (hread : n ≤ s.m_size - s.m_position) :
    ∃ s', s.read n = .ok (window s.m_root.flatten s.m_position n, s') ∧
      After s s' { s.flat with position := s.m_position + n } := by
  have hsize := h.size_le
  obtain ⟨c, moved, hcur, hloop, hidx⟩ :=
    readLoop_room h hn (show s.m_position + n ≤ s.m_capacity by omega)
  refine ⟨{ s with m_position := s.m_position + n, m_cur := s.nodeAt (c + moved) }, ?_, ?_⟩
  · rw [read, h.getReadSize, if_neg (by omega)]
    simp only [hcur, hloop]
  · refine ⟨⟨h.base_pos, h.uniform, h.root_ne, h.capacity, ?_, h.size_le, ?_⟩, rfl, rfl⟩
    · show s.m_position + n ≤ s.m_size
      omega
    · simp only [nodeAt, hidx]

theorem read_error {s : ByteArray} (h : s.Inv) {n : Nat} (hn : n > s.m_size - s.m_position) :
    s.read n = .error (.outOfRange "not enough len") := by
  rw [read, h.getReadSize, if_pos hn]

/-- Reading nothing before the end of the capacity changes nothing. -/
theorem read_zero {s : ByteArray} (h : s.Inv) (hlt : s.m_position < s.m_capacity) :
    s.read 0 = .ok ([], s) := by
  obtain ⟨hidx, hcur⟩ := h.cur_some hlt
  obtain ⟨nd, rest, hdrop⟩ := List.exists_cons_of_ne_nil
    (List.ne_nil_of_length_pos (l := s.m_root.drop (s.m_position / s.m_baseSize))
      (by rw [List.length_drop]; omega))
  have hnd : nd.length = s.m_baseSize :=
    h.uniform.drop (s.m_position / s.m_baseSize) nd (hdrop ▸ List.mem_cons_self)
  have hoff := h.offset_lt
  have hloop : readLoop (s.m_root.drop (s.m_position / s.m_baseSize))
      (s.m_position % s.m_baseSize) 0 = some ([], 0) := by
    rw [hdrop, readLoop, if_pos (Nat.zero_le _), window_zero, if_neg (by omega)]
  rw [read, if_neg (Nat.not_lt_zero _)]
  simp only [hcur, hloop, Nat.add_zero]
  rw [← h.cur]

/-- Reading nothing at the end of the capacity reads through the null pointer. -/
theorem read_zero_null {s : ByteArray} (h : s.Inv) (heq : s.m_position = s.m_capacity) :
    s.read 0 = .error .nullCur := by
  rw [read, if_neg (Nat.not_lt_zero _)]
  simp only [h.cur_none heq]

/-- `toString` copies the data from the cursor on. -/
theorem toString_flat {s : ByteArray} (h : s.Inv) :
    s.toString = .ok (window s.m_root.flatten s.m_position (s.m_size - s.m_position)) := by
  have hsize := h.size_le
  rw [toString, h.getReadSize]
  by_cases hzero : s.m_size - s.m_position = 0
  · rw [if_pos hzero, hzero, window_zero]
  · obtain ⟨c, moved, hcur, hloop, _⟩ := readLoop_room h (n := s.m_size - s.m_position)
      (by omega) (by omega)
    rw [if_neg hzero, readAt, sizeSub_of_le h.pos_le, if_neg (by omega)]
    simp only [hcur, hloop]

/-! ## Moving the cursor -/

theorem setPosition_after {s : ByteArray} (h : s.Inv) {v : Nat} (hv : v ≤ s.m_capacity) :
    ∃ s', s.setPosition v = .ok s' ∧
      After s s' { s.flat with position := v, size := max s.m_size v } := by
  have hseek := seekLoop_spec h.base_pos h.uniform h.root_ne (v := v)
    (by rw [h.length_flatten]; exact hv)
  have hmax : (if v > s.m_size then v else s.m_size) = max s.m_size v := by
    by_cases hlt : v > s.m_size
    · rw [if_pos hlt, Nat.max_eq_right (by omega)]
    · rw [if_neg hlt, Nat.max_eq_left (by omega)]
  refine ⟨{ s with
    m_position := v
    m_size := if v > s.m_size then v else s.m_size
    m_cur := s.nodeAt (v / s.m_baseSize) }, ?_, ?_⟩
  · rw [setPosition, if_neg (by omega), hseek]
  · refine ⟨⟨h.base_pos, h.uniform, h.root_ne, h.capacity, ?_, ?_, rfl⟩, rfl, ?_⟩
    · simp only [hmax]
      exact Nat.le_max_right _ _
    · simp only [hmax]
      exact Nat.max_le.mpr ⟨h.size_le, hv⟩
    · simp only [flat, hmax]

theorem clear_after {s : ByteArray} (h : s.Inv) :
    After s s.clear ⟨s.m_root.flatten.take s.m_baseSize, 0, 0⟩ := by
  obtain ⟨nd, rest, hroot⟩ := List.exists_cons_of_ne_nil h.root_ne
  have hu := uniform_cons.mp (hroot ▸ h.uniform)
  refine ⟨⟨h.base_pos, h.uniform.take 1, ?_, ?_, Nat.le_refl _, Nat.zero_le _, ?_⟩, rfl, ?_⟩
  · simp [clear, hroot]
  · simp [clear, hroot]
  · simp [clear, hroot, nodeAt]
  · simp [clear, flat, hroot, ← hu.1]

/-! ## Runs -/

/-- Every call refines the call on the flat array. -/
theorem call_after (mem : Nat → UInt8) {s : ByteArray} (h : s.Inv) {op : Op}
    (hread : op ≠ .read 0) :
    ∃ s', s.call mem op = some ((s.flat.call mem s.m_baseSize op).1, s') ∧
      After s s' (s.flat.call mem s.m_baseSize op).2 := by
  cases op with
  | write buf =>
      obtain ⟨s', hwrite, hafter⟩ := write_after mem h buf
      exact ⟨s', by rw [call, hwrite]; rfl, hafter⟩
  | read n =>
      have hn : 0 < n := Nat.pos_of_ne_zero fun h0 => hread (by rw [h0])
      have hleft : s.flat.size - s.flat.position = s.m_size - s.m_position := rfl
      by_cases hlong : n > s.m_size - s.m_position
      · refine ⟨s, ?_, h, rfl, ?_⟩
        · rw [call, read_error h hlong, Flat.call, hleft, if_pos hlong]
          rfl
        · rw [Flat.call, hleft, if_pos hlong]
      · obtain ⟨s', heq, hafter⟩ := read_after h hn (Nat.le_of_not_gt hlong)
        refine ⟨s', ?_, ?_⟩
        · rw [call, heq, Flat.call, hleft, if_neg hlong]
          rfl
        · rw [Flat.call, hleft, if_neg hlong]
          exact hafter
  | setPosition v =>
      have hlen : s.flat.bytes.length = s.m_capacity := h.length_flatten
      by_cases hv : v > s.m_capacity
      · refine ⟨s, ?_, h, rfl, ?_⟩
        · rw [call, setPosition, if_pos hv, Flat.call, hlen, if_pos hv]
          rfl
        · rw [Flat.call, hlen, if_pos hv]
      · obtain ⟨s', heq, hafter⟩ := setPosition_after h (Nat.le_of_not_gt hv)
        refine ⟨s', ?_, ?_⟩
        · rw [call, heq, Flat.call, hlen, if_neg hv]
          rfl
        · rw [Flat.call, hlen, if_neg hv]
          exact hafter
  | clear => exact ⟨s.clear, rfl, clear_after h⟩
  | getReadSize => exact ⟨s, by rw [call, h.getReadSize]; rfl, h, rfl, rfl⟩
  | getSize => exact ⟨s, rfl, h, rfl, rfl⟩
  | toString => exact ⟨s, by rw [call, toString_flat h]; rfl, h, rfl, rfl⟩

/-- Every run refines the run on the flat array. -/
theorem run_after : ∀ (calls : List (Op × (Nat → UInt8))) {s : ByteArray}, s.Inv →
    (∀ call ∈ calls, call.1 ≠ .read 0) →
    ∃ s', s.run calls = some ((s.flat.run s.m_baseSize calls).1, s') ∧
      After s s' (s.flat.run s.m_baseSize calls).2
  | [], s, h, _ => ⟨s, rfl, h, rfl, rfl⟩
  | (op, mem) :: calls, s, h, hread => by
      obtain ⟨s1, hcall, hafter⟩ := call_after mem h (hread (op, mem) List.mem_cons_self)
      obtain ⟨s2, hrun, hafter'⟩ := run_after calls hafter.inv
        fun call hmem => hread call (List.mem_cons_of_mem _ hmem)
      rw [hafter.flat, hafter.base] at hrun hafter'
      refine ⟨s2, ?_, hafter'.inv, hafter'.base.trans hafter.base, hafter'.flat⟩
      rw [run, hcall]
      simp only [Option.bind_eq_bind, Option.bind_some, hrun]
      rfl

/-- Every call keeps the invariant. -/
theorem call_inv {mem : Nat → UInt8} {s s' : ByteArray} (h : s.Inv) {op : Op} {res : Res}
    (hcall : s.call mem op = some (res, s')) : s'.Inv := by
  by_cases hread : op = .read 0
  · subst hread
    rcases Nat.lt_or_ge s.m_position s.m_capacity with hlt | hge
    · rw [call, read_zero h hlt] at hcall
      cases hcall
      exact h
    · have heq := Nat.le_antisymm (Nat.le_trans h.pos_le h.size_le) hge
      rw [call, read_zero_null h heq] at hcall
      cases hcall
  · obtain ⟨s₁, heq, hafter⟩ := call_after mem h hread
    rw [heq] at hcall
    cases hcall
    exact hafter.inv

/-- So does every run. -/
theorem run_inv (calls : List (Op × (Nat → UInt8))) {s s' : ByteArray} (h : s.Inv)
    {ress : List Res} (hrun : s.run calls = some (ress, s')) : s'.Inv := by
  induction calls generalizing s ress with
  | nil =>
      cases hrun
      exact h
  | cons call calls ih =>
      obtain ⟨op, mem⟩ := call
      rw [run] at hrun
      obtain ⟨⟨res, s₁⟩, hcall, hrest⟩ := Option.bind_eq_some_iff.mp hrun
      obtain ⟨⟨ress', s₂⟩, hrun', hlast⟩ := Option.bind_eq_some_iff.mp hrest
      cases hlast
      exact ih (call_inv h hcall) hrun'

/-- A `ByteArray` of any block size behaves as the flat array of its capacity bytes.  Where
no `setPosition` is refused its results are those of the tape, which has no block size. -/
theorem run_refines_flat {base_size : Nat} (hb : 1 ≤ base_size) (mem : Nat → UInt8)
    (calls : List (Op × (Nat → UInt8))) (hread : ∀ call ∈ calls, call.1 ≠ .read 0) :
    ∃ ress s, (new mem base_size).run calls = some (ress, s) ∧
      (Flat.new mem base_size).run base_size calls = (ress, s.flat) ∧
      s.flat.bytes.length = s.m_capacity ∧
      (SetPositionOk (calls.map Prod.fst) ress →
        List.Forall₂ Tape.Matches (Tape.new.run (calls.map Prod.fst)) ress) := by
  obtain ⟨s, hrun, hafter⟩ := run_after calls (new_inv mem hb) hread
  rw [new_flat] at hrun hafter
  refine ⟨_, s, hrun, ?_, hafter.inv.length_flatten, ?_⟩
  · rw [hafter.flat]
    rfl
  · exact Flat.run_matches hb calls (Flat.Holds.new mem base_size) (Flat.new_ok mem base_size)

/-- Eight bytes, `clear`, five bytes, and the cursor moved over three bytes not written. -/
def staleCalls : List (Op × (Nat → UInt8)) :=
  [.write [1, 1, 1, 1, 1, 1, 1, 1], .clear, .write [2, 2, 2, 2, 2], .setPosition 8,
    .setPosition 0, .toString].map fun op => (op, fun _ => 0)

theorem run_refines_flat_four :
    ∃ ress s, (new (fun _ => 0) 4).run staleCalls = some (ress, s) ∧
      (Flat.new (fun _ => 0) 4).run 4 staleCalls = (ress, s.flat) ∧
      s.flat.bytes.length = s.m_capacity ∧
      (SetPositionOk (staleCalls.map Prod.fst) ress →
        List.Forall₂ Tape.Matches (Tape.new.run (staleCalls.map Prod.fst)) ress) :=
  run_refines_flat (by decide) _ staleCalls (by decide)

/-- The bytes under a moved cursor are those of the block `clear` kept, or of a new one. -/
theorem staleCalls_depend_on_base_size :
    ¬ ∀ (b₁ b₂ : Nat) (mem : Nat → UInt8) (calls : List (Op × (Nat → UInt8)))
      (ress₁ ress₂ : List Res) (s₁ s₂ : ByteArray), 1 ≤ b₁ → 1 ≤ b₂ →
      (∀ call ∈ calls, call.1 ≠ .read 0) →
      (new mem b₁).run calls = some (ress₁, s₁) → (new mem b₂).run calls = some (ress₂, s₂) →
      SetPositionOk (calls.map Prod.fst) ress₁ → SetPositionOk (calls.map Prod.fst) ress₂ →
      ress₁ = ress₂ := by
  intro h
  have hset : ∀ bs, SetPositionOk (staleCalls.map Prod.fst)
      [.unit, .unit, .unit, .unit, .unit, .bytes bs] := by
    intro bs v res hmem
    simp [staleCalls] at hmem
    cases hmem with
    | inl h8 => exact h8.2
    | inr h0 => exact h0.2
  have heq := h 4 8 (fun _ => 0) staleCalls
    [.unit, .unit, .unit, .unit, .unit, .bytes [2, 2, 2, 2, 2, 0, 0, 0]]
    [.unit, .unit, .unit, .unit, .unit, .bytes [2, 2, 2, 2, 2, 1, 1, 1]]
    { m_baseSize := 4, m_position := 0, m_capacity := 8, m_size := 8, m_endian := .big
      m_root := [[2, 2, 2, 2], [2, 0, 0, 0]], m_cur := some 0 }
    { m_baseSize := 8, m_position := 0, m_capacity := 8, m_size := 8, m_endian := .big
      m_root := [[2, 2, 2, 2, 2, 1, 1, 1]], m_cur := some 0 }
    (by decide) (by decide) (by decide) (by decide) (by decide)
    (hset _) (hset _)
  exact absurd heq (by decide)

end ByteArray

end Muqiu
