import Muqiu.ByteArray.ScatterGather

/-!
# Saving to a file

`writeToFile` writes the unread bytes block by block.  Of each block it takes the bytes from an
offset `diff` on, but computes how many from the smaller of what is left and the block size, and
takes `diff` off either.  That is right where the block is written to its end, and where the
offset is 0.  Where the rest of the data is smaller than a block and the cursor stands inside
one, the count is too small by the offset, and the offsets of the blocks behind are wrong.

`readFromFile` writes the file into the buffer in pieces of a block, whatever the block size it
was saved with.

A file that is open is the bytes written to it, and no size reaches 2^63.
-/

namespace Muqiu

open Window

namespace ByteArray

/-! ## The two functions -/

/-- How saving goes wrong. -/
inductive FileFault where
  /-- `cur` is null where it is dereferenced. -/
  | nullCur
  /-- `ofs.write` is given bytes before the block or a negative count. -/
  | badWrite
deriving DecidableEq, Repr

/-- `int diff = pos % m_baseSize` -/
def blockOffset (b pos : Nat) : Int := (BitVec.ofNat 32 (pos % b)).toInt

/-- The loop of `writeToFile` over the blocks from `cur` on: what it writes. -/
def saveLoop (b : Nat) : List Node → Nat → Nat → Except FileFault (List UInt8)
  | [], _, read_size => if read_size > 0 then .error .nullCur else .ok []
  | nd :: rest, pos, read_size =>
      if read_size > 0 then
        let diff := blockOffset b pos
        let len : Int := ((if read_size > b then b else read_size : Nat) : Int) - diff
        if diff < 0 ∨ len < 0 then .error .badWrite
        else do
          let bytes ← saveLoop b rest (pos + len.toNat) (read_size - len.toNat)
          .ok (window nd diff.toNat len.toNat ++ bytes)
      else .ok []

/-- `writeToFile`: the file, or `none` when it cannot be opened and the result is false. -/
def writeToFile (s : ByteArray) (opens : Bool) : Except FileFault (Option (List UInt8)) :=
  if !opens then .ok none
  else
    let cur := match s.m_cur with
      | none => []
      | some c => s.m_root.drop c
    (saveLoop s.m_baseSize cur s.m_position s.getReadSize).map some

/-- The loop of `readFromFile`: a read of a whole block leaves `eof` unset, a shorter one, also
of nothing, sets it.  Blocks are not empty. -/
def loadLoop (mem : Nat → Nat → UInt8) (b : Nat) (file : List UInt8) (s : ByteArray) :
    Except Fault ByteArray :=
  if 0 < b ∧ b ≤ file.length then do
    let s ← s.write (mem 0) (file.take b)
    loadLoop (fun n => mem (n + 1)) b (file.drop b) s
  else s.write (mem 0) file
termination_by file.length
decreasing_by
  rw [List.length_drop]
  omega

/-- `readFromFile`, of a file that may be missing: the result and the state. -/
def readFromFile (mem : Nat → Nat → UInt8) (s : ByteArray) (file : Option (List UInt8)) :
    Except Fault (Bool × ByteArray) :=
  match file with
  | none => .ok (false, s)
  | some file => (loadLoop mem s.m_baseSize file s).map fun s => (true, s)

/-! ## Loading -/

theorem write_size {mem : Nat → UInt8} {s s' : ByteArray} (h : s.Inv) {buf : List UInt8}
    (hwrite : s.write mem buf = .ok s') : s'.m_size = max s.m_size s'.m_position := by
  obtain ⟨t, hwrite', hafter⟩ := write_after mem h buf
  rw [hwrite] at hwrite'
  cases hwrite'
  have hsize : s'.m_size = max s.m_size (s.m_position + buf.length) :=
    congrArg Flat.size hafter.flat
  have hposition : s'.m_position = s.m_position + buf.length :=
    congrArg Flat.position hafter.flat
  rw [hsize, hposition]

/-- Piece by piece the whole file goes to the cursor. -/
theorem loadLoop_written (b : Nat) (file : List UInt8) (mem : Nat → Nat → UInt8)
    {s : ByteArray} (h : s.Inv) :
    ∃ s', loadLoop mem b file s = .ok s' ∧ Written s s' file ∧
      s'.m_size = max s.m_size s'.m_position := by
  induction hn : file.length using Nat.strong_induction_on generalizing file mem s with
  | _ n ih =>
      rw [loadLoop]
      split
      next hfull =>
        obtain ⟨s₁, hwrite, hw⟩ := write_written (mem 0) h (file.take b)
        have hsize := write_size h hwrite
        have hlen : (file.drop b).length = n - b := by rw [List.length_drop, hn]
        obtain ⟨s₂, hload, hw', hsize'⟩ :=
          ih (n - b) (by omega) (file.drop b) (fun n => mem (n + 1)) hw.inv hlen
        have hall := hw.trans hw'
        have hposition := hw'.position
        rw [List.take_append_drop] at hall
        refine ⟨s₂, ?_, hall, ?_⟩
        · rw [hwrite]
          exact hload
        · rw [hsize', hsize]
          omega
      next =>
        obtain ⟨s₁, hwrite, hw⟩ := write_written (mem 0) h file
        exact ⟨s₁, hwrite, hw, write_size h hwrite⟩

/-- A file read into an empty buffer is what the buffer then holds. -/
theorem readFromFile_toString (mem : Nat → Nat → UInt8) {t : ByteArray} (h : t.Inv)
    (hempty : t.m_size = 0) (file : List UInt8) :
    ∃ t₁ t₂, t.readFromFile mem (some file) = .ok (true, t₁) ∧ t₁.setPosition 0 = .ok t₂ ∧
      t₂.toString = .ok file := by
  have hpos := h.pos_le
  obtain ⟨t₁, hload, hw, hsize⟩ := loadLoop_written t.m_baseSize file mem h
  obtain ⟨t₂, hset, hafter⟩ := setPosition_after hw.inv (Nat.zero_le _)
  have hbytes : t₂.m_root.flatten = t₁.m_root.flatten := congrArg Flat.bytes hafter.flat
  have hsize₂ : t₂.m_size = max t₁.m_size 0 := congrArg Flat.size hafter.flat
  have hposition₂ : t₂.m_position = 0 := congrArg Flat.position hafter.flat
  have hlast : max t₁.m_size 0 - 0 = t₁.m_position := by omega
  have hmemory := hw.memory
  rw [show t.m_position = 0 by omega, List.take_zero, List.nil_append] at hmemory
  refine ⟨t₁, t₂, ?_, hset, ?_⟩
  · rw [readFromFile, hload]
    rfl
  · rw [toString_flat hafter.inv, hbytes, hsize₂, hposition₂, hlast, window, List.drop_zero,
      hmemory]

/-! ## Saving -/

theorem blockOffset_lt (b pos : Nat) : blockOffset b pos < 2 ^ 31 := by
  have h := BitVec.toInt_lt (x := BitVec.ofNat 32 (pos % b))
  exact h

/-- An offset below 2^31 fits the `int`. -/
theorem blockOffset_of_lt {b pos : Nat} (h : pos % b < 2 ^ 31) :
    blockOffset b pos = (pos % b : Nat) := by
  rw [blockOffset, BitVec.toInt_ofNat', Int.bmod_def]
  omega

/-- How many bytes a block gives at most: what is left, or the block. -/
def chunk (b read_size : Nat) : Nat := if read_size > b then b else read_size

section Loop

variable {b : Nat} {nd : Node} {rest : List Node} {pos read_size : Nat}

theorem saveLoop_zero (b : Nat) (nodes : List Node) (pos : Nat) :
    saveLoop b nodes pos 0 = .ok [] := by
  cases nodes <;> rfl

/-- A round from an offset `diff` that gives `len` bytes. -/
theorem saveLoop_round {diff len : Nat} (hread : 0 < read_size)
    (hdiff : blockOffset b pos = diff) (hlen : chunk b read_size = diff + len) :
    saveLoop b (nd :: rest) pos read_size =
      (saveLoop b rest (pos + len) (read_size - len)).map (window nd diff len ++ ·) := by
  have hcount : ((if read_size > b then b else read_size : Nat) : Int) - diff = len := by
    rw [chunk] at hlen
    rw [hlen]
    omega
  rw [saveLoop, if_pos hread]
  dsimp only
  rw [hdiff, hcount, if_neg (by omega)]
  rfl

/-- Every other round fails. -/
theorem saveLoop_ok {w : List UInt8} (hread : 0 < read_size)
    (hok : saveLoop b (nd :: rest) pos read_size = .ok w) :
    ∃ (diff len : Nat) (w' : List UInt8), blockOffset b pos = diff ∧
      chunk b read_size = diff + len ∧
      saveLoop b rest (pos + len) (read_size - len) = .ok w' ∧ w = window nd diff len ++ w' := by
  by_cases hgood : 0 ≤ blockOffset b pos ∧ blockOffset b pos ≤ chunk b read_size
  · obtain ⟨diff, hdiff⟩ := Int.eq_ofNat_of_zero_le hgood.1
    have hlen : chunk b read_size = diff + (chunk b read_size - diff) := by omega
    rw [saveLoop_round hread hdiff hlen] at hok
    obtain ⟨w', hrest, hw⟩ : ∃ w', saveLoop b rest (pos + (chunk b read_size - diff))
        (read_size - (chunk b read_size - diff)) = .ok w' ∧
          window nd diff (chunk b read_size - diff) ++ w' = w := by
      cases hrest : saveLoop b rest (pos + (chunk b read_size - diff))
          (read_size - (chunk b read_size - diff)) with
      | error fault =>
          rw [hrest] at hok
          cases hok
      | ok w' =>
          rw [hrest] at hok
          exact ⟨w', rfl, Except.ok.inj hok⟩
    exact ⟨diff, _, w', hdiff, hlen, hrest, hw.symm⟩
  · rw [saveLoop, if_pos hread] at hok
    dsimp only at hok
    rw [if_pos (by rw [chunk] at hgood; omega)] at hok
    cases hok

/-- A round that writes nothing is repeated until the blocks end. -/
theorem saveLoop_stuck {nodes : List Node} (hread : 0 < read_size)
    (hdiff : blockOffset b pos = chunk b read_size) :
    saveLoop b nodes pos read_size = .error .nullCur := by
  induction nodes with
  | nil => rw [saveLoop, if_pos hread]
  | cons nd rest ih =>
      rw [saveLoop_round hread hdiff (Nat.add_zero _).symm]
      show (saveLoop b rest pos read_size).map _ = _
      rw [ih]
      rfl

/-- What is written is in the blocks. -/
theorem mem_of_saveLoop {nodes : List Node} {w : List UInt8}
    (hok : saveLoop b nodes pos read_size = .ok w) : ∀ x ∈ w, x ∈ nodes.flatten := by
  induction nodes generalizing pos read_size w with
  | nil =>
      rw [saveLoop] at hok
      split at hok
      · cases hok
      · cases hok
        intro x hx
        cases hx
  | cons nd rest ih =>
      rcases Nat.eq_zero_or_pos read_size with rfl | hread
      · rw [saveLoop_zero] at hok
        cases hok
        intro x hx
        cases hx
      · obtain ⟨diff, len, w', -, -, hrest, rfl⟩ := saveLoop_ok hread hok
        intro x hx
        rw [List.flatten_cons, List.mem_append]
        rcases List.mem_append.mp hx with hx | hx
        · exact Or.inl (List.mem_of_mem_drop (List.mem_of_mem_take hx))
        · exact Or.inr (ih hrest x hx)

/-- From the start of a block on, the blocks are written one after the other. -/
theorem saveLoop_aligned {nodes : List Node} (hu : Uniform b nodes) (hpos : pos % b = 0)
    (hroom : read_size ≤ nodes.flatten.length) :
    saveLoop b nodes pos read_size = .ok (nodes.flatten.take read_size) := by
  induction nodes generalizing pos read_size with
  | nil =>
      rw [Nat.le_zero.mp hroom]
      rfl
  | cons nd rest ih =>
      obtain ⟨hnd, hrest⟩ := uniform_cons.mp hu
      rw [List.flatten_cons, List.length_append, hnd] at hroom
      rcases Nat.eq_zero_or_pos read_size with rfl | hread
      · exact saveLoop_zero b _ pos
      · have hdiff : blockOffset b pos = (0 : Nat) := by
          rw [blockOffset_of_lt (by omega), hpos]
        rw [saveLoop_round hread hdiff (Nat.zero_add _).symm, List.flatten_cons, List.take_append,
          hnd, window, List.drop_zero]
        by_cases hmore : read_size > b
        · have hnext : (pos + b) % b = 0 := by rw [Nat.add_mod_right, hpos]
          have hall : nd.take b = nd := List.take_of_length_le (Nat.le_of_eq hnd)
          have hall' : nd.take read_size = nd := List.take_of_length_le (by omega)
          rw [chunk, if_pos hmore, ih hrest hnext (by omega), hall, hall']
          rfl
        · rw [chunk, if_neg hmore, Nat.sub_self, saveLoop_zero,
            show read_size - b = 0 by omega, List.take_zero]
          rfl

/-- The first block to its end, and then block by block. -/
theorem saveLoop_first (hb : 0 < b) (hu : Uniform b (nd :: rest)) (hoff : pos % b < 2 ^ 31)
    (hlong : b ≤ read_size) (hroom : pos % b + read_size ≤ (nd :: rest).flatten.length) :
    saveLoop b (nd :: rest) pos read_size =
      .ok (window (nd :: rest).flatten (pos % b) read_size) := by
  obtain ⟨hnd, hrest⟩ := uniform_cons.mp hu
  have hlt : pos % b < b := Nat.mod_lt pos hb
  have hlen : chunk b read_size = pos % b + (b - pos % b) := by
    rw [chunk]
    split <;> omega
  have hnext : (pos + (b - pos % b)) % b = 0 := by
    rw [show pos + (b - pos % b) = b * (pos / b + 1) by
      have := Nat.div_add_mod pos b
      rw [Nat.mul_add, Nat.mul_one]
      omega]
    exact Nat.mul_mod_right b _
  rw [List.flatten_cons, List.length_append, hnd] at hroom
  rw [saveLoop_round (by omega) (blockOffset_of_lt hoff) hlen,
    saveLoop_aligned hrest hnext (by omega), List.flatten_cons,
    window_append_across (by omega) (by omega), hnd]
  rfl

/-- Inside a block, with less to come than a block, the loop goes on where it should not. -/
theorem saveLoop_short {w : List UInt8} (hoff : pos % b < 2 ^ 31) (hinside : 0 < pos % b)
    (hread : 0 < read_size) (hshort : read_size < b)
    (hok : saveLoop b (nd :: rest) pos read_size = .ok w) :
    pos % b < read_size ∧ ∃ w',
      saveLoop b rest (pos + (read_size - pos % b)) (pos % b) = .ok w' ∧
        w = window nd (pos % b) (read_size - pos % b) ++ w' := by
  have hchunk : chunk b read_size = read_size := by rw [chunk, if_neg (by omega)]
  have hdiff := blockOffset_of_lt hoff
  by_cases hsame : pos % b = read_size
  · rw [saveLoop_stuck hread (by rw [hdiff, hchunk, hsame])] at hok
    cases hok
  · obtain ⟨diff, len, w', hdiff', hlen, hrest, hw⟩ := saveLoop_ok hread hok
    obtain rfl : diff = pos % b := by omega
    obtain rfl : len = read_size - pos % b := by omega
    rw [show read_size - (read_size - pos % b) = pos % b by omega] at hrest
    exact ⟨by omega, w', hrest, hw⟩

end Loop

/-! ## The round trip -/

/-- The file holds the unread bytes, and an empty buffer of any block size that it is read into
gives the same `toString`. -/
structure SavesAndLoads (s : ByteArray) : Prop where
  saves : s.writeToFile true = .ok (some s.unread)
  loads : ∀ (mem : Nat → Nat → UInt8) (t : ByteArray), t.Inv → t.m_size = 0 →
    ∃ t₁ t₂, t.readFromFile mem (some s.unread) = .ok (true, t₁) ∧ t₁.setPosition 0 = .ok t₂ ∧
      t₂.toString = s.toString

/-- There is nothing to save, or the cursor is at the start of a block or has a block or more
behind it. -/
def Saveable (s : ByteArray) : Prop :=
  s.m_position = s.m_size ∨ s.m_position % s.m_baseSize < 2 ^ 31 ∧
    (s.m_position % s.m_baseSize = 0 ∨ s.m_baseSize ≤ s.m_size - s.m_position)

/-- `t` is `s` with other bytes in its blocks. -/
def SameShape (s t : ByteArray) : Prop :=
  ∃ nodes, Uniform s.m_baseSize nodes ∧ nodes.length = s.m_root.length ∧
    t = { s with m_root := nodes }

variable {s : ByteArray}

/-- Whatever the file holds is read back. -/
theorem savesAndLoads_iff_saves (h : s.Inv) :
    s.SavesAndLoads ↔ s.writeToFile true = .ok (some s.unread) := by
  refine ⟨SavesAndLoads.saves, fun hsaves => ⟨hsaves, fun mem t ht hempty => ?_⟩⟩
  obtain ⟨t₁, t₂, hload, hset, hstring⟩ := readFromFile_toString mem ht hempty s.unread
  exact ⟨t₁, t₂, hload, hset, hstring.trans (toString_flat h).symm⟩

/-- The blocks from the cursor on, and the unread bytes in them. -/
theorem writeToFile_eq (h : s.Inv) (hlt : s.m_position < s.m_capacity) :
    ∃ nd rest, s.m_root.drop (s.m_position / s.m_baseSize) = nd :: rest ∧
      Uniform s.m_baseSize (nd :: rest) ∧
      s.m_position % s.m_baseSize + (s.m_size - s.m_position) ≤ (nd :: rest).flatten.length ∧
      s.unread = window (nd :: rest).flatten (s.m_position % s.m_baseSize)
        (s.m_size - s.m_position) ∧
      s.writeToFile true =
        (saveLoop s.m_baseSize (nd :: rest) s.m_position (s.m_size - s.m_position)).map some := by
  obtain ⟨hidx, hcur⟩ := h.cur_some hlt
  obtain ⟨hsplit, hoff⟩ := h.split hlt
  have hcap := h.size_le
  have hdrop := h.length_drop hlt
  obtain ⟨nd, rest, hnodes⟩ := List.exists_cons_of_ne_nil
    (List.ne_nil_of_length_pos (l := s.m_root.drop (s.m_position / s.m_baseSize))
      (by rw [List.length_drop]; omega))
  have hu := h.uniform.drop (s.m_position / s.m_baseSize)
  rw [hnodes] at hu hdrop hsplit
  refine ⟨nd, rest, hnodes, hu, by omega, ?_, ?_⟩
  · rw [unread, hsplit, window_append_right (by omega),
      show s.m_position - (s.m_root.take (s.m_position / s.m_baseSize)).flatten.length =
        s.m_position % s.m_baseSize by omega]
  · rw [writeToFile, if_neg (by decide), h.getReadSize]
    simp only [hcur, hnodes]

theorem writeToFile_saveable (h : s.Inv) (hsave : s.Saveable) :
    s.writeToFile true = .ok (some s.unread) := by
  have hpos := h.pos_le
  have hcap := h.size_le
  by_cases hend : s.m_position = s.m_size
  · have hleft : s.m_size - s.m_position = 0 := by omega
    rw [writeToFile, if_neg (by decide), h.getReadSize, unread, hleft]
    dsimp only
    rw [saveLoop_zero, window_zero]
    rfl
  · obtain ⟨nd, rest, -, hu, hroom, hunread, hsaves⟩ := writeToFile_eq h (by omega)
    obtain ⟨hoff, hplace⟩ := hsave.resolve_left hend
    rw [hsaves, hunread]
    rcases hplace with haligned | hlong
    · rw [saveLoop_aligned hu haligned (by omega), haligned]
      rfl
    · rw [saveLoop_first h.base_pos hu hoff hlong hroom]
      rfl

/-- Where the offsets of a block fit the `int`, anything else fails. -/
theorem writeToFile_not_saveable (h : s.Inv) (hbase : s.m_baseSize ≤ 2 ^ 31)
    (hsave : ¬s.Saveable) (file : List UInt8) : s.writeToFile true ≠ .ok (some file) := by
  intro hok
  have hpos := h.pos_le
  have hcap := h.size_le
  have hoff := Nat.mod_lt s.m_position h.base_pos
  rw [Saveable] at hsave
  obtain ⟨nd, rest, -, hu, hroom, -, hsaves⟩ := writeToFile_eq h (by omega)
  obtain ⟨w, hw⟩ : ∃ w, saveLoop s.m_baseSize (nd :: rest) s.m_position
      (s.m_size - s.m_position) = .ok w := by
    rw [hsaves] at hok
    cases hloop : saveLoop s.m_baseSize (nd :: rest) s.m_position (s.m_size - s.m_position) with
    | error fault =>
        rw [hloop] at hok
        cases hok
    | ok w => exact ⟨w, rfl⟩
  obtain ⟨hlt, w', hrest, -⟩ :=
    saveLoop_short (by omega) (by omega) (by omega) (by omega) hw
  -- the next round is at an offset past what is left
  have hnext : (s.m_position + (s.m_size - s.m_position - s.m_position % s.m_baseSize)) %
      s.m_baseSize = s.m_size - s.m_position := by
    have hdiv := Nat.div_add_mod s.m_position s.m_baseSize
    rw [show s.m_position + (s.m_size - s.m_position - s.m_position % s.m_baseSize) =
        s.m_size - s.m_position + s.m_baseSize * (s.m_position / s.m_baseSize) by omega,
      Nat.add_mul_mod_self_left, Nat.mod_eq_of_lt (by omega)]
  cases rest with
  | nil =>
      rw [saveLoop, if_pos (by omega)] at hrest
      cases hrest
  | cons nd' rest =>
      obtain ⟨diff, len, -, hdiff, hlen, -, -⟩ := saveLoop_ok (by omega) hrest
      rw [blockOffset_of_lt (by omega), hnext] at hdiff
      rw [chunk, if_neg (by omega)] at hlen
      omega

/-! ## Other bytes in the same blocks -/

/-- The blocks of `s` with a 1 at `k` and 0 everywhere else. -/
def marked (s : ByteArray) (k : Nat) : ByteArray :=
  { s with m_root := newNodes (fun i => if i = k then 1 else 0) s.m_baseSize s.m_root.length }

theorem sameShape_marked (s : ByteArray) (k : Nat) : s.SameShape (s.marked k) :=
  ⟨_, newNodes_uniform _ _ _, length_newNodes _ _ _, rfl⟩

theorem SameShape.inv {t : ByteArray} (h : s.Inv) (hsame : s.SameShape t) : t.Inv := by
  obtain ⟨nodes, hu, hlen, rfl⟩ := hsame
  exact h.scattered hu hlen

theorem SameShape.saveable {t : ByteArray} (hsame : s.SameShape t) (hsave : s.Saveable) :
    t.Saveable := by
  obtain ⟨nodes, -, -, rfl⟩ := hsame
  exact hsave

/-- The byte `i` of the memory. -/
theorem getElem?_marked (h : s.Inv) (k i : Nat) :
    (s.marked k).m_root.flatten[i]? =
      if i < s.m_capacity then some (if i = k then 1 else 0) else none := by
  rw [marked, newNodes_flatten, Nat.mul_comm, ← h.capacity, List.getElem?_map]
  by_cases hi : i < s.m_capacity
  · rw [List.getElem?_range hi, if_pos hi]
    rfl
  · rw [List.getElem?_eq_none (by rw [List.length_range]; omega), if_neg hi]
    rfl

/-- In the blocks from block `c` on, the 1 is where it should be. -/
theorem marked_blocks (h : s.Inv) {k c : Nat} {nodes : List Node} (hc : c ≤ s.m_root.length)
    (hnodes : (s.marked k).m_root.drop c = nodes) (i : Nat) :
    nodes.flatten[i]? = some 1 ↔ s.m_baseSize * c + i = k ∧ k < s.m_capacity := by
  have hu := newNodes_uniform (fun i => if i = k then 1 else 0) s.m_baseSize s.m_root.length
  have htake : ((s.marked k).m_root.take c).flatten.length = s.m_baseSize * c :=
    hu.length_take_flatten (Nat.le_trans hc (Nat.le_of_eq (length_newNodes _ _ _).symm))
  have hget : nodes.flatten[i]? = (s.marked k).m_root.flatten[s.m_baseSize * c + i]? := by
    rw [flatten_take_drop (s.marked k).m_root c, hnodes, List.getElem?_append_right (by omega),
      htake, Nat.add_sub_cancel_left]
  rw [hget, getElem?_marked h]
  by_cases hi : s.m_baseSize * c + i < s.m_capacity
  · rw [if_pos hi]
    by_cases hk : s.m_baseSize * c + i = k
    · rw [if_pos hk]
      exact iff_of_true rfl ⟨hk, hk ▸ hi⟩
    · rw [if_neg hk]
      exact iff_of_false (by decide) fun hmark => hk hmark.1
  · rw [if_neg hi]
    exact iff_of_false (by decide) fun hmark => hi (hmark.1 ▸ hmark.2)

/-- What the loop writes when the marked blocks are saved. -/
theorem saveLoop_marked (h : s.Inv) (hlt : s.m_position < s.m_capacity) {k : Nat}
    (hok : (s.marked k).writeToFile true = .ok (some (s.marked k).unread)) :
    ∃ nd rest, (s.marked k).m_root.drop (s.m_position / s.m_baseSize) = nd :: rest ∧
      nd.length = s.m_baseSize ∧
      s.m_position % s.m_baseSize + (s.m_size - s.m_position) ≤ (nd :: rest).flatten.length ∧
      saveLoop s.m_baseSize (nd :: rest) s.m_position (s.m_size - s.m_position) =
        .ok (window (nd :: rest).flatten (s.m_position % s.m_baseSize)
          (s.m_size - s.m_position)) := by
  obtain ⟨nd, rest, hnodes, hu, hroom, hunread, hsaves⟩ :=
    writeToFile_eq ((sameShape_marked s k).inv h) hlt
  refine ⟨nd, rest, hnodes, (uniform_cons.mp hu).1, hroom, ?_⟩
  rw [hsaves, hunread] at hok
  cases hloop : saveLoop (s.marked k).m_baseSize (nd :: rest) (s.marked k).m_position
      ((s.marked k).m_size - (s.marked k).m_position) with
  | error fault =>
      rw [hloop] at hok
      cases hok
  | ok w =>
      rw [hloop] at hok
      exact hloop.trans (congrArg Except.ok (Option.some.inj (Except.ok.inj hok)))

/-- Where the offset fits the `int` the block of the cursor gives too little, and the byte behind
what it gives is not saved. -/
theorem not_saved_behind (h : s.Inv) (hsave : ¬s.Saveable)
    (hfits : s.m_position % s.m_baseSize < 2 ^ 31) {k : Nat}
    (hk : k = s.m_baseSize * (s.m_position / s.m_baseSize) + (s.m_size - s.m_position)) :
    (s.marked k).writeToFile true ≠ .ok (some (s.marked k).unread) := by
  intro hok
  have hpos := h.pos_le
  have hcap := h.size_le
  have hoff := Nat.mod_lt s.m_position h.base_pos
  have hdiv := Nat.div_add_mod s.m_position s.m_baseSize
  rw [Saveable] at hsave
  have hlt : s.m_position < s.m_capacity := by omega
  obtain ⟨nd, rest, hnodes, hnd, hroom, hw⟩ := saveLoop_marked h hlt hok
  have hone := marked_blocks h (Nat.le_of_lt (h.cur_some hlt).1) hnodes
  obtain ⟨hlt', w', hrest, hsplit⟩ :=
    saveLoop_short hfits (by omega) (by omega) (by omega) hw
  have hlen : (window nd (s.m_position % s.m_baseSize)
      (s.m_size - s.m_position - s.m_position % s.m_baseSize)).length =
      s.m_size - s.m_position - s.m_position % s.m_baseSize := length_window (by omega)
  have hfirst : w'[0]? = some 1 := by
    have hget := congrArg
      (·[s.m_size - s.m_position - s.m_position % s.m_baseSize]?) hsplit
    rw [List.getElem?_append_right (by omega), hlen, Nat.sub_self, getElem?_window,
      if_pos (by omega), show s.m_position % s.m_baseSize +
        (s.m_size - s.m_position - s.m_position % s.m_baseSize) = s.m_size - s.m_position by omega,
      (hone _).mpr ⟨hk.symm, by omega⟩] at hget
    exact hget.symm
  -- but it is in none of the blocks behind
  obtain ⟨i, hi⟩ := List.mem_iff_getElem?.mp
    (mem_of_saveLoop hrest 1 (List.mem_iff_getElem?.mpr ⟨0, hfirst⟩))
  have hlater : (nd :: rest).flatten[s.m_baseSize + i]? = some 1 := by
    rw [List.flatten_cons, List.getElem?_append_right (by omega), hnd, Nat.add_sub_cancel_left]
    exact hi
  have := ((hone _).mp hlater).1
  omega

/-- Where it does not fit, the block gives its bytes from an offset that is less than that of the
cursor. -/
theorem not_saved_wide (h : s.Inv) (hsave : ¬s.Saveable)
    (hwide : ¬s.m_position % s.m_baseSize < 2 ^ 31) :
    (s.marked s.m_position).writeToFile true ≠ .ok (some (s.marked s.m_position).unread) := by
  intro hok
  have hpos := h.pos_le
  have hcap := h.size_le
  have hoff := Nat.mod_lt s.m_position h.base_pos
  have hdiv := Nat.div_add_mod s.m_position s.m_baseSize
  rw [Saveable] at hsave
  have hlt : s.m_position < s.m_capacity := by omega
  obtain ⟨nd, rest, hnodes, hnd, hroom, hw⟩ := saveLoop_marked h hlt hok
  have hone := marked_blocks h (Nat.le_of_lt (h.cur_some hlt).1) hnodes
  obtain ⟨diff, len, w', hdiff, hlen, -, hsplit⟩ := saveLoop_ok (by omega) hw
  have hint := blockOffset_lt s.m_baseSize s.m_position
  rcases Nat.eq_zero_or_pos len with rfl | hpos'
  · rw [saveLoop_stuck (by omega) (by rw [hdiff, hlen]; rfl)] at hw
    cases hw
  · have hchunk : diff + len ≤ nd.length := by
      rw [chunk] at hlen
      split at hlen <;> omega
    have hfirst : nd[diff]? = some 1 := by
      have hget := congrArg (·[0]?) hsplit
      rw [getElem?_window, if_pos (by omega), Nat.add_zero,
        (hone _).mpr ⟨hdiv, by omega⟩, List.getElem?_append_left, getElem?_window,
        if_pos hpos', Nat.add_zero] at hget
      · exact hget.symm
      · rw [length_window hchunk]
        exact hpos'
    have hearlier : (nd :: rest).flatten[diff]? = some 1 := by
      rw [List.flatten_cons, List.getElem?_append_left]
      · exact hfirst
      · omega
    have := ((hone _).mp hearlier).1
    omega

/-- What is not saveable is not saved with every content. -/
theorem exists_not_saved (h : s.Inv) (hsave : ¬s.Saveable) :
    ∃ k, (s.marked k).writeToFile true ≠ .ok (some (s.marked k).unread) := by
  by_cases hfits : s.m_position % s.m_baseSize < 2 ^ 31
  · exact ⟨_, not_saved_behind h hsave hfits rfl⟩
  · exact ⟨_, not_saved_wide h hsave hfits⟩

/-- For a shape of the buffer every content is saved and loaded exactly when the cursor is at the
end of the data, at the start of a block, or a block or more before the end of the data.  Where
the offsets of a block fit the `int`, this holds for every single content. -/
theorem savesAndLoads_iff (h : s.Inv) :
    ((∀ t, s.SameShape t → t.SavesAndLoads) ↔ s.Saveable) ∧
      (s.m_baseSize ≤ 2 ^ 31 → (s.SavesAndLoads ↔ s.Saveable)) := by
  refine ⟨⟨fun hall => ?_, fun hsave t hsame => ?_⟩, fun hbase => ⟨fun hround => ?_, ?_⟩⟩
  · by_contra hsave
    obtain ⟨k, hk⟩ := exists_not_saved h hsave
    exact hk (hall _ (sameShape_marked s k)).saves
  · have ht := hsame.inv h
    exact (savesAndLoads_iff_saves ht).mpr (writeToFile_saveable ht (hsame.saveable hsave))
  · by_contra hsave
    exact writeToFile_not_saveable h hbase hsave _ hround.saves
  · exact fun hsave => (savesAndLoads_iff_saves h).mpr (writeToFile_saveable h hsave)

/-- Inside a block, with another one behind it. -/
theorem twoBlocks_savesAndLoads : (twoBlocks 1).SavesAndLoads :=
  ((savesAndLoads_iff (twoBlocks_inv (by decide))).2 (by decide)).mpr
    (Or.inr ⟨by decide, Or.inr (by decide)⟩)

/-- With one byte behind the cursor and one before it in the same block, nothing is written and
the blocks end. -/
theorem not_savesAndLoads : ¬∀ s : ByteArray, s.Inv → s.SavesAndLoads := by
  intro hround
  have hsaves := (hround (twoBlocks 3) (twoBlocks_inv (by decide))).saves
  have hnull : (twoBlocks 3).writeToFile true = .error .nullCur := by decide
  rw [hnull] at hsaves
  cases hsaves

end ByteArray

end Muqiu
