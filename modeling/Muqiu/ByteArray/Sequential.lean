import Muqiu.ByteArray.Refinement

/-!
# Writing and reading in sequence

What the codecs need of the buffer.  `Written s s' bytes` says that `bytes` have gone to the
cursor of `s` and the cursor behind them; it composes along `++`.  `unread` are the bytes from
the cursor to the end of the data, and `Consumed s s' n` says that `n` of them have been read.

A writer `Emits` bytes when it has this effect from every state in a given byte order, and a
reader `Reads` a value from bytes when it finds it wherever they come first in what is
unread.  A codec is right when its reader reads from what its writer emits.
-/

namespace Muqiu

open Window

namespace ByteArray

/-! ## The byte order stays -/

theorem addCapacity_endian (mem : Nat → UInt8) (s : ByteArray) (size : Nat) :
    (s.addCapacity mem size).m_endian = s.m_endian := by
  rw [addCapacity]
  split
  · rfl
  · dsimp only
    split <;> rfl

theorem write_endian {mem : Nat → UInt8} {s s' : ByteArray} {buf : List UInt8}
    (h : s.write mem buf = .ok s') : s'.m_endian = s.m_endian := by
  rw [write] at h
  split at h
  · cases h
    rfl
  · dsimp only at h
    split at h
    · cases h
    · split at h
      · cases h
      · cases h
        exact addCapacity_endian mem s buf.length

/-- `setPosition` leaves the byte order and the blocks alone. -/
theorem setPosition_keeps {s s' : ByteArray} {v : Nat} (h : s.setPosition v = .ok s') :
    s'.m_endian = s.m_endian ∧ s'.m_root = s.m_root ∧ s'.m_capacity = s.m_capacity := by
  rw [setPosition] at h
  split at h
  · cases h
  · split at h
    · cases h
    · cases h
      exact ⟨rfl, rfl, rfl⟩

/-! ## Writing -/

/-- `bytes` stand at the cursor of `s` and the cursor of `s'` behind them.  What was before
the cursor stays, and the capacity has grown by no more blocks than needed. -/
structure Written (s s' : ByteArray) (bytes : List UInt8) : Prop where
  inv : s'.Inv
  base : s'.m_baseSize = s.m_baseSize
  position : s'.m_position = s.m_position + bytes.length
  memory : s'.m_root.flatten.take s'.m_position = s.m_root.flatten.take s.m_position ++ bytes
  capacity_le : s.m_capacity ≤ s'.m_capacity
  capacity_least : ∀ q, s.m_baseSize ∣ q → s.m_capacity ≤ q → s'.m_position ≤ q →
    s'.m_capacity ≤ q

theorem Written.refl {s : ByteArray} (h : s.Inv) : Written s s [] where
  inv := h
  base := rfl
  position := rfl
  memory := (List.append_nil _).symm
  capacity_le := Nat.le_refl _
  capacity_least := fun _ _ hle _ => hle

theorem Written.trans {s s₁ s₂ : ByteArray} {bs cs : List UInt8} (h : Written s s₁ bs)
    (h' : Written s₁ s₂ cs) : Written s s₂ (bs ++ cs) where
  inv := h'.inv
  base := h'.base.trans h.base
  position := by rw [h'.position, h.position, List.length_append, Nat.add_assoc]
  memory := by rw [h'.memory, h.memory, List.append_assoc]
  capacity_le := Nat.le_trans h.capacity_le h'.capacity_le
  capacity_least := by
    intro q hdvd hcap hpos
    have hpos₁ : s₁.m_position ≤ q := by
      have := h'.position
      omega
    refine h'.capacity_least q ?_ (h.capacity_least q hdvd hcap hpos₁) hpos
    rw [h.base]
    exact hdvd

/-- `write` puts its bytes at the cursor. -/
theorem write_written (mem : Nat → UInt8) {s : ByteArray} (h : s.Inv) (buf : List UInt8) :
    ∃ s', s.write mem buf = .ok s' ∧ Written s s' buf := by
  obtain ⟨s', hwrite, hafter⟩ := write_after mem h buf
  have hbytes : s'.m_root.flatten =
      overwrite (s.m_root.flatten ++
        Flat.fresh mem (s.flat.blocks s.m_baseSize buf.length * s.m_baseSize))
        s.m_position buf := congrArg Flat.bytes hafter.flat
  have hposition : s'.m_position = s.m_position + buf.length :=
    congrArg Flat.position hafter.flat
  have hlen := h.length_flatten
  have hpos : s.m_position ≤ s.m_capacity := Nat.le_trans h.pos_le h.size_le
  have hfit : s.m_position + buf.length ≤
      s.m_capacity + s.flat.blocks s.m_baseSize buf.length * s.m_baseSize := by
    have := Flat.fits h.base_pos s.flat buf.length
    rw [← hlen]
    exact this
  have hcap : s'.m_capacity =
      s.m_capacity + s.flat.blocks s.m_baseSize buf.length * s.m_baseSize := by
    rw [← hafter.inv.length_flatten, hbytes, length_overwrite, List.length_append,
      Flat.length_fresh, hlen]
    rw [List.length_append, Flat.length_fresh, hlen]
    exact hfit
  refine ⟨s', hwrite, hafter.inv, hafter.base, hposition, ?_, ?_, ?_⟩
  · have hhead : ((s.m_root.flatten ++ Flat.fresh mem (s.flat.blocks s.m_baseSize buf.length *
        s.m_baseSize)).take s.m_position).length = s.m_position := by
      rw [List.length_take, List.length_append, hlen]
      omega
    rw [hbytes, hposition, overwrite, List.take_append_of_le_length,
      List.take_of_length_le, List.take_append_of_le_length]
    · rw [hlen]
      exact hpos
    · rw [List.length_append, hhead]
    · rw [List.length_append, hhead]
  · omega
  · rintro q ⟨k, rfl⟩ hle hge
    rw [hposition] at hge
    rw [h.capacity] at hle
    have hk := Nat.le_of_mul_le_mul_left hle h.base_pos
    have hblocks : s.flat.blocks s.m_baseSize buf.length ≤ k - s.m_root.length := by
      apply Flat.blocks_le
      rw [show s.flat.bytes.length = s.m_capacity from hlen, h.capacity,
        Nat.mul_comm (k - s.m_root.length), ← Nat.mul_add, Nat.add_sub_cancel' hk]
      exact hge
    rw [hcap, h.capacity, Nat.mul_comm _ s.m_baseSize, ← Nat.mul_add]
    exact Nat.mul_le_mul_left _ (by omega)

/-! ## Reading -/

/-- The bytes from the cursor to the end of the data. -/
def unread (s : ByteArray) : List UInt8 :=
  window s.m_root.flatten s.m_position (s.m_size - s.m_position)

/-- `n` bytes have been read: the cursor has moved and nothing else has. -/
structure Consumed (s s' : ByteArray) (n : Nat) : Prop where
  inv : s'.Inv
  root : s'.m_root = s.m_root
  capacity : s'.m_capacity = s.m_capacity
  size : s'.m_size = s.m_size
  position : s'.m_position = s.m_position + n

theorem Consumed.refl {s : ByteArray} (h : s.Inv) : Consumed s s 0 :=
  ⟨h, rfl, rfl, rfl, rfl⟩

theorem Consumed.trans {s s₁ s₂ : ByteArray} {m n : Nat} (h : Consumed s s₁ m)
    (h' : Consumed s₁ s₂ n) : Consumed s s₂ (m + n) where
  inv := h'.inv
  root := h'.root.trans h.root
  capacity := h'.capacity.trans h.capacity
  size := h'.size.trans h.size
  position := by rw [h'.position, h.position, Nat.add_assoc]

theorem Consumed.unread {s s' : ByteArray} {n : Nat} (h : Consumed s s' n) :
    s'.unread = s.unread.drop n := by
  rw [ByteArray.unread, ByteArray.unread, h.root, h.size, h.position, window, window,
    List.drop_take, List.drop_drop, Nat.sub_add_eq]

theorem Inv.length_unread {s : ByteArray} (h : s.Inv) :
    s.unread.length = s.m_size - s.m_position := by
  have hsize := h.size_le
  have hpos := h.pos_le
  have hlen := h.length_flatten
  rw [unread, length_window (by omega)]

/-- `read` gives the first unread bytes. -/
theorem read_consumed {s : ByteArray} (h : s.Inv) {bytes rest : List UInt8}
    (hne : bytes ≠ []) (hunread : s.unread = bytes ++ rest) :
    ∃ s', s.read bytes.length = .ok (bytes, s') ∧ Consumed s s' bytes.length ∧
      s'.m_endian = s.m_endian := by
  have hsize := h.size_le
  have hlen := h.length_unread
  rw [hunread, List.length_append] at hlen
  have hpos : 0 < bytes.length := List.length_pos_iff.mpr hne
  obtain ⟨c, moved, hcur, hloop, hidx⟩ :=
    readLoop_room h hpos (show s.m_position + bytes.length ≤ s.m_capacity by omega)
  have hwindow : window s.m_root.flatten s.m_position bytes.length = bytes := by
    have htake := congrArg (List.take bytes.length) hunread
    rw [unread, window, List.take_take, Nat.min_eq_left (by omega),
      List.take_left' rfl] at htake
    exact htake
  rw [hwindow] at hloop
  refine ⟨{ s with m_position := s.m_position + bytes.length, m_cur := s.nodeAt (c + moved) },
    ?_, ⟨?_, rfl, rfl, rfl, rfl⟩, rfl⟩
  · rw [read, h.getReadSize, if_neg (by omega)]
    simp only [hcur, hloop]
  · refine ⟨h.base_pos, h.uniform, h.root_ne, h.capacity, ?_, h.size_le, ?_⟩
    · show s.m_position + bytes.length ≤ s.m_size
      omega
    · simp only [nodeAt, hidx]

/-! ## Writers and readers -/

/-- `writer` puts `bytes` at the cursor of every state in byte order `e`. -/
def Emits (e : Endian) (writer : ByteArray → Except Fault ByteArray) (bytes : List UInt8) :
    Prop :=
  ∀ s : ByteArray, s.Inv → s.m_endian = e →
    ∃ s', writer s = .ok s' ∧ Written s s' bytes ∧ s'.m_endian = e

/-- `reader` finds `v` in byte order `e` wherever `bytes` are the first unread bytes. -/
def Reads {α : Type} (e : Endian) (reader : ByteArray → Except Fault (α × ByteArray))
    (bytes : List UInt8) (v : α) : Prop :=
  ∀ (s : ByteArray) (rest : List UInt8), s.Inv → s.m_endian = e → s.unread = bytes ++ rest →
    ∃ s', reader s = .ok (v, s') ∧ Consumed s s' bytes.length ∧ s'.m_endian = e

theorem emits_write (mem : Nat → UInt8) (e : Endian) (bytes : List UInt8) :
    Emits e (fun s => s.write mem bytes) bytes := by
  intro s h he
  obtain ⟨s', hwrite, hw⟩ := write_written mem h bytes
  exact ⟨s', hwrite, hw, (write_endian hwrite).trans he⟩

theorem Emits.andThen {e : Endian} {writer writer' : ByteArray → Except Fault ByteArray}
    {bs cs : List UInt8} (h : Emits e writer bs) (h' : Emits e writer' cs) :
    Emits e (fun s => writer s >>= writer') (bs ++ cs) := by
  intro s hinv he
  obtain ⟨s₁, hwrite, hw, he₁⟩ := h s hinv he
  obtain ⟨s₂, hwrite', hw', he₂⟩ := h' s₁ hw.inv he₁
  refine ⟨s₂, ?_, hw.trans hw', he₂⟩
  show (writer s >>= writer') = .ok s₂
  rw [hwrite]
  exact hwrite'

theorem reads_read (e : Endian) {bytes : List UInt8} (hne : bytes ≠ []) :
    Reads e (fun s => s.read bytes.length) bytes bytes := by
  intro s rest h he hunread
  obtain ⟨s', hread, hc, hendian⟩ := read_consumed h hne hunread
  exact ⟨s', hread, hc, hendian.trans he⟩

/-- A reader that reads nothing. -/
theorem reads_ok {α : Type} (e : Endian) (v : α) : Reads e (fun s => .ok (v, s)) [] v :=
  fun s _ h he _ => ⟨s, rfl, Consumed.refl h, he⟩

theorem Reads.map {α β : Type} {e : Endian} {reader : ByteArray → Except Fault (α × ByteArray)}
    {bytes : List UInt8} {v : α} (h : Reads e reader bytes v) (f : α → β) :
    Reads e (fun s => (reader s).map fun r => (f r.1, r.2)) bytes (f v) := by
  intro s rest hinv he hunread
  obtain ⟨s', hread, hconsumed⟩ := h s rest hinv he hunread
  refine ⟨s', ?_, hconsumed⟩
  show (reader s).map _ = _
  rw [hread]
  rfl

theorem Reads.andThen {α β : Type} {e : Endian}
    {reader : ByteArray → Except Fault (α × ByteArray)}
    {next : α × ByteArray → Except Fault (β × ByteArray)} {bs cs : List UInt8} {v : α}
    {u : β} (h : Reads e reader bs v) (h' : Reads e (fun s => next (v, s)) cs u) :
    Reads e (fun s => reader s >>= next) (bs ++ cs) u := by
  intro s rest hinv he hunread
  rw [List.append_assoc] at hunread
  obtain ⟨s₁, hread, hc, he₁⟩ := h s (cs ++ rest) hinv he hunread
  have hunread₁ : s₁.unread = cs ++ rest := by
    rw [hc.unread, hunread, List.drop_left' rfl]
  obtain ⟨s₂, hread', hc', he₂⟩ := h' s₁ rest hc.inv he₁ hunread₁
  refine ⟨s₂, ?_, ?_, he₂⟩
  · show (reader s >>= next) = .ok (u, s₂)
    rw [hread]
    exact hread'
  · rw [List.length_append]
    exact hc.trans hc'

/-- The cursor set back to where the writing began: what was written comes first. -/
theorem Written.setPosition {s s₁ : ByteArray} {bytes : List UInt8} (h : s.Inv)
    (hw : Written s s₁ bytes) :
    ∃ s₂ rest, s₁.setPosition s.m_position = .ok s₂ ∧ s₂.Inv ∧
      s₂.m_position = s.m_position ∧
      s₂.m_capacity = s₁.m_capacity ∧ s₂.unread = bytes ++ rest := by
  have hpos := hw.position
  have hsize := hw.inv.size_le
  have hle := hw.inv.pos_le
  obtain ⟨s₂, hset, hafter⟩ :=
    setPosition_after hw.inv (v := s.m_position) (by omega)
  have hroot : s₂.m_root.flatten = s₁.m_root.flatten := congrArg Flat.bytes hafter.flat
  have hposition : s₂.m_position = s.m_position := congrArg Flat.position hafter.flat
  have hsize₂ : s₂.m_size = max s₁.m_size s.m_position := congrArg Flat.size hafter.flat
  have hcap : s₂.m_capacity = s₁.m_capacity := (setPosition_keeps hset).2.2
  have hbytes : (s₁.m_root.flatten.drop s.m_position).take bytes.length = bytes := by
    have hcap₀ := h.size_le
    have hpos₀ := h.pos_le
    have hlen : (s.m_root.flatten.take s.m_position).length = s.m_position := by
      rw [List.length_take, h.length_flatten]
      omega
    have hdrop := congrArg (List.drop s.m_position) hw.memory
    rw [hpos, List.drop_take, Nat.add_sub_cancel_left, List.drop_left' hlen] at hdrop
    exact hdrop
  refine ⟨s₂, (s₁.m_root.flatten.drop (s.m_position + bytes.length)).take
    (s₁.m_size - s.m_position - bytes.length), hset, hafter.inv, hposition, hcap, ?_⟩
  rw [unread, hroot, hposition, hsize₂, Nat.max_eq_left (by omega), window]
  conv_lhs => rw [← List.take_append_drop bytes.length (List.take _ _)]
  rw [List.take_take, Nat.min_eq_left (by omega), hbytes, List.drop_take, List.drop_drop]

end ByteArray

end Muqiu
