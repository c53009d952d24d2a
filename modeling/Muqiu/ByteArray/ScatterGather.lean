import Muqiu.ByteArray.Positional

/-!
# The socket path and the copying path

A server receives into the pieces of `getWriteBuffers` and then moves the cursor over what has
come; it sends from the pieces of `getReadBuffers` and moves the cursor over what has gone.
`write` and `read` copy the same bytes and move the cursor themselves.  Both ways the buffer
holds the same data, with the cursor at the same place.

The capacities may differ, because the pieces are asked for before it is known how many bytes
will come.
-/

namespace Muqiu

open Window

namespace ByteArray

/-! ## What determines a state -/

/-- The block size and the block of the cursor follow from the rest. -/
theorem Inv.ext {s t : ByteArray} (hs : s.Inv) (ht : t.Inv) (hroot : s.m_root = t.m_root)
    (hcapacity : s.m_capacity = t.m_capacity) (hsize : s.m_size = t.m_size)
    (hposition : s.m_position = t.m_position) (hendian : s.m_endian = t.m_endian) : s = t := by
  have hbase : s.m_baseSize = t.m_baseSize := by
    have hcap := hs.capacity
    rw [hcapacity, ht.capacity, hroot] at hcap
    exact Nat.eq_of_mul_eq_mul_right (List.length_pos_iff.mpr ht.root_ne) hcap.symm
  have hcur : s.m_cur = t.m_cur := by
    rw [hs.cur, ht.cur, nodeAt, nodeAt, hroot, hposition, hbase]
  cases s
  cases t
  simp only at hroot hcapacity hsize hposition hendian hbase hcur
  subst hroot hcapacity hsize hposition hendian hbase hcur
  rfl

/-! ## Receiving -/

/-- The blocks of `g` after the kernel has filled pieces of them. -/
theorem Inv.scattered {g : ByteArray} (h : g.Inv) {nodes : List Node}
    (hu : Uniform g.m_baseSize nodes) (hlen : nodes.length = g.m_root.length) :
    Inv { g with m_root := nodes } where
  base_pos := h.base_pos
  uniform := hu
  root_ne := by
    have hpos := List.length_pos_iff.mpr h.root_ne
    rw [← hlen] at hpos
    exact List.length_pos_iff.mp hpos
  capacity := h.capacity.trans (by rw [hlen])
  pos_le := h.pos_le
  size_le := h.size_le
  cur := by
    have hcur := h.cur
    rw [nodeAt, ← hlen] at hcur
    exact hcur

/-- Data over the cursor, and what was there before it, as one content. -/
theorem content_overwritten {s t : ByteArray} (h : s.Inv) {data more : List UInt8}
    (hbytes : t.m_root.flatten = overwrite (s.m_root.flatten ++ more) s.m_position data)
    (hsize : t.m_size = max s.m_size (s.m_position + data.length)) :
    t.content =
      (overwrite s.m_root.flatten s.m_position data).take
        (max s.m_size (s.m_position + data.length)) := by
  have hpos := h.pos_le
  have hcap := h.size_le
  have hlen := h.length_flatten
  rw [content, hbytes, hsize]
  exact take_overwrite_append more (by omega) (by omega)

/-- Filling the pieces and moving the cursor gives what `write` gives. -/
theorem receive_eq_write (mem mem' : Nat → UInt8) {s : ByteArray} (h : s.Inv) {len : Nat}
    {data : List UInt8} (hdata : 1 ≤ data.length) (hlen : data.length ≤ len) :
    ∃ vs g g' t, s.getWriteBuffers mem len = .ok (len, vs, g) ∧
      setPosition { g with m_root := scatter g.m_root vs data } (s.m_position + data.length) =
        .ok g' ∧
      s.write mem' data = .ok t ∧ g'.content = t.content ∧ g'.m_position = t.m_position ∧
      g'.m_size = t.m_size := by
  have hpos : 0 < len := by omega
  obtain ⟨vs, g, count, hbuffers, hg, hinv, -, hscatter⟩ := getWriteBuffers_spec mem h hpos
  obtain ⟨hu, hcount, hflat⟩ := hscatter data hlen
  have hfits := hg.fits
  obtain ⟨g', hset, hafter⟩ := setPosition_after (hinv.scattered hu hcount)
    (v := s.m_position + data.length) (by show _ ≤ g.m_capacity; omega)
  obtain ⟨t, hwrite, hafter'⟩ := write_after mem' h data
  have hbytes : g'.m_root.flatten = overwrite (s.m_root.flatten ++
      Flat.fresh mem (s.flat.blocks s.m_baseSize len * s.m_baseSize)) s.m_position data := by
    have hroot : g'.m_root.flatten = (scatter g.m_root vs data).flatten :=
      congrArg Flat.bytes hafter.flat
    rw [hroot, hflat, hg.flatten h, hg.position]
  have hposition : g'.m_position = s.m_position + data.length :=
    congrArg Flat.position hafter.flat
  have hsize : g'.m_size = max s.m_size (s.m_position + data.length) := by
    have hmax : g'.m_size = max g.m_size (s.m_position + data.length) :=
      congrArg Flat.size hafter.flat
    rw [hmax, hg.size]
  have hbytes' : t.m_root.flatten = overwrite (s.m_root.flatten ++
      Flat.fresh mem' (s.flat.blocks s.m_baseSize data.length * s.m_baseSize)) s.m_position data :=
    congrArg Flat.bytes hafter'.flat
  have hposition' : t.m_position = s.m_position + data.length :=
    congrArg Flat.position hafter'.flat
  have hsize' : t.m_size = max s.m_size (s.m_position + data.length) :=
    congrArg Flat.size hafter'.flat
  refine ⟨vs, g, g', t, hbuffers, hset, hwrite, ?_, hposition.trans hposition'.symm,
    hsize.trans hsize'.symm⟩
  rw [content_overwritten h hbytes hsize, content_overwritten h hbytes' hsize']

/-! ## Sending -/

/-- Taking the bytes from the pieces and moving the cursor gives what `read` gives. -/
theorem send_eq_read {s : ByteArray} (h : s.Inv) {len k : Nat} (hk : 1 ≤ k) (hlen : k ≤ len)
    (hread : k ≤ s.getReadSize) :
    ∃ n vs t, s.getReadBuffers len = .ok (n, vs) ∧ s.setPosition (s.m_position + k) = .ok t ∧
      s.read k = .ok ((gather s.m_root vs).take k, t) := by
  rw [h.getReadSize] at hread
  have hcap := h.size_le
  have hunread := h.length_unread
  obtain ⟨vs, hbuffers, hgather⟩ := getReadBuffers_spec h len
  obtain ⟨t, hset, hafter⟩ := setPosition_after h (v := s.m_position + k) (by omega)
  obtain ⟨hendian, hroot, hcapacity⟩ := setPosition_keeps hset
  have hsize : t.m_size = max s.m_size (s.m_position + k) := congrArg Flat.size hafter.flat
  have hposition : t.m_position = s.m_position + k := congrArg Flat.position hafter.flat
  have htake : (s.unread.take k).length = k := List.length_take_of_le (by omega)
  have hne : s.unread.take k ≠ [] := List.ne_nil_of_length_pos (by omega)
  obtain ⟨t', hread', hc, he⟩ :=
    read_consumed h hne (List.take_append_drop k s.unread).symm
  rw [htake] at hread' hc
  have hsame : t' = t := by
    refine hc.inv.ext hafter.inv (hc.root.trans hroot.symm) (hc.capacity.trans hcapacity.symm) ?_
      (hc.position.trans hposition.symm) (he.trans hendian.symm)
    rw [hc.size, hsize, Nat.max_eq_left (by omega)]
  refine ⟨_, vs, t, hbuffers, hset, ?_⟩
  rw [hgather, List.take_take, Nat.min_eq_left hlen, hread', hsame]

/-! ## Both directions -/

/-- What the two paths leave: of `k` bytes received the same data, cursor and size, of `k` bytes
sent the same bytes and the same state. -/
structure PathsAgree (mem mem' : Nat → UInt8) (s : ByteArray) (len : Nat) : Prop where
  receive : ∀ data : List UInt8, 1 ≤ data.length → data.length ≤ len →
    ∃ vs g g' t, s.getWriteBuffers mem len = .ok (len, vs, g) ∧
      setPosition { g with m_root := scatter g.m_root vs data } (s.m_position + data.length) =
        .ok g' ∧
      s.write mem' data = .ok t ∧ g'.content = t.content ∧ g'.m_position = t.m_position ∧
      g'.m_size = t.m_size
  send : ∀ k, 1 ≤ k → k ≤ len → k ≤ s.getReadSize →
    ∃ n vs t, s.getReadBuffers len = .ok (n, vs) ∧ s.setPosition (s.m_position + k) = .ok t ∧
      s.read k = .ok ((gather s.m_root vs).take k, t)

theorem pathsAgree (mem mem' : Nat → UInt8) {s : ByteArray} (h : s.Inv) (len : Nat) :
    s.PathsAgree mem mem' len where
  receive _ hdata hle := receive_eq_write mem mem' h hdata hle
  send _ hk hle hread := send_eq_read h hk hle hread

/-- From inside the last block, past the end of the capacity. -/
theorem twoBlocks_pathsAgree : (twoBlocks 3).PathsAgree (fun _ => 0) (fun _ => 7) 6 :=
  pathsAgree _ _ (twoBlocks_inv (by decide)) 6

end ByteArray

end Muqiu
