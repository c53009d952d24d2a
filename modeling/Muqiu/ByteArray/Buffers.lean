import Muqiu.ByteArray.Sequential

/-!
# Buffers for the socket

`getReadBuffers` and `getWriteBuffers` describe a stretch of the buffer from the cursor on to
the kernel, as a list of pieces of blocks (`iovec`).  The kernel reads the pieces of the one
(`gather`) and fills the pieces of the other (`scatter`), as far as it likes.

In the flat memory the pieces are one window: gathering them reads it and scattering bytes
over them overwrites it from its start.
-/

namespace Muqiu

open Window

namespace ByteArray

/-- `iovec`: `iov_len` bytes from offset `off` of block `node`. -/
structure IoVec where
  node : Nat
  off : Nat
  iov_len : Nat
deriving DecidableEq, Repr

/-- The loop of both over the blocks from block `idx` on. -/
def buffersLoop : List Node → Nat → Nat → Nat → Option (List IoVec)
  | [], _, _, _ => none
  | nd :: rest, idx, npos, len =>
      let ncap := nd.length - npos
      if ncap ≥ len then some [⟨idx, npos, len⟩]
      else (buffersLoop rest (idx + 1) 0 (len - ncap)).map (⟨idx, npos, ncap⟩ :: ·)

/-- `getReadBuffers(buffers, len) const`: the result and the pieces. -/
def getReadBuffers (s : ByteArray) (len : Nat) : Except Fault (Nat × List IoVec) :=
  let len := if len > s.getReadSize then s.getReadSize else len
  if len = 0 then .ok (0, [])
  else
    match s.m_cur with
    | none => .error .nullCur
    | some c =>
        match buffersLoop (s.m_root.drop c) c (s.m_position % s.m_baseSize) len with
        | none => .error .nullCur
        | some buffers => .ok (len, buffers)

/-- `getWriteBuffers(buffers, len)`: the result, the pieces and the state. -/
def getWriteBuffers (mem : Nat → UInt8) (s : ByteArray) (len : Nat) :
    Except Fault (Nat × List IoVec × ByteArray) :=
  if len = 0 then .ok (0, [], s)
  else
    let s := s.addCapacity mem len
    match s.m_cur with
    | none => .error .nullCur
    | some c =>
        match buffersLoop (s.m_root.drop c) c (s.m_position % s.m_baseSize) len with
        | none => .error .nullCur
        | some buffers => .ok (len, buffers, s)

/-! ## The kernel's side -/

/-- How many bytes the pieces hold. -/
def span : List IoVec → Nat
  | [] => 0
  | v :: vs => v.iov_len + span vs

/-- The bytes of the pieces, one after the other. -/
def gather (nodes : List Node) (vs : List IoVec) : List UInt8 :=
  vs.flatMap fun v => window (nodes.getD v.node []) v.off v.iov_len

/-- `bs` put into the pieces, one after the other. -/
def scatter : List Node → List IoVec → List UInt8 → List Node
  | nodes, [], _ => nodes
  | nodes, v :: vs, bs =>
      scatter (nodes.modify v.node fun nd => overwrite nd v.off (bs.take v.iov_len)) vs
        (bs.drop v.iov_len)

/-! ## The pieces are a window -/

section Loop

variable {b : Nat} {rest : List Node} {idx npos len : Nat}

theorem buffersLoop_some (hb : 0 < b) (hu : Uniform b rest) (hn : npos < b) (hlen : 0 < len)
    (hroom : npos + len ≤ rest.flatten.length) :
    ∃ vs, buffersLoop rest idx npos len = some vs ∧ span vs = len := by
  induction rest generalizing idx npos len with
  | nil =>
      rw [List.flatten_nil, List.length_nil] at hroom
      omega
  | cons nd rest ih =>
      obtain ⟨hnd, hrest⟩ := uniform_cons.mp hu
      rw [List.flatten_cons, List.length_append, hnd] at hroom
      rw [buffersLoop, hnd]
      by_cases hfit : b - npos ≥ len
      · rw [if_pos hfit]
        exact ⟨_, rfl, rfl⟩
      · rw [if_neg hfit]
        obtain ⟨vs, hloop, hspan⟩ : ∃ vs,
            buffersLoop rest (idx + 1) 0 (len - (b - npos)) = some vs ∧
              span vs = len - (b - npos) :=
          ih hrest hb (by omega) (by omega)
        refine ⟨⟨idx, npos, b - npos⟩ :: vs, by rw [hloop]; rfl, ?_⟩
        rw [span, hspan]
        show b - npos + (len - (b - npos)) = len
        omega

/-- Gathering reads the window. -/
theorem gather_buffers {before : List Node} {vs : List IoVec} (hu : Uniform b rest)
    (hn : npos < b) (hroom : npos + len ≤ rest.flatten.length) (hbefore : before.length = idx)
    (hloop : buffersLoop rest idx npos len = some vs) :
    gather (before ++ rest) vs = window rest.flatten npos len := by
  induction rest generalizing before idx npos len vs with
  | nil => cases hloop
  | cons nd rest ih =>
      obtain ⟨hnd, hrest⟩ := uniform_cons.mp hu
      have hget : (before ++ nd :: rest).getD idx [] = nd := by
        rw [List.getD_eq_getElem?_getD, List.getElem?_append_right (by omega),
          show idx - before.length = 0 by omega]
        rfl
      rw [List.flatten_cons, List.length_append, hnd] at hroom
      rw [buffersLoop, hnd] at hloop
      by_cases hfit : b - npos ≥ len
      · rw [if_pos hfit] at hloop
        cases hloop
        rw [gather, List.flatMap_singleton, hget, List.flatten_cons,
          window_append_left (by omega)]
      · rw [if_neg hfit] at hloop
        obtain ⟨vs', hloop', rfl⟩ := Option.map_eq_some_iff.mp hloop
        have htail : gather ((before ++ [nd]) ++ rest) vs' =
            window rest.flatten 0 (len - (b - npos)) :=
          ih hrest (by omega) (by omega) (by rw [List.length_append, hbefore]; rfl) hloop'
        rw [List.append_assoc, List.singleton_append, gather] at htail
        rw [gather, List.flatMap_cons, hget, htail, List.flatten_cons,
          window_append_across (by omega) (by omega), hnd]

/-- Scattering overwrites it from its start. -/
theorem scatter_buffers {before : List Node} {vs : List IoVec} {bs : List UInt8}
    (hu : Uniform b rest) (hn : npos < b) (hroom : npos + len ≤ rest.flatten.length)
    (hbefore : before.length = idx) (hloop : buffersLoop rest idx npos len = some vs)
    (hbs : bs.length ≤ len) :
    ∃ rest', scatter (before ++ rest) vs bs = before ++ rest' ∧ Uniform b rest' ∧
      rest'.length = rest.length ∧ rest'.flatten = overwrite rest.flatten npos bs := by
  induction rest generalizing before idx npos len vs bs with
  | nil => cases hloop
  | cons nd rest ih =>
      obtain ⟨hnd, hrest⟩ := uniform_cons.mp hu
      rw [List.flatten_cons, List.length_append, hnd] at hroom
      rw [buffersLoop, hnd] at hloop
      subst hbefore
      by_cases hfit : b - npos ≥ len
      · rw [if_pos hfit] at hloop
        cases hloop
        have hover : (overwrite nd npos bs).length = b := by
          rw [length_overwrite (by omega), hnd]
        refine ⟨overwrite nd npos bs :: rest, ?_, uniform_cons.mpr ⟨hover, hrest⟩, rfl, ?_⟩
        · rw [scatter, scatter, modify_append_cons, List.take_of_length_le hbs]
        · rw [List.flatten_cons, List.flatten_cons, overwrite_append_left (by omega)]
      · rw [if_neg hfit] at hloop
        obtain ⟨vs', hloop', rfl⟩ := Option.map_eq_some_iff.mp hloop
        have hover : (overwrite nd npos (bs.take (b - npos))).length = b := by
          rw [length_overwrite (by rw [List.length_take]; omega), hnd]
        have hnext : before.length + 1 =
            (before ++ [overwrite nd npos (bs.take (b - npos))]).length := by
          rw [List.length_append]
          rfl
        have hleft : (bs.drop (b - npos)).length ≤ len - (b - npos) := by
          rw [List.length_drop]
          omega
        obtain ⟨rest', htail, hu', hlen', hflat⟩ :=
          ih hrest (by omega) (by omega) hnext.symm hloop' hleft
        rw [List.append_assoc, List.singleton_append, List.append_assoc,
          List.singleton_append] at htail
        refine ⟨overwrite nd npos (bs.take (b - npos)) :: rest', ?_,
          uniform_cons.mpr ⟨hover, hu'⟩, ?_, ?_⟩
        · rw [scatter, modify_append_cons, htail]
        · rw [List.length_cons, List.length_cons, hlen']
        · rw [List.flatten_cons, List.flatten_cons, hflat]
          by_cases hshort : bs.length ≤ b - npos
          · rw [List.take_of_length_le hshort, List.drop_eq_nil_of_le hshort, overwrite_nil,
              overwrite_append_left (by omega)]
          · rw [overwrite_append_across (by omega) (by omega), hnd]

end Loop

/-! ## From the cursor on -/

/-- The pieces of `len` bytes at the cursor. -/
theorem buffers_at_cursor {s : ByteArray} (h : s.Inv) {len : Nat} (hlen : 0 < len)
    (hroom : s.m_position + len ≤ s.m_capacity) :
    ∃ c vs, s.m_cur = some c ∧
      buffersLoop (s.m_root.drop c) c (s.m_position % s.m_baseSize) len = some vs ∧
      span vs = len ∧ gather s.m_root vs = window s.m_root.flatten s.m_position len ∧
      ∀ bs : List UInt8, bs.length ≤ len → Uniform s.m_baseSize (scatter s.m_root vs bs) ∧
        (scatter s.m_root vs bs).length = s.m_root.length ∧
        (scatter s.m_root vs bs).flatten = overwrite s.m_root.flatten s.m_position bs := by
  have hlt : s.m_position < s.m_capacity := by omega
  obtain ⟨hidx, hcur⟩ := h.cur_some hlt
  obtain ⟨hsplit, hoff⟩ := h.split hlt
  have hdrop := h.length_drop hlt
  have hmod : s.m_position - (s.m_root.take (s.m_position / s.m_baseSize)).flatten.length =
      s.m_position % s.m_baseSize := by omega
  have hbefore : (s.m_root.take (s.m_position / s.m_baseSize)).length =
      s.m_position / s.m_baseSize := List.length_take_of_le (Nat.le_of_lt hidx)
  have hu := h.uniform.drop (s.m_position / s.m_baseSize)
  obtain ⟨vs, hloop, hspan⟩ : ∃ vs,
      buffersLoop (s.m_root.drop (s.m_position / s.m_baseSize)) (s.m_position / s.m_baseSize)
        (s.m_position % s.m_baseSize) len = some vs ∧ span vs = len :=
    buffersLoop_some h.base_pos hu h.offset_lt hlen (by omega)
  refine ⟨_, vs, hcur, hloop, hspan, ?_, ?_⟩
  · have hgather := gather_buffers hu h.offset_lt (by omega) hbefore hloop
    rw [List.take_append_drop] at hgather
    rw [hgather, hsplit, window_append_right (by omega), hmod]
  · intro bs hbs
    obtain ⟨rest', hscatter, hu', hlen', hflat⟩ :=
      scatter_buffers hu h.offset_lt (by omega) hbefore hloop hbs
    rw [List.take_append_drop] at hscatter
    rw [hscatter]
    refine ⟨uniform_append.mpr ⟨h.uniform.take _, hu'⟩, ?_, ?_⟩
    · rw [List.length_append, hlen', hbefore, List.length_drop]
      omega
    · rw [List.flatten_append, hflat, hsplit, overwrite_append_right (by omega), hmod]

/-- The length both read functions go by. -/
theorem clipped {s : ByteArray} (h : s.Inv) (len : Nat) :
    (if len > s.getReadSize then s.getReadSize else len) = min len (s.m_size - s.m_position) := by
  rw [h.getReadSize]
  split
  next hlong => rw [Nat.min_eq_right (by omega)]
  next hshort => rw [Nat.min_eq_left (by omega)]

/-- `getReadBuffers` describes the first `len` unread bytes, or all of them. -/
theorem getReadBuffers_spec {s : ByteArray} (h : s.Inv) (len : Nat) :
    ∃ vs, s.getReadBuffers len = .ok (min len (s.m_size - s.m_position), vs) ∧
      gather s.m_root vs = s.unread.take len := by
  have hsize := h.size_le
  have hunread : s.unread.take len =
      window s.m_root.flatten s.m_position (min len (s.m_size - s.m_position)) := by
    rw [unread, window, window, List.take_take]
  rw [getReadBuffers, clipped h, hunread]
  rcases Nat.eq_zero_or_pos (min len (s.m_size - s.m_position)) with hzero | hpos
  · refine ⟨[], by rw [hzero]; rfl, ?_⟩
    rw [hzero, window_zero]
    rfl
  · obtain ⟨c, vs, hcur, hloop, _, hgather, _⟩ := buffers_at_cursor h hpos (by omega)
    refine ⟨vs, ?_, hgather⟩
    rw [if_neg (by omega)]
    simp only [hcur, hloop]

/-- `getWriteBuffers` makes room for `len` bytes at the cursor and describes it. -/
theorem getWriteBuffers_spec (mem : Nat → UInt8) {s : ByteArray} (h : s.Inv) {len : Nat}
    (hlen : 0 < len) :
    ∃ vs g count, s.getWriteBuffers mem len = .ok (len, vs, g) ∧ Grown mem s g len count ∧
      g.Inv ∧ span vs = len ∧
      ∀ bs : List UInt8, bs.length ≤ len → Uniform g.m_baseSize (scatter g.m_root vs bs) ∧
        (scatter g.m_root vs bs).length = g.m_root.length ∧
        (scatter g.m_root vs bs).flatten = overwrite g.m_root.flatten g.m_position bs := by
  obtain ⟨count, hg, hinv⟩ := addCapacity_grown mem h hlen
  have hroom := hg.fits
  rw [← hg.position] at hroom
  obtain ⟨c, vs, hcur, hloop, hspan, _, hscatter⟩ := buffers_at_cursor hinv hlen hroom
  refine ⟨vs, _, count, ?_, hg, hinv, hspan, hscatter⟩
  rw [getWriteBuffers, if_neg (by omega)]
  simp only [hcur, hloop]

end ByteArray

end Muqiu
