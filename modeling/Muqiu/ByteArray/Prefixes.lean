import Muqiu.ByteArray.Strings

/-!
# Strings in the middle of a stream

What comes behind a string can only be read when the string is read to its end.  The length in
front of the bytes decides that: where `writeStringF16` and `writeStringF32` cut it to their
type, the reader takes the shorter length for the string and the rest of its bytes for the
values behind it.
-/

namespace Muqiu

namespace ByteArray

/-- A string is refused, or it is read with as many bytes as were written, and the bytes of the
values behind it come next. -/
def InStep (mem mem' mem'' : Nat → UInt8) (s : ByteArray) (c : StringCodec) (value : StdString)
    (rest : List UInt8) : Prop :=
  (∃ fault, c.write mem mem' s value = .error fault) ∨
    ∃ s₁ s₂ s₃ bs s₄ tail, c.write mem mem' s value = .ok s₁ ∧ s₁.write mem'' rest = .ok s₂ ∧
      s₂.setPosition s.m_position = .ok s₃ ∧ c.read s₃ = .ok (bs, s₄) ∧
      s₄.m_position = s₁.m_position ∧ s₄.unread = rest ++ tail

theorem read_position {s s' : ByteArray} {n : Nat} {bs : List UInt8}
    (hread : s.read n = .ok (bs, s')) : s'.m_position = s.m_position + n := by
  rw [read] at hread
  split at hread
  · cases hread
  · split at hread
    · cases hread
    · split at hread
      · cases hread
      · cases hread
        rfl

/-- A reader reads the length and then as many bytes. -/
theorem StringCodec.read_of_unread {s : ByteArray} (h : s.Inv) (c : StringCodec) {size : Nat}
    {more : List UInt8} (hunread : s.unread = c.lengthBytes s.m_endian size ++ more) :
    ∃ s', c.read s = s'.read (c.stored size) ∧
      Consumed s s' (c.lengthBytes s.m_endian size).length := by
  obtain ⟨s', (hlength : c.readLength s = _), hc, -⟩ :=
    c.reads_readLength s.m_endian size s more h rfl hunread
  exact ⟨s', by rw [read_eq, hlength]; rfl, hc⟩

/-- Values behind a string are read exactly when its length comes back, and the string is not an
empty one with nothing behind it, whose length ends with the last block. -/
theorem inStep_iff_stored (mem mem' mem'' : Nat → UInt8) {s : ByteArray} (h : s.Inv)
    (c : StringCodec) (value : StdString) (rest : List UInt8) :
    InStep mem mem' mem'' s c value rest ↔
      c.stored value.size = value.size ∧
        ¬(value.bytes = [] ∧ rest = [] ∧ s.m_baseSize ∣ s.m_position + c.lengthSize value.size ∧
          s.m_capacity ≤ s.m_position + c.lengthSize value.size) := by
  have hlt : value.size < UInt64.size := value.size_lt
  obtain ⟨s₁, (hwrite : c.write mem mem' s value = .ok s₁), hw, he⟩ :=
    c.emits_write mem mem' s.m_endian value s h rfl
  obtain ⟨s₂, hwrite', hw'⟩ := write_written mem'' hw.inv rest
  obtain ⟨s₃, tail, hset, hinv, hpos, hcap, hunread⟩ := (hw.trans hw').setPosition h
  have he₃ : s₃.m_endian = s.m_endian :=
    (setPosition_keeps hset).1.trans ((write_endian hwrite').trans he)
  rw [List.append_assoc, List.append_assoc, ← he₃] at hunread
  obtain ⟨s', hread, hc⟩ := c.read_of_unread hinv hunread
  have hlength := c.length_lengthBytes s.m_endian hlt
  rw [he₃] at hunread hc
  have hunread' : s'.unread = value.bytes ++ (rest ++ tail) := by
    rw [hc.unread, hunread, List.drop_left' rfl]
  have hposition := hw.position
  have hposition' := hw'.position
  have hbound := Nat.le_trans hw'.inv.pos_le hw'.inv.size_le
  have hsize : value.size = value.bytes.length := rfl
  have hfull := (hw.trans hw').full_iff
  have hread_pos := hc.position
  have hread_cap := hc.capacity
  rw [List.length_append] at hposition
  rw [List.length_append, List.length_append] at hfull
  rw [hlength] at hposition hfull hread_pos
  constructor
  · rintro (⟨fault, hfault⟩ | ⟨t₁, t₂, t₃, bs, t₄, -, hok, hok', hset', hread', hat, -⟩)
    · cases hwrite.symm.trans hfault
    · cases hwrite.symm.trans hok
      cases hwrite'.symm.trans hok'
      cases hset.symm.trans hset'
      rw [hread] at hread'
      have hend := read_position hread'
      have hstored : c.stored value.size = value.size := by omega
      refine ⟨hstored, ?_⟩
      rintro ⟨hempty, rfl, hdvd, hcap'⟩
      rw [hempty, List.length_nil] at hsize hfull hposition
      simp only [Nat.add_zero] at hfull
      have hnull := hfull.mpr ⟨hdvd, hcap'⟩
      rw [List.length_nil] at hposition'
      rw [hstored, hsize, read_zero_null hc.inv (by omega)] at hread'
      cases hread'
  · rintro ⟨hstored, hplace⟩
    rw [hstored] at hread
    by_cases hempty : value.bytes = []
    · rw [hempty, List.nil_append] at hunread'
      rw [hempty, List.length_nil] at hsize hposition hfull
      have hroom : s'.m_position < s'.m_capacity := by
        refine Nat.lt_of_le_of_ne (Nat.le_trans hc.inv.pos_le hc.inv.size_le) fun hend => ?_
        have hrest : rest = [] := List.eq_nil_of_length_eq_zero (by omega)
        simp only [hrest, List.length_nil, Nat.add_zero] at hfull
        exact hplace ⟨hempty, hrest, hfull.mp (by omega)⟩
      rw [hsize, read_zero hc.inv hroom] at hread
      exact Or.inr ⟨s₁, s₂, s₃, [], s', tail, hwrite, hwrite', hset, hread, by omega, hunread'⟩
    · obtain ⟨s₄, hlast, hc', -⟩ := read_consumed hc.inv hempty hunread'
      have hend := hc'.position
      refine Or.inr ⟨s₁, s₂, s₃, value.bytes, s₄, tail, hwrite, hwrite', hset, ?_, by omega, ?_⟩
      · rw [hread]
        exact hlast
      · rw [hc'.unread, hunread', List.drop_left' rfl]

/-- Whether a length comes back is whether it fits. -/
theorem inStep_iff (mem mem' mem'' : Nat → UInt8) {s : ByteArray} (h : s.Inv) (c : StringCodec)
    (value : StdString) (rest : List UInt8) :
    InStep mem mem' mem'' s c value rest ↔
      ((c = .f16 → value.size < UInt16.size) ∧ (c = .f32 → value.size < UInt32.size)) ∧
        ¬(value.bytes = [] ∧ rest = [] ∧ s.m_baseSize ∣ s.m_position + c.lengthSize value.size ∧
          s.m_capacity ≤ s.m_position + c.lengthSize value.size) := by
  have hlt : value.size < UInt64.size := value.size_lt
  rw [inStep_iff_stored mem mem' mem'' h, c.stored_eq_iff hlt]

/-- A string of three bytes over blocks of two, with two bytes behind it. -/
theorem inStep_threeBytes :
    InStep (fun _ => 0) (fun _ => 0) (fun _ => 0) (new (fun _ => 0) 2) .f16
      ⟨[97, 98, 99], by decide⟩ [1, 2] :=
  (inStep_iff _ _ _ (new_inv _ (by decide)) .f16 _ _).mpr
    ⟨⟨by decide, fun hf32 => by cases hf32⟩, fun hend => by cases hend.2.1⟩

/-- A string one byte longer than `writeStringF16` can say. -/
def longString : StdString :=
  ⟨List.replicate 65536 0, by rw [List.length_replicate]; decide⟩

/-- Its length is written as 0, and its bytes are read as what comes behind it. -/
theorem longString_not_inStep : ¬∀ (mem mem' mem'' : Nat → UInt8) (s : ByteArray)
    (c : StringCodec) (value : StdString) (rest : List UInt8), s.Inv →
    InStep mem mem' mem'' s c value rest := by
  intro hstep
  have hstored := ((inStep_iff_stored _ _ _ (new_inv (fun _ => 0) Nat.one_pos) .f16 longString
    []).mp (hstep (fun _ => 0) (fun _ => 0) (fun _ => 0) _ .f16 longString []
      (new_inv _ Nat.one_pos))).1
  rw [StdString.size, longString, List.length_replicate] at hstored
  exact absurd hstored (by decide)

end ByteArray

end Muqiu
