import Muqiu.Lib.Words

/-!
# Marked words

A word of bytes carries its own end when every byte but the last is marked, by its highest bit.
The other seven bits of the bytes are a number in base 128, lowest digit first.

No marked word begins another one, so words can stand one behind the other.  Several words have
the same number, as zeros may follow its digits; `groups` is the only one of least length.
-/

namespace Words

/-- Every byte but the last is marked. -/
inductive Marked : List UInt8 → Prop where
| last {b : UInt8} :
    b < 0x80 →
    Marked [b]
| cons {b : UInt8} {bs : List UInt8} :
    ¬b < 0x80 →
    Marked bs →
    Marked (b :: bs)

/-- The number in base 128 that the lower seven bits of the bytes stand for. -/
def number : List UInt8 → Nat
  | [] => 0
  | b :: bs => b.toNat % 128 + 128 * number bs

theorem Marked.ne_nil {bs : List UInt8} (h : Marked bs) : bs ≠ [] := by
  cases h with
  | last _ => exact List.cons_ne_nil _ _
  | cons _ _ => exact List.cons_ne_nil _ _

/-- A marked word ends where another one with the same front does. -/
theorem Marked.eq_of_prefix {as bs : List UInt8} (ha : Marked as) (hb : Marked bs)
    (h : as <+: bs) : as = bs := by
  induction ha generalizing bs with
  | last hlast =>
      cases hb with
      | last _ => exact h.eq_of_length rfl
      | cons hmark _ =>
          rw [(List.cons_prefix_cons.mp h).1] at hlast
          exact absurd hlast hmark
  | cons hmark _ ih =>
      cases hb with
      | last hlast =>
          rw [(List.cons_prefix_cons.mp h).1] at hmark
          exact absurd hlast hmark
      | cons _ hb =>
          obtain ⟨hbyte, hrest⟩ := List.cons_prefix_cons.mp h
          rw [hbyte, ih hb hrest]

/-! ## The groups of a number -/

/-- Its bytes are a marked word. -/
theorem marked_groups (n : Nat) : Marked (groups n) := by
  induction n using Nat.strong_induction_on with
  | _ n ih =>
      by_cases hn : n < 128
      · have hbyte : (UInt8.ofNat n).toNat = n := by
          rw [UInt8.toNat_ofNat']
          omega
        rw [groups_of_lt hn]
        refine .last ?_
        rw [UInt8.lt_iff_toNat_lt, hbyte]
        exact hn
      · have hbyte : (UInt8.ofNat (n % 128 + 128)).toNat = n % 128 + 128 := by
          rw [UInt8.toNat_ofNat']
          omega
        rw [groups_of_ge (Nat.not_lt.mp hn)]
        refine .cons ?_ (ih _ (by omega))
        rw [UInt8.lt_iff_toNat_lt, hbyte]
        exact Nat.not_lt.mpr (Nat.le_add_left 128 _)

theorem number_groups (n : Nat) : number (groups n) = n := by
  induction n using Nat.strong_induction_on with
  | _ n ih =>
      by_cases hn : n < 128
      · rw [groups_of_lt hn, number, number, UInt8.toNat_ofNat']
        omega
      · rw [groups_of_ge (Nat.not_lt.mp hn), number, ih _ (by omega), UInt8.toNat_ofNat']
        omega

/-- A marked word is the groups of its number, or it is longer than they are. -/
theorem Marked.eq_groups_or_longer {bs : List UInt8} (h : Marked bs) :
    bs = groups (number bs) ∨ (groups (number bs)).length < bs.length := by
  induction h with
  | @last b hlast =>
      left
      rw [UInt8.lt_iff_toNat_lt] at hlast
      have hnumber : number [b] = b.toNat := by
        rw [number, number]
        exact Nat.mod_eq_of_lt hlast
      rw [hnumber, groups_of_lt hlast, UInt8.ofNat_toNat]
  | @cons b bs hmark htail ih =>
      have hlen := List.length_pos_iff.mpr htail.ne_nil
      rw [UInt8.lt_iff_toNat_lt] at hmark
      have hb := b.toNat_lt
      have hge : 128 ≤ b.toNat := Nat.not_lt.mp hmark
      rw [List.length_cons]
      by_cases hsmall : number (b :: bs) < 128
      · right
        rw [groups_of_lt hsmall, List.length_singleton]
        omega
      · have hrest : number (b :: bs) / 128 = number bs := by
          rw [number]
          omega
        have hdigit : number (b :: bs) % 128 + 128 = b.toNat := by
          rw [number]
          omega
        rw [groups_of_ge (Nat.not_lt.mp hsmall), hrest, hdigit, UInt8.ofNat_toNat,
          List.length_cons]
        cases ih with
        | inl heq => exact .inl (congrArg (b :: ·) heq)
        | inr hlt => exact .inr (Nat.succ_lt_succ hlt)

end Words
