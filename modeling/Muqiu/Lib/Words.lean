import Mathlib.Algebra.Order.Floor.Div

/-!
# Machine words in memory

A word of `k` bytes lies in memory with its least significant byte first.  `ofNat k n` are
those bytes and `toNat` reads them back.  The two are inverse to each other on words of `k`
bytes, so turning the bytes of a word around and reading them gives a word again
(`swap`), and turning them around twice gives the first one.

`groups n` is the other form: seven bits to a byte, the least significant first, and the
eighth bit set in every byte but the last.  It says itself where it ends.

`zigzag` folds the signed words onto the unsigned ones, small magnitudes to small numbers.
-/

namespace Words

/-- What holds of the 256 bytes holds of every byte. -/
theorem forall_uint8 {P : UInt8 → Prop} (h : ∀ n : Fin 256, P (UInt8.ofNat n.val)) (c : UInt8) :
    P c := by
  have hc := h ⟨c.toNat, c.toNat_lt⟩
  rwa [UInt8.ofNat_toNat] at hc

/-! ## Fixed width -/

/-- The `k` bytes of a word. -/
def ofNat : Nat → Nat → List UInt8
  | 0, _ => []
  | k + 1, n => UInt8.ofNat n :: ofNat k (n / 256)

/-- The word some bytes hold. -/
def toNat : List UInt8 → Nat
  | [] => 0
  | b :: bs => b.toNat + 256 * toNat bs

@[simp] theorem length_ofNat (k n : Nat) : (ofNat k n).length = k := by
  induction k generalizing n with
  | zero => rfl
  | succ k ih => rw [ofNat, List.length_cons, ih]

theorem toNat_lt (bs : List UInt8) : toNat bs < 256 ^ bs.length := by
  induction bs with
  | nil => exact Nat.one_pos
  | cons b bs ih =>
      have hb := b.toNat_lt
      rw [toNat, List.length_cons, Nat.pow_succ]
      omega

theorem toNat_ofNat {k n : Nat} (h : n < 256 ^ k) : toNat (ofNat k n) = n := by
  induction k generalizing n with
  | zero =>
      rw [Nat.pow_zero] at h
      rw [ofNat, toNat]
      omega
  | succ k ih =>
      rw [Nat.pow_succ] at h
      have htail : n / 256 < 256 ^ k := Nat.div_lt_of_lt_mul (by omega)
      have hhead : (UInt8.ofNat n).toNat = n % 256 := UInt8.toNat_ofNat'
      rw [ofNat, toNat, ih htail, hhead]
      omega

theorem ofNat_toNat (bs : List UInt8) : ofNat bs.length (toNat bs) = bs := by
  induction bs with
  | nil => rfl
  | cons b bs ih =>
      have hb := b.toNat_lt
      have hhead : UInt8.ofNat (b.toNat + 256 * toNat bs) = b := by
        apply UInt8.toNat_inj.mp
        rw [UInt8.toNat_ofNat']
        omega
      have htail : (b.toNat + 256 * toNat bs) / 256 = toNat bs := by omega
      rw [toNat, List.length_cons, ofNat, hhead, htail, ih]

/-- The word with its bytes in the other order. -/
def swap (k n : Nat) : Nat := toNat (ofNat k n).reverse

/-- The bytes of a turned word are the bytes of the word turned around. -/
theorem ofNat_swap (k n : Nat) : ofNat k (swap k n) = (ofNat k n).reverse := by
  have h := ofNat_toNat (ofNat k n).reverse
  rw [List.length_reverse, length_ofNat] at h
  exact h

theorem swap_swap {k n : Nat} (h : n < 256 ^ k) : swap k (swap k n) = n := by
  rw [swap, ofNat_swap, List.reverse_reverse, toNat_ofNat h]

/-! ## Groups of seven bits -/

/-- Seven bits to a byte, with a mark on every byte but the last. -/
def groups (n : Nat) : List UInt8 :=
  if n < 128 then [UInt8.ofNat n]
  else UInt8.ofNat (n % 128 + 128) :: groups (n / 128)
termination_by n

theorem groups_of_lt {n : Nat} (h : n < 128) : groups n = [UInt8.ofNat n] := by
  rw [groups, if_pos h]

theorem groups_of_ge {n : Nat} (h : 128 ≤ n) :
    groups n = UInt8.ofNat (n % 128 + 128) :: groups (n / 128) := by
  rw [groups, if_neg (Nat.not_lt.mpr h)]

theorem groups_ne_nil (n : Nat) : groups n ≠ [] := by
  by_cases h : n < 128
  · rw [groups_of_lt h]
    exact List.cons_ne_nil _ _
  · rw [groups_of_ge (Nat.not_lt.mp h)]
    exact List.cons_ne_nil _ _

/-- A number of `7 * (k + 1)` bits takes `k + 1` bytes at most. -/
theorem length_groups_le {k n : Nat} (h : n < 128 ^ (k + 1)) : (groups n).length ≤ k + 1 := by
  induction k generalizing n with
  | zero =>
      rw [groups_of_lt (by omega)]
      exact Nat.le_refl _
  | succ k ih =>
      by_cases hn : n < 128
      · rw [groups_of_lt hn, List.length_singleton]
        omega
      · rw [Nat.pow_succ] at h
        have htail := ih (n := n / 128) (Nat.div_lt_of_lt_mul (by omega))
        rw [groups_of_ge (Nat.not_lt.mp hn), List.length_cons]
        omega

/-- The number in the groups at the front, of no more than so many, and how many bytes they take.
`none` when the bytes end before the groups do. -/
def ungroup : Nat → List UInt8 → Option (Nat × Nat)
  | 0, _ => some (0, 0)
  | _ + 1, [] => none
  | rounds + 1, b :: bs =>
      if b < 0x80 then some (b.toNat, 1)
      else (ungroup rounds bs).map fun r => (b.toNat % 128 + 128 * r.1, r.2 + 1)

theorem ungroup_of_lt {b : UInt8} (h : b < 0x80) (rounds : Nat) (bs : List UInt8) :
    ungroup (rounds + 1) (b :: bs) = some (b.toNat, 1) := by
  rw [ungroup, if_pos h]

theorem ungroup_of_ge {b : UInt8} (h : ¬b < 0x80) (rounds : Nat) (bs : List UInt8) :
    ungroup (rounds + 1) (b :: bs) =
      (ungroup rounds bs).map fun r => (b.toNat % 128 + 128 * r.1, r.2 + 1) := by
  rw [ungroup, if_neg h]

/-- They take at least one byte. -/
theorem ungroup_pos {rounds n v : Nat} {bs : List UInt8}
    (h : ungroup (rounds + 1) bs = some (v, n)) : 0 < n := by
  cases bs with
  | nil => cases h
  | cons b bs =>
      by_cases hb : b < 0x80
      · rw [ungroup_of_lt hb] at h
        cases h
        exact Nat.one_pos
      · rw [ungroup_of_ge hb] at h
        obtain ⟨r, -, hr⟩ := Option.map_eq_some_iff.mp h
        cases hr
        exact Nat.succ_pos _

/-! ## Zigzag -/

/-- Magnitude times two, less one for the negative ones. -/
def zigzag {w : Nat} (v : BitVec w) : BitVec w := if v.msb then -v * 2#w - 1#w else v * 2#w

/-- The numbers back from their zigzag code. -/
def unzigzag {w : Nat} (v : BitVec w) : BitVec w := (v >>> 1) ^^^ (-(v &&& 1#w))

/-- The lowest bit as a mask: nothing or everything. -/
theorem neg_and_one {w : Nat} (hw : 0 < w) (v : BitVec w) :
    -(v &&& 1#w) = if v.toNat % 2 = 0 then 0#w else BitVec.allOnes w := by
  have hand : (v &&& 1#w).toNat = v.toNat % 2 := by
    rw [BitVec.toNat_and, BitVec.toNat_one hw, Nat.and_one_is_mod]
  split
  next heven =>
    have hzero : v &&& 1#w = 0#w := BitVec.eq_of_toNat_eq (by rw [hand, heven]; simp)
    rw [hzero, BitVec.neg_zero]
  next hodd =>
    have hone : v &&& 1#w = 1#w :=
      BitVec.eq_of_toNat_eq (by rw [hand, BitVec.toNat_one hw]; omega)
    rw [hone, BitVec.neg_one_eq_allOnes]

theorem unzigzag_zigzag {w : Nat} (hw : 1 < w) (v : BitVec w) : unzigzag (zigzag v) = v := by
  have hpow : 2 ^ w = 2 * 2 ^ (w - 1) := by
    rw [← Nat.pow_succ', Nat.succ_eq_add_one, Nat.sub_add_cancel (by omega)]
  have hpow' : 2 ^ (w - 1) = 2 * 2 ^ (w - 2) := by
    rw [← Nat.pow_succ', Nat.succ_eq_add_one]
    congr 1
    omega
  have hpos : 0 < 2 ^ (w - 2) := Nat.two_pow_pos _
  have htwo : (2#w).toNat = 2 := by
    rw [BitVec.toNat_ofNat]
    exact Nat.mod_eq_of_lt (by omega)
  have hlt := v.isLt
  rw [unzigzag, neg_and_one (by omega), zigzag]
  cases hmsb : v.msb with
  | false =>
      have hsmall : v.toNat < 2 ^ (w - 1) := by
        rw [BitVec.msb_eq_false_iff_two_mul_lt] at hmsb
        omega
      have hval : (v * 2#w).toNat = 2 * v.toNat := by
        rw [BitVec.toNat_mul, htwo, Nat.mod_eq_of_lt (by omega)]
        omega
      simp only [Bool.false_eq_true, if_false, hval]
      rw [if_pos (by omega), BitVec.xor_zero]
      apply BitVec.eq_of_toNat_eq
      rw [BitVec.toNat_ushiftRight, hval, Nat.shiftRight_eq_div_pow, Nat.pow_one]
      omega
  | true =>
      have hlarge : 2 ^ (w - 1) ≤ v.toNat := by
        rw [BitVec.msb_eq_true_iff_two_mul_ge] at hmsb
        omega
      have hneg : (-v).toNat = 2 ^ w - v.toNat := by
        rw [BitVec.toNat_neg, Nat.mod_eq_of_lt (by omega)]
      have hval : (-v * 2#w - 1#w).toNat = 2 * (2 ^ w - v.toNat) - 1 := by
        rw [BitVec.toNat_sub, BitVec.toNat_one (by omega), BitVec.toNat_mul, hneg, htwo]
        -- only the least word's double is a full turn
        by_cases hleast : v.toNat = 2 ^ (w - 1)
        · rw [show (2 ^ w - v.toNat) * 2 = 2 ^ w by omega, Nat.mod_self, Nat.add_zero,
            Nat.mod_eq_of_lt (by omega)]
          omega
        · rw [Nat.mod_eq_of_lt (show (2 ^ w - v.toNat) * 2 < 2 ^ w by omega),
            show 2 ^ w - 1 + (2 ^ w - v.toNat) * 2 =
              2 * (2 ^ w - v.toNat) - 1 + 2 ^ w by omega,
            Nat.add_mod_right, Nat.mod_eq_of_lt (by omega)]
      simp only [if_true, hval]
      rw [if_neg (by omega), BitVec.xor_allOnes]
      apply BitVec.eq_of_toNat_eq
      rw [BitVec.toNat_not, BitVec.toNat_ushiftRight, hval, Nat.shiftRight_eq_div_pow, Nat.pow_one]
      omega

end Words
