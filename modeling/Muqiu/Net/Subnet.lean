import Muqiu.Net.Address

/-!
# Subnets

The bits of an address are counted from the first byte on, the most significant one of a byte
first.  A prefix is the first of them.

`CreateMask` gives the bits behind a prefix, the host part.  `subnetMask` inverts it and
`broadcastAddress` sets it; `networkAddress` takes it as it is and so keeps the host part and
clears the prefix.  For IPv4 the mask of the prefixes 0 and 1 is undefined in `int`; for IPv6 the
prefix 128 has its boundary behind the last byte.
-/

namespace Muqiu

/-- A bit of some bytes. -/
def bit (bs : List UInt8) (k : Nat) : Bool := (bs.getD (k / 8) 0).toBitVec.getMsbD (k % 8)

/-- A mask and its complement keep the same of a word only if there is nothing to keep. -/
theorem and_eq_and_not {w : Nat} {x m : BitVec w} (h : x &&& m = x &&& ~~~m) : x = 0#w := by
  refine BitVec.eq_of_getMsbD_eq fun i hi => ?_
  have hbit := congrArg (BitVec.getMsbD · i) h
  simp only [BitVec.getMsbD_and, BitVec.getMsbD_not, hi, decide_true, Bool.true_and] at hbit
  rw [BitVec.getMsbD_zero]
  cases hx : x.getMsbD i with
  | false => rfl
  | true => cases hm : m.getMsbD i <;> simp [hx, hm] at hbit

/-! ## IPv4 -/

namespace IPv4Address

/-- The bytes of an address in memory. -/
def bytes (a : IPv4Address) : List UInt8 := Words.ofNat 4 a.m_addr.s_addr.toNat

/-- A mask, a network address and a broadcast address as they should be. -/
structure SubnetOf (a m n b : IPv4Address) (p : Nat) : Prop where
  bits : ∀ k < 32, bit m.bytes k = decide (k < p)
  count : ∃ rounds, CountBytes rounds m.m_addr.s_addr = some p
  network : n.m_addr.s_addr = a.m_addr.s_addr &&& m.m_addr.s_addr
  broadcast : b.m_addr.s_addr = a.m_addr.s_addr ||| ~~~m.m_addr.s_addr
  ports : n.getPort = a.getPort ∧ b.getPort = a.getPort
  families : n.m_addr.sin_family = a.m_addr.sin_family ∧
    b.m_addr.sin_family = a.m_addr.sin_family
  idempotent : n.networkAddress p = some (some n)

/-- The three functions are defined at a prefix and agree with each other. -/
def SubnetArithmetic (a : IPv4Address) (p : Nat) : Prop :=
  (CreateMask 4 p).isSome = true ∧
    ∃ m n b, subnetMask p = some m ∧ a.networkAddress p = some (some n) ∧
      a.broadcastAddress p = some (some b) ∧ SubnetOf a m n b p

/-- The host part behind a prefix, in network byte order. -/
def hostPart (p : Nat) : UInt32 := byteswap32 (UInt32.ofNat (2 ^ (32 - p) - 1))

theorem CreateMask_four {p : Nat} (h : 2 ≤ p) (hp : p ≤ 32) :
    CreateMask 4 p = some (2 ^ (32 - p) - 1) := by
  have hall : ∀ p : Fin 33, 2 ≤ p.val → CreateMask 4 p.val = some (2 ^ (32 - p.val) - 1) := by
    decide
  exact hall ⟨p, Nat.lt_succ_of_le hp⟩ h

theorem CreateMask_four_undefined {p : Nat} (h : p < 2) : CreateMask 4 p = none := by
  have hall : ∀ p : Fin 2, CreateMask 4 p.val = none := by decide
  exact hall ⟨p, h⟩

theorem bits_hostPart {p k : Nat} (hp : p ≤ 32) (hk : k < 32) :
    bit (Words.ofNat 4 (~~~hostPart p).toNat) k = decide (k < p) := by
  have hall : ∀ p : Fin 33, ∀ k : Fin 32,
      bit (Words.ofNat 4 (~~~hostPart p.val).toNat) k.val = decide (k.val < p.val) := by
    decide +kernel
  exact hall ⟨p, Nat.lt_succ_of_le hp⟩ ⟨k, hk⟩

theorem count_hostPart {p : Nat} (hp : p ≤ 32) : CountBytes 33 (~~~hostPart p) = some p := by
  have hall : ∀ p : Fin 33, CountBytes 33 (~~~hostPart p.val) = some p.val := by decide +kernel
  exact hall ⟨p, Nat.lt_succ_of_le hp⟩

section Defined

variable {p : Nat} (h : 2 ≤ p) (hp : p ≤ 32)
include h hp

theorem subnetMask_eq :
    subnetMask p = some ⟨{ sin_family := AF_INET, sin_port := 0, s_addr := ~~~hostPart p }⟩ := by
  rw [subnetMask, CreateMask_four h hp]
  rfl

theorem networkAddress_eq (a : IPv4Address) :
    a.networkAddress p =
      some (some ⟨{ a.m_addr with s_addr := a.m_addr.s_addr &&& hostPart p }⟩) := by
  rw [networkAddress, if_neg (Nat.not_lt.mpr hp), CreateMask_four h hp]
  rfl

theorem broadcastAddress_eq (a : IPv4Address) :
    a.broadcastAddress p =
      some (some ⟨{ a.m_addr with s_addr := a.m_addr.s_addr ||| hostPart p }⟩) := by
  rw [broadcastAddress, if_neg (Nat.not_lt.mpr hp), CreateMask_four h hp]
  rfl

/-- Everything but the network address is right from the prefix 2 on. -/
theorem subnetOf_iff {a m n b : IPv4Address} (hm : subnetMask p = some m)
    (hn : a.networkAddress p = some (some n)) (hb : a.broadcastAddress p = some (some b)) :
    SubnetOf a m n b p ↔ n.m_addr.s_addr = a.m_addr.s_addr &&& m.m_addr.s_addr := by
  refine ⟨SubnetOf.network, fun hnetwork => ?_⟩
  rw [subnetMask_eq h hp, Option.some.injEq] at hm
  rw [networkAddress_eq h hp, Option.some.injEq, Option.some.injEq] at hn
  rw [broadcastAddress_eq h hp, Option.some.injEq, Option.some.injEq] at hb
  subst hm hn hb
  exact
    { bits := fun k hk => bits_hostPart hp hk
      count := ⟨33, count_hostPart hp⟩
      network := hnetwork
      broadcast := by rw [UInt32.not_not]
      ports := ⟨rfl, rfl⟩
      families := ⟨rfl, rfl⟩
      idempotent := by
        rw [networkAddress_eq h hp]
        simp only [UInt32.and_assoc, UInt32.and_self] }

end Defined

/-- The arithmetic is right for the address zero alone, and for no prefix below 2. -/
theorem subnetArithmetic_iff_zeroAddress {a : IPv4Address} {p : Nat} (hp : p ≤ 32) :
    SubnetArithmetic a p ↔ 2 ≤ p ∧ a.m_addr.s_addr = 0 := by
  constructor
  · rintro ⟨hmask, m, n, b, hm, hn, hb, hof⟩
    have h : 2 ≤ p := by
      refine Nat.not_lt.mp fun hlt => ?_
      rw [CreateMask_four_undefined hlt] at hmask
      exact absurd hmask (by decide)
    refine ⟨h, ?_⟩
    have hnetwork := hof.network
    rw [subnetMask_eq h hp, Option.some.injEq] at hm
    rw [networkAddress_eq h hp, Option.some.injEq, Option.some.injEq] at hn
    subst hm hn
    have hbits := congrArg UInt32.toBitVec hnetwork
    rw [UInt32.toBitVec_and, UInt32.toBitVec_and, UInt32.toBitVec_not] at hbits
    exact UInt32.toBitVec_inj.mp (and_eq_and_not hbits)
  · rintro ⟨h, hzero⟩
    refine ⟨by rw [CreateMask_four h hp]; rfl, _, _, _, subnetMask_eq h hp,
      networkAddress_eq h hp a, broadcastAddress_eq h hp a, ?_⟩
    refine (subnetOf_iff h hp (subnetMask_eq h hp) (networkAddress_eq h hp a)
      (broadcastAddress_eq h hp a)).mpr ?_
    simp only [hzero, UInt32.zero_and]

theorem subnetArithmetic_zeroAddress_slash24 : SubnetArithmetic (new 0 80) 24 :=
  (subnetArithmetic_iff_zeroAddress (by decide)).mpr ⟨by decide, rfl⟩

/-- 192.168.1.20 -/
theorem privateHost_not_subnetArithmetic : ¬SubnetArithmetic (new 0xc0a80114 80) 24 := by
  rintro ⟨-, m, n, b, hm, hn, -, hof⟩
  have hnetwork := hof.network
  cases hm
  cases hn
  exact absurd hnetwork (by decide)

end IPv4Address

/-! ## IPv6 -/

/-- `fill` sets the bytes of its range. -/
theorem fill_eq {x : UInt8} {n : Nat} :
    ∀ {i : Nat} {s : In6Addr}, i + n ≤ 16 →
      ∃ s', fill x i n s = some s' ∧
        ∀ (j : Nat) (h : j < 16), s'[j] = if i ≤ j ∧ j < i + n then x else s[j] := by
  induction n with
  | zero =>
      intro i s _
      refine ⟨s, rfl, fun j _ => ?_⟩
      rw [if_neg (by omega)]
  | succ n ih =>
      intro i s hle
      obtain ⟨s', hs', hbytes⟩ := ih (i := i + 1) (s := s.set i x (by omega)) (by omega)
      refine ⟨s', ?_, fun j hj => ?_⟩
      · rw [fill, setByte, dif_pos (by omega), Option.bind_some, hs']
      · rw [hbytes j hj, Vector.getElem_set]
        by_cases hij : i = j
        · rw [if_pos hij, if_neg (by omega), if_pos (by omega)]
        · rw [if_neg hij]
          exact if_congr (by omega) rfl rfl

namespace IPv6Address

/-- The bytes of an address. -/
def bytes (a : IPv6Address) : List UInt8 := a.m_addr.s6_addr.toList

/-- A mask, a network address and a broadcast address as they should be. -/
structure SubnetOf (a m n b : IPv6Address) (p : Nat) : Prop where
  mask : ∀ k < 128, bit m.bytes k = decide (k < p)
  network : ∀ k < 128, bit n.bytes k = (bit a.bytes k && decide (k < p))
  broadcast : ∀ k < 128, bit b.bytes k = (bit a.bytes k || !decide (k < p))
  rest : n.m_addr = { a.m_addr with s6_addr := n.m_addr.s6_addr } ∧
    b.m_addr = { a.m_addr with s6_addr := b.m_addr.s6_addr }

/-- The three functions stay in the array at a prefix and give what they should. -/
def SubnetArithmetic (a : IPv6Address) (p : Nat) : Prop :=
  ∃ m n b, subnetMask p = some m ∧ a.networkAddress p = some n ∧
    a.broadcastAddress p = some b ∧ SubnetOf a m n b p

/-- The host part in the byte of the boundary. -/
def hostByte (p : Nat) : UInt8 := UInt8.ofNat (2 ^ (8 - p % 8) - 1)

/-- The host part in a byte. -/
def hostPart (p j : Nat) : UInt8 :=
  if j < p / 8 then 0 else if j = p / 8 then hostByte p else 0xff

theorem CreateMask_one (p : Nat) : CreateMask 1 (p % 8) = some (2 ^ (8 - p % 8) - 1) := by
  have hall : ∀ r : Fin 8, CreateMask 1 r.val = some (2 ^ (8 - r.val) - 1) := by decide
  exact hall ⟨p % 8, Nat.mod_lt p (by decide)⟩

theorem bit_hostByte (p : Nat) {i : Nat} (hi : i < 8) :
    (hostByte p).toBitVec.getMsbD i = decide (p % 8 ≤ i) := by
  have hall : ∀ r i : Fin 8,
      (UInt8.ofNat (2 ^ (8 - r.val) - 1)).toBitVec.getMsbD i.val = decide (r.val ≤ i.val) := by
    decide
  exact hall ⟨p % 8, Nat.mod_lt p (by decide)⟩ ⟨i, hi⟩

theorem bit_hostPart (p k : Nat) :
    (hostPart p (k / 8)).toBitVec.getMsbD (k % 8) = decide (p ≤ k) := by
  have hk : k % 8 < 8 := Nat.mod_lt k (by decide)
  rw [hostPart]
  rcases Nat.lt_trichotomy (k / 8) (p / 8) with hlt | heq | hgt
  · rw [if_pos hlt, decide_eq_false (by omega)]
    exact BitVec.getMsbD_zero
  · rw [if_neg (by omega), if_pos heq, bit_hostByte p hk]
    exact decide_eq_decide.mpr (by omega)
  · rw [if_neg (by omega), if_neg (by omega), decide_eq_true (by omega)]
    have hones : (0xff : UInt8).toBitVec = BitVec.allOnes 8 := rfl
    rw [hones, BitVec.getMsbD_allOnes, decide_eq_true hk]

theorem bit_toList (s : In6Addr) {k : Nat} (hk : k < 128) :
    bit s.toList k = (s[k / 8]).toBitVec.getMsbD (k % 8) := by
  have hlt : k / 8 < 16 := by omega
  have hget : s.toList.getD (k / 8) 0 = s[k / 8] := by
    rw [List.getD_eq_getElem?_getD, Vector.getElem?_toList, Vector.getElem?_eq_getElem hlt]
    rfl
  rw [bit, hget]

/-- One byte is changed and those behind it are set. -/
theorem boundary_eq {β : Type} (F : In6Addr → β) {f : UInt8 → UInt8} (x : UInt8) {i : Nat}
    (hi : i < 16) (s : In6Addr) :
    ∃ s', ((setByte i f s).bind fun s => (fill x (i + 1) (16 - (i + 1)) s).map F) = some (F s') ∧
      ∀ (j : Nat) (h : j < 16), s'[j] = if j < i then s[j] else if j = i then f s[j] else x := by
  obtain ⟨s', hs', hbytes⟩ :=
    fill_eq (x := x) (n := 16 - (i + 1)) (i := i + 1) (s := s.set i (f s[i])) (by omega)
  refine ⟨s', ?_, fun j hj => ?_⟩
  · rw [setByte, dif_pos hi, Option.bind_some, hs']
    rfl
  · rw [hbytes j hj, Vector.getElem_set]
    rcases Nat.lt_trichotomy j i with hlt | rfl | hgt
    · rw [if_neg (by omega), if_neg (by omega), if_pos hlt]
    · rw [if_neg (by omega), if_pos rfl, if_neg (Nat.lt_irrefl j), if_pos rfl]
    · rw [if_pos (by omega), if_neg (by omega), if_neg (by omega)]

section InRange

variable {p : Nat} (hp : p < 128)
include hp

theorem broadcastAddress_eq (a : IPv6Address) :
    ∃ s, a.broadcastAddress p = some ⟨{ a.m_addr with s6_addr := s }⟩ ∧
      ∀ (j : Nat) (h : j < 16), s[j] = a.m_addr.s6_addr[j] ||| hostPart p j := by
  obtain ⟨s, hs, hbytes⟩ := boundary_eq
    (fun s => (⟨{ a.m_addr with s6_addr := s }⟩ : IPv6Address)) (f := (· ||| hostByte p)) 0xff
    (show p / 8 < 16 by omega) a.m_addr.s6_addr
  refine ⟨s, ?_, fun j hj => ?_⟩
  · rw [broadcastAddress, CreateMask_one]
    exact hs
  · rw [hbytes j hj, hostPart]
    by_cases hlow : j < p / 8
    · rw [if_pos hlow, if_pos hlow, UInt8.or_zero]
    · rw [if_neg hlow, if_neg hlow]
      by_cases hat : j = p / 8
      · rw [if_pos hat, if_pos hat]
      · rw [if_neg hat, if_neg hat]
        exact (UInt8.or_neg_one ..).symm

/-- The byte of the boundary keeps the host part. -/
theorem networkAddress_eq (a : IPv6Address) :
    ∃ s, a.networkAddress p = some ⟨{ a.m_addr with s6_addr := s }⟩ ∧
      ∀ (j : Nat) (h : j < 16), s[j] =
        a.m_addr.s6_addr[j] &&& if j = p / 8 then hostPart p j else ~~~hostPart p j := by
  obtain ⟨s, hs, hbytes⟩ := boundary_eq
    (fun s => (⟨{ a.m_addr with s6_addr := s }⟩ : IPv6Address)) (f := (· &&& hostByte p)) 0x00
    (show p / 8 < 16 by omega) a.m_addr.s6_addr
  refine ⟨s, ?_, fun j hj => ?_⟩
  · rw [networkAddress, CreateMask_one]
    exact hs
  · rw [hbytes j hj, hostPart]
    rcases Nat.lt_trichotomy j (p / 8) with hlt | heq | hgt
    · rw [if_pos hlt, if_neg (by omega), if_pos hlt]
      exact (UInt8.and_neg_one ..).symm
    · rw [if_neg (by omega), if_pos heq, if_pos heq, if_neg (by omega), if_pos heq]
    · rw [if_neg (by omega), if_neg (by omega), if_neg (by omega), if_neg (by omega),
        if_neg (by omega)]
      exact (UInt8.and_zero ..).symm

theorem subnetMask_eq :
    ∃ s, subnetMask p = some ⟨{ new.m_addr with s6_addr := s }⟩ ∧
      ∀ (j : Nat) (h : j < 16), s[j] = ~~~hostPart p j := by
  have hlt : p / 8 < 16 := by omega
  obtain ⟨s, hs, hbytes⟩ := fill_eq (x := 0xff) (n := p / 8) (i := 0)
    (s := new.m_addr.s6_addr.set (p / 8) (~~~hostByte p) hlt) (by omega)
  refine ⟨s, ?_, fun j hj => ?_⟩
  · rw [subnetMask]
    dsimp only
    rw [CreateMask_one, Option.bind_some, setByte, dif_pos hlt, Option.bind_some]
    exact congrArg (Option.map _) hs
  · rw [hbytes j hj, Vector.getElem_set, hostPart, Nat.zero_add]
    rcases Nat.lt_trichotomy j (p / 8) with hlow | heq | hgt
    · rw [if_pos ⟨Nat.zero_le j, hlow⟩, if_pos hlow]
      rfl
    · rw [if_neg (by omega), if_pos heq.symm, if_neg (by omega), if_pos heq]
    · rw [if_neg (by omega), if_neg (by omega), if_neg (by omega), if_neg (by omega)]
      exact Vector.getElem_replicate hj

end InRange

/-- What is kept of a byte by the complement of the host part. -/
theorem bit_and_not_hostPart (v : UInt8) (p k : Nat) :
    (v &&& ~~~hostPart p (k / 8)).toBitVec.getMsbD (k % 8) =
      (v.toBitVec.getMsbD (k % 8) && decide (k < p)) := by
  have hk : k % 8 < 8 := Nat.mod_lt k (by decide)
  rw [UInt8.toBitVec_and, UInt8.toBitVec_not, BitVec.getMsbD_and, BitVec.getMsbD_not, bit_hostPart,
    decide_eq_true hk, Bool.true_and, ← decide_not]
  simp only [Nat.not_le]

/-- Behind the last byte there is no boundary. -/
theorem networkAddress_outside {a n : IPv6Address} {p : Nat} (h : a.networkAddress p = some n) :
    p / 8 < 16 := by
  rw [networkAddress, CreateMask_one, Option.bind_some] at h
  obtain ⟨s, hs, -⟩ := Option.bind_eq_some_iff.mp h
  rw [setByte, Option.dite_none_right_eq_some] at hs
  exact hs.1

/-- The network address is right where the byte of the boundary is zero. -/
theorem network_iff {a n : IPv6Address} {p : Nat} (h : a.networkAddress p = some n) :
    (∀ k < 128, bit n.bytes k = (bit a.bytes k && decide (k < p))) ↔
      a.m_addr.s6_addr[p / 8]? = some 0 := by
  have hlt := networkAddress_outside h
  obtain ⟨s, hs, hbytes⟩ := networkAddress_eq (show p < 128 by omega) a
  rw [hs, Option.some.injEq] at h
  subst h
  simp only [bytes]
  constructor
  · intro hbits
    have heq : a.m_addr.s6_addr[p / 8] &&& hostPart p (p / 8) =
        a.m_addr.s6_addr[p / 8] &&& ~~~hostPart p (p / 8) := by
      refine UInt8.toBitVec_inj.mp (BitVec.eq_of_getMsbD_eq fun i hi => ?_)
      have hdiv : (8 * (p / 8) + i) / 8 = p / 8 := by omega
      have hmod : (8 * (p / 8) + i) % 8 = i := by omega
      have hk : 8 * (p / 8) + i < 128 := by omega
      have hbit := hbits _ hk
      have hkept := bit_and_not_hostPart a.m_addr.s6_addr[p / 8] p (8 * (p / 8) + i)
      rw [bit_toList _ hk, bit_toList _ hk] at hbit
      simp only [hdiv, hmod, hbytes _ hlt, if_true] at hbit hkept
      rw [hbit, hkept]
    have hzero := congrArg UInt8.toBitVec heq
    rw [UInt8.toBitVec_and, UInt8.toBitVec_and, UInt8.toBitVec_not] at hzero
    rw [Vector.getElem?_eq_getElem hlt, UInt8.toBitVec_inj.mp (and_eq_and_not hzero)]
    rfl
  · intro hzero k hk
    have hbyte : s[k / 8] = a.m_addr.s6_addr[k / 8] &&& ~~~hostPart p (k / 8) := by
      rw [hbytes _ (by omega)]
      by_cases hat : k / 8 = p / 8
      · have hv : a.m_addr.s6_addr[k / 8] = 0 := by
          rw [← hat, Vector.getElem?_eq_getElem (by omega), Option.some.injEq] at hzero
          exact hzero
        rw [hv, UInt8.zero_and, UInt8.zero_and]
      · rw [if_neg hat]
    rw [bit_toList _ hk, bit_toList _ hk, hbyte, bit_and_not_hostPart]

/-- The arithmetic is right where the byte of the boundary is there and zero. -/
theorem subnetArithmetic_iff_zeroByte {a : IPv6Address} {p : Nat} :
    SubnetArithmetic a p ↔ a.m_addr.s6_addr[p / 8]? = some 0 := by
  constructor
  · rintro ⟨m, n, b, -, hn, -, hof⟩
    exact (network_iff hn).mp hof.network
  · intro hzero
    obtain ⟨hlt, -⟩ := Vector.getElem?_eq_some_iff.mp hzero
    have hp : p < 128 := by omega
    obtain ⟨sm, hm, hmask⟩ := subnetMask_eq hp
    obtain ⟨sn, hn, -⟩ := networkAddress_eq hp a
    obtain ⟨sb, hb, hbroadcast⟩ := broadcastAddress_eq hp a
    refine ⟨_, _, _, hm, hn, hb, ?_, (network_iff hn).mpr hzero, ?_, rfl, rfl⟩
    · intro k hk
      have hones := bit_and_not_hostPart (-1) p k
      have hall : (-1 : UInt8).toBitVec = BitVec.allOnes 8 := rfl
      rw [UInt8.neg_one_and, hall, BitVec.getMsbD_allOnes,
        decide_eq_true (Nat.mod_lt k (by decide)), Bool.true_and] at hones
      rw [bytes, bit_toList _ hk, hmask, hones]
    · intro k hk
      simp only [bytes]
      rw [bit_toList _ hk, bit_toList _ hk, hbroadcast, UInt8.toBitVec_or, BitVec.getMsbD_or,
        bit_hostPart, ← decide_not]
      simp only [Nat.not_lt]

/-- 2020:2020:2020:2020:2020:2020:2020:2020 -/
theorem host6_not_subnetArithmetic :
    ¬SubnetArithmetic ⟨{ new.m_addr with s6_addr := Vector.replicate 16 0x20 }⟩ 64 := by
  rintro ⟨m, n, b, -, hn, -, hof⟩
  cases hn
  exact absurd (hof.network 66 (by decide)) (by decide)

end IPv6Address

end Muqiu
