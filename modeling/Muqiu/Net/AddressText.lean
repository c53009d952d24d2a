import Muqiu.Lib.JsonReader
import Muqiu.Net.Address

/-!
# The text of an IPv6 address

`insert` goes over the eight groups.  Zero groups are left out until the first other group
behind one of them, which gets two colons in front of it; from there on every group is written.
So what is written after some groups is of one of three kinds (`Writing`): all of the groups, all
but the zeros they end with, or a form with its two colons.

`inet_pton` is a parameter that reads the forms of RFC 4291 as the groups they stand for
(`Rfc4291`).
-/

namespace Muqiu

open Json (Text ascii natDigits)
open HexGroups

/-- The bytes of eight groups. -/
def bytesOf (gs : List Nat) : In6Addr :=
  Vector.ofFn fun i : Fin 16 =>
    let g := gs.getD (i.val / 2) 0
    UInt8.ofNat (if i.val % 2 = 0 then g / 256 else g % 256)

/-- What is used of `inet_pton` for `AF_INET6`. -/
def Rfc4291 (inet_pton : Text → Option In6Addr) : Prop :=
  ∀ t gs, Form t gs → inet_pton t = some (bytesOf gs)

theorem rfc4291_parse : Rfc4291 fun t => (parse t).map bytesOf := by
  intro t gs h
  dsimp only
  rw [parse_of_form h]
  rfl

namespace IPv6Address

/-- A group as it is written. -/
def groupAt (a : IPv6Address) (i : Nat) : Nat := (byteswap16 (a.word i)).toNat

/-- The first groups of an address. -/
def groups (a : IPv6Address) (n : Nat) : List Nat := (List.range n).map a.groupAt

/-- What is written after some groups, behind the bracket, and `used_zeros`. -/
inductive Writing : List Nat → Text × Bool → Prop where
  | plain {ts : List Text} {gs : List Nat} :
      ts.mapM group = some gs → (∀ g ∈ gs, g ≠ 0) → Writing gs (ascii "[" ++ joined ts, false)
  | zeros {ts : List Text} {gs : List Nat} (k : Nat) :
      ts.mapM group = some gs →
      Writing (gs ++ List.replicate (k + 1) 0) (ascii "[" ++ joined ts, false)
  | compressed {ls rs : List Text} {gl gr : List Nat} (k : Nat) :
      ls.mapM group = some gl → rs.mapM group = some gr → rs ≠ [] →
      Writing (gl ++ List.replicate (k + 1) 0 ++ gr)
        (ascii "[" ++ (joined ls ++ 58 :: 58 :: joined rs), true)

/-! ## Groups -/

theorem byteswap16_eq_zero {v : UInt16} : (byteswap16 v).toNat = 0 ↔ v = 0 := by
  rw [byteswap16_toNat]
  constructor
  · intro h
    have hback := Words.swap_swap (k := 2) v.toNat_lt
    rw [h] at hback
    exact UInt16.toNat_inj.mp hback.symm
  · rintro rfl
    rfl

theorem groupAt_eq_zero {a : IPv6Address} {i : Nat} : a.groupAt i = 0 ↔ a.word i = 0 :=
  byteswap16_eq_zero

theorem groupAt_lt (a : IPv6Address) (i : Nat) : a.groupAt i < 65536 := UInt16.toNat_lt _

/-- A group is two bytes, the first one high. -/
theorem groupAt_eq (a : IPv6Address) {i : Nat} (h : i < 8) :
    a.groupAt i =
      256 * (a.m_addr.s6_addr[2 * i]).toNat + (a.m_addr.s6_addr[2 * i + 1]).toNat := by
  have hbytes : (a.m_addr.s6_addr.toList.drop (2 * i)).take 2 =
      [a.m_addr.s6_addr[2 * i], a.m_addr.s6_addr[2 * i + 1]] := by
    have hlen : a.m_addr.s6_addr.toList.length = 16 := a.m_addr.s6_addr.length_toList
    rw [List.drop_eq_getElem_cons (by omega), List.drop_eq_getElem_cons (by omega)]
    simp
  have hword : (a.word i).toNat =
      Words.toNat [a.m_addr.s6_addr[2 * i], a.m_addr.s6_addr[2 * i + 1]] := by
    have hlt := Words.toNat_lt [a.m_addr.s6_addr[2 * i], a.m_addr.s6_addr[2 * i + 1]]
    rw [word, hbytes]
    exact UInt16.toNat_ofNat_of_lt' (by simpa using hlt)
  have hback : Words.ofNat 2
      (Words.toNat [a.m_addr.s6_addr[2 * i], a.m_addr.s6_addr[2 * i + 1]]) =
        [a.m_addr.s6_addr[2 * i], a.m_addr.s6_addr[2 * i + 1]] := Words.ofNat_toNat [_, _]
  rw [groupAt, byteswap16_toNat, hword, Words.swap, hback]
  simp [Words.toNat]
  omega

theorem bytesOf_groups (a : IPv6Address) : bytesOf (a.groups 8) = a.m_addr.s6_addr := by
  refine Vector.ext fun j hj => ?_
  have hget : (a.groups 8).getD (j / 2) 0 = a.groupAt (j / 2) := by
    have hlt : j / 2 < 8 := by omega
    simp [groups, List.getD_eq_getElem?_getD, hlt]
  rw [bytesOf, Vector.getElem_ofFn]
  simp only [hget, groupAt_eq a (show j / 2 < 8 by omega)]
  have hlow := (a.m_addr.s6_addr[2 * (j / 2) + 1]).toNat_lt
  by_cases heven : j % 2 = 0
  · have hj2 : 2 * (j / 2) = j := by omega
    rw [if_pos heven, Nat.mul_add_div (by decide), Nat.div_eq_of_lt hlow, Nat.add_zero]
    simp only [hj2, UInt8.ofNat_toNat]
  · have hj2 : 2 * (j / 2) + 1 = j := by omega
    rw [if_neg heven, Nat.mul_add_mod, Nat.mod_eq_of_lt hlow]
    simp only [hj2, UInt8.ofNat_toNat]

theorem groups_succ (a : IPv6Address) (n : Nat) :
    a.groups (n + 1) = a.groups n ++ [a.groupAt n] := by
  rw [groups, List.range_succ, List.map_append]
  rfl

theorem length_groups (a : IPv6Address) (n : Nat) : (a.groups n).length = n := by
  rw [groups, List.length_map, List.length_range]

/-! ## The loop -/

theorem mapM_concat {ts : List Text} {gs : List Nat} (h : ts.mapM group = some gs) {n : Nat}
    (hn : n < 65536) : (ts ++ [hexText 8 n]).mapM group = some (gs ++ [n]) := by
  rw [List.mapM_append, h]
  simp [group_hexText hn]

section Round

variable (a : IPv6Address) (os : Text) {n : Nat}

theorem insertGroup_skip (h : a.word n = 0) : a.insertGroup (os, false) n = (os, false) := by
  simp [insertGroup, h]

theorem insertGroup_open (h : a.word n ≠ 0) (hn : n ≠ 0) (hzero : a.word (n - 1) = 0) :
    a.insertGroup (os, false) n = (os ++ 58 :: 58 :: hexText 8 (a.groupAt n), true) := by
  simp [insertGroup, h, hn, hzero, groupAt, ascii]

/-- A group with one colon in front of it, or none if it is the first. -/
theorem insertGroup_next {used : Bool} (h : used = true ∨ a.word n ≠ 0)
    (hone : used = true ∨ n = 0 ∨ a.word (n - 1) ≠ 0) :
    a.insertGroup (os, used) n =
      ((if n ≠ 0 then os ++ ascii ":" else os) ++ hexText 8 (a.groupAt n), used) := by
  have hwrite : (a.word n = 0 && !used) = false := by
    rcases h with rfl | h
    · exact Bool.and_false _
    · simp [h]
  have hcolon : (n ≠ 0 && a.word (n - 1) = 0 && !used) = false := by
    rcases hone with rfl | rfl | h
    · exact Bool.and_false _
    · simp
    · simp [h]
  rw [insertGroup]
  simp only [hwrite, hcolon, Bool.false_eq_true, if_false, groupAt]

end Round

/-- Whether the group in front of one is zero. -/
theorem word_pred {a : IPv6Address} {n : Nat} {gs : List Nat} {g : Nat}
    (h : a.groups n = gs ++ [g]) : n ≠ 0 ∧ (a.word (n - 1) = 0 ↔ g = 0) := by
  cases n with
  | zero =>
      have hlen := congrArg List.length h
      simp [length_groups] at hlen
  | succ n =>
      rw [groups_succ] at h
      have hlast := (List.append_inj' h rfl).2
      rw [← List.singleton_inj.mp hlast, groupAt_eq_zero]
      exact ⟨Nat.succ_ne_zero n, Iff.rfl⟩

/-- Behind the first group every other one has its colon. -/
theorem insertGroup_joined {ts : List Text} {used : Bool} {os : Text} {a : IPv6Address} {n : Nat}
    (hts : ts ≠ []) (hn : n ≠ 0) (h : used = true ∨ a.word n ≠ 0)
    (hone : used = true ∨ a.word (n - 1) ≠ 0) :
    a.insertGroup (os ++ joined ts, used) n =
      (os ++ joined (ts ++ [hexText 8 (a.groupAt n)]), used) := by
  rw [insertGroup_next a _ h (hone.imp_right Or.inr), if_pos hn, joined_concat hts,
    List.append_assoc, List.append_assoc]
  rfl

section Step

variable {a : IPv6Address} {n : Nat} {ts ls rs : List Text} {gs gl gr : List Nat} {k : Nat}

/-- Without a zero so far a group is written behind the others. -/
theorem insertGroup_plain (hgs : a.groups n = gs) (hts : ts.mapM group = some gs)
    (hne : ∀ g ∈ gs, g ≠ 0) (hword : a.word n ≠ 0) :
    a.insertGroup (ascii "[" ++ joined ts, false) n =
      (ascii "[" ++ joined (ts ++ [hexText 8 (a.groupAt n)]), false) := by
  rcases List.eq_nil_or_concat gs with rfl | ⟨front, g, rfl⟩
  · have hn : n = 0 := by
      rw [← a.length_groups n, hgs]
      rfl
    obtain rfl : ts = [] := by
      refine List.eq_nil_iff_forall_not_mem.mpr fun t ht => ?_
      obtain ⟨g, hg, -⟩ := Fallible.mem_mapM_of_mem hts t ht
      exact absurd hg List.not_mem_nil
    rw [insertGroup_next a _ (Or.inr hword) (Or.inr (Or.inl hn)), if_neg fun h0 => h0 hn,
      List.nil_append, joined_singleton]
    simp [joined]
  · rw [List.concat_eq_append] at hgs hne hts
    obtain ⟨hn, hlast⟩ := word_pred hgs
    have hg := hne g (List.mem_append_right _ List.mem_cons_self)
    have hts' : ts ≠ [] := by
      rintro rfl
      simp at hts
    exact insertGroup_joined hts' hn (Or.inr hword) (Or.inr fun h0 => hg (hlast.mp h0))

theorem Writing.step_plain (hgs : a.groups n = gs) (hts : ts.mapM group = some gs)
    (hne : ∀ g ∈ gs, g ≠ 0) :
    Writing (gs ++ [a.groupAt n]) (a.insertGroup (ascii "[" ++ joined ts, false) n) := by
  by_cases hzero : a.word n = 0
  · rw [insertGroup_skip a _ hzero, groupAt_eq_zero.mpr hzero]
    exact .zeros 0 hts
  · rw [insertGroup_plain hgs hts hne hzero]
    refine .plain (mapM_concat hts (a.groupAt_lt n)) fun g hg => ?_
    rcases List.mem_append.mp hg with hmem | hmem
    · exact hne g hmem
    · rw [List.mem_singleton.mp hmem]
      exact fun h0 => hzero (groupAt_eq_zero.mp h0)

theorem Writing.step_zeros (hgs : a.groups n = gs ++ List.replicate (k + 1) 0)
    (hts : ts.mapM group = some gs) :
    Writing (gs ++ List.replicate (k + 1) 0 ++ [a.groupAt n])
      (a.insertGroup (ascii "[" ++ joined ts, false) n) := by
  rw [List.replicate_succ', ← List.append_assoc] at hgs
  obtain ⟨hn, hlast⟩ := word_pred hgs
  by_cases hzero : a.word n = 0
  · rw [insertGroup_skip a _ hzero, groupAt_eq_zero.mpr hzero, List.append_assoc,
      ← List.replicate_succ']
    exact .zeros (k + 1) hts
  · rw [insertGroup_open a _ hzero hn (hlast.mpr rfl), List.append_assoc (ascii "["),
      ← joined_singleton (hexText 8 (a.groupAt n))]
    have hone : [hexText 8 (a.groupAt n)].mapM group = some [a.groupAt n] := by
      simp [group_hexText (a.groupAt_lt n)]
    exact .compressed k hts hone (List.cons_ne_nil _ _)

theorem Writing.step_compressed (hgs : a.groups n = gl ++ List.replicate (k + 1) 0 ++ gr)
    (hls : ls.mapM group = some gl) (hrs : rs.mapM group = some gr) (hne : rs ≠ []) :
    Writing (gl ++ List.replicate (k + 1) 0 ++ gr ++ [a.groupAt n])
      (a.insertGroup (ascii "[" ++ (joined ls ++ 58 :: 58 :: joined rs), true) n) := by
  have hn : n ≠ 0 := by
    rintro rfl
    have hlen := congrArg List.length hgs
    simp only [length_groups, List.length_append, List.length_replicate] at hlen
    omega
  have hassoc (rs : List Text) : ascii "[" ++ (joined ls ++ 58 :: 58 :: joined rs) =
      (ascii "[" ++ joined ls ++ [58, 58]) ++ joined rs := by simp
  rw [hassoc, insertGroup_joined hne hn (Or.inl rfl) (Or.inl rfl), ← hassoc, List.append_assoc]
  exact .compressed k hls (mapM_concat hrs (a.groupAt_lt n)) (by simp)

end Step

theorem Writing.step {a : IPv6Address} {n : Nat} {s : Text × Bool} (h : Writing (a.groups n) s) :
    Writing (a.groups (n + 1)) (a.insertGroup s n) := by
  rw [groups_succ]
  generalize hgs : a.groups n = gs at h
  cases h with
  | plain hts hne => exact .step_plain hgs hts hne
  | zeros k hts => exact .step_zeros hgs hts
  | compressed k hls hrs hne => exact .step_compressed hgs hls hrs hne

theorem Writing.run (a : IPv6Address) (n : Nat) :
    Writing (a.groups n) ((List.range n).foldl a.insertGroup (ascii "[", false)) := by
  induction n with
  | zero =>
      have hnil : ([] : List Text).mapM group = some [] := rfl
      exact .plain hnil fun g hg => absurd hg List.not_mem_nil
  | succ n ih =>
      rw [List.range_succ, List.foldl_append]
      exact ih.step

/-! ## The text -/

/-- Between the brackets is a form of the groups. -/
theorem insert_form (a : IPv6Address) :
    ∃ T, Form T (a.groups 8) ∧
      a.insert = ascii "[" ++ T ++ ascii "]:" ++ natDigits a.getPort.toNat := by
  have hrun := Writing.run a 8
  have hlen := a.length_groups 8
  have hseven : a.groups 8 = a.groups 7 ++ [a.groupAt 7] := a.groups_succ 7
  rw [insert]
  generalize a.groups 8 = gs at hrun hlen hseven
  generalize (List.range 8).foldl a.insertGroup (ascii "[", false) = s at hrun
  cases hrun with
  | @plain ts gs hts hne =>
      have hlast : a.word 7 ≠ 0 := by
        have hmem : a.groupAt 7 ∈ gs := by simp [hseven]
        exact fun h0 => hne _ hmem (groupAt_eq_zero.mpr h0)
      exact ⟨joined ts, .full hts hlen, by simp [hlast, getPort]⟩
  | @zeros ts gs k hts =>
      have hlast : a.word 7 = 0 := by
        rw [List.replicate_succ', ← List.append_assoc] at hseven
        exact groupAt_eq_zero.mp (List.singleton_inj.mp (List.append_inj' hseven rfl).2).symm
      simp only [List.length_append, List.length_replicate] at hlen
      have hnil : ([] : List Text).mapM group = some [] := rfl
      have hform := Form.compressed hts hnil (by rw [List.length_nil]; omega)
      rw [List.length_nil, Nat.add_zero, show 8 - gs.length = k + 1 by omega,
        List.append_nil] at hform
      refine ⟨_, hform, ?_⟩
      simp [hlast, getPort, joined, ascii]
  | @compressed ls rs gl gr k hls hrs hne =>
      simp only [List.length_append, List.length_replicate] at hlen
      have hform := Form.compressed hls hrs (by omega)
      rw [show 8 - (gl.length + gr.length) = k + 1 by omega] at hform
      exact ⟨_, hform, by simp [getPort]⟩

theorem bracket_not_mem {T : Text} {gs : List Nat} (h : Form T gs) : 93 ∉ T := by
  intro hmem
  rcases h.mem hmem with hcolon | hdigit
  · exact absurd hcolon (by decide)
  · exact absurd hdigit (by decide)

theorem natDigits_inj {m n : Nat} (h : natDigits m = natDigits n) : m = n := by
  rw [← Json.digitsValue_natDigits m, h, Json.digitsValue_natDigits]

/-- A text has one address and one port. -/
theorem insert_inj {inet_pton : Text → Option In6Addr} (h : Rfc4291 inet_pton)
    {a b : IPv6Address} (hab : b.insert = a.insert) :
    b.m_addr.s6_addr = a.m_addr.s6_addr ∧ b.getPort = a.getPort := by
  obtain ⟨T, hT, hinsert⟩ := a.insert_form
  obtain ⟨T', hT', hinsert'⟩ := b.insert_form
  have hport : (93 : UInt8) ∉ ascii ":" ++ natDigits a.getPort.toNat := by
    obtain ⟨c, t, -, hdigits⟩ := Json.natDigits_eq_cons a.getPort.toNat
    intro hmem
    rcases List.mem_append.mp hmem with hcolon | hdigit
    · exact absurd hcolon (by decide)
    · exact absurd (hdigits _ hdigit).2 (by decide)
  have hsplit : T ++ 93 :: (ascii ":" ++ natDigits a.getPort.toNat) =
      T' ++ 93 :: (ascii ":" ++ natDigits b.getPort.toNat) := by
    rw [hinsert, hinsert'] at hab
    simpa [ascii] using hab.symm
  obtain ⟨rfl, -, hdigits⟩ :=
    (List.append_cons_inj_of_notMem (bracket_not_mem hT) hport).mp hsplit
  constructor
  · have hread := (h T _ hT').symm.trans (h T _ hT)
    rwa [bytesOf_groups, bytesOf_groups, Option.some.injEq] at hread
  · have hnat := natDigits_inj (List.append_cancel_left hdigits)
    exact (UInt16.toNat_inj.mp hnat).symm

/-- The text of an address is read back as that address, and no other address has it. -/
theorem text_faithful {inet_pton : Text → Option In6Addr} (h : Rfc4291 inet_pton)
    (a : IPv6Address) :
    (∃ T gs, a.insert = ascii "[" ++ T ++ ascii "]:" ++ natDigits a.getPort.toNat ∧
      Form T gs ∧ doubles T ≤ 1 ∧ inet_pton T = some a.m_addr.s6_addr ∧
      ∀ port, ∃ b, Create inet_pton T port = some b ∧
        b.m_addr.s6_addr = a.m_addr.s6_addr ∧ b.getPort = port) ∧
      ∀ b : IPv6Address, b.insert = a.insert →
        b.m_addr.s6_addr = a.m_addr.s6_addr ∧ b.getPort = a.getPort := by
  obtain ⟨T, hT, hinsert⟩ := a.insert_form
  have hread : inet_pton T = some a.m_addr.s6_addr := by rw [h T _ hT, bytesOf_groups]
  refine ⟨⟨T, _, hinsert, hT, hT.doubles_le, hread, fun port => ?_⟩, fun b => insert_inj h⟩
  rw [Create, hread]
  exact ⟨_, rfl, rfl, byteswap16_byteswap16 port⟩

/-- `::1` with port 80. -/
def loopback : IPv6Address :=
  ⟨{ new.m_addr with sin6_port := byteswap16 80, s6_addr := bytesOf [0, 0, 0, 0, 0, 0, 0, 1] }⟩

theorem text_faithful_loopback :
    loopback.insert = ascii "[::1]:80" ∧
    (∃ T gs, loopback.insert = ascii "[" ++ T ++ ascii "]:" ++ natDigits loopback.getPort.toNat ∧
      Form T gs ∧ doubles T ≤ 1 ∧ (parse T).map bytesOf = some loopback.m_addr.s6_addr ∧
      ∀ port, ∃ b, Create (fun t => (parse t).map bytesOf) T port = some b ∧
        b.m_addr.s6_addr = loopback.m_addr.s6_addr ∧ b.getPort = port) ∧
      ∀ b : IPv6Address, b.insert = loopback.insert →
        b.m_addr.s6_addr = loopback.m_addr.s6_addr ∧ b.getPort = loopback.getPort :=
  ⟨by decide, text_faithful rfc4291_parse loopback⟩

end IPv6Address

end Muqiu
