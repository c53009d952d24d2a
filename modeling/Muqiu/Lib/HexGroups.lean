import Mathlib.Data.List.Basic
import Muqiu.Lib.Fallible
import Muqiu.Lib.Words

/-!
# Groups of hexadecimal digits

The text forms of a list of eight 16-bit groups that RFC 4291 gives for an address of 128 bits.
The groups are written with one to four hexadecimal digits each and a colon between two of them;
one run of zero groups may be left out, and two colons stand where it was (`Form`).

`parse` reads both forms (`parse_of_form`), so a text denotes one list of groups.
-/

namespace HexGroups

/-! ## Digits -/

/-- A digit, in lower case. -/
def digit (d : Nat) : UInt8 := if d < 10 then UInt8.ofNat (48 + d) else UInt8.ofNat (87 + d)

/-- The value of a hexadecimal digit. -/
def digitValue (b : UInt8) : Option Nat :=
  if 48 ≤ b ∧ b ≤ 57 then some (b.toNat - 48)
  else if 97 ≤ b ∧ b ≤ 102 then some (b.toNat - 87)
  else if 65 ≤ b ∧ b ≤ 70 then some (b.toNat - 55)
  else none

/-- A number without leading zeros, in no more digits than the bound. -/
def hexText : Nat → Nat → List UInt8
  | 0, _ => []
  | fuel + 1, n => if n < 16 then [digit n] else hexText fuel (n / 16) ++ [digit (n % 16)]

/-- The number some digits stand for. -/
def value (t : List UInt8) : Option Nat :=
  t.foldlM (fun v b => (digitValue b).map fun d => 16 * v + d) 0

/-- A group of one to four digits. -/
def group (t : List UInt8) : Option Nat := if 1 ≤ t.length ∧ t.length ≤ 4 then value t else none

/-! ## Forms -/

/-- The texts of some groups with a colon between two of them. -/
def joined (ts : List (List UInt8)) : List UInt8 := List.intercalate [58] ts

/-- A text is a form of eight groups. -/
inductive Form : List UInt8 → List Nat → Prop where
  | full {ts : List (List UInt8)} {gs : List Nat} :
      ts.mapM group = some gs → gs.length = 8 → Form (joined ts) gs
  | compressed {ls rs : List (List UInt8)} {gl gr : List Nat} :
      ls.mapM group = some gl → rs.mapM group = some gr → gl.length + gr.length < 8 →
      Form (joined ls ++ 58 :: 58 :: joined rs)
        (gl ++ List.replicate (8 - (gl.length + gr.length)) 0 ++ gr)

/-- The number of places with two colons. -/
def doubles : List UInt8 → Nat
  | [] => 0
  | b :: t => (if b = 58 ∧ t.head? = some 58 then 1 else 0) + doubles t

/-- What is before the first two colons, and what is behind them. -/
def cutDouble : List UInt8 → Option (List UInt8 × List UInt8)
  | [] => none
  | b :: t =>
      if b = 58 ∧ t.head? = some 58 then some ([], t.tail)
      else (cutDouble t).map fun r => (b :: r.1, r.2)

/-- The groups on one side of the two colons. -/
def side (t : List UInt8) : Option (List Nat) :=
  if t = [] then some [] else (t.splitOn 58).mapM group

/-- Eight groups, with zeros in the place of a double colon. -/
def parse (t : List UInt8) : Option (List Nat) :=
  match cutDouble t with
  | none => (side t).bind fun gs => if gs.length = 8 then some gs else none
  | some (l, r) =>
      (side l).bind fun gl =>
        (side r).bind fun gr =>
          if gl.length + gr.length < 8 then
            some (gl ++ List.replicate (8 - (gl.length + gr.length)) 0 ++ gr)
          else none

/-! ## Digits read back -/

theorem digitValue_digit {d : Nat} (h : d < 16) : digitValue (digit d) = some d := by
  have hall : ∀ d : Fin 16, digitValue (digit d.val) = some d.val := by decide
  exact hall ⟨d, h⟩

theorem value_append (t u : List UInt8) :
    value (t ++ u) =
      (value t).bind fun v => u.foldlM (fun v b => (digitValue b).map fun d => 16 * v + d) v :=
  List.foldlM_append

/-- A number below `16 ^ k` is written in `k` digits at most, and one at least. -/
theorem hexText_spec {fuel n : Nat} :
    ∀ {k : Nat}, k < fuel → n < 16 ^ (k + 1) →
      value (hexText fuel n) = some n ∧ 1 ≤ (hexText fuel n).length ∧
        (hexText fuel n).length ≤ k + 1 := by
  induction fuel generalizing n with
  | zero => exact fun hk _ => absurd hk (Nat.not_lt_zero _)
  | succ fuel ih =>
      intro k hk hn
      rw [hexText]
      by_cases hsmall : n < 16
      · rw [if_pos hsmall]
        refine ⟨?_, Nat.le_refl _, Nat.le_add_left 1 k⟩
        simp [value, digitValue_digit hsmall]
      · rw [if_neg hsmall]
        match k with
        | 0 => exact absurd (by simpa using hn) hsmall
        | k + 1 =>
            have hdiv : n / 16 < 16 ^ (k + 1) := by
              rw [Nat.pow_succ] at hn
              exact Nat.div_lt_of_lt_mul (by rwa [Nat.mul_comm])
            obtain ⟨hvalue, hpos, hle⟩ := ih (Nat.lt_of_succ_lt_succ hk) hdiv
            refine ⟨?_, ?_, ?_⟩
            · rw [value_append, hvalue]
              simp [digitValue_digit (Nat.mod_lt n (by decide)), Nat.div_add_mod]
            · rw [List.length_append]
              exact Nat.le_add_right_of_le hpos
            · rw [List.length_append, List.length_singleton]
              exact Nat.succ_le_succ hle

/-- A 16-bit number is written as a group. -/
theorem group_hexText {n : Nat} (h : n < 65536) : group (hexText 8 n) = some n := by
  obtain ⟨hvalue, hpos, hle⟩ := hexText_spec (show 3 < 8 by decide) h
  rw [group, if_pos ⟨hpos, hle⟩, hvalue]

theorem digits_of_foldlM {t : List UInt8} {v w : Nat}
    (h : t.foldlM (fun v b => (digitValue b).map fun d => 16 * v + d) v = some w) :
    ∀ b ∈ t, (digitValue b).isSome = true := by
  induction t generalizing v with
  | nil => exact fun b hb => absurd hb List.not_mem_nil
  | cons a t ih =>
      rw [List.foldlM_cons] at h
      obtain ⟨v', ha, ht⟩ := Option.bind_eq_some_iff.mp h
      obtain ⟨d, hd, -⟩ := Option.map_eq_some_iff.mp ha
      intro b hb
      rcases List.mem_cons.mp hb with rfl | hmem
      · rw [hd]
        rfl
      · exact ih ht b hmem

/-- Texts of digits that are not empty. -/
def Plain (ts : List (List UInt8)) : Prop :=
  ∀ t ∈ ts, t ≠ [] ∧ ∀ b ∈ t, (digitValue b).isSome = true

theorem not_colon {t : List UInt8} (h : ∀ b ∈ t, (digitValue b).isSome = true) : 58 ∉ t :=
  fun hmem => absurd (h 58 hmem) (by decide)

theorem plain_of_group {ts : List (List UInt8)} {gs : List Nat} (h : ts.mapM group = some gs) :
    Plain ts := by
  intro t ht
  obtain ⟨g, -, hg⟩ := Fallible.mem_mapM_of_mem h t ht
  rw [group, Option.ite_none_right_eq_some] at hg
  obtain ⟨hlen, hvalue⟩ := hg
  exact ⟨List.ne_nil_of_length_pos hlen.1, digits_of_foldlM hvalue⟩

/-! ## Colons -/

section Colons

variable {t u : List UInt8} {ts : List (List UInt8)}

theorem joined_cons (h : ts ≠ []) (t : List UInt8) : joined (t :: ts) = t ++ 58 :: joined ts := by
  obtain ⟨t', ts, rfl⟩ := List.exists_cons_of_ne_nil h
  rw [joined, List.intercalate_cons_cons, List.append_assoc]
  rfl

theorem joined_singleton (t : List UInt8) : joined [t] = t := List.intercalate_singleton ..

/-- Groups behind groups that are there already. -/
theorem joined_concat (h : ts ≠ []) (t : List UInt8) :
    joined (ts ++ [t]) = joined ts ++ 58 :: t := by
  induction ts with
  | nil => exact absurd rfl h
  | cons t' ts ih =>
      by_cases hts : ts = []
      · subst hts
        rw [List.singleton_append, joined_cons (List.cons_ne_nil _ _), joined_singleton,
          joined_singleton]
      · rw [List.cons_append, joined_cons (by simp), ih hts, joined_cons hts, List.append_assoc,
          List.cons_append]

theorem head?_joined (h : Plain ts) : (joined ts).head? ≠ some 58 := by
  cases ts with
  | nil => exact fun h => by cases h
  | cons t ts =>
      obtain ⟨hne, hdigits⟩ := h t List.mem_cons_self
      obtain ⟨b, t, rfl⟩ := List.exists_cons_of_ne_nil hne
      have hhead : (joined ((b :: t) :: ts)).head? = some b := by
        by_cases hts : ts = []
        · rw [hts, joined_singleton]
          rfl
        · rw [joined_cons hts]
          rfl
      rw [hhead, Ne, Option.some.injEq]
      rintro rfl
      exact not_colon hdigits List.mem_cons_self

theorem joined_ne_nil (h : Plain ts) (hts : ts ≠ []) : joined ts ≠ [] := by
  obtain ⟨t, ts, rfl⟩ := List.exists_cons_of_ne_nil hts
  have hne := (h t List.mem_cons_self).1
  by_cases hts : ts = []
  · rwa [hts, joined_singleton]
  · rw [joined_cons hts]
    exact List.append_ne_nil_of_left_ne_nil hne _

theorem doubles_append (h : 58 ∉ t) (u : List UInt8) : doubles (t ++ u) = doubles u := by
  induction t with
  | nil => rfl
  | cons b t ih =>
      rw [List.mem_cons, not_or] at h
      rw [List.cons_append, doubles, if_neg fun hb => h.1 hb.1.symm, ih h.2, Nat.zero_add]

theorem doubles_colon (h : u.head? ≠ some 58) : doubles (58 :: u) = doubles u := by
  rw [doubles, if_neg fun hu => h hu.2, Nat.zero_add]

theorem cutDouble_append (h : 58 ∉ t) (u : List UInt8) :
    cutDouble (t ++ u) = (cutDouble u).map fun r => (t ++ r.1, r.2) := by
  induction t with
  | nil =>
      rw [List.nil_append]
      cases cutDouble u <;> rfl
  | cons b t ih =>
      rw [List.mem_cons, not_or] at h
      rw [List.cons_append, cutDouble, if_neg fun hb => h.1 hb.1.symm, ih h.2, Option.map_map]
      rfl

theorem cutDouble_colon (h : u.head? ≠ some 58) :
    cutDouble (58 :: u) = (cutDouble u).map fun r => (58 :: r.1, r.2) := by
  rw [cutDouble, if_neg fun hu => h hu.2]

theorem doubles_joined (h : Plain ts) : doubles (joined ts) = 0 := by
  induction ts with
  | nil => rfl
  | cons t ts ih =>
      have hts : Plain ts := fun u hu => h u (List.mem_cons_of_mem t hu)
      have ht := not_colon (h t List.mem_cons_self).2
      by_cases hnil : ts = []
      · rw [hnil, joined_singleton, ← List.append_nil t, doubles_append ht]
        rfl
      · rw [joined_cons hnil, doubles_append ht, doubles_colon (head?_joined hts), ih hts]

theorem cutDouble_joined (h : Plain ts) : cutDouble (joined ts) = none := by
  induction ts with
  | nil => rfl
  | cons t ts ih =>
      have hts : Plain ts := fun u hu => h u (List.mem_cons_of_mem t hu)
      have ht := not_colon (h t List.mem_cons_self).2
      by_cases hnil : ts = []
      · rw [hnil, joined_singleton, ← List.append_nil t, cutDouble_append ht]
        rfl
      · rw [joined_cons hnil, cutDouble_append ht, cutDouble_colon (head?_joined hts), ih hts]
        rfl

theorem head?_joined_append (h : Plain ts) (hts : ts ≠ []) (u : List UInt8) :
    (joined ts ++ u).head? ≠ some 58 := by
  rw [List.head?_append_of_ne_nil _ (joined_ne_nil h hts)]
  exact head?_joined h

/-- The first two colons are those behind the groups. -/
theorem cutDouble_joined_append (h : Plain ts) (u : List UInt8) :
    cutDouble (joined ts ++ 58 :: 58 :: u) = some (joined ts, u) := by
  induction ts with
  | nil => rfl
  | cons t ts ih =>
      have hts : Plain ts := fun u hu => h u (List.mem_cons_of_mem t hu)
      have ht := not_colon (h t List.mem_cons_self).2
      by_cases hnil : ts = []
      · rw [hnil, joined_singleton, cutDouble_append ht]
        simp [cutDouble]
      · rw [joined_cons hnil, List.append_assoc, cutDouble_append ht, List.cons_append,
          cutDouble_colon (head?_joined_append hts hnil _), ih hts]
        rfl

theorem doubles_joined_append (h : Plain ts) {u : List UInt8} (hu : u.head? ≠ some 58) :
    doubles (joined ts ++ 58 :: 58 :: u) = 1 + doubles u := by
  have hnil : doubles (58 :: 58 :: u) = 1 + doubles u := by
    rw [doubles, if_pos ⟨rfl, rfl⟩, doubles_colon hu]
  induction ts with
  | nil => exact hnil
  | cons t ts ih =>
      have hts : Plain ts := fun u hu => h u (List.mem_cons_of_mem t hu)
      have ht := not_colon (h t List.mem_cons_self).2
      by_cases hempty : ts = []
      · rw [hempty, joined_singleton, doubles_append ht, hnil]
      · rw [joined_cons hempty, List.append_assoc, doubles_append ht, List.cons_append,
          doubles_colon (head?_joined_append hts hempty _), ih hts]

end Colons

/-! ## Reading a form -/

theorem side_joined {ts : List (List UInt8)} (h : Plain ts) : side (joined ts) = ts.mapM group := by
  by_cases hts : ts = []
  · rw [hts]
    rfl
  · have hsplit : (joined ts).splitOn 58 = ts :=
      List.splitOn_intercalate 58 (fun t ht => not_colon (h t ht).2) hts
    rw [side, if_neg (joined_ne_nil h hts), hsplit]

theorem parse_of_form {t : List UInt8} {gs : List Nat} (h : Form t gs) : parse t = some gs := by
  cases h with
  | @full ts gs hts hlen =>
      have hplain := plain_of_group hts
      rw [parse, cutDouble_joined hplain]
      dsimp only
      rw [side_joined hplain, hts, Option.bind_some, if_pos hlen]
  | compressed hls hrs hlen =>
      have hl := plain_of_group hls
      have hr := plain_of_group hrs
      rw [parse, cutDouble_joined_append hl]
      dsimp only
      rw [side_joined hl, side_joined hr, hls, hrs, Option.bind_some, Option.bind_some,
        if_pos hlen]

/-- Two colons stand in one place at most. -/
theorem Form.doubles_le {t : List UInt8} {gs : List Nat} (h : Form t gs) : doubles t ≤ 1 := by
  cases h with
  | full hts _ =>
      rw [doubles_joined (plain_of_group hts)]
      exact Nat.zero_le 1
  | compressed hls hrs _ =>
      have hr := plain_of_group hrs
      rw [doubles_joined_append (plain_of_group hls) (head?_joined hr), doubles_joined hr]

theorem mem_joined {ts : List (List UInt8)} (h : Plain ts) {b : UInt8} (hb : b ∈ joined ts) :
    b = 58 ∨ (digitValue b).isSome = true := by
  induction ts with
  | nil => exact absurd hb List.not_mem_nil
  | cons t ts ih =>
      have ht := (h t List.mem_cons_self).2
      by_cases hts : ts = []
      · rw [hts, joined_singleton] at hb
        exact Or.inr (ht b hb)
      · rw [joined_cons hts, List.mem_append, List.mem_cons] at hb
        rcases hb with hmem | rfl | hmem
        · exact Or.inr (ht b hmem)
        · exact Or.inl rfl
        · exact ih (fun u hu => h u (List.mem_cons_of_mem t hu)) hmem

/-- A form has colons and digits only. -/
theorem Form.mem {t : List UInt8} {gs : List Nat} (h : Form t gs) {b : UInt8} (hb : b ∈ t) :
    b = 58 ∨ (digitValue b).isSome = true := by
  cases h with
  | full hts _ => exact mem_joined (plain_of_group hts) hb
  | compressed hls hrs _ =>
      rw [List.mem_append, List.mem_cons, List.mem_cons] at hb
      rcases hb with hmem | rfl | rfl | hmem
      · exact mem_joined (plain_of_group hls) hmem
      · exact Or.inl rfl
      · exact Or.inl rfl
      · exact mem_joined (plain_of_group hrs) hmem

end HexGroups
