import Mathlib.Data.List.Infix

/-!
# Texts cut at a delimiter

`cut d xs` is the text before the first occurrence of `d` in `xs` and the text behind it.  `pieces`
cuts at every occurrence, and `head` reads pieces up to the first empty one, which is how a header
of lines is read.  A delimiter that does not overlap with itself (`Unbordered`) is found where it
was put, as long as it does not occur in the piece before it.
-/

namespace Delimited

variable {α : Type*} {d xs ys : List α}

/-- The text before the first `d` and the text behind it. -/
def cut [DecidableEq α] (d : List α) : List α → Option (List α × List α)
  | [] => none
  | x :: xs =>
      if d <+: x :: xs then some ([], (x :: xs).drop d.length)
      else (cut d xs).map fun p => (x :: p.1, p.2)

/-- No proper end of `d` is a start of it. -/
def Unbordered (d : List α) : Prop := ∀ s t, s ≠ [] → t ≠ [] → d = s ++ t → ¬ t <+: d

theorem unbordered_singleton (x : α) : Unbordered [x] := by
  intro s t hs ht h
  have hlen := congrArg List.length h
  rw [List.length_singleton, List.length_append] at hlen
  have hspos := List.length_pos_iff.mpr hs
  have htpos := List.length_pos_iff.mpr ht
  omega

/-- A delimiter of two different elements. -/
theorem unbordered_pair {x y : α} (h : x ≠ y) : Unbordered [x, y] := by
  intro s t hs ht heq hpre
  cases s with
  | nil => exact hs rfl
  | cons a s =>
      cases s with
      | nil =>
          cases heq
          exact h ((List.cons_prefix_cons.mp hpre).1).symm
      | cons b s =>
          have hlen := congrArg List.length heq
          have htpos := List.length_pos_iff.mpr ht
          simp only [List.length_append, List.length_cons, List.length_nil] at hlen
          omega

/-- A delimiter that overlaps the end of a piece does not start in it. -/
theorem not_prefix_of_clean (hu : Unbordered d) {a b : List α} (ha : a ≠ []) (hclean : ¬ d <:+: a) :
    ¬ d <+: a ++ (d ++ b) := by
  intro hpre
  rcases Nat.le_total d.length a.length with hle | hle
  · exact hclean (List.prefix_of_prefix_length_le hpre (List.prefix_append a _) hle).isInfix
  · obtain ⟨t, ht⟩ := List.prefix_of_prefix_length_le (List.prefix_append a _) hpre hle
    have htpre : t <+: d ++ b := by
      rw [← ht] at hpre
      exact (List.prefix_append_right_inj a).mp (by rw [ht] at hpre ⊢; exact hpre)
    have hlen := congrArg List.length ht
    rw [List.length_append] at hlen
    by_cases hnil : t = []
    · rw [hnil, List.append_nil] at ht
      exact hclean (ht ▸ List.infix_rfl)
    · exact hu a t ha hnil ht.symm
        (List.prefix_of_prefix_length_le htpre (List.prefix_append d b) (by omega))

theorem prefix_across {x : α} (hx : x ∉ d) (h : d <+: xs ++ x :: ys) : d <+: xs := by
  rcases Nat.le_total d.length xs.length with hle | hle
  · exact List.prefix_of_prefix_length_le h (List.prefix_append xs _) hle
  · obtain ⟨t, ht⟩ := List.prefix_of_prefix_length_le (List.prefix_append xs _) h hle
    have htpre : t <+: x :: ys := by
      rw [← ht] at h
      exact (List.prefix_append_right_inj xs).mp h
    cases t with
    | nil =>
        rw [List.append_nil] at ht
        exact ht ▸ List.prefix_rfl
    | cons y t =>
        refine absurd ?_ hx
        rw [← ht, ← (List.cons_prefix_cons.mp htpre).1]
        exact List.mem_append_right _ List.mem_cons_self

/-- A delimiter does not reach across an element it does not have. -/
theorem infix_across {x : α} (hx : x ∉ d) :
    d <:+: xs ++ x :: ys ↔ d <:+: xs ∨ d <:+: ys := by
  constructor
  · intro h
    induction xs with
    | nil =>
        rcases List.infix_cons_iff.mp h with hpre | hin
        · have hnil : d <+: [] := prefix_across hx hpre
          exact Or.inl hnil.isInfix
        · exact Or.inr hin
    | cons a xs ih =>
        rcases List.infix_cons_iff.mp h with hpre | hin
        · have hcons : d <+: a :: xs := prefix_across hx hpre
          exact Or.inl hcons.isInfix
        · exact (ih hin).imp_left fun hin => List.infix_cons_iff.mpr (Or.inr hin)
  · rintro (hin | hin)
    · exact List.infix_append_of_infix_left hin
    · exact List.infix_append_of_infix_right (hin.trans (List.suffix_cons x ys).isInfix)

/-! ## One cut -/

/-- Every piece with a delimiter behind it. -/
def ended (d : List α) (ps : List (List α)) : List α := ps.flatMap (· ++ d)

theorem ended_cons (p : List α) (ps : List (List α)) :
    ended d (p :: ps) = p ++ (d ++ ended d ps) := by
  rw [ended, List.flatMap_cons, List.append_assoc]
  rfl

theorem ended_append (ps qs : List (List α)) :
    ended d (ps ++ qs) = ended d ps ++ ended d qs := List.flatMap_append

theorem length_le_ended (hd : d ≠ []) (ls : List (List α)) : ls.length ≤ (ended d ls).length := by
  induction ls with
  | nil => exact Nat.zero_le _
  | cons l ls ih =>
      have hpos := List.length_pos_iff.mpr hd
      rw [ended_cons, List.length_append, List.length_append, List.length_cons]
      omega

variable [DecidableEq α]

/-- A cut is at the first occurrence. -/
theorem cut_some {a b : List α} (hd : d ≠ []) :
    ∀ {xs : List α}, cut d xs = some (a, b) → xs = a ++ d ++ b ∧ ¬ d <:+: a := by
  intro xs
  induction xs generalizing a b with
  | nil => rintro ⟨⟩
  | cons x xs ih =>
      intro h
      rw [cut] at h
      split at h
      next hpre =>
        cases Option.some.inj h
        refine ⟨?_, fun hin => hd (List.infix_nil.mp hin)⟩
        obtain ⟨t, ht⟩ := hpre
        rw [← ht, List.nil_append, List.drop_left]
      next hpre =>
        obtain ⟨⟨a', b'⟩, hcut, heq⟩ := Option.map_eq_some_iff.mp h
        cases heq
        obtain ⟨hxs, hclean⟩ := ih hcut
        refine ⟨by rw [hxs]; rfl, fun hin => ?_⟩
        rcases List.infix_cons_iff.mp hin with hstart | hlater
        · refine hpre (hstart.trans ?_)
          rw [hxs, List.append_assoc]
          exact List.prefix_append (x :: a') (d ++ b')
        · exact hclean hlater

/-- A delimiter behind a piece without one is where the text is cut. -/
theorem cut_append (hd : d ≠ []) (hu : Unbordered d) (b : List α) :
    ∀ {a : List α}, ¬ d <:+: a → cut d (a ++ (d ++ b)) = some (a, b) := by
  intro a
  induction a with
  | nil =>
      intro _
      cases d with
      | nil => exact absurd rfl hd
      | cons y d =>
          rw [List.nil_append, List.cons_append, cut, ← List.cons_append,
            if_pos (List.prefix_append _ b), List.drop_left]
  | cons x a ih =>
      intro hclean
      have hrest : ¬ d <:+: a := fun hin => hclean (List.infix_cons_iff.mpr (Or.inr hin))
      have hpre := not_prefix_of_clean hu (b := b) (List.cons_ne_nil x a) hclean
      rw [List.cons_append] at hpre ⊢
      rw [cut, if_neg hpre, ih hrest]
      rfl

theorem cut_eq_none_iff (hd : d ≠ []) : ∀ {xs : List α}, cut d xs = none ↔ ¬ d <:+: xs := by
  intro xs
  induction xs with
  | nil => exact iff_of_true rfl fun hin => hd (List.infix_nil.mp hin)
  | cons x xs ih =>
      rw [List.infix_cons_iff, not_or, cut]
      split
      next hpre => exact iff_of_false (by rintro ⟨⟩) fun h => h.1 hpre
      next hpre => rw [Option.map_eq_none_iff, ih, and_iff_right hpre]

/-- A text is cut at the first occurrence of an element. -/
theorem cut_cons {x : α} {a : List α} (b : List α) (h : x ∉ a) :
    cut [x] (a ++ x :: b) = some (a, b) :=
  cut_append (List.cons_ne_nil x []) (unbordered_singleton x) b
    fun hin => h ((List.singleton_infix_iff x a).mp hin)

theorem cut_singleton_eq_none_iff {x : α} : cut [x] xs = none ↔ x ∉ xs := by
  rw [cut_eq_none_iff (List.cons_ne_nil x []), List.singleton_infix_iff]

/-- The text behind a cut is shorter. -/
theorem length_of_cut {a b : List α} (hd : d ≠ []) (h : cut d xs = some (a, b)) :
    b.length < xs.length := by
  obtain ⟨heq, -⟩ := cut_some hd h
  have hpos := List.length_pos_iff.mpr hd
  rw [heq, List.length_append, List.length_append]
  omega

/-- Splitting at an element leaves it in no piece. -/
theorem not_mem_of_mem_splitOn {x : α} : ∀ {xs p : List α}, p ∈ xs.splitOn x → x ∉ p := by
  intro xs
  induction xs with
  | nil =>
      intro p hp
      rw [List.splitOn_nil, List.mem_singleton] at hp
      exact hp ▸ List.not_mem_nil
  | cons y xs ih =>
      intro p hp
      rw [List.splitOn_cons_eq_if_modifyHead] at hp
      split at hp
      next =>
        rcases List.mem_cons.mp hp with rfl | hp
        · exact List.not_mem_nil
        · exact ih hp
      next hy =>
        obtain ⟨q, qs, hsplit⟩ := List.exists_cons_of_ne_nil (List.splitOn_ne_nil x xs)
        rw [hsplit, List.modifyHead_cons] at hp
        rcases List.mem_cons.mp hp with rfl | hp
        · intro hx
          rcases List.mem_cons.mp hx with heq | hx
          · exact hy (beq_iff_eq.mpr heq.symm)
          · exact ih (hsplit ▸ List.mem_cons_self) hx
        · exact ih (hsplit ▸ List.mem_cons_of_mem q hp)

/-! ## Pieces -/

/-- The texts between the delimiters, for a text of no more than so many elements. -/
def piecesIn (d : List α) : Nat → List α → List (List α)
  | 0, xs => [xs]
  | n + 1, xs =>
      match cut d xs with
      | none => [xs]
      | some (a, b) => a :: piecesIn d n b

/-- The texts between the delimiters. -/
def pieces (d xs : List α) : List (List α) := piecesIn d xs.length xs

theorem piecesIn_spec (hd : d ≠ []) : ∀ (n : Nat) {xs : List α}, xs.length ≤ n →
    ended d (piecesIn d n xs) = xs ++ d ∧ ∀ p ∈ piecesIn d n xs, ¬ d <:+: p
  | 0, xs, hlen => by
      rw [List.eq_nil_of_length_eq_zero (Nat.le_zero.mp hlen), piecesIn, ended_cons]
      refine ⟨by rw [ended, List.flatMap_nil, List.append_nil], fun p hp hin => hd ?_⟩
      rw [List.mem_singleton.mp hp] at hin
      exact List.infix_nil.mp hin
  | n + 1, xs, hlen => by
      rw [piecesIn]
      cases hcut : cut d xs with
      | none =>
          refine ⟨by rw [ended_cons, ended, List.flatMap_nil, List.append_nil], fun p hp => ?_⟩
          rw [List.mem_singleton.mp hp]
          exact (cut_eq_none_iff hd).mp hcut
      | some c =>
          obtain ⟨heq, hclean⟩ := cut_some hd hcut
          have hlt := length_of_cut hd hcut
          have hrest : c.2.length ≤ n := by omega
          obtain ⟨hended, hall⟩ := piecesIn_spec hd n hrest
          refine ⟨?_, List.forall_mem_cons.mpr ⟨hclean, hall⟩⟩
          rw [ended_cons, hended, heq, List.append_assoc, List.append_assoc]

theorem ended_pieces (hd : d ≠ []) (xs : List α) : ended d (pieces d xs) = xs ++ d :=
  (piecesIn_spec hd xs.length (Nat.le_refl _)).1

theorem clean_of_mem_pieces (hd : d ≠ []) {p : List α} (h : p ∈ pieces d xs) : ¬ d <:+: p :=
  (piecesIn_spec hd xs.length (Nat.le_refl _)).2 p h

theorem pieces_of_clean (hd : d ≠ []) (h : ¬ d <:+: xs) : pieces d xs = [xs] := by
  rw [pieces]
  cases hlen : xs.length with
  | zero => rfl
  | succ n => rw [piecesIn, (cut_eq_none_iff hd).mpr h]

theorem pieces_ne_nil (d xs : List α) : pieces d xs ≠ [] := by
  rw [pieces]
  cases xs.length with
  | zero => exact List.cons_ne_nil xs []
  | succ n =>
      rw [piecesIn]
      cases cut d xs with
      | none => exact List.cons_ne_nil xs []
      | some c => exact List.cons_ne_nil c.1 _

/-- Cutting up every text of a list leaves what is written with delimiters behind them. -/
theorem ended_flatMap_pieces (hd : d ≠ []) (ts : List (List α)) :
    ended d (ts.flatMap (pieces d)) = ended d ts := by
  induction ts with
  | nil => rfl
  | cons t ts ih =>
      rw [List.flatMap_cons, ended_append, ended_pieces hd, ih, ended_cons, List.append_assoc]

/-- Pieces without the delimiter are determined by what is written. -/
theorem ended_inj (hd : d ≠ []) (hu : Unbordered d) : ∀ {ps qs : List (List α)},
    (∀ p ∈ ps, ¬ d <:+: p) → (∀ q ∈ qs, ¬ d <:+: q) → ended d ps = ended d qs → ps = qs
  | [], [], _, _, _ => rfl
  | [], q :: qs, _, _, h => by
      rw [ended_cons] at h
      exact absurd (List.append_eq_nil_iff.mp (List.append_eq_nil_iff.mp h.symm).2).1 hd
  | p :: ps, [], _, _, h => by
      rw [ended_cons] at h
      exact absurd (List.append_eq_nil_iff.mp (List.append_eq_nil_iff.mp h).2).1 hd
  | p :: ps, q :: qs, hps, hqs, h => by
      obtain ⟨hp, hps'⟩ := List.forall_mem_cons.mp hps
      obtain ⟨hq, hqs'⟩ := List.forall_mem_cons.mp hqs
      rw [ended_cons, ended_cons] at h
      have hcut := cut_append hd hu (ended d ps) hp
      rw [h, cut_append hd hu (ended d qs) hq] at hcut
      obtain ⟨hhead, hrest⟩ := Prod.mk.inj (Option.some.inj hcut)
      rw [hhead, ended_inj hd hu hps' hqs' hrest.symm]

/-! ## The head of a text -/

/-- The pieces up to the first empty one, for no more than so many pieces, and the text behind. -/
def headIn (d : List α) : Nat → List α → Option (List (List α) × List α)
  | 0, _ => none
  | n + 1, xs =>
      match cut d xs with
      | none => none
      | some (a, b) =>
          if a.isEmpty then some ([], b) else (headIn d n b).map fun p => (a :: p.1, p.2)

/-- The pieces up to the first empty one, and the text behind it. -/
def head (d xs : List α) : Option (List (List α) × List α) := headIn d (xs.length + 1) xs

theorem headIn_some (hd : d ≠ []) : ∀ (n : Nat) {xs rest : List α} {ls : List (List α)},
    headIn d n xs = some (ls, rest) →
      xs = ended d ls ++ (d ++ rest) ∧ ∀ l ∈ ls, l ≠ [] ∧ ¬ d <:+: l
  | 0, _, _, _, h => by cases h
  | n + 1, xs, rest, ls, h => by
      rw [headIn] at h
      cases hcut : cut d xs with
      | none =>
          rw [hcut] at h
          cases h
      | some c =>
          rw [hcut] at h
          obtain ⟨heq, hclean⟩ := cut_some hd hcut
          simp only at h
          split at h
          next hempty =>
            cases Option.some.inj h
            rw [List.isEmpty_iff.mp hempty] at heq
            exact ⟨heq, fun l hl => by cases hl⟩
          next hne =>
            obtain ⟨⟨ls', rest'⟩, hhead, hpair⟩ := Option.map_eq_some_iff.mp h
            cases hpair
            obtain ⟨hrest, hall⟩ := headIn_some hd n hhead
            refine ⟨?_, List.forall_mem_cons.mpr ⟨⟨?_, hclean⟩, hall⟩⟩
            · rw [heq, hrest, ended_cons]
              simp only [List.append_assoc]
            · exact fun hnil => hne (List.isEmpty_iff.mpr hnil)

theorem headIn_ended (hd : d ≠ []) (hu : Unbordered d) (rest : List α) :
    ∀ {ls : List (List α)} {n : Nat}, (∀ l ∈ ls, l ≠ [] ∧ ¬ d <:+: l) → ls.length < n →
      headIn d n (ended d ls ++ (d ++ rest)) = some (ls, rest)
  | _, 0, _, hlen => by omega
  | [], n + 1, _, _ => by
      have hcut : cut d ([] ++ (d ++ rest)) = some ([], rest) :=
        cut_append hd hu rest fun hin => hd (List.infix_nil.mp hin)
      rw [headIn, ended, List.flatMap_nil, hcut]
      rfl
  | l :: ls, n + 1, hls, hlen => by
      obtain ⟨⟨hne, hclean⟩, hrest⟩ := List.forall_mem_cons.mp hls
      rw [List.length_cons] at hlen
      have hcut := cut_append hd hu (ended d ls ++ (d ++ rest)) hclean
      rw [headIn, ended_cons, List.append_assoc, List.append_assoc, hcut]
      simp only
      rw [if_neg (fun hempty => hne (List.isEmpty_iff.mp hempty)),
        headIn_ended hd hu rest hrest (Nat.lt_of_succ_lt_succ hlen)]
      rfl

/-- The head of a text is what the text starts with, as pieces that are not empty and do not have
the delimiter. -/
theorem head_eq_some_iff (hd : d ≠ []) (hu : Unbordered d) {rest : List α} {ls : List (List α)} :
    head d xs = some (ls, rest) ↔
      xs = ended d ls ++ (d ++ rest) ∧ ∀ l ∈ ls, l ≠ [] ∧ ¬ d <:+: l := by
  constructor
  · exact headIn_some hd _
  · rintro ⟨rfl, hls⟩
    have hlen := length_le_ended hd ls
    refine headIn_ended hd hu rest hls ?_
    rw [List.length_append]
    omega

end Delimited
