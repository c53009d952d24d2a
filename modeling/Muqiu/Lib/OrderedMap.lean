import Mathlib.Data.Set.Basic

/-!
# Ordered maps over a comparator

An ordered map finds its keys with a comparator, and two keys are one to it when neither is
below the other.  `Ops` is the interface, with the map type abstract.  `Correct` says what
such a map promises: over any set of keys on which the comparator is a strict weak order,
updates and lookups obey the laws of a finite map up to equivalence, and an iteration gives
every key once.  Nothing is promised over keys on which the comparator is no such order.

A history of updates is a list, newest first.  `lastSet` is what a finite map should hold
after it, and `find_replay` says that a correct map holds that.  `assoc` is a correct map:
an association list in the order of the comparator.
-/

namespace OrderedMap

variable {κ ν μ : Type*}

/-- The comparator is a strict weak order on a set of keys. -/
structure StrictWeakOrderOn (less : κ → κ → Bool) (K : Set κ) : Prop where
  irrefl : ∀ a ∈ K, less a a = false
  asymm : ∀ a ∈ K, ∀ b ∈ K, less a b = true → less b a = false
  trans : ∀ a ∈ K, ∀ b ∈ K, ∀ c ∈ K, less a b = true → less b c = true → less a c = true
  incomp_trans : ∀ a ∈ K, ∀ b ∈ K, ∀ c ∈ K, less a b = false → less b a = false →
    less b c = false → less c b = false → less a c = false ∧ less c a = false

/-- Neither key is below the other. -/
def equiv (less : κ → κ → Bool) (a b : κ) : Bool := !less a b && !less b a

theorem equiv_iff {less : κ → κ → Bool} {a b : κ} :
    equiv less a b = true ↔ less a b = false ∧ less b a = false := by
  simp [equiv]

theorem equiv_comm {less : κ → κ → Bool} (a b : κ) : equiv less a b = equiv less b a := by
  rw [equiv, equiv, Bool.and_comm]

/-- The operations of a map: `m[k] = v`, `erase(k)`, `find(k)` and the entries in the order
of an iteration. -/
structure Ops (κ ν μ : Type*) where
  empty : μ
  set : κ → ν → μ → μ
  erase : κ → μ → μ
  find : κ → μ → Option ν
  toList : μ → List (κ × ν)

/-- An update of a map. -/
inductive Update (κ ν : Type*) where
  | set (k : κ) (v : ν)
  | erase (k : κ)
deriving DecidableEq, Repr

/-- The key it is about. -/
def Update.key : Update κ ν → κ
  | .set k _ => k
  | .erase k => k

namespace Ops

/-- The map after an update. -/
def apply (M : Ops κ ν μ) (m : μ) : Update κ ν → μ
  | .set k v => M.set k v m
  | .erase k => M.erase k m

/-- The map after a history. -/
def replay (M : Ops κ ν μ) : List (Update κ ν) → μ
  | [] => M.empty
  | u :: us => M.apply (M.replay us) u

end Ops

/-- The history only names keys of `K`. -/
def Over (K : Set κ) (us : List (Update κ ν)) : Prop := ∀ u ∈ us, u.key ∈ K

/-- What a map promises over keys on which its comparator is a strict weak order. -/
structure Lawful (M : Ops κ ν μ) (less : κ → κ → Bool) (K : Set κ) : Prop where
  find_empty : ∀ k ∈ K, M.find k M.empty = none
  find_set : ∀ us, Over K us → ∀ k ∈ K, ∀ k' ∈ K, ∀ v,
    M.find k (M.set k' v (M.replay us)) =
      if equiv less k k' then some v else M.find k (M.replay us)
  find_erase : ∀ us, Over K us → ∀ k ∈ K, ∀ k' ∈ K,
    M.find k (M.erase k' (M.replay us)) =
      if equiv less k k' then none else M.find k (M.replay us)
  /-- The entries have keys of the history, in the order of the comparator. -/
  sorted : ∀ us, Over K us →
    (M.toList (M.replay us)).Pairwise fun a b => less a.1 b.1 = true
  keys : ∀ us, Over K us → ∀ e ∈ M.toList (M.replay us), e.1 ∈ K
  mem_toList : ∀ us, Over K us → ∀ k ∈ K, ∀ v,
    (∃ k', (k', v) ∈ M.toList (M.replay us) ∧ equiv less k k' = true) ↔
      M.find k (M.replay us) = some v

/-- The map is an ordered map wherever its comparator is a strict weak order. -/
def Correct (M : Ops κ ν μ) (less : κ → κ → Bool) : Prop :=
  ∀ K : Set κ, StrictWeakOrderOn less K → Lawful M less K

/-- What a history leaves under a key, `same` telling which keys are one. -/
def lastSet (same : κ → κ → Bool) : List (Update κ ν) → κ → Option ν
  | [], _ => none
  | .set k' v :: us, k => if same k k' then some v else lastSet same us k
  | .erase k' :: us, k => if same k k' then none else lastSet same us k

theorem Over.cons {K : Set κ} {u : Update κ ν} {us : List (Update κ ν)} :
    Over K (u :: us) ↔ u.key ∈ K ∧ Over K us := by
  simp [Over]

/-- Two notions of one key that agree on the keys of the history leave the same. -/
theorem lastSet_congr {same same' : κ → κ → Bool} {K : Set κ}
    (h : ∀ a ∈ K, ∀ b ∈ K, same a b = same' a b) {k : κ} (hk : k ∈ K) :
    ∀ {us : List (Update κ ν)}, Over K us → lastSet same us k = lastSet same' us k
  | [], _ => rfl
  | .set k' v :: us, hus => by
      obtain ⟨hk', hus'⟩ := Over.cons.mp hus
      rw [lastSet, lastSet, h k hk k' hk', lastSet_congr h hk hus']
  | .erase k' :: us, hus => by
      obtain ⟨hk', hus'⟩ := Over.cons.mp hus
      rw [lastSet, lastSet, h k hk k' hk', lastSet_congr h hk hus']

/-- A correct map holds what the history leaves. -/
theorem Lawful.find_replay {M : Ops κ ν μ} {less : κ → κ → Bool} {K : Set κ}
    (h : Lawful M less K) {k : κ} (hk : k ∈ K) :
    ∀ {us : List (Update κ ν)}, Over K us →
      M.find k (M.replay us) = lastSet (equiv less) us k
  | [], _ => h.find_empty k hk
  | .set k' v :: us, hus => by
      obtain ⟨hk', hus'⟩ := Over.cons.mp hus
      rw [lastSet, ← h.find_replay hk hus']
      exact h.find_set us hus' k hk k' hk' v
  | .erase k' :: us, hus => by
      obtain ⟨hk', hus'⟩ := Over.cons.mp hus
      rw [lastSet, ← h.find_replay hk hus']
      exact h.find_erase us hus' k hk k' hk'

/-! ## Strict weak orders -/

namespace StrictWeakOrderOn

variable {less : κ → κ → Bool} {K : Set κ}

theorem less_of_less_of_equiv (h : StrictWeakOrderOn less K) {a b c : κ} (ha : a ∈ K)
    (hb : b ∈ K) (hc : c ∈ K) (hab : less a b = true) (hbc : equiv less b c = true) :
    less a c = true := by
  obtain ⟨hbc, hcb⟩ := equiv_iff.mp hbc
  cases hac : less a c with
  | true => rfl
  | false =>
      cases hca : less c a with
      | true =>
          have := h.trans c hc a ha b hb hca hab
          rw [hcb] at this
          simp at this
      | false =>
          have := (h.incomp_trans a ha c hc b hb hac hca hcb hbc).1
          rw [hab] at this
          simp at this

theorem less_of_equiv_of_less (h : StrictWeakOrderOn less K) {a b c : κ} (ha : a ∈ K)
    (hb : b ∈ K) (hc : c ∈ K) (hab : equiv less a b = true) (hbc : less b c = true) :
    less a c = true := by
  obtain ⟨hab, hba⟩ := equiv_iff.mp hab
  cases hac : less a c with
  | true => rfl
  | false =>
      cases hca : less c a with
      | true =>
          have := h.trans b hb c hc a ha hbc hca
          rw [hba] at this
          simp at this
      | false =>
          have := (h.incomp_trans b hb a ha c hc hba hab hac hca).1
          rw [hbc] at this
          simp at this

/-- What is not above something smaller is smaller. -/
theorem less_of_not_less_of_less (h : StrictWeakOrderOn less K) {a b c : κ} (ha : a ∈ K)
    (hb : b ∈ K) (hc : c ∈ K) (hba : ¬less b a = true) (hbc : less b c = true) :
    less a c = true := by
  rw [Bool.not_eq_true] at hba
  cases hab : less a b with
  | true => exact h.trans a ha b hb c hc hab hbc
  | false => exact h.less_of_equiv_of_less ha hb hc (equiv_iff.mpr ⟨hab, hba⟩) hbc

theorem equiv_trans (h : StrictWeakOrderOn less K) {a b c : κ} (ha : a ∈ K) (hb : b ∈ K)
    (hc : c ∈ K) (hab : equiv less a b = true) (hbc : equiv less b c = true) :
    equiv less a c = true := by
  obtain ⟨hab, hba⟩ := equiv_iff.mp hab
  obtain ⟨hbc, hcb⟩ := equiv_iff.mp hbc
  exact equiv_iff.mpr (h.incomp_trans a ha b hb c hc hab hba hbc hcb)

theorem not_equiv_of_less {a b : κ} (hab : less a b = true) : equiv less a b = false := by
  simp [equiv, hab]

theorem not_equiv_of_less' {a b : κ} (hba : less b a = true) : equiv less a b = false := by
  simp [equiv, hba]

end StrictWeakOrderOn

/-- Every key that is present is the key of one entry of an iteration. -/
theorem Lawful.countP_toList {M : Ops κ ν μ} {less : κ → κ → Bool} {K : Set κ}
    (h : Lawful M less K) (hord : StrictWeakOrderOn less K) {us : List (Update κ ν)}
    (hus : Over K us) {k : κ} (hk : k ∈ K) :
    (M.toList (M.replay us)).countP (fun e => equiv less k e.1) =
      if (M.find k (M.replay us)).isSome then 1 else 0 := by
  have hmem := h.mem_toList us hus k hk
  have hkeys := h.keys us hus
  have hle : ∀ es : List (κ × ν), es.Pairwise (fun a b => less a.1 b.1 = true) →
      (∀ e ∈ es, e.1 ∈ K) → es.countP (fun e => equiv less k e.1) ≤ 1 := by
    intro es
    induction es with
    | nil => simp
    | cons e es ih =>
        intro hs hK
        obtain ⟨hhead, htail⟩ := List.pairwise_cons.mp hs
        have heK := hK e List.mem_cons_self
        rw [List.countP_cons]
        cases heq : equiv less k e.1 with
        | false =>
            have := ih htail fun e' he' => hK e' (List.mem_cons_of_mem _ he')
            simpa using this
        | true =>
            have hzero : es.countP (fun e => equiv less k e.1) = 0 := by
              rw [List.countP_eq_zero]
              intro e' he' heq'
              have he'K := hK e' (List.mem_cons_of_mem _ he')
              have hee := hord.equiv_trans heK hk he'K (by rw [equiv_comm]; exact heq) heq'
              rw [StrictWeakOrderOn.not_equiv_of_less (hhead e' he')] at hee
              simp at hee
            rw [hzero]
            simp
  have hone := hle _ (h.sorted us hus) hkeys
  cases hf : M.find k (M.replay us) with
  | none =>
      simp only [Option.isSome_none, Bool.false_eq_true, if_false]
      rw [List.countP_eq_zero]
      rintro ⟨k', v⟩ he heq
      have := (hmem v).mp ⟨k', he, heq⟩
      rw [hf] at this
      simp at this
  | some v =>
      obtain ⟨k', he, heq⟩ := (hmem v).mpr hf
      have hpos := List.countP_pos_iff (p := fun e : κ × ν => equiv less k e.1).mpr
        ⟨(k', v), he, heq⟩
      simp only [Option.isSome_some, if_true]
      omega

/-! ## Association lists -/

/-- Set a key in an association list in the order of the comparator. -/
def assocSet (less : κ → κ → Bool) (k : κ) (v : ν) : List (κ × ν) → List (κ × ν)
  | [] => [(k, v)]
  | e :: es =>
      if less e.1 k then e :: assocSet less k v es
      else if less k e.1 then (k, v) :: e :: es
      else (e.1, v) :: es

/-- Without an entry of the key, in a list in the order of the comparator. -/
def assocErase (less : κ → κ → Bool) (k : κ) : List (κ × ν) → List (κ × ν)
  | [] => []
  | e :: es =>
      if less e.1 k then e :: assocErase less k es
      else if less k e.1 then e :: es
      else es

/-- The value of the key, in a list in the order of the comparator. -/
def assocFind (less : κ → κ → Bool) (k : κ) : List (κ × ν) → Option ν
  | [] => none
  | e :: es =>
      if less e.1 k then assocFind less k es else if less k e.1 then none else some e.2

/-- The association list as a map. -/
def assoc (κ ν : Type*) (less : κ → κ → Bool) : Ops κ ν (List (κ × ν)) where
  empty := []
  set := assocSet less
  erase := assocErase less
  find := assocFind less
  toList := id

/-- The keys are in `K` and in the order of the comparator. -/
structure AssocOk (less : κ → κ → Bool) (K : Set κ) (es : List (κ × ν)) : Prop where
  keys : ∀ e ∈ es, e.1 ∈ K
  sorted : es.Pairwise fun a b => less a.1 b.1 = true

theorem AssocOk.tail {less : κ → κ → Bool} {K : Set κ} {e : κ × ν} {es : List (κ × ν)}
    (h : AssocOk less K (e :: es)) : AssocOk less K es :=
  ⟨fun e' he' => h.keys e' (List.mem_cons_of_mem _ he'), (List.pairwise_cons.mp h.sorted).2⟩

theorem AssocOk.head {less : κ → κ → Bool} {K : Set κ} {e : κ × ν} {es : List (κ × ν)}
    (h : AssocOk less K (e :: es)) : ∀ e' ∈ es, less e.1 e'.1 = true :=
  (List.pairwise_cons.mp h.sorted).1

theorem mem_assocSet {less : κ → κ → Bool} {k : κ} {v : ν} {e : κ × ν} :
    ∀ {es : List (κ × ν)}, e ∈ assocSet less k v es →
      e.1 = k ∨ ∃ e' ∈ es, e'.1 = e.1
  | [], he => by
      rw [assocSet, List.mem_singleton] at he
      exact Or.inl (by rw [he])
  | d :: es, he => by
      rw [assocSet] at he
      by_cases hdk : less d.1 k = true
      · rw [if_pos hdk, List.mem_cons] at he
        cases he with
        | inl heq => exact Or.inr ⟨d, List.mem_cons_self, by rw [heq]⟩
        | inr hmem =>
            cases mem_assocSet hmem with
            | inl hk => exact Or.inl hk
            | inr hold =>
                obtain ⟨e', he', heq⟩ := hold
                exact Or.inr ⟨e', List.mem_cons_of_mem _ he', heq⟩
      · rw [if_neg hdk] at he
        by_cases hkd : less k d.1 = true
        · rw [if_pos hkd, List.mem_cons] at he
          cases he with
          | inl heq => exact Or.inl (by rw [heq])
          | inr hmem => exact Or.inr ⟨e, hmem, rfl⟩
        · rw [if_neg hkd, List.mem_cons] at he
          cases he with
          | inl heq => exact Or.inr ⟨d, List.mem_cons_self, by rw [heq]⟩
          | inr hmem => exact Or.inr ⟨e, List.mem_cons_of_mem _ hmem, rfl⟩

theorem assocErase_sublist (less : κ → κ → Bool) (k : κ) :
    ∀ es : List (κ × ν), (assocErase less k es).Sublist es
  | [] => List.Sublist.slnil
  | e :: es => by
      rw [assocErase]
      by_cases hek : less e.1 k = true
      · rw [if_pos hek]; exact (assocErase_sublist less k es).cons_cons e
      · rw [if_neg hek]
        by_cases hke : less k e.1 = true
        · simp only [if_pos hke, List.Sublist.refl]
        · rw [if_neg hke]; exact List.sublist_cons_self e es

section

variable {less : κ → κ → Bool} {K : Set κ} (hord : StrictWeakOrderOn less K)

include hord

theorem assocOk_set {k : κ} (hk : k ∈ K) {v : ν} :
    ∀ {es : List (κ × ν)}, AssocOk less K es → AssocOk less K (assocSet less k v es)
  | [], _ => by
      refine ⟨?_, by simp [assocSet]⟩
      intro e he
      rw [assocSet, List.mem_singleton] at he
      rw [he]
      exact hk
  | d :: es, h => by
      have hd := h.keys d List.mem_cons_self
      rw [assocSet]
      by_cases hdk : less d.1 k = true
      · rw [if_pos hdk]
        have ih := assocOk_set hk (v := v) h.tail
        refine ⟨?_, List.pairwise_cons.mpr ⟨?_, ih.sorted⟩⟩
        · intro e he
          cases List.mem_cons.mp he with
          | inl heq => rw [heq]; exact hd
          | inr hmem => exact ih.keys e hmem
        · intro e he
          cases mem_assocSet he with
          | inl heq => rw [heq]; exact hdk
          | inr hold =>
              obtain ⟨e', he', heq⟩ := hold
              rw [← heq]
              exact h.head e' he'
      · rw [if_neg hdk]
        by_cases hkd : less k d.1 = true
        · rw [if_pos hkd]
          refine ⟨?_, List.pairwise_cons.mpr ⟨?_, h.sorted⟩⟩
          · intro e he
            cases List.mem_cons.mp he with
            | inl heq => rw [heq]; exact hk
            | inr hmem => exact h.keys e hmem
          · intro e he
            cases List.mem_cons.mp he with
            | inl heq => rw [heq]; exact hkd
            | inr hmem =>
                exact hord.trans k hk d.1 hd e.1 (h.tail.keys e hmem) hkd (h.head e hmem)
        · rw [if_neg hkd]
          refine ⟨?_, List.pairwise_cons.mpr ⟨h.head, h.tail.sorted⟩⟩
          intro e he
          cases List.mem_cons.mp he with
          | inl heq => rw [heq]; exact hd
          | inr hmem => exact h.tail.keys e hmem

omit hord in
theorem assocFind_above {k : κ} {e : κ × ν} {es : List (κ × ν)} (hek : less e.1 k = true) :
    assocFind less k (e :: es) = assocFind less k es :=
  if_pos hek

omit hord in
theorem assocFind_here {k : κ} {e : κ × ν} {es : List (κ × ν)}
    (hequiv : equiv less k e.1 = true) : assocFind less k (e :: es) = some e.2 := by
  obtain ⟨hke, hek⟩ := equiv_iff.mp hequiv
  rw [assocFind, hek, if_neg Bool.false_ne_true, hke, if_neg Bool.false_ne_true]

/-- Below the first key nothing is found. -/
theorem assocFind_below {k : κ} (hk : k ∈ K) {e : κ × ν} {es : List (κ × ν)} (he : e.1 ∈ K)
    (hke : less k e.1 = true) : assocFind less k (e :: es) = none := by
  rw [assocFind, hord.asymm k hk e.1 he hke, if_neg Bool.false_ne_true, if_pos hke]

/-- Nor behind an entry that the key is not above. -/
theorem assocFind_tail {k : κ} (hk : k ∈ K) {e : κ × ν} {es : List (κ × ν)}
    (h : AssocOk less K (e :: es)) (hek : ¬less e.1 k = true) : assocFind less k es = none := by
  cases es with
  | nil => rfl
  | cons d es =>
      have hd := h.tail.keys d List.mem_cons_self
      exact assocFind_below hord hk hd (hord.less_of_not_less_of_less hk
        (h.keys e List.mem_cons_self) hd hek (h.head d List.mem_cons_self))

theorem assocFind_set {k k' : κ} (hk : k ∈ K) (hk' : k' ∈ K) {v : ν} :
    ∀ {es : List (κ × ν)}, AssocOk less K es →
      assocFind less k (assocSet less k' v es) =
        if equiv less k k' then some v else assocFind less k es
  | [], _ => by
      simp only [assocSet, assocFind]
      cases hlt : less k' k <;> cases hgt : less k k' <;> simp [equiv, hlt, hgt]
  | e :: es, h => by
      have he := h.keys e List.mem_cons_self
      rw [assocSet]
      by_cases hek' : less e.1 k' = true
      · rw [if_pos hek']
        by_cases hek : less e.1 k = true
        · rw [assocFind_above hek, assocFind_above hek]
          exact assocFind_set hk hk' h.tail
        · have hkk' := hord.less_of_not_less_of_less hk he hk' hek hek'
          rw [assocFind, assocFind, if_neg hek, if_neg hek,
            StrictWeakOrderOn.not_equiv_of_less hkk', if_neg Bool.false_ne_true]
      · rw [if_neg hek']
        by_cases hk'e : less k' e.1 = true
        · rw [if_pos hk'e]
          -- the entry is new: the key is above it, below it or at it
          cases hk'k : less k' k with
          | true =>
              rw [assocFind_above hk'k, StrictWeakOrderOn.not_equiv_of_less' hk'k,
                if_neg Bool.false_ne_true]
          | false =>
              cases hkk' : less k k' with
              | true =>
                  have hke := hord.trans k hk k' hk' e.1 he hkk' hk'e
                  rw [assocFind_below hord hk hk' hkk', assocFind_below hord hk he hke,
                    StrictWeakOrderOn.not_equiv_of_less hkk', if_neg Bool.false_ne_true]
              | false =>
                  have hequiv : equiv less k k' = true := equiv_iff.mpr ⟨hkk', hk'k⟩
                  rw [assocFind_here hequiv, if_pos hequiv]
        · rw [if_neg hk'e]
          -- the entry had the key `k'`
          have hequiv : equiv less e.1 k' = true :=
            equiv_iff.mpr ⟨Bool.not_eq_true _ ▸ hek', Bool.not_eq_true _ ▸ hk'e⟩
          cases hek : less e.1 k with
          | true =>
              have hk'k := hord.less_of_equiv_of_less hk' he hk
                (by rw [equiv_comm]; exact hequiv) hek
              rw [assocFind_above (e := (e.1, v)) hek, assocFind_above hek,
                StrictWeakOrderOn.not_equiv_of_less' hk'k, if_neg Bool.false_ne_true]
          | false =>
              cases hke : less k e.1 with
              | true =>
                  have hkk' := hord.less_of_less_of_equiv hk he hk' hke hequiv
                  rw [assocFind_below (e := (e.1, v)) hord hk he hke,
                    assocFind_below hord hk he hke, StrictWeakOrderOn.not_equiv_of_less hkk',
                    if_neg Bool.false_ne_true]
              | false =>
                  have hhere : equiv less k e.1 = true := equiv_iff.mpr ⟨hke, hek⟩
                  rw [assocFind_here (e := (e.1, v)) hhere,
                    if_pos (hord.equiv_trans hk he hk' hhere hequiv)]

theorem assocFind_erase {k k' : κ} (hk : k ∈ K) (hk' : k' ∈ K) :
    ∀ {es : List (κ × ν)}, AssocOk less K es →
      assocFind less k (assocErase less k' es) =
        if equiv less k k' then none else assocFind less k es
  | [], _ => by simp [assocErase, assocFind]
  | e :: es, h => by
      have he := h.keys e List.mem_cons_self
      rw [assocErase]
      by_cases hek' : less e.1 k' = true
      · rw [if_pos hek']
        by_cases hek : less e.1 k = true
        · rw [assocFind_above hek, assocFind_above hek]
          exact assocFind_erase hk hk' h.tail
        · have hkk' := hord.less_of_not_less_of_less hk he hk' hek hek'
          rw [assocFind, assocFind, if_neg hek, if_neg hek,
            StrictWeakOrderOn.not_equiv_of_less hkk', if_neg Bool.false_ne_true]
      · rw [if_neg hek']
        by_cases hk'e : less k' e.1 = true
        · rw [if_pos hk'e]
          cases hequiv : equiv less k k' with
          | false => rw [if_neg Bool.false_ne_true]
          | true =>
              have hke := hord.less_of_equiv_of_less hk hk' he hequiv hk'e
              rw [if_pos rfl, assocFind_below hord hk he hke]
        · rw [if_neg hk'e]
          have hequiv : equiv less e.1 k' = true :=
            equiv_iff.mpr ⟨Bool.not_eq_true _ ▸ hek', Bool.not_eq_true _ ▸ hk'e⟩
          by_cases hek : less e.1 k = true
          · have hk'k := hord.less_of_equiv_of_less hk' he hk
              (by rw [equiv_comm]; exact hequiv) hek
            rw [assocFind_above hek, StrictWeakOrderOn.not_equiv_of_less' hk'k,
              if_neg Bool.false_ne_true]
          · rw [assocFind_tail hord hk h hek]
            cases hke : less k e.1 with
            | true => rw [assocFind_below hord hk he hke, ite_self]
            | false =>
                have hhere : equiv less k e.1 = true :=
                  equiv_iff.mpr ⟨hke, Bool.not_eq_true _ ▸ hek⟩
                rw [if_pos (hord.equiv_trans hk he hk' hhere hequiv)]

theorem assoc_mem_toList {k : κ} (hk : k ∈ K) {v : ν} :
    ∀ {es : List (κ × ν)}, AssocOk less K es →
      ((∃ k', (k', v) ∈ es ∧ equiv less k k' = true) ↔ assocFind less k es = some v)
  | [], _ => by simp [assocFind]
  | e :: es, h => by
      have he := h.keys e List.mem_cons_self
      cases hek : less e.1 k with
      | true =>
          rw [assocFind_above hek, ← assoc_mem_toList hk h.tail]
          constructor
          · rintro ⟨k', hmem, heq⟩
            cases List.mem_cons.mp hmem with
            | inl hself =>
                rw [← hself] at hek
                rw [StrictWeakOrderOn.not_equiv_of_less' hek] at heq
                exact absurd heq Bool.false_ne_true
            | inr hm => exact ⟨k', hm, heq⟩
          · rintro ⟨k', hm, heq⟩
            exact ⟨k', List.mem_cons_of_mem _ hm, heq⟩
      | false =>
          cases hke : less k e.1 with
          | true =>
              rw [assocFind_below hord hk he hke]
              constructor
              · rintro ⟨k', hmem, heq⟩
                have hkk' : less k k' = true := by
                  cases List.mem_cons.mp hmem with
                  | inl hself => rw [← hself] at hke; exact hke
                  | inr hm =>
                      exact hord.trans k hk e.1 he k' (h.tail.keys _ hm) hke (h.head _ hm)
                rw [StrictWeakOrderOn.not_equiv_of_less hkk'] at heq
                exact absurd heq Bool.false_ne_true
              · intro hn; simp at hn
          | false =>
              have hequiv : equiv less k e.1 = true := equiv_iff.mpr ⟨hke, hek⟩
              rw [assocFind_here hequiv]
              constructor
              · rintro ⟨k', hmem, heq⟩
                cases List.mem_cons.mp hmem with
                | inl hself => rw [← hself]
                | inr hm =>
                    have hek' := hord.equiv_trans he hk (h.tail.keys _ hm)
                      (by rw [equiv_comm]; exact hequiv) heq
                    rw [StrictWeakOrderOn.not_equiv_of_less (h.head _ hm)] at hek'
                    exact absurd hek' Bool.false_ne_true
              · intro hv
                exact ⟨e.1, by rw [← Option.some.inj hv]; exact List.mem_cons_self, hequiv⟩

theorem assocOk_replay :
    ∀ {us : List (Update κ ν)}, Over K us → AssocOk less K ((assoc κ ν less).replay us)
  | [], _ => ⟨by simp [Ops.replay, assoc], by simp [Ops.replay, assoc]⟩
  | .set k v :: us, hus => by
      obtain ⟨hk, hus'⟩ := Over.cons.mp hus
      exact assocOk_set hord hk (assocOk_replay hus')
  | .erase k :: us, hus => by
      obtain ⟨_, hus'⟩ := Over.cons.mp hus
      have h := assocOk_replay hus'
      have hsub := assocErase_sublist less k ((assoc κ ν less).replay us)
      exact ⟨fun e he => h.keys e (hsub.subset he), h.sorted.sublist hsub⟩

end

/-- The association list is a correct map. -/
theorem assoc_correct (less : κ → κ → Bool) : Correct (assoc κ ν less) less := by
  intro K hord
  refine ⟨fun _ _ => rfl, ?_, ?_, ?_, ?_, ?_⟩
  · intro us hus k hk k' hk' v
    exact assocFind_set hord hk hk' (assocOk_replay hord hus)
  · intro us hus k hk k' hk'
    exact assocFind_erase hord hk hk' (assocOk_replay hord hus)
  · intro us hus
    exact (assocOk_replay hord hus).sorted
  · intro us hus
    exact (assocOk_replay hord hus).keys
  · intro us hus k hk v
    exact assoc_mem_toList hord hk (assocOk_replay hord hus)

end OrderedMap
