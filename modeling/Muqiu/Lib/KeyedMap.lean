import Mathlib.Data.List.Basic

/-!
# Maps over a form of the keys

A map whose keys are one when `f` gives one form of them, such as the text of a name without its
case.  The entries are kept in the order of their insertion, and no two have keys of one form.
`insert` keeps an entry that is there, so of a list of pairs the first of every form stays.
-/

/-- Entries whose keys have pairwise different forms. -/
structure KeyedMap {κ ι : Type*} (f : κ → ι) (ν : Type*) where
  entries : List (κ × ν)
  distinct : entries.Pairwise fun a b => f a.1 ≠ f b.1

namespace KeyedMap

variable {κ ι ν : Type*} {f : κ → ι}

theorem distinct_nil : ([] : List (κ × ν)).Pairwise fun a b => f a.1 ≠ f b.1 := List.Pairwise.nil

/-- No entry. -/
def empty : KeyedMap f ν := ⟨[], distinct_nil⟩

variable [DecidableEq ι]

/-- The first value under the form of a key. -/
def first (f : κ → ι) (k : κ) (ps : List (κ × ν)) : Option ν :=
  (ps.find? fun e => f e.1 = f k).map Prod.snd

/-- The value under a key. -/
def find (k : κ) (m : KeyedMap f ν) : Option ν := first f k m.entries

theorem first_cons (k : κ) (p : κ × ν) (ps : List (κ × ν)) :
    first f k (p :: ps) = if f p.1 = f k then some p.2 else first f k ps := by
  rw [first, List.find?_cons]
  by_cases h : f p.1 = f k
  · rw [if_pos h, decide_eq_true h]
    rfl
  · rw [if_neg h, decide_eq_false h]
    rfl

theorem first_append (k : κ) (ps qs : List (κ × ν)) :
    first f k (ps ++ qs) = (first f k ps).or (first f k qs) := by
  rw [first, List.find?_append, Option.map_or]
  rfl

theorem first_eq_none_iff {k : κ} {ps : List (κ × ν)} :
    first f k ps = none ↔ ∀ p ∈ ps, f p.1 ≠ f k := by
  rw [first, Option.map_eq_none_iff, List.find?_eq_none]
  simp only [decide_eq_true_eq, ne_eq]

/-- What is found under a key was put under a key of its form. -/
theorem exists_of_first {k : κ} {v : ν} {ps : List (κ × ν)} (h : first f k ps = some v) :
    ∃ p ∈ ps, f p.1 = f k ∧ p.2 = v := by
  obtain ⟨p, hfind, rfl⟩ := Option.map_eq_some_iff.mp h
  have hform : decide (f p.1 = f k) = true :=
    List.find?_some (p := fun e : κ × ν => f e.1 = f k) hfind
  exact ⟨p, List.mem_of_find?_eq_some hfind, of_decide_eq_true hform, rfl⟩

/-- Of pairs with different forms each is found. -/
theorem first_of_mem {p : κ × ν} : ∀ {ps : List (κ × ν)},
    ps.Pairwise (fun a b => f a.1 ≠ f b.1) → p ∈ ps → first f p.1 ps = some p.2 := by
  intro ps
  induction ps with
  | nil => rintro - ⟨⟩
  | cons q ps ih =>
      intro hdistinct hp
      obtain ⟨hq, hps⟩ := List.pairwise_cons.mp hdistinct
      rw [first_cons]
      rcases List.mem_cons.mp hp with rfl | hp
      · exact if_pos rfl
      · rw [if_neg (hq p hp), ih hps hp]

/-- `insert` of a key with no entry. -/
theorem distinct_insert {m : KeyedMap f ν} {k : κ} (v : ν) (h : m.find k = none) :
    (m.entries ++ [(k, v)]).Pairwise fun a b => f a.1 ≠ f b.1 := by
  refine List.pairwise_append.mpr ⟨m.distinct, List.pairwise_singleton _ _, ?_⟩
  intro a ha b hb
  rw [List.mem_singleton.mp hb]
  exact first_eq_none_iff.mp h a ha

/-- `insert` keeps the entry that is there. -/
def insert (k : κ) (v : ν) (m : KeyedMap f ν) : KeyedMap f ν :=
  if h : m.find k = none then ⟨m.entries ++ [(k, v)], distinct_insert v h⟩ else m

/-- Some entries, put in one after the other. -/
def insertAll (m : KeyedMap f ν) (ps : List (κ × ν)) : KeyedMap f ν :=
  ps.foldl (fun m p => m.insert p.1 p.2) m

theorem find_insert (m : KeyedMap f ν) (k k' : κ) (v : ν) :
    (m.insert k v).find k' = (m.find k').or (if f k = f k' then some v else none) := by
  rw [insert]
  split
  next => rw [find, first_append, find, first_cons]; rfl
  next h =>
    by_cases hk : f k = f k'
    · have hsame : m.find k' = m.find k := by
        rw [find, find, first, first, hk]
      rw [hsame]
      cases hfind : m.find k with
      | none => exact absurd hfind h
      | some w => rfl
    · rw [if_neg hk, Option.or_none]

/-- The entries that were there go before the inserted ones, and of those the first stays. -/
theorem find_insertAll (k : κ) : ∀ (ps : List (κ × ν)) (m : KeyedMap f ν),
    (m.insertAll ps).find k = (m.find k).or (first f k ps) := by
  intro ps
  induction ps with
  | nil => exact fun m => Option.or_none.symm
  | cons p ps ih =>
      intro m
      rw [insertAll, List.foldl_cons, ← insertAll, ih, find_insert, Option.or_assoc, first_cons]
      by_cases hp : f p.1 = f k
      · rw [if_pos hp, if_pos hp]
        rfl
      · rw [if_neg hp, if_neg hp]
        rfl

theorem mem_insert {m : KeyedMap f ν} {k : κ} {v : ν} {e : κ × ν}
    (h : e ∈ (m.insert k v).entries) : e ∈ m.entries ∨ e = (k, v) := by
  rw [insert] at h
  split at h
  next => exact (List.mem_append.mp h).imp_right List.mem_singleton.mp
  next => exact Or.inl h

/-- Every entry was there or was inserted. -/
theorem mem_insertAll {e : κ × ν} : ∀ {ps : List (κ × ν)} {m : KeyedMap f ν},
    e ∈ (m.insertAll ps).entries → e ∈ m.entries ∨ e ∈ ps := by
  intro ps
  induction ps with
  | nil => exact fun h => Or.inl h
  | cons p ps ih =>
      intro m h
      rcases ih h with hold | hnew
      · refine (mem_insert hold).imp_right fun heq => ?_
        rw [heq]
        exact List.mem_cons_self
      · exact Or.inr (List.mem_cons_of_mem p hnew)

end KeyedMap
