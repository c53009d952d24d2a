import Mathlib.Data.List.Basic
import Mathlib.Order.Lattice

/-!
# Ordered sets as sorted lists

An ordered set under a comparator `lt` is a list in the order of `lt`.  `insert` and `find?`
walk to the lower bound of the element, as a search tree does; an element equivalent to one
that is present is not inserted again.  Where the comparator is a strict total order
(`StrictTotal`), insertion and erasure keep the list sorted and do to its elements what they
do in a set.
-/

namespace SortedSet

variable {α : Type*} (lt : α → α → Bool)

/-- The comparator is a strict total order. -/
structure StrictTotal : Prop where
  irrefl : ∀ a, lt a a = false
  trans : ∀ a b c, lt a b = true → lt b c = true → lt a c = true
  tri : ∀ a b, lt a b = false → lt b a = false → a = b

/-- The list is in the order of the comparator. -/
def Sorted (xs : List α) : Prop := xs.Pairwise fun a b => lt a b = true

/-- A new element at its place, unless an equal one is there. -/
def insert (x : α) : List α → List α
  | [] => [x]
  | y :: ys =>
      if lt y x then y :: insert x ys
      else if lt x y then x :: y :: ys
      else y :: ys

/-- The element that is equal to `x`. -/
def find? (x : α) : List α → Option α
  | [] => none
  | y :: ys => if lt y x then find? x ys else if lt x y then none else some y

/-- Erase the element found. -/
def erase (x : α) : List α → List α
  | [] => []
  | y :: ys => if lt y x then y :: erase x ys else if lt x y then y :: ys else ys

variable {lt}

/-- The first element is the least. -/
theorem Sorted.head {x : α} {xs : List α} (h : Sorted lt (x :: xs)) {y : α} (hy : y ∈ xs) :
    lt x y = true := (List.pairwise_cons.mp h).1 y hy

theorem Sorted.tail {x : α} {xs : List α} (h : Sorted lt (x :: xs)) : Sorted lt xs :=
  (List.pairwise_cons.mp h).2

theorem Sorted.sublist {xs ys : List α} (h : Sorted lt ys) (hsub : xs.Sublist ys) :
    Sorted lt xs := List.Pairwise.sublist hsub h

/-- What is not in order with `x` either way is `x`. -/
theorem StrictTotal.eq_of_not (h : StrictTotal lt) {x y : α} (hyx : ¬ lt y x = true)
    (hxy : ¬ lt x y = true) : y = x :=
  h.tri y x (Bool.eq_false_iff.mpr hyx) (Bool.eq_false_iff.mpr hxy)

theorem mem_insert (h : StrictTotal lt) {x y : α} :
    ∀ {xs : List α}, y ∈ insert lt x xs ↔ y = x ∨ y ∈ xs
  | [] => by simp [insert]
  | z :: zs => by
      rw [insert]
      by_cases hzx : lt z x = true
      · rw [if_pos hzx, List.mem_cons, mem_insert h, List.mem_cons]
        exact or_left_comm
      · rw [if_neg hzx]
        by_cases hxz : lt x z = true
        · rw [if_pos hxz, List.mem_cons]
        · rw [if_neg hxz, h.eq_of_not hzx hxz, List.mem_cons]
          exact ⟨fun hy => Or.inr hy, fun hy => hy.elim Or.inl id⟩

theorem mem_of_mem_insert {x y : α} : ∀ {xs : List α}, y ∈ insert lt x xs → y = x ∨ y ∈ xs
  | [], hy => Or.inl (List.mem_singleton.mp hy)
  | z :: zs, hy => by
      rw [insert] at hy
      split at hy
      next =>
        rcases List.mem_cons.mp hy with rfl | hmem
        · exact Or.inr List.mem_cons_self
        · exact (mem_of_mem_insert hmem).imp id (List.mem_cons_of_mem z)
      next =>
        split at hy
        next => exact List.mem_cons.mp hy
        next => exact Or.inr hy

theorem mem_insert_of_mem {x y : α} : ∀ {xs : List α}, y ∈ xs → y ∈ insert lt x xs
  | z :: zs, hy => by
      rw [insert]
      split
      next =>
        rcases List.mem_cons.mp hy with rfl | hmem
        · exact List.mem_cons_self
        · exact List.mem_cons_of_mem z (mem_insert_of_mem hmem)
      next =>
        split
        next => exact List.mem_cons_of_mem x hy
        next => exact hy

/-- An element that is in order with all there are is inserted. -/
theorem mem_insert_self {x : α} :
    ∀ {xs : List α}, (∀ y ∈ xs, lt y x = true ∨ lt x y = true) → x ∈ insert lt x xs
  | [], _ => List.mem_singleton.mpr rfl
  | z :: zs, h => by
      rw [insert]
      by_cases hzx : lt z x = true
      · rw [if_pos hzx]
        exact List.mem_cons_of_mem z
          (mem_insert_self fun y hy => h y (List.mem_cons_of_mem z hy))
      · rw [if_neg hzx, if_pos ((h z List.mem_cons_self).resolve_left hzx)]
        exact List.mem_cons_self

theorem sorted_insert_of_trans
    (h : ∀ a b c, lt a b = true → lt b c = true → lt a c = true) {x : α} :
    ∀ {xs : List α}, Sorted lt xs → Sorted lt (insert lt x xs)
  | [], _ => by simp [insert, Sorted]
  | z :: zs, hs => by
      rw [insert]
      by_cases hzx : lt z x = true
      · rw [if_pos hzx]
        refine List.pairwise_cons.mpr ⟨?_, sorted_insert_of_trans h hs.tail⟩
        intro y hy
        cases mem_of_mem_insert hy with
        | inl heq => rw [heq]; exact hzx
        | inr hmem => exact hs.head hmem
      · rw [if_neg hzx]
        by_cases hxz : lt x z = true
        · rw [if_pos hxz]
          refine List.pairwise_cons.mpr ⟨?_, hs⟩
          intro y hy
          cases List.mem_cons.mp hy with
          | inl heq => rw [heq]; exact hxz
          | inr hmem => exact h x z y hxz (hs.head hmem)
        · rw [if_neg hxz]; exact hs

theorem sorted_insert (h : StrictTotal lt) {x : α} {xs : List α} (hs : Sorted lt xs) :
    Sorted lt (insert lt x xs) := sorted_insert_of_trans h.trans hs

/-- A search finds an element exactly when it is present. -/
theorem find?_eq_some (h : StrictTotal lt) {x y : α} :
    ∀ {xs : List α}, Sorted lt xs → (find? lt x xs = some y ↔ y = x ∧ x ∈ xs)
  | [], _ => by simp [find?]
  | z :: zs, hs => by
      rw [find?]
      by_cases hzx : lt z x = true
      · have hne : x ≠ z := by
          rintro rfl
          rw [h.irrefl] at hzx
          simp at hzx
        rw [if_pos hzx, find?_eq_some h hs.tail, List.mem_cons]
        exact and_congr_right fun _ => ⟨Or.inr, fun hm => hm.resolve_left hne⟩
      · rw [if_neg hzx]
        by_cases hxz : lt x z = true
        · rw [if_pos hxz]
          constructor
          · intro hn; simp at hn
          · rintro ⟨_, hmem⟩
            cases List.mem_cons.mp hmem with
            | inl heq =>
                rw [heq, h.irrefl] at hxz
                simp at hxz
            | inr hm => exact absurd (hs.head hm) hzx
        · rw [if_neg hxz, h.eq_of_not hzx hxz]
          constructor
          · intro heq
            exact ⟨(Option.some.inj heq).symm, List.mem_cons_self⟩
          · rintro ⟨rfl, _⟩
            rfl

theorem erase_sublist (x : α) : ∀ xs : List α, (erase lt x xs).Sublist xs
  | [] => List.Sublist.slnil
  | z :: zs => by
      rw [erase]
      by_cases hzx : lt z x = true
      · rw [if_pos hzx]; exact (erase_sublist x zs).cons_cons z
      · rw [if_neg hzx]
        by_cases hxz : lt x z = true
        · simp only [if_pos hxz, List.Sublist.refl]
        · rw [if_neg hxz]; exact List.sublist_cons_self z zs

theorem mem_erase (h : StrictTotal lt) {x y : α} :
    ∀ {xs : List α}, Sorted lt xs → (y ∈ erase lt x xs ↔ y ≠ x ∧ y ∈ xs)
  | [], _ => by simp [erase]
  | z :: zs, hs => by
      rw [erase]
      by_cases hzx : lt z x = true
      · have hne : z ≠ x := by
          rintro rfl
          rw [h.irrefl] at hzx
          simp at hzx
        rw [if_pos hzx, List.mem_cons, mem_erase h hs.tail, List.mem_cons]
        constructor
        · rintro (rfl | hmem)
          · exact ⟨hne, Or.inl rfl⟩
          · exact ⟨hmem.1, Or.inr hmem.2⟩
        · rintro ⟨hyx, rfl | hmem⟩
          · exact Or.inl rfl
          · exact Or.inr ⟨hyx, hmem⟩
      · rw [if_neg hzx]
        -- past the lower bound everything is above `x`
        have habove : ∀ y ∈ zs, y ≠ x := by
          rintro y hy rfl
          exact absurd (hs.head hy) hzx
        by_cases hxz : lt x z = true
        · rw [if_pos hxz]
          refine ⟨fun hy => ⟨?_, hy⟩, And.right⟩
          cases List.mem_cons.mp hy with
          | inl heq =>
              rintro rfl
              rw [heq, h.irrefl] at hxz
              simp at hxz
          | inr hm => exact habove y hm
        · rw [if_neg hxz, h.eq_of_not hzx hxz, List.mem_cons]
          exact ⟨fun hy => ⟨habove y hy, Or.inr hy⟩, fun hy => hy.2.resolve_left hy.1⟩

/-- Where a predicate that holds of an element holds of those before it, none holds of what is
behind its prefix. -/
theorem not_of_mem_dropWhile {p : α → Bool} :
    ∀ {xs : List α}, Sorted lt xs →
      (∀ a ∈ xs, ∀ b ∈ xs, lt a b = true → p b = true → p a = true) →
      ∀ x ∈ xs.dropWhile p, p x = false
  | [], _, _, _, hx => by simp at hx
  | z :: zs, hs, hp, x, hx => by
      cases hz : p z with
      | true =>
          rw [List.dropWhile_cons_of_pos hz] at hx
          exact not_of_mem_dropWhile hs.tail (fun a ha b hb =>
            hp a (List.mem_cons_of_mem _ ha) b (List.mem_cons_of_mem _ hb)) x hx
      | false =>
          rw [List.dropWhile_cons_of_neg (by simp [hz])] at hx
          cases List.mem_cons.mp hx with
          | inl heq => rw [heq, hz]
          | inr hmem =>
              cases hpx : p x with
              | false => rfl
              | true =>
                  have hpz := hp z List.mem_cons_self x hx (hs.head hmem) hpx
                  rw [hz] at hpz
                  simp at hpz

/-- Two comparators that agree on a list sort it alike. -/
theorem Sorted.congr {lt' : α → α → Bool} {xs : List α} (h : Sorted lt xs)
    (heq : ∀ a ∈ xs, ∀ b ∈ xs, lt a b = lt' a b) : Sorted lt' xs :=
  h.imp_of_mem fun ha hb hab => (heq _ ha _ hb).symm.trans hab

/-! ## Elements in the order of a key -/

section Key

variable {κ : Type*} [LinearOrder κ] {key : α → κ}
  (hkey : ∀ a b, lt a b = true ↔ key a < key b)
include hkey

/-- There is one element of a key. -/
theorem Sorted.eq_of_key : ∀ {xs : List α}, Sorted lt xs → ∀ a ∈ xs, ∀ b ∈ xs, key a = key b →
    a = b
  | z :: zs, hs, a, ha, b, hb, heq => by
      rcases List.mem_cons.mp ha with rfl | ha' <;> rcases List.mem_cons.mp hb with rfl | hb'
      · rfl
      · exact absurd ((hkey _ _).mp (hs.head hb')) (by rw [heq]; exact lt_irrefl _)
      · exact absurd ((hkey _ _).mp (hs.head ha')) (by rw [heq]; exact lt_irrefl _)
      · exact Sorted.eq_of_key hs.tail a ha' b hb' heq

/-- A search finds the element with the key. -/
theorem find?_key {x y : α} :
    ∀ {xs : List α}, Sorted lt xs → (find? lt x xs = some y ↔ y ∈ xs ∧ key y = key x)
  | [], _ => by simp [find?]
  | z :: zs, hs => by
      rw [find?, List.mem_cons]
      by_cases hzx : lt z x = true
      · rw [if_pos hzx, find?_key hs.tail]
        refine and_congr_left fun hyx => ⟨Or.inr, fun hm => hm.resolve_left ?_⟩
        rintro rfl
        exact absurd ((hkey _ _).mp hzx) (by rw [hyx]; exact lt_irrefl _)
      · rw [if_neg hzx]
        have hxz' := not_lt.mp fun h => hzx ((hkey z x).mpr h)
        by_cases hxz : lt x z = true
        · rw [if_pos hxz]
          refine iff_of_false (fun h => by cases h) ?_
          rintro ⟨rfl | hm, hyx⟩
          · exact absurd ((hkey _ _).mp hxz) (by rw [hyx]; exact lt_irrefl _)
          · have hlt := lt_trans ((hkey _ _).mp hxz) ((hkey _ _).mp (hs.head hm))
            exact absurd hlt (by rw [hyx]; exact lt_irrefl _)
        · rw [if_neg hxz, Option.some.injEq]
          have heq : key z = key x :=
            le_antisymm (not_lt.mp fun h => hxz ((hkey x z).mpr h)) hxz'
          constructor
          · rintro rfl
            exact ⟨Or.inl rfl, heq⟩
          · rintro ⟨rfl | hm, hyx⟩
            · rfl
            · exact absurd ((hkey _ _).mp (hs.head hm)) (by rw [heq, hyx]; exact lt_irrefl _)

end Key

end SortedSet
