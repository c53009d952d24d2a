import Mathlib.Data.List.Basic

/-!
# Streams in pieces

A stream reaches its reader in pieces, none of them empty.  `all` is the stream, `front` the
piece at hand and `skip n` what is left when `n` entries have been read: it keeps the borders
of the pieces behind.  A reader that takes entries off the front piece, as many as it likes
at a time, moves along `skip`.
-/

/-- A stream in the pieces it arrives in. -/
structure Pieces (α : Type*) where
  pieces : List (List α)
  nonempty : ∀ xs ∈ pieces, xs ≠ []
deriving DecidableEq

namespace Pieces

variable {α : Type*}

/-- The pieces with the first `n` entries taken off. -/
def dropPieces : List (List α) → Nat → List (List α)
  | [], _ => []
  | xs :: xss, n => if n < xs.length then xs.drop n :: xss else dropPieces xss (n - xs.length)

theorem dropPieces_nonempty :
    ∀ {xss : List (List α)} {n : Nat}, (∀ xs ∈ xss, xs ≠ []) →
      ∀ xs ∈ dropPieces xss n, xs ≠ []
  | [], _, _ => by simp [dropPieces]
  | xs :: xss, n, h => by
      obtain ⟨_, htail⟩ := List.forall_mem_cons.mp h
      by_cases hn : n < xs.length
      · rw [dropPieces, if_pos hn]
        refine List.forall_mem_cons.mpr ⟨?_, htail⟩
        rw [ne_eq, List.drop_eq_nil_iff]
        omega
      · rw [dropPieces, if_neg hn]
        exact dropPieces_nonempty htail

/-- What is left after `n` entries. -/
def skip (s : Pieces α) (n : Nat) : Pieces α :=
  ⟨dropPieces s.pieces n, dropPieces_nonempty s.nonempty⟩

/-- The stream. -/
def all (s : Pieces α) : List α := s.pieces.flatten

/-- The piece at hand, empty at the end of the stream. -/
def front (s : Pieces α) : List α := s.pieces.headD []

/-- A stream in one piece. -/
def one (xs : List α) : Pieces α :=
  if h : xs = [] then ⟨[], by simp⟩ else ⟨[xs], by simpa using h⟩

@[simp] theorem all_one (xs : List α) : (one xs).all = xs := by
  by_cases h : xs = []
  · rw [one, dif_pos h, all, h]; rfl
  · rw [one, dif_neg h, all, List.flatten_singleton]

@[simp] theorem front_one (xs : List α) : (one xs).front = xs := by
  by_cases h : xs = []
  · rw [one, dif_pos h, front, h]; rfl
  · rw [one, dif_neg h]; rfl

/-! ## Reading on -/

theorem dropPieces_add :
    ∀ (xss : List (List α)) (m n : Nat),
      dropPieces (dropPieces xss m) n = dropPieces xss (m + n)
  | [], _, _ => rfl
  | xs :: xss, m, n => by
      by_cases hm : m < xs.length
      · rw [dropPieces, if_pos hm, dropPieces, dropPieces, List.length_drop]
        by_cases hn : m + n < xs.length
        · rw [if_pos (by omega), if_pos hn, List.drop_drop]
        · rw [if_neg (by omega), if_neg hn]
          congr 1
          omega
      · rw [dropPieces, if_neg hm, dropPieces_add, dropPieces, if_neg (by omega)]
        congr 1
        omega

theorem skip_skip (s : Pieces α) (m n : Nat) : (s.skip m).skip n = s.skip (m + n) := by
  rw [skip, skip, skip]
  congr 1
  exact dropPieces_add s.pieces m n

theorem skip_zero (s : Pieces α) : s.skip 0 = s := by
  obtain ⟨xss, h⟩ := s
  cases xss with
  | nil => rfl
  | cons xs xss =>
      have hlen := List.length_pos_iff.mpr (h xs List.mem_cons_self)
      rw [skip]
      congr 1
      rw [dropPieces, if_pos hlen, List.drop_zero]

theorem flatten_dropPieces :
    ∀ (xss : List (List α)) (n : Nat), (dropPieces xss n).flatten = xss.flatten.drop n
  | [], n => by simp [dropPieces]
  | xs :: xss, n => by
      rw [List.flatten_cons, List.drop_append]
      by_cases hn : n < xs.length
      · rw [dropPieces, if_pos hn, List.flatten_cons, Nat.sub_eq_zero_of_le (by omega),
          List.drop_zero]
      · have hle : xs.length ≤ n := Nat.le_of_not_lt hn
        rw [dropPieces, if_neg hn, flatten_dropPieces, List.drop_eq_nil_of_le hle,
          List.nil_append]

@[simp] theorem all_skip (s : Pieces α) (n : Nat) : (s.skip n).all = s.all.drop n :=
  flatten_dropPieces s.pieces n

/-! ## The front piece -/

theorem front_eq_nil_iff (s : Pieces α) : s.front = [] ↔ s.all = [] := by
  obtain ⟨xss, h⟩ := s
  cases xss with
  | nil => simp [front, all]
  | cons xs xss =>
      have hxs := h xs List.mem_cons_self
      simp [front, all, hxs]

/-- The stream starts with the front piece. -/
theorem front_prefix (s : Pieces α) : s.front <+: s.all := by
  obtain ⟨xss, h⟩ := s
  cases xss with
  | nil => exact List.prefix_rfl
  | cons xs xss => exact ⟨xss.flatten, rfl⟩

theorem length_front_le (s : Pieces α) : s.front.length ≤ s.all.length :=
  s.front_prefix.length_le

/-- Entries of the front piece are the first of the stream. -/
theorem take_front {s : Pieces α} {n : Nat} (h : n ≤ s.front.length) :
    s.front.take n = s.all.take n := by
  obtain ⟨rest, hrest⟩ := s.front_prefix
  rw [← hrest, List.take_append_of_le_length h]

end Pieces
