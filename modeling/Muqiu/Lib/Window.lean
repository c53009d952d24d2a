import Mathlib.Data.List.Basic
import Mathlib.Algebra.Order.Floor.Div

/-!
# Windows and overwriting in lists, and lists of equal blocks

A flat memory is a list.  `window xs i n` reads the `n` entries from position `i` on, and
`overwrite xs i ys` puts `ys` over the entries from position `i` on.  Both are defined by
`take` and `drop`, and the lemmas below say where a window or an overwriting falls when the
list is an append: before, after or across the border.

A memory held in equal blocks is a list of lists, each of length `b` (`Uniform b`).  Its
flat memory is the `flatten`.  A position `p` of the flat memory lies in block `p / b` at
offset `p % b`.
-/

namespace Window

variable {α : Type*}

/-- The `n` entries from position `i` on. -/
def window (xs : List α) (i n : Nat) : List α := (xs.drop i).take n

/-- `ys` put over the entries from position `i` on. -/
def overwrite (xs : List α) (i : Nat) (ys : List α) : List α :=
  xs.take i ++ ys ++ xs.drop (i + ys.length)

/-! ## Lengths and entries -/

theorem length_window {xs : List α} {i n : Nat} (h : i + n ≤ xs.length) :
    (window xs i n).length = n := by
  rw [window, List.length_take, List.length_drop]
  omega

theorem length_overwrite {xs ys : List α} {i : Nat} (h : i + ys.length ≤ xs.length) :
    (overwrite xs i ys).length = xs.length := by
  rw [overwrite, List.length_append, List.length_append, List.length_take, List.length_drop]
  omega

@[simp] theorem window_zero (xs : List α) (i : Nat) : window xs i 0 = [] := by
  simp [window]

@[simp] theorem overwrite_nil (xs : List α) (i : Nat) : overwrite xs i [] = xs := by
  simp [overwrite]

theorem getElem?_window (xs : List α) (i n j : Nat) :
    (window xs i n)[j]? = if j < n then xs[i + j]? else none := by
  rw [window, List.getElem?_take, List.getElem?_drop]

/-- An overwritten memory holds `ys` in its window and the old entries elsewhere. -/
theorem getElem?_overwrite {xs ys : List α} {i : Nat} (h : i + ys.length ≤ xs.length)
    (j : Nat) :
    (overwrite xs i ys)[j]? =
      if i ≤ j ∧ j < i + ys.length then ys[j - i]? else xs[j]? := by
  have htake : (xs.take i).length = i := by rw [List.length_take]; omega
  rw [overwrite, List.append_assoc]
  by_cases h1 : j < i
  · rw [List.getElem?_append_left (by omega), List.getElem?_take, if_pos h1,
      if_neg (by omega)]
  · rw [List.getElem?_append_right (by omega), htake]
    by_cases h2 : j < i + ys.length
    · rw [List.getElem?_append_left (by omega), if_pos (by omega)]
    · rw [List.getElem?_append_right (by omega), List.getElem?_drop, if_neg (by omega)]
      congr 1
      omega

/-! ## Across an append -/

theorem window_append_left {xs ys : List α} {i n : Nat} (h : i + n ≤ xs.length) :
    window (xs ++ ys) i n = window xs i n := by
  rw [window, window, List.drop_append_of_le_length (by omega),
    List.take_append_of_le_length (by rw [List.length_drop]; omega)]

theorem window_append_right {xs ys : List α} {i n : Nat} (h : xs.length ≤ i) :
    window (xs ++ ys) i n = window ys (i - xs.length) n := by
  rw [window, window, List.drop_append, List.drop_eq_nil_of_le h, List.nil_append]

/-- A window across the border is the end of the left part and the start of the right. -/
theorem window_append_across {xs ys : List α} {i n : Nat} (h1 : i ≤ xs.length)
    (h2 : xs.length ≤ i + n) :
    window (xs ++ ys) i n =
      window xs i (xs.length - i) ++ window ys 0 (n - (xs.length - i)) := by
  have hdrop : (xs.drop i).length = xs.length - i := List.length_drop
  rw [window, window, window, List.drop_append_of_le_length h1, List.take_append, hdrop,
    List.drop_zero, List.take_of_length_le (l := xs.drop i) (by omega),
    List.take_of_length_le (l := xs.drop i) (i := xs.length - i) (by omega)]

theorem overwrite_append_left {xs ys zs : List α} {i : Nat} (h : i + zs.length ≤ xs.length) :
    overwrite (xs ++ ys) i zs = overwrite xs i zs ++ ys := by
  rw [overwrite, overwrite, List.take_append_of_le_length (by omega),
    List.drop_append_of_le_length h]
  simp only [List.append_assoc]

theorem overwrite_append_right {xs ys zs : List α} {i : Nat} (h : xs.length ≤ i) :
    overwrite (xs ++ ys) i zs = xs ++ overwrite ys (i - xs.length) zs := by
  rw [overwrite, overwrite, List.take_append, List.take_of_length_le h, List.drop_append,
    List.drop_eq_nil_of_le (by omega), List.nil_append,
    show i + zs.length - xs.length = i - xs.length + zs.length by omega]
  simp only [List.append_assoc]

/-- What is overwritten, and what was there before it, does not depend on what follows. -/
theorem take_overwrite_append {xs zs : List α} {i m : Nat} (ys : List α) (hi : i ≤ xs.length)
    (hm : m ≤ max xs.length (i + zs.length)) :
    (overwrite (xs ++ ys) i zs).take m = (overwrite xs i zs).take m := by
  have hsplit : overwrite (xs ++ ys) i zs =
      overwrite xs i zs ++ ys.drop (i + zs.length - xs.length) := by
    rw [overwrite, overwrite, List.take_append_of_le_length hi, List.drop_append]
    simp only [List.append_assoc]
  have hlen : m ≤ (overwrite xs i zs).length := by
    rw [overwrite, List.length_append, List.length_append, List.length_take, List.length_drop]
    omega
  rw [hsplit, List.take_append_of_le_length hlen]

/-- Overwriting across the border splits the new entries there. -/
theorem overwrite_append_across {xs ys zs : List α} {i : Nat} (h1 : i ≤ xs.length)
    (h2 : xs.length ≤ i + zs.length) :
    overwrite (xs ++ ys) i zs =
      overwrite xs i (zs.take (xs.length - i)) ++
        overwrite ys 0 (zs.drop (xs.length - i)) := by
  have hk : (zs.take (xs.length - i)).length = xs.length - i := by
    rw [List.length_take]; omega
  rw [overwrite, overwrite, overwrite, List.take_append_of_le_length h1, hk,
    List.drop_eq_nil_of_le (show xs.length ≤ i + (xs.length - i) by omega),
    List.drop_append, List.drop_eq_nil_of_le h2, List.take_zero, List.length_drop,
    show 0 + (zs.length - (xs.length - i)) = i + zs.length - xs.length by omega]
  simp only [List.nil_append, List.append_nil, List.append_assoc]
  rw [← List.append_assoc (List.take (xs.length - i) zs), List.take_append_drop]

/-- Two overwritings, one behind the other, are one. -/
theorem overwrite_overwrite {xs ys zs : List α} {i : Nat} (h : i + ys.length ≤ xs.length) :
    overwrite (overwrite xs i ys) (i + ys.length) zs = overwrite xs i (ys ++ zs) := by
  have htake : (xs.take i).length = i := by rw [List.length_take]; omega
  have hhead : (xs.take i ++ ys).length = i + ys.length := by
    rw [List.length_append, htake]
  have hdrop : (xs.take i ++ ys ++ xs.drop (i + ys.length)).drop (i + ys.length + zs.length) =
      xs.drop (i + ys.length + zs.length) := by
    rw [List.drop_append, hhead, List.drop_eq_nil_of_le (by omega), List.nil_append,
      List.drop_drop]
    congr 1
    omega
  rw [overwrite, overwrite, overwrite, List.take_left' hhead, hdrop, List.length_append]
  simp only [List.append_assoc, Nat.add_assoc]

/-- The window overwritten holds what was put there. -/
theorem window_overwrite {xs ys : List α} {i : Nat} (h : i + ys.length ≤ xs.length) :
    window (overwrite xs i ys) i ys.length = ys := by
  have htake : (xs.take i).length = i := by rw [List.length_take]; omega
  rw [overwrite, window, List.append_assoc, List.drop_left' htake, List.take_left' rfl]

/-- Changing the entry behind `before`. -/
theorem modify_append_cons (before : List α) (x : α) (rest : List α) (f : α → α) :
    (before ++ x :: rest).modify before.length f = before ++ f x :: rest := by
  induction before with
  | nil => rfl
  | cons y before ih => exact congrArg (y :: ·) ih

/-! ## Equal blocks -/

/-- Every block has length `b`. -/
def Uniform (b : Nat) (blocks : List (List α)) : Prop := ∀ blk ∈ blocks, blk.length = b

theorem uniform_cons {b : Nat} {blk : List α} {blocks : List (List α)} :
    Uniform b (blk :: blocks) ↔ blk.length = b ∧ Uniform b blocks := by
  simp [Uniform]

theorem uniform_append {b : Nat} {l r : List (List α)} :
    Uniform b (l ++ r) ↔ Uniform b l ∧ Uniform b r := by
  simp only [Uniform, List.mem_append]
  constructor
  · intro h
    exact ⟨fun x hx => h x (Or.inl hx), fun x hx => h x (Or.inr hx)⟩
  · rintro ⟨hl, hr⟩ x hx
    cases hx with
    | inl h => exact hl x h
    | inr h => exact hr x h

theorem Uniform.take {b : Nat} {blocks : List (List α)} (h : Uniform b blocks) (n : Nat) :
    Uniform b (blocks.take n) := fun x hx => h x (List.mem_of_mem_take hx)

theorem Uniform.drop {b : Nat} {blocks : List (List α)} (h : Uniform b blocks) (n : Nat) :
    Uniform b (blocks.drop n) := fun x hx => h x (List.mem_of_mem_drop hx)

theorem Uniform.length_flatten {b : Nat} :
    ∀ {blocks : List (List α)}, Uniform b blocks → blocks.flatten.length = b * blocks.length
  | [], _ => by simp
  | blk :: blocks, h => by
      have h' := uniform_cons.mp h
      rw [List.flatten_cons, List.length_append, h'.1, h'.2.length_flatten, List.length_cons,
        Nat.mul_succ, Nat.add_comm]

/-- The blocks before block `c` hold the first `b * c` entries. -/
theorem Uniform.length_take_flatten {b c : Nat} {blocks : List (List α)}
    (h : Uniform b blocks) (hc : c ≤ blocks.length) :
    (blocks.take c).flatten.length = b * c := by
  rw [(h.take c).length_flatten, List.length_take, Nat.min_eq_left hc]

theorem flatten_take_drop (blocks : List (List α)) (c : Nat) :
    blocks.flatten = (blocks.take c).flatten ++ (blocks.drop c).flatten := by
  rw [← List.flatten_append, List.take_append_drop]

end Window
