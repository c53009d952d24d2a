import Mathlib.Data.List.Induction
import Mathlib.Data.List.Nodup
import Mathlib.Logic.Function.Basic

/-!
# Registrations

A history is a list of calls, oldest first, and some of them register a value under a key or
delete a key.  `current` is the value last registered under a key, unless the key was deleted
since, and `timeAt` is when that was.

A table keeps the current values (`table_eq`).  A list that puts a registration at its end, and
takes out the old one of the key, keeps them in the order of their times (`replay_spec`).
-/

namespace Registrations

/-- What a call says of a key: it has a value now, or none. -/
inductive Event (κ ν : Type*) where
  | register (k : κ) (v : ν)
  | delete (k : κ)
deriving DecidableEq, Repr

variable {α κ ν : Type*}

/-- The key it is about. -/
def Event.key : Event κ ν → κ
  | .register k _ => k
  | .delete k => k

/-- What a key has after an event about it. -/
def Event.value : Event κ ν → Option ν
  | .register _ v => some v
  | .delete _ => none

variable [DecidableEq κ] (event : α → Option (Event κ ν)) (k : κ)

/-! ## Histories -/

/-- The event of a call, if it is about the key. -/
def about (c : α) : Option (Event κ ν) := (event c).filter fun e => e.key = k

/-- The value that the last call about a key has left. -/
def current (calls : List α) : Option ν :=
  (calls.reverse.findSome? (about event k)).bind Event.value

/-- The call registers something under the key. -/
def registers (c : α) : Bool := ((about event k c).bind Event.value).isSome

/-- The number of calls up to the latest registration. -/
def timeAt (calls : List α) : Nat :=
  (calls.reverse.dropWhile fun c => !registers event k c).length

variable {event k} {calls : List α} {c : α}

theorem about_eq_some {e : Event κ ν} :
    about event k c = some e ↔ event c = some e ∧ e.key = k := by
  rw [about, Option.filter_eq_some_iff, decide_eq_true_iff]

theorem about_of_key_ne {e : Event κ ν} (h : event c = some e) (hk : e.key ≠ k) :
    about event k c = none := by
  rw [about, h]
  exact Option.filter_some_neg (by simpa using hk)

theorem about_of_none (h : event c = none) : about event k c = none := by
  rw [about, h]
  rfl

theorem current_nil : current event k [] = none := rfl

theorem current_concat_of_none (h : about event k c = none) :
    current event k (calls ++ [c]) = current event k calls := by
  rw [current, List.reverse_concat, List.findSome?_cons, h, current]

theorem current_concat_of_some {e : Event κ ν} (h : about event k c = some e) :
    current event k (calls ++ [c]) = e.value := by
  rw [current, List.reverse_concat, List.findSome?_cons, h, Option.bind_some]

theorem timeAt_concat_of_registers (h : registers event k c = true) :
    timeAt event k (calls ++ [c]) = calls.length + 1 := by
  rw [timeAt, List.reverse_concat, List.dropWhile_cons, h]
  simp

theorem timeAt_concat_of_not_registers (h : registers event k c = false) :
    timeAt event k (calls ++ [c]) = timeAt event k calls := by
  rw [timeAt, List.reverse_concat, List.dropWhile_cons, h]
  simp [timeAt]

theorem timeAt_le (calls : List α) : timeAt event k calls ≤ calls.length := by
  refine Nat.le_trans (List.dropWhile_sublist _).length_le ?_
  exact Nat.le_of_eq List.length_reverse

/-! ## A table -/

/-- The table after a call. -/
def update (event : α → Option (Event κ ν)) (table : κ → Option ν) (c : α) : κ → Option ν :=
  match event c with
  | none => table
  | some e => Function.update table e.key e.value

theorem table_eq (event : α → Option (Event κ ν)) (calls : List α) (k : κ) :
    calls.foldl (update event) (fun _ => none) k = current event k calls := by
  induction calls using List.reverseRecOn with
  | nil => rfl
  | append_singleton calls c ih =>
      rw [List.foldl_concat, update]
      cases hc : event c with
      | none => rw [current_concat_of_none (about_of_none hc), ← ih]
      | some e =>
          by_cases hk : e.key = k
          · rw [current_concat_of_some (about_eq_some.mpr ⟨hc, hk⟩), ← hk]
            exact Function.update_self _ _ _
          · rw [current_concat_of_none (about_of_key_ne hc hk), ← ih]
            exact Function.update_of_ne (Ne.symm hk) _ _

/-! ## A list -/

/-- The list without the first entry of a key. -/
def erase (k : κ) (entries : List (κ × ν)) : List (κ × ν) := entries.eraseP fun e => e.1 = k

/-- The list after an event. -/
def apply (entries : List (κ × ν)) : Event κ ν → List (κ × ν)
  | .register k v => erase k entries ++ [(k, v)]
  | .delete k => erase k entries

/-- The entries after some calls. -/
def replay (event : α → Option (Event κ ν)) (calls : List α) : List (κ × ν) :=
  calls.foldl (fun entries c => (event c).elim entries (apply entries)) []

/-- No key has two entries. -/
def Distinct (entries : List (κ × ν)) : Prop := (entries.map Prod.fst).Nodup

theorem mem_erase {entries : List (κ × ν)} (h : Distinct entries) {k : κ} {e : κ × ν} :
    e ∈ erase k entries ↔ e.1 ≠ k ∧ e ∈ entries := by
  induction entries with
  | nil => simp [erase]
  | cons a entries ih =>
      rw [Distinct, List.map_cons, List.nodup_cons] at h
      have hne : ∀ e ∈ entries, e.1 ≠ a.1 := fun e he heq => h.1 (heq ▸ List.mem_map_of_mem he)
      by_cases ha : a.1 = k
      · rw [erase, List.eraseP_cons_of_pos (by simpa using ha), List.mem_cons, ← ha]
        constructor
        · exact fun he => ⟨hne e he, Or.inr he⟩
        · rintro ⟨hk, rfl | he⟩
          · exact absurd rfl hk
          · exact he
      · rw [erase, List.eraseP_cons_of_neg (by simpa using ha), List.mem_cons, List.mem_cons,
          ← erase, ih h.2]
        constructor
        · rintro (rfl | ⟨hk, he⟩)
          · exact ⟨ha, Or.inl rfl⟩
          · exact ⟨hk, Or.inr he⟩
        · rintro ⟨hk, rfl | he⟩
          · exact Or.inl rfl
          · exact Or.inr ⟨hk, he⟩

theorem erase_sublist (k : κ) (entries : List (κ × ν)) : (erase k entries).Sublist entries :=
  List.eraseP_sublist

/-- The entries are the current values, in the order of the times they were registered at. -/
structure Ordered (event : α → Option (Event κ ν)) (calls : List α)
    (entries : List (κ × ν)) : Prop where
  distinct : Distinct entries
  mem : ∀ k v, (k, v) ∈ entries ↔ current event k calls = some v
  ordered : entries.Pairwise fun a b => timeAt event a.1 calls < timeAt event b.1 calls

theorem Ordered.concat_of_none {entries : List (κ × ν)} (h : Ordered event calls entries)
    (hc : event c = none) : Ordered event (calls ++ [c]) entries := by
  have htime : ∀ k, timeAt event k (calls ++ [c]) = timeAt event k calls := fun k =>
    timeAt_concat_of_not_registers (by rw [registers, about_of_none hc]; rfl)
  refine ⟨h.distinct, fun k v => ?_, ?_⟩
  · rw [h.mem, current_concat_of_none (about_of_none hc)]
  · simp only [htime]
    exact h.ordered

theorem Ordered.concat_of_delete {entries : List (κ × ν)} (h : Ordered event calls entries) {k : κ}
    (hc : event c = some (.delete k)) : Ordered event (calls ++ [c]) (erase k entries) := by
  have htime : ∀ k', timeAt event k' (calls ++ [c]) = timeAt event k' calls := by
    refine fun k' => timeAt_concat_of_not_registers ?_
    by_cases hk : k = k'
    · rw [registers, about_eq_some.mpr ⟨hc, hk⟩]
      rfl
    · rw [registers, about_of_key_ne hc hk]
      rfl
  have hsub := erase_sublist k entries
  refine ⟨h.distinct.sublist (hsub.map _), fun k' v => ?_, ?_⟩
  · rw [mem_erase h.distinct, h.mem]
    by_cases hk : k = k'
    · rw [current_concat_of_some (about_eq_some.mpr ⟨hc, hk⟩)]
      simp [Event.value, hk]
    · rw [current_concat_of_none (about_of_key_ne hc hk)]
      exact and_iff_right (Ne.symm hk)
  · simp only [htime]
    exact h.ordered.sublist hsub

/-- A registration is the latest of all. -/
theorem Ordered.concat_of_register {entries : List (κ × ν)} (h : Ordered event calls entries)
    {k : κ} {v : ν} (hc : event c = some (.register k v)) :
    Ordered event (calls ++ [c]) (erase k entries ++ [(k, v)]) := by
  have hsame : timeAt event k (calls ++ [c]) = calls.length + 1 :=
    timeAt_concat_of_registers (by
      have habout : about event k c = some (.register k v) := about_eq_some.mpr ⟨hc, rfl⟩
      rw [registers, habout]
      rfl)
  have hother : ∀ k', k ≠ k' → timeAt event k' (calls ++ [c]) = timeAt event k' calls :=
    fun k' hk => timeAt_concat_of_not_registers (by rw [registers, about_of_key_ne hc hk]; rfl)
  have hmem : ∀ e, e ∈ erase k entries ↔ e.1 ≠ k ∧ e ∈ entries := fun e => mem_erase h.distinct
  refine ⟨?_, fun k' v' => ?_, ?_⟩
  · rw [Distinct, List.map_append, List.map_singleton, List.nodup_append]
    refine ⟨h.distinct.sublist ((erase_sublist k entries).map _), List.nodup_singleton _, ?_⟩
    rintro a ha b hb rfl
    obtain ⟨e, he, rfl⟩ := List.mem_map.mp ha
    exact ((hmem e).mp he).1 (List.mem_singleton.mp hb)
  · rw [List.mem_append, hmem, List.mem_singleton, h.mem]
    by_cases hk : k = k'
    · rw [current_concat_of_some (about_eq_some.mpr ⟨hc, hk⟩)]
      subst hk
      simp [Event.value, eq_comm]
    · rw [current_concat_of_none (about_of_key_ne hc hk)]
      simp [Ne.symm hk]
  · rw [List.pairwise_append]
    refine ⟨?_, List.pairwise_singleton _ _, ?_⟩
    · refine (h.ordered.sublist (erase_sublist k entries)).imp_of_mem fun {a b} ha hb hab => ?_
      rw [hother _ (Ne.symm ((hmem a).mp ha).1), hother _ (Ne.symm ((hmem b).mp hb).1)]
      exact hab
    · intro a ha b hb
      rw [List.mem_singleton.mp hb, hsame, hother _ (Ne.symm ((hmem a).mp ha).1)]
      exact Nat.lt_succ_of_le (timeAt_le calls)

theorem replay_spec (event : α → Option (Event κ ν)) (calls : List α) :
    Ordered event calls (replay event calls) := by
  induction calls using List.reverseRecOn with
  | nil => exact ⟨List.nodup_nil, fun k v => by simp [replay, current_nil], List.Pairwise.nil⟩
  | append_singleton calls c ih =>
      rw [replay, List.foldl_concat, ← replay]
      cases hc : event c with
      | none => exact ih.concat_of_none hc
      | some e =>
          cases e with
          | register k v => exact ih.concat_of_register hc
          | delete k => exact ih.concat_of_delete hc

end Registrations
