import Muqiu.IoManager.Model

/-!
# The context table

`contextResize` keeps every pointer below the new size and fills the rest with new objects,
each with its own index as `fd` and no event.  `TableOk` is what the table satisfies: no
entry is null and entry `i` points to a context with `fd` equal to `i`.
-/

namespace Muqiu

namespace IOManager

namespace World

/-- A context nobody has registered anything on. -/
def Unused (c : FdContext) : Prop := ∃ i, c = .new i

theorem length_fillNull : ∀ (i : Nat) (table : List (Option Nat)) (heap : List FdContext),
    (fillNull i table heap).1.length = table.length
  | _, [], _ => rfl
  | i, some p :: rest, heap => by
      rw [fillNull, List.length_cons, length_fillNull (i + 1) rest heap, List.length_cons]
  | i, none :: rest, heap => by
      rw [fillNull, List.length_cons, length_fillNull (i + 1) rest _, List.length_cons]

/-- The heap grows by unused contexts. -/
theorem fillNull_heap : ∀ (i : Nat) (table : List (Option Nat)) (heap : List FdContext),
    ∃ extra, (fillNull i table heap).2 = heap ++ extra ∧ ∀ c ∈ extra, Unused c
  | _, [], heap => ⟨[], by simp [fillNull], by simp⟩
  | i, some p :: rest, heap => fillNull_heap (i + 1) rest heap
  | i, none :: rest, heap => by
      obtain ⟨extra, heq, hnew⟩ := fillNull_heap (i + 1) rest (heap ++ [.new i])
      refine ⟨.new i :: extra, by rw [fillNull, heq, List.append_assoc]; rfl, ?_⟩
      intro c hc
      cases List.mem_cons.mp hc with
      | inl h => exact ⟨i, h⟩
      | inr h => exact hnew c h

/-- An entry keeps its pointer, or it was null and points to a new context with its index. -/
theorem fillNull_get : ∀ (i : Nat) (table : List (Option Nat)) (heap : List FdContext) (k : Nat)
    (entry : Option Nat), table[k]? = some entry →
    ∃ q, (fillNull i table heap).1[k]? = some (some q) ∧
      (entry = some q ∨
        entry = none ∧ (fillNull i table heap).2[q]? = some (.new (i + k)))
  | _, [], _, _, _, h => by simp at h
  | i, some p :: rest, heap, 0, entry, h => by
      refine ⟨p, rfl, Or.inl ?_⟩
      simpa using h.symm
  | i, none :: rest, heap, 0, entry, h => by
      refine ⟨heap.length, rfl, Or.inr ⟨by simpa using h.symm, ?_⟩⟩
      obtain ⟨extra, heq, _⟩ := fillNull_heap (i + 1) rest (heap ++ [.new i])
      rw [fillNull, heq]
      simp
  | i, some p :: rest, heap, k + 1, entry, h => by
      obtain ⟨q, hq, hcases⟩ := fillNull_get (i + 1) rest heap k entry (by simpa using h)
      refine ⟨q, by simpa [fillNull] using hq, ?_⟩
      rw [show i + (k + 1) = i + 1 + k by omega]
      exact hcases
  | i, none :: rest, heap, k + 1, entry, h => by
      obtain ⟨q, hq, hcases⟩ := fillNull_get (i + 1) rest (heap ++ [.new i]) k entry
        (by simpa using h)
      refine ⟨q, by simpa [fillNull] using hq, ?_⟩
      rw [show i + (k + 1) = i + 1 + k by omega]
      exact hcases

@[simp] theorem length_contextResize (w : World) (size : Nat) :
    (w.contextResize size).m_fdContexts.length = size := by
  simp only [contextResize, length_fillNull, List.length_append, List.length_take,
    List.length_replicate]
  omega

theorem contextResize_heap (w : World) (size : Nat) :
    ∃ extra, (w.contextResize size).heap = w.heap ++ extra ∧ ∀ c ∈ extra, Unused c :=
  fillNull_heap _ _ _

/-- An object that existed before a resize is the same object after it. -/
theorem contextResize_heap_some {w : World} {size p : Nat} {c : FdContext}
    (h : w.heap[p]? = some c) : (w.contextResize size).heap[p]? = some c := by
  obtain ⟨extra, heq, _⟩ := contextResize_heap w size
  rw [heq, List.getElem?_append_left (List.getElem?_eq_some_iff.mp h).1]
  exact h

/-- No entry is null, and entry `i` points to a context whose `fd` is `i`. -/
def TableOk (w : World) : Prop :=
  ∀ (i : Nat) (entry : Option Nat), w.m_fdContexts[i]? = some entry →
    ∃ p c, entry = some p ∧ w.heap[p]? = some c ∧ c.fd = i

/-- Below both sizes a resize keeps the pointers. -/
theorem contextResize_keeps {w : World} {size i p : Nat} (hi : i < size)
    (h : w.m_fdContexts[i]? = some (some p)) :
    (w.contextResize size).m_fdContexts[i]? = some (some p) := by
  have hlen := (List.getElem?_eq_some_iff.mp h).1
  have htake : (w.m_fdContexts.take size ++
      List.replicate (size - w.m_fdContexts.length) none)[i]? = some (some p) := by
    rw [List.getElem?_append_left (by rw [List.length_take]; omega),
      List.getElem?_take, if_pos hi]
    exact h
  obtain ⟨q, hq, hcases⟩ := fillNull_get 0 _ w.heap i _ htake
  cases hcases with
  | inl heq => rw [heq]; exact hq
  | inr hnull => exact absurd hnull.1 (by simp)

theorem TableOk.contextResize {w : World} (h : TableOk w) (size : Nat) :
    TableOk (w.contextResize size) := by
  intro i entry hentry
  have hi : i < size := by
    have := (List.getElem?_eq_some_iff.mp hentry).1
    rwa [length_contextResize] at this
  by_cases hlt : i < w.m_fdContexts.length
  · obtain ⟨p, c, heq, hc, hfd⟩ := h i _ (List.getElem?_eq_getElem hlt)
    have hkeep := contextResize_keeps hi ((List.getElem?_eq_getElem hlt).trans (by rw [heq]))
    rw [hentry] at hkeep
    exact ⟨p, c, Option.some.inj hkeep, contextResize_heap_some hc, hfd⟩
  · have hnull : (w.m_fdContexts.take size ++
        List.replicate (size - w.m_fdContexts.length) none)[i]? = some none := by
      rw [List.getElem?_append_right (by rw [List.length_take]; omega)]
      simp only [List.length_take, List.getElem?_replicate]
      rw [if_pos (by omega)]
    obtain ⟨q, hq, hcases⟩ := fillNull_get 0 _ w.heap i _ hnull
    have heq : some entry = some (some q) := hentry.symm.trans hq
    cases hcases with
    | inl h => exact absurd h (by simp)
    | inr h =>
        rw [Nat.zero_add] at h
        exact ⟨q, .new i, Option.some.inj heq, h.2, rfl⟩

theorem TableOk.ensure {w : World} (h : TableOk w) (fd : Int) : TableOk (w.ensure fd) := by
  by_cases hlt : w.tableSize > fd
  · rw [World.ensure, if_pos hlt]; exact h
  · rw [World.ensure, if_neg hlt]; exact h.contextResize _

/-- What the table gives for a descriptor. -/
theorem contextAt_eq_some {w : World} {fd : Int} {p : Nat} :
    w.contextAt fd = some p ↔ ∃ i : Nat, fd = i ∧ w.m_fdContexts[i]? = some (some p) := by
  rw [contextAt]
  by_cases hfd : 0 ≤ fd
  · obtain ⟨i, rfl⟩ := Int.eq_ofNat_of_zero_le hfd
    rw [if_pos hfd, Option.join_eq_some_iff, Int.toNat_natCast]
    constructor
    · intro h; exact ⟨i, rfl, h⟩
    · rintro ⟨j, hij, h⟩
      rw [Int.natCast_inj.mp hij]
      exact h
  · rw [if_neg hfd]
    constructor
    · intro h; simp at h
    · rintro ⟨i, rfl, _⟩
      exact absurd (Int.natCast_nonneg i) hfd

theorem TableOk.contextAt {w : World} (h : TableOk w) {fd : Int} {p : Nat}
    (hp : w.contextAt fd = some p) : ∃ c, w.heap[p]? = some c ∧ (c.fd : Int) = fd := by
  obtain ⟨i, rfl, hi⟩ := contextAt_eq_some.mp hp
  obtain ⟨q, c, heq, hc, hfd⟩ := h i _ hi
  cases Option.some.inj heq
  exact ⟨c, hc, by rw [hfd]⟩

/-- Updating an object that keeps its `fd` keeps the table. -/
theorem TableOk.set {w v : World} {p : Nat} {c c' : FdContext} (h : TableOk w)
    (htable : v.m_fdContexts = w.m_fdContexts) (hheap : v.heap = w.heap.set p c')
    (hc : w.heap[p]? = some c) (hfd : c'.fd = c.fd) : TableOk v := by
  intro i entry hentry
  rw [htable] at hentry
  obtain ⟨q, d, heq, hd, hdfd⟩ := h i entry hentry
  rw [hheap]
  by_cases hqp : p = q
  · subst hqp
    rw [hc] at hd
    cases Option.some.inj hd
    exact ⟨p, c', heq, by rw [List.getElem?_set_self (List.getElem?_eq_some_iff.mp hc).1],
      hfd.trans hdfd⟩
  · exact ⟨q, d, heq, by rw [List.getElem?_set_ne hqp]; exact hd, hdfd⟩

end World

end IOManager

end Muqiu
