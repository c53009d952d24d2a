import Muqiu.Timer.Model

/-!
# The order of the timer set

The comparator orders timers by due time and breaks ties by address, so on any heap it is a
strict total order.  No operation changes the due time of a timer in the set: `refresh`,
`reset` and the re-arming of `listExpiredCb` take it out first.  So the set stays sorted, and
the first timer is the one due first.
-/

namespace Muqiu

open SortedSet

namespace TimerManager

theorem less_eq_true {heap : Nat → Option Timer} {a b : Nat} :
    less heap a b = true ↔
      (nextOf heap a).toNat < (nextOf heap b).toNat ∨
        (nextOf heap a).toNat = (nextOf heap b).toNat ∧ a < b := by
  simp only [less, Timer.comparator, UInt64.lt_iff_toNat_lt]
  by_cases hab : (nextOf heap a).toNat < (nextOf heap b).toNat
  · rw [if_pos hab]
    exact ⟨fun _ => Or.inl hab, fun _ => rfl⟩
  · rw [if_neg hab]
    by_cases hba : (nextOf heap b).toNat < (nextOf heap a).toNat
    · rw [if_pos hba]
      constructor
      · intro h; simp at h
      · rintro (h | h)
        · exact absurd h hab
        · rw [h.1] at hba
          exact absurd hba (Nat.lt_irrefl _)
    · have heq : (nextOf heap a).toNat = (nextOf heap b).toNat := by omega
      rw [if_neg hba, decide_eq_true_iff]
      exact ⟨fun h => Or.inr ⟨heq, h⟩, fun h => (h.resolve_left hab).2⟩

theorem less_eq_false {heap : Nat → Option Timer} {a b : Nat} :
    less heap a b = false ↔
      (nextOf heap b).toNat < (nextOf heap a).toNat ∨
        (nextOf heap b).toNat = (nextOf heap a).toNat ∧ b ≤ a := by
  rw [Bool.eq_false_iff, Ne, less_eq_true]
  omega

theorem less_strictTotal (heap : Nat → Option Timer) : StrictTotal (less heap) where
  irrefl a := by rw [less_eq_false]; omega
  trans a b c hab hbc := by
    rw [less_eq_true] at *
    omega
  tri a b hab hba := by
    rw [less_eq_false] at hab hba
    omega

theorem nextOf_update_ne {heap : Nat → Option Timer} {a b : Nat} (h : b ≠ a)
    (t : Option Timer) : nextOf (Function.update heap a t) b = nextOf heap b := by
  rw [nextOf, nextOf, Function.update_of_ne h]

/-- Changing a timer that is not in the set leaves the set sorted. -/
theorem sorted_update {heap : Nat → Option Timer} {xs : List Nat} {a : Nat}
    (h : Sorted (less heap) xs) (ha : a ∉ xs) (t : Option Timer) :
    Sorted (less (Function.update heap a t)) xs := by
  refine h.congr fun b hb c hc => ?_
  have hba : b ≠ a := fun heq => ha (heq ▸ hb)
  have hca : c ≠ a := fun heq => ha (heq ▸ hc)
  rw [less, less, nextOf_update_ne hba, nextOf_update_ne hca]

/-- Changing a timer without changing when it is due leaves the set sorted. -/
theorem less_update_next {heap : Nat → Option Timer} {a : Nat} {t : Timer}
    (ha : heap a = some t) (t' : Timer) (hnext : t'.m_next = t.m_next) :
    less (Function.update heap a (some t')) = less heap := by
  have hnextOf : nextOf (Function.update heap a (some t')) = nextOf heap := by
    funext b
    by_cases hb : b = a
    · rw [hb, nextOf, nextOf, Function.update_self, ha]
      exact hnext
    · exact nextOf_update_ne hb _
  funext b c
  rw [less, less, hnextOf]

/-! ## The invariant -/

/-- The set is sorted, and every address in it is that of a timer. -/
structure Ordered (m : TimerManager) : Prop where
  sorted : Sorted (less m.heap) m.m_timers
  allocated : ∀ a ∈ m.m_timers, (m.heap a).isSome = true

theorem new_ordered (now : UInt64) : (new now).Ordered :=
  ⟨List.Pairwise.nil, fun _ h => by simp [new] at h⟩

/-- Changing a timer that is not in the set and inserting it. -/
theorem ordered_insert {heap : Nat → Option Timer} {xs : List Nat} {a : Nat} {t : Timer}
    {b : Bool} {now : UInt64} (hs : Sorted (less heap) xs)
    (halloc : ∀ c ∈ xs, (heap c).isSome = true) (ha : a ∉ xs) :
    Ordered ⟨Function.update heap a (some t),
      insert (less (Function.update heap a (some t))) a xs, b, now⟩ := by
  refine ⟨sorted_insert (less_strictTotal _) (sorted_update hs ha _), ?_⟩
  intro c hc
  by_cases hca : c = a
  · simp [hca]
  · simp only [Function.update_of_ne hca]
    exact halloc c (((mem_insert (less_strictTotal _)).mp hc).resolve_left hca)

theorem Ordered.erase {m : TimerManager} (h : m.Ordered) (a : Nat) :
    Sorted (less m.heap) (SortedSet.erase (less m.heap) a m.m_timers) ∧
      (∀ c ∈ SortedSet.erase (less m.heap) a m.m_timers, (m.heap c).isSome = true) ∧
      a ∉ SortedSet.erase (less m.heap) a m.m_timers := by
  have hsub : (SortedSet.erase (less m.heap) a m.m_timers).Sublist m.m_timers :=
    erase_sublist a m.m_timers
  refine ⟨h.sorted.sublist hsub, fun c hc => h.allocated c (hsub.subset hc), ?_⟩
  rw [mem_erase (less_strictTotal _) h.sorted]
  exact fun hmem => hmem.1 rfl

/-! ## The operations -/

theorem Ordered.addTimer {m : TimerManager} (h : m.Ordered) {now : UInt64} {a : Nat}
    (hfree : (m.heap a).isSome = false) (ms : UInt64) (cb : Option Nat) (recurring : Bool) :
    (m.addTimer now a ms cb recurring).1.Ordered := by
  refine ordered_insert h.sorted h.allocated fun hmem => ?_
  rw [h.allocated a hmem] at hfree
  simp at hfree

theorem Ordered.cancel {m m' : TimerManager} (h : m.Ordered) {a : Nat} {t : Timer} {r : Bool}
    (ht : m.heap a = some t) (hc : m.cancel a t = some (r, m')) : m'.Ordered := by
  rw [TimerManager.cancel] at hc
  by_cases hcb : t.m_cb.isSome = true
  · rw [if_pos hcb] at hc
    have hless : less (Function.update m.heap a (some { t with m_cb := none })) = less m.heap :=
      less_update_next ht { t with m_cb := none } rfl
    simp only [hless] at hc
    cases hf : find? (less m.heap) a m.m_timers with
    | none => simp [hf] at hc
    | some b =>
        simp only [hf, Option.some.injEq, Prod.mk.injEq] at hc
        obtain ⟨_, rfl⟩ := hc
        obtain ⟨hsorted, halloc, _⟩ := h.erase a
        refine ⟨by rw [hless]; exact hsorted, fun c hc => ?_⟩
        by_cases hca : c = a
        · simp [hca]
        · simp only [Function.update_of_ne hca]
          exact halloc c hc
  · rw [if_neg hcb] at hc
    cases Option.some.inj hc
    exact h

theorem Ordered.refresh {m : TimerManager} (h : m.Ordered) (now : UInt64) (a : Nat)
    (t : Timer) : (m.refresh now a t).2.Ordered := by
  rw [TimerManager.refresh]
  by_cases hcb : t.m_cb.isSome = true
  · rw [if_pos hcb]
    cases hf : find? (less m.heap) a m.m_timers with
    | none => exact h
    | some b =>
        obtain ⟨hsorted, halloc, hmem⟩ := h.erase a
        exact ordered_insert hsorted halloc hmem
  · rw [if_neg hcb]; exact h

theorem Ordered.reset {m : TimerManager} (h : m.Ordered) (now : UInt64) (a : Nat) (t : Timer)
    (ms : UInt64) (from_now : Bool) : (m.reset now a t ms from_now).2.1.Ordered := by
  rw [TimerManager.reset]
  by_cases hsame : ms = t.m_ms ∧ from_now = false
  · rw [if_pos hsame]; exact h
  · rw [if_neg hsame]
    by_cases hcb : t.m_cb.isSome = true
    · rw [if_pos hcb]
      cases hf : find? (less m.heap) a m.m_timers with
      | none => exact h
      | some b =>
          obtain ⟨hsorted, halloc, hmem⟩ := h.erase a
          exact ordered_insert hsorted halloc hmem
    · rw [if_neg hcb]; exact h

/-- Re-arming timers that have been taken out keeps the rest in order. -/
theorem Ordered.collect (now_ms : UInt64) :
    ∀ {expired : List Nat} {m : TimerManager}, m.Ordered → expired.Nodup →
      (∀ a ∈ expired, a ∉ m.m_timers) → (collect now_ms expired m).2.Ordered
  | [], _, h, _, _ => h
  | a :: expired, m, h, hnodup, hout => by
      obtain ⟨ha, hnodup'⟩ := List.nodup_cons.mp hnodup
      have hmem := hout a List.mem_cons_self
      have hout' : ∀ b ∈ expired, b ∉ m.m_timers :=
        fun b hb => hout b (List.mem_cons_of_mem _ hb)
      rw [TimerManager.collect]
      cases ht : m.heap a with
      | none => exact Ordered.collect now_ms h hnodup' hout'
      | some t =>
          by_cases hrec : t.m_recurring = true
          · simp only [hrec, if_true]
            refine Ordered.collect now_ms (ordered_insert h.sorted h.allocated hmem) hnodup' ?_
            intro b hb hins
            cases (mem_insert (less_strictTotal _)).mp hins with
            | inl heq => exact ha (heq ▸ hb)
            | inr hold => exact hout' b hb hold
          · simp only [hrec, Bool.false_eq_true, if_false]
            refine Ordered.collect now_ms ⟨sorted_update h.sorted hmem _, ?_⟩ hnodup' hout'
            intro c hc
            by_cases hca : c = a
            · simp [hca]
            · simp only [Function.update_of_ne hca]
              exact h.allocated c hc

theorem Sorted.nodup {heap : Nat → Option Timer} {xs : List Nat}
    (h : Sorted (less heap) xs) : xs.Nodup := by
  refine h.imp fun hab heq => ?_
  rw [heq, (less_strictTotal heap).irrefl] at hab
  simp at hab

/-- What is taken out and what is left are the set. -/
theorem splitDue_append (m : TimerManager) (rollover : Bool) (now_ms : UInt64) (tmp : Nat) :
    (m.splitDue rollover now_ms tmp).1 ++ (m.splitDue rollover now_ms tmp).2 = m.m_timers := by
  simp only [splitDue]
  rw [List.append_assoc, List.takeWhile_append_dropWhile, List.takeWhile_append_dropWhile]

theorem Ordered.listExpiredCb {m : TimerManager} (h : m.Ordered) (now_ms : UInt64)
    (tmp : Nat) : (m.listExpiredCb now_ms tmp).2.Ordered := by
  rw [TimerManager.listExpiredCb]
  cases hts : m.m_timers with
  | nil => exact h
  | cons first rest =>
      have hm : (m.detectColckRollover now_ms).2.Ordered := ⟨h.sorted, h.allocated⟩
      generalize m.detectColckRollover now_ms = r at hm
      obtain ⟨rollover, m'⟩ := r
      simp only at hm ⊢
      by_cases hearly : rollover = false ∧ nextOf m'.heap first > now_ms
      · rw [if_pos hearly]; exact hm
      · rw [if_neg hearly]
        have hcut := splitDue_append m' rollover now_ms tmp
        have hnodup := Sorted.nodup hm.sorted
        rw [← hcut] at hnodup
        obtain ⟨hexpired, _, hdisj⟩ := List.nodup_append.mp hnodup
        have hsub : (m'.splitDue rollover now_ms tmp).2.Sublist m'.m_timers := by
          rw [← hcut]; exact List.sublist_append_right _ _
        refine Ordered.collect now_ms ⟨hm.sorted.sublist hsub, fun c hc =>
          hm.allocated c (hsub.subset hc)⟩ hexpired ?_
        intro a ha hmem
        exact hdisj a ha a hmem rfl

theorem getNextTimer_snd (m : TimerManager) (now : UInt64) :
    (m.getNextTimer now).2 = { m with m_tickled := false } := by
  rw [TimerManager.getNextTimer]
  cases m.m_timers with
  | nil => rfl
  | cons a rest =>
      simp only
      split <;> rfl

theorem Ordered.getNextTimer {m : TimerManager} (h : m.Ordered) (now : UInt64) :
    (m.getNextTimer now).2.Ordered := by
  rw [getNextTimer_snd]
  exact ⟨h.sorted, h.allocated⟩

theorem Ordered.step {m m' : TimerManager} {a : Act} (h : m.Ordered)
    (hstep : TimerManager.step m a = some m') : m'.Ordered := by
  cases a with
  | addTimer now a ms cb recurring =>
      simp only [TimerManager.step, Option.ite_none_left_eq_some, Option.some.injEq] at hstep
      obtain ⟨hfree, rfl⟩ := hstep
      exact h.addTimer (Bool.eq_false_iff.mpr hfree) ms cb recurring
  | cancel a =>
      simp only [TimerManager.step, Option.bind_eq_some_iff, Option.map_eq_some_iff] at hstep
      obtain ⟨t, ht, ⟨r, m''⟩, hc, rfl⟩ := hstep
      exact h.cancel ht hc
  | refresh now a =>
      obtain ⟨t, _, rfl⟩ := Option.map_eq_some_iff.mp hstep
      exact h.refresh now a t
  | reset now a ms from_now =>
      obtain ⟨t, _, rfl⟩ := Option.map_eq_some_iff.mp hstep
      exact h.reset now a t ms from_now
  | getNextTimer now =>
      cases Option.some.inj hstep
      exact h.getNextTimer now
  | listExpiredCb now tmp =>
      simp only [TimerManager.step, Option.ite_none_left_eq_some, Option.some.injEq] at hstep
      obtain ⟨_, rfl⟩ := hstep
      exact h.listExpiredCb now tmp

end TimerManager

end Muqiu
