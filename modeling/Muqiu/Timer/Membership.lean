import Muqiu.Timer.Handles

/-!
# Armed means present

A timer has a callback exactly while it is in the set, and the set can be searched for it by its
handle: `Consistent`.  The order of the set is read through its elements, so an operation that
changes when a timer is due has to take it out first and put it back afterwards.  `writes` lists
what an operation does to the timers and to the set, one assignment, insertion or erasure after the
other.  `Keyed` says that it comes to what the operation does, and that no assignment on the way
touches the due time of a timer that is in the set.
-/

namespace Muqiu

open SortedSet Runs

namespace TimerManager

/-! ## An operation write by write -/

/-- The timers and the set. -/
structure Store where
  heap : Nat → Option Timer
  timers : List Nat

/-- The timers and their set. -/
def store (m : TimerManager) : Store := ⟨m.heap, m.m_timers⟩

/-- The writes to the timers and to their set. -/
inductive Write where
  /-- The timer is made, or one of its members is assigned to. -/
  | assign (a : Nat) (t : Timer)
  | insert (a : Nat)
  | erase (a : Nat)
  /-- The first `n` timers are erased. -/
  | eraseFront (n : Nat)

/-- What a write does. -/
def Store.write (s : Store) : Write → Store
  | .assign a t => { s with heap := Function.update s.heap a (some t) }
  | .insert a => { s with timers := SortedSet.insert (less s.heap) a s.timers }
  | .erase a => { s with timers := SortedSet.erase (less s.heap) a s.timers }
  | .eraseFront n => { s with timers := s.timers.drop n }

/-- The body of the loop in `listExpiredCb`. -/
def rearmWrites (now_ms : UInt64) (heap : Nat → Option Timer) (a : Nat) : List Write :=
  match heap a with
  | none => []
  | some t =>
      if t.m_recurring then [.assign a { t with m_next := now_ms + t.m_ms }, .insert a]
      else [.assign a { t with m_cb := none }]

/-- The handle is that of a timer with a callback, and the set has it. -/
def handled (m : TimerManager) (a : Nat) : Option Timer :=
  match m.heap a with
  | none => none
  | some t => if t.m_cb.isSome then (find? (less m.heap) a m.m_timers).map fun _ => t else none

/-- What an operation does, in the order of the source. -/
def writes (m : TimerManager) : Act → List Write
  | .addTimer now a ms cb recurring => [.assign a ⟨recurring, ms, now + ms, cb⟩, .insert a]
  | .cancel a =>
      match m.heap a with
      | none => []
      | some t => if t.m_cb.isSome then [.assign a { t with m_cb := none }, .erase a] else []
  | .refresh now a =>
      match m.handled a with
      | none => []
      | some t => [.erase a, .assign a { t with m_next := now + t.m_ms }, .insert a]
  | .reset now a ms from_now =>
      match m.handled a with
      | none => []
      | some t =>
          if ms = t.m_ms ∧ from_now = false then []
          else
            [.erase a, .assign a { t with m_ms := ms },
              .assign a { t with
                m_ms := ms, m_next := (if from_now then now else t.m_next - t.m_ms) + ms },
              .insert a]
  | .getNextTimer _ => []
  | .listExpiredCb now_ms tmp =>
      .eraseFront (m.expired now_ms tmp).length ::
        (m.expired now_ms tmp).flatMap (rearmWrites now_ms m.heap)

/-- The writes lead from `s` to `s'`.  Before each of them the set is in order, and it leaves the
due times of the timers in the set as they are. -/
def Keyed : Store → List Write → Store → Prop
  | s, [], s' => s' = s
  | s, w :: ws, s' =>
      Sorted (less s.heap) s.timers ∧
        (∀ b ∈ s.timers, nextOf (s.write w).heap b = nextOf s.heap b) ∧ Keyed (s.write w) ws s'

theorem Keyed.append {s s₁ s' : Store} {ws ws' : List Write} (h : Keyed s ws s₁)
    (h' : Keyed s₁ ws' s') : Keyed s (ws ++ ws') s' := by
  induction ws generalizing s with
  | nil =>
      cases h
      exact h'
  | cons w ws ih => exact ⟨h.1, h.2.1, ih h.2.2⟩

theorem nextOf_of_mem {heap : Nat → Option Timer} {timers : List Nat} {a b : Nat}
    (ha : a ∉ timers) (hb : b ∈ timers) (t : Option Timer) :
    nextOf (Function.update heap a t) b = nextOf heap b := by
  refine nextOf_update_ne ?_ t
  rintro rfl
  exact ha hb

/-- Assigning to a timer that is not in the set, and inserting it. -/
theorem keyed_assign_insert {heap : Nat → Option Timer} {timers : List Nat} {a : Nat}
    (hs : Sorted (less heap) timers) (ha : a ∉ timers) (t : Timer) :
    Keyed ⟨heap, timers⟩ [.assign a t, .insert a]
      ⟨Function.update heap a (some t),
        SortedSet.insert (less (Function.update heap a (some t))) a timers⟩ :=
  ⟨hs, fun _ hb => nextOf_of_mem ha hb _, sorted_update hs ha _, fun _ _ => rfl, rfl⟩

/-- The timers taken out are behind the front no more. -/
theorem keyed_collect (now_ms : UInt64) (heap : Nat → Option Timer) {due : List Nat}
    {m : TimerManager} (h : m.Ordered) (hnodup : due.Nodup) (hout : ∀ a ∈ due, a ∉ m.m_timers)
    (hheap : ∀ a ∈ due, m.heap a = heap a) :
    Keyed m.store (due.flatMap (rearmWrites now_ms heap)) (collect now_ms due m).2.store := by
  induction due generalizing m with
  | nil => rfl
  | cons a due ih =>
      obtain ⟨ha, hnodup'⟩ := List.nodup_cons.mp hnodup
      have hmem := hout a List.mem_cons_self
      have hout' : ∀ b ∈ due, b ∉ m.m_timers := fun b hb => hout b (List.mem_cons_of_mem _ hb)
      have hother : ∀ (t : Option Timer), ∀ b ∈ due, Function.update m.heap a t b = heap b := by
        intro t b hb
        have hba : b ≠ a := fun hba => ha (hba ▸ hb)
        rw [Function.update_of_ne hba]
        exact hheap b (List.mem_cons_of_mem _ hb)
      rw [List.flatMap_cons, rearmWrites, ← hheap a List.mem_cons_self, TimerManager.collect]
      cases ht : m.heap a with
      | none => exact ih h hnodup' hout' fun b hb => hheap b (List.mem_cons_of_mem _ hb)
      | some t =>
          by_cases hrec : t.m_recurring = true
          · simp only [if_pos hrec]
            refine (keyed_assign_insert h.sorted hmem _).append
              (ih (ordered_insert h.sorted h.allocated hmem) hnodup' ?_ (hother _))
            intro b hb hins
            cases (mem_insert (less_strictTotal _)).mp hins with
            | inl heq => exact ha (heq ▸ hb)
            | inr hold => exact hout' b hb hold
          · simp only [if_neg hrec]
            have hone : Keyed m.store [.assign a { t with m_cb := none }]
                ⟨Function.update m.heap a (some { t with m_cb := none }), m.m_timers⟩ :=
              ⟨h.sorted, fun _ hb => nextOf_of_mem hmem hb _, rfl⟩
            refine hone.append (ih (m := { m with
              heap := Function.update m.heap a (some { t with m_cb := none }) })
              ⟨sorted_update h.sorted hmem _, ?_⟩ hnodup' hout' (hother _))
            intro c hc
            by_cases hca : c = a
            · simp [hca]
            · simp only [Function.update_of_ne hca]
              exact h.allocated c hc

/-! ## The operations -/

/-- Erasing a timer, assigning to it, and inserting it again. -/
theorem Ordered.keyed_rearm {m : TimerManager} (h : m.Ordered) (a : Nat) {ws : List Write}
    {s : Store} (hrest : Keyed ⟨m.heap, SortedSet.erase (less m.heap) a m.m_timers⟩ ws s) :
    Keyed m.store (.erase a :: ws) s :=
  ⟨h.sorted, fun _ _ => rfl, hrest⟩

theorem handled_eq {m : TimerManager} {a : Nat} {t : Timer} (ht : m.heap a = some t) :
    m.handled a =
      if t.m_cb.isSome then (find? (less m.heap) a m.m_timers).map fun _ => t else none := by
  rw [handled, ht]

theorem Ordered.keyed_cancel {m m' : TimerManager} (h : m.Ordered) {a : Nat} {t : Timer}
    {r : Bool} (ht : m.heap a = some t) (hc : m.cancel a t = some (r, m')) :
    Keyed m.store (m.writes (.cancel a)) m'.store := by
  rw [writes, ht]
  simp only
  rw [TimerManager.cancel] at hc
  by_cases hcb : t.m_cb.isSome = true
  · have hless : less (Function.update m.heap a (some { t with m_cb := none })) = less m.heap :=
      less_update_next ht { t with m_cb := none } rfl
    have hnext : ∀ b, nextOf (Function.update m.heap a (some { t with m_cb := none })) b =
        nextOf m.heap b := by
      intro b
      by_cases hba : b = a
      · rw [hba, nextOf_of_heap (Function.update_self _ _ _), nextOf_of_heap ht]
      · exact nextOf_update_ne hba _
    rw [if_pos hcb] at hc ⊢
    simp only [hless] at hc
    cases hf : find? (less m.heap) a m.m_timers with
    | none => simp [hf] at hc
    | some b =>
        simp only [hf, Option.some.injEq, Prod.mk.injEq] at hc
        obtain ⟨-, rfl⟩ := hc
        refine ⟨h.sorted, fun b _ => hnext b, ?_, fun _ _ => rfl, ?_⟩
        · show Sorted (less (Function.update m.heap a _)) m.m_timers
          rw [hless]
          exact h.sorted
        · show (⟨_, _⟩ : Store) = ⟨_, SortedSet.erase (less (Function.update m.heap a _)) a _⟩
          rw [hless]
          rfl
  · rw [if_neg hcb] at hc ⊢
    cases Option.some.inj hc
    rfl

theorem Ordered.keyed_refresh {m : TimerManager} (h : m.Ordered) (now : UInt64) {a : Nat}
    {t : Timer} (ht : m.heap a = some t) :
    Keyed m.store (m.writes (.refresh now a)) (m.refresh now a t).2.store := by
  rw [writes, handled_eq ht, TimerManager.refresh]
  by_cases hcb : t.m_cb.isSome = true
  · rw [if_pos hcb, if_pos hcb]
    cases hf : find? (less m.heap) a m.m_timers with
    | none => rfl
    | some b =>
        obtain ⟨hsorted, -, hmem⟩ := h.erase a
        exact h.keyed_rearm a (keyed_assign_insert hsorted hmem _)
  · rw [if_neg hcb, if_neg hcb]
    rfl

theorem Ordered.keyed_reset {m : TimerManager} (h : m.Ordered) (now : UInt64) {a : Nat}
    {t : Timer} (ht : m.heap a = some t) (ms : UInt64) (from_now : Bool) :
    Keyed m.store (m.writes (.reset now a ms from_now))
      (m.reset now a t ms from_now).2.1.store := by
  rw [writes, handled_eq ht, TimerManager.reset]
  by_cases hcb : t.m_cb.isSome = true
  · rw [if_pos hcb, if_pos hcb]
    cases hf : find? (less m.heap) a m.m_timers with
    | none =>
        simp only [Option.map_none]
        split
        next => rfl
        next => rfl
    | some b =>
        obtain ⟨hsorted, -, hmem⟩ := h.erase a
        simp only [Option.map_some]
        split
        next => rfl
        next =>
          refine h.keyed_rearm a ⟨hsorted, fun _ hb => nextOf_of_mem hmem hb _, ?_⟩
          have hsorted' := sorted_update hsorted hmem (some { t with m_ms := ms })
          have hlast := keyed_assign_insert hsorted' hmem { t with
              m_ms := ms, m_next := (if from_now then now else t.m_next - t.m_ms) + ms }
          rw [Function.update_idem] at hlast
          exact hlast
  · rw [if_neg hcb, if_neg hcb]
    simp only
    split
    next => rfl
    next => rfl

theorem Ordered.keyed_listExpiredCb {m : TimerManager} (h : m.Ordered) (now_ms : UInt64)
    (tmp : Nat) :
    Keyed m.store (m.writes (.listExpiredCb now_ms tmp))
      (m.listExpiredCb now_ms tmp).2.store := by
  refine ⟨h.sorted, fun _ _ => rfl, ?_⟩
  cases hts : m.m_timers with
  | nil =>
      simp only [expired, TimerManager.listExpiredCb, hts, List.flatMap_nil]
      rw [Keyed, Store.write, store, hts]
      rfl
  | cons first rest =>
      rw [expired, TimerManager.listExpiredCb]
      simp only [hts]
      generalize hroll : (m.detectColckRollover now_ms).1 = rollover
      by_cases hearly : rollover = false ∧ nextOf m.heap first > now_ms
      · rw [if_pos hearly, if_pos (show rollover = false ∧
          nextOf (m.detectColckRollover now_ms).2.heap first > now_ms from hearly)]
        rfl
      · have hsplit : (m.detectColckRollover now_ms).2.splitDue rollover now_ms tmp =
          m.splitDue rollover now_ms tmp := rfl
        have hcut := m.splitDue_append rollover now_ms tmp
        have hnodup := Sorted.nodup h.sorted
        rw [← hcut] at hnodup
        obtain ⟨hexpired, -, hdisj⟩ := List.nodup_append.mp hnodup
        have hsub : (m.splitDue rollover now_ms tmp).2.Sublist m.m_timers := by
          rw [← hcut]
          exact List.sublist_append_right _ _
        have hleft : m.m_timers.drop (m.splitDue rollover now_ms tmp).1.length =
            (m.splitDue rollover now_ms tmp).2 := by
          rw [← hcut, List.drop_left]
        rw [if_neg hearly, if_neg (show ¬(rollover = false ∧
          nextOf (m.detectColckRollover now_ms).2.heap first > now_ms) from hearly)]
        simp only [hsplit]
        rw [Store.write, store, hleft]
        exact keyed_collect now_ms m.heap
          (m := { m with
            m_previousTime := now_ms, m_timers := (m.splitDue rollover now_ms tmp).2 })
          ⟨h.sorted.sublist hsub, fun c hc => h.allocated c (hsub.subset hc)⟩ hexpired
          (fun a ha hmem => hdisj a ha a hmem rfl) (fun _ _ => rfl)

/-- Every operation takes a timer out before it changes when the timer is due. -/
theorem Ordered.keyed {m m' : TimerManager} (h : m.Ordered) {act : Act}
    (hstep : TimerManager.step m act = some m') :
    Keyed m.store (m.writes act) m'.store := by
  cases act with
  | addTimer now a ms cb recurring =>
      simp only [TimerManager.step, Option.ite_none_left_eq_some, Option.some.injEq] at hstep
      obtain ⟨hfree, rfl⟩ := hstep
      exact keyed_assign_insert h.sorted (fun hmem => hfree (h.allocated a hmem)) _
  | cancel a =>
      simp only [TimerManager.step, Option.bind_eq_some_iff, Option.map_eq_some_iff] at hstep
      obtain ⟨t, ht, ⟨r, m''⟩, hc, rfl⟩ := hstep
      exact h.keyed_cancel ht hc
  | refresh now a =>
      obtain ⟨t, ht, rfl⟩ := Option.map_eq_some_iff.mp hstep
      exact h.keyed_refresh now ht
  | reset now a ms from_now =>
      obtain ⟨t, ht, rfl⟩ := Option.map_eq_some_iff.mp hstep
      exact h.keyed_reset now ht ms from_now
  | getNextTimer now =>
      cases Option.some.inj hstep
      rw [getNextTimer_snd]
      rfl
  | listExpiredCb now tmp =>
      simp only [TimerManager.step, Option.ite_none_left_eq_some, Option.some.injEq] at hstep
      obtain ⟨-, rfl⟩ := hstep
      exact h.keyed_listExpiredCb now tmp

/-! ## Every run -/

/-- A timer is armed exactly while it is in the set, once, and is found there. -/
structure Consistent (m : TimerManager) : Prop where
  armed : ∀ a, m.Armed a ↔ a ∈ m.m_timers
  once : ∀ a ∈ m.m_timers, m.m_timers.count a = 1
  sorted : Sorted (less m.heap) m.m_timers
  found : ∀ a ∈ m.m_timers, find? (less m.heap) a m.m_timers = some a
  /-- `cancel` erases no `end()`. -/
  cancels : ∀ a t, m.heap a = some t → (m.cancel a t).isSome = true
  /-- No due time in the set changes in the course of the next operation. -/
  keyed : ∀ act m', step m act = some m' → Keyed m.store (m.writes act) m'.store

theorem Live.consistent {m : TimerManager} (h : m.Live) : m.Consistent where
  armed a := (h.armed a).symm
  once _ ha := List.count_eq_one_of_mem (Sorted.nodup h.ordered.sorted) ha
  sorted := h.ordered.sorted
  found _ ha := h.ordered.find?_of_mem ha
  cancels := by
    intro a t ht
    cases hcb : t.m_cb.isSome with
    | false =>
        rw [cancel_of_null hcb]
        rfl
    | true =>
        have harmed : m.Armed a := by rw [Armed, callback_of_heap ht, hcb]
        obtain ⟨m', hc⟩ := h.ordered.cancel_of_mem ht hcb ((h.armed a).mpr harmed)
        rw [hc]
        rfl
  keyed _ _ hstep := h.ordered.keyed hstep

/-- In every state of every run that registers no null callback, the timers in the set are the armed
ones. -/
theorem armed_iff_present (now : UInt64) {acts : List Act} (h : ∀ act ∈ acts, NonNull act) :
    Throughout step Consistent (new now) acts := by
  have hkeep : ∀ m act m', Live m → NonNull act → step m act = some m' → Live m' :=
    fun _ _ _ hlive hcb hstep => hlive.step hcb hstep
  exact (throughout_of_along hkeep (new_live now) (along_of_forall h)).mono
    fun _ hlive => hlive.consistent

/-- A timer that recurs is fired, moved and cancelled. -/
theorem armed_iff_present_moved :
    Throughout step Consistent (new 0)
      [.addTimer 0 1 100 (some 0) true, .listExpiredCb 100 2, .refresh 150 1,
        .reset 160 1 30 true, .cancel 1] :=
  armed_iff_present 0 (by decide)

end TimerManager

end Muqiu
