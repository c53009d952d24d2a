import Muqiu.Timer.Order

/-!
# What an operation does to the timers

`Effect` lists what a step can do to the timers and to the set.  An operation that is refused
leaves both alone.  `addTimer`, `refresh` and `reset` change one timer and put it in the set
(`Rearmed`); a timer that is armed already is moved.  `cancel` clears the callback and takes
the timer out.  What `listExpiredCb` does is `collect_spec`.
-/

namespace Muqiu

open SortedSet

namespace TimerManager

/-- `timer->m_cb` -/
def callback (heap : Nat → Option Timer) (a : Nat) : Option Nat := (heap a).bind Timer.m_cb

theorem callback_of_heap {heap : Nat → Option Timer} {a : Nat} {t : Timer} (h : heap a = some t) :
    callback heap a = t.m_cb := by
  rw [callback, h]
  rfl

theorem nextOf_of_heap {heap : Nat → Option Timer} {a : Nat} {t : Timer} (h : heap a = some t) :
    nextOf heap a = t.m_next := by
  rw [nextOf, h]

theorem callback_update_ne {heap : Nat → Option Timer} {a b : Nat} (h : b ≠ a)
    (t : Option Timer) : callback (Function.update heap a t) b = callback heap b := by
  rw [callback, callback, Function.update_of_ne h]

/-- The timer `a` is now `t` and in the set. -/
structure Rearmed (m m' : TimerManager) (a : Nat) (t : Timer) : Prop where
  heap : m'.heap = Function.update m.heap a (some t)
  timers : ∀ b, b ∈ m'.m_timers ↔ b = a ∨ b ∈ m.m_timers
  previousTime : m'.m_previousTime = m.m_previousTime

/-- The flag is set when the timer `a` has come to the front. -/
def Fronted (m m' : TimerManager) (a : Nat) : Prop :=
  m'.m_tickled = (m.m_tickled || decide (m'.m_timers.head? = some a))

/-- What a step does. -/
inductive Effect (m : TimerManager) : Act → TimerManager → Prop where
  /-- A refusal, or `getNextTimer`. -/
  | same {act : Act} {m' : TimerManager} :
      (∀ now tmp, act ≠ .listExpiredCb now tmp) → (∀ now, act ≠ .getNextTimer now) →
      (∀ a, act = .cancel a → callback m.heap a = none) → m' = m → Effect m act m'
  | asked {now : UInt64} : Effect m (.getNextTimer now) { m with m_tickled := false }
  | added {now ms : UInt64} {a : Nat} {cb : Option Nat} {recurring : Bool} {m' : TimerManager} :
      m.heap a = none → Rearmed m m' a ⟨recurring, ms, now + ms, cb⟩ → Fronted m m' a →
      Effect m (.addTimer now a ms cb recurring) m'
  | cancelled {a : Nat} {t : Timer} {m' : TimerManager} :
      m.heap a = some t → t.m_cb.isSome = true →
      m'.heap = Function.update m.heap a (some { t with m_cb := none }) →
      (∀ b, b ∈ m'.m_timers ↔ b ≠ a ∧ b ∈ m.m_timers) → m'.m_tickled = m.m_tickled →
      m'.m_previousTime = m.m_previousTime → Effect m (.cancel a) m'
  | refreshed {now : UInt64} {a : Nat} {t : Timer} {m' : TimerManager} :
      m.heap a = some t → a ∈ m.m_timers → Rearmed m m' a { t with m_next := now + t.m_ms } →
      m'.m_tickled = m.m_tickled → Effect m (.refresh now a) m'
  | moved {now ms : UInt64} {a : Nat} {from_now : Bool} {t : Timer} {m' : TimerManager} :
      m.heap a = some t → a ∈ m.m_timers →
      Rearmed m m' a { t with
        m_ms := ms, m_next := (if from_now then now else t.m_next - t.m_ms) + ms } →
      Fronted m m' a → Effect m (.reset now a ms from_now) m'
  | swept {now : UInt64} {tmp : Nat} :
      Effect m (.listExpiredCb now tmp) (m.listExpiredCb now tmp).2

/-- Erasing an armed timer, changing it and inserting it again. -/
theorem Ordered.rearmed {m : TimerManager} (h : m.Ordered) {a : Nat} (ha : a ∈ m.m_timers)
    (t : Timer) (tickled : Bool) :
    Rearmed m ⟨Function.update m.heap a (some t),
      insert (less (Function.update m.heap a (some t))) a
        (SortedSet.erase (less m.heap) a m.m_timers), tickled, m.m_previousTime⟩ a t := by
  refine ⟨rfl, fun b => ?_, rfl⟩
  show b ∈ insert _ a _ ↔ _
  rw [mem_insert (less_strictTotal _), mem_erase (less_strictTotal _) h.sorted]
  constructor
  · rintro (rfl | ⟨_, hb⟩)
    · exact Or.inl rfl
    · exact Or.inr hb
  · rintro (rfl | hb)
    · exact Or.inl rfl
    · by_cases hba : b = a
      · exact Or.inl hba
      · exact Or.inr ⟨hba, hb⟩

theorem insertTimer_tickled (m : TimerManager) (a : Nat) :
    (m.insertTimer a).1.m_tickled =
      (m.m_tickled || decide ((m.insertTimer a).1.m_timers.head? = some a)) := by
  rw [insertTimer]
  cases m.m_tickled <;> simp

theorem addTimer_effect {m : TimerManager} {a : Nat} (hfree : m.heap a = none) (now ms : UInt64)
    (cb : Option Nat) (recurring : Bool) :
    Effect m (.addTimer now a ms cb recurring) (m.addTimer now a ms cb recurring).1 := by
  refine .added hfree ⟨rfl, fun b => ?_, rfl⟩ (insertTimer_tickled _ a)
  exact mem_insert (less_strictTotal _)

theorem Ordered.cancel_effect {m : TimerManager} (h : m.Ordered) {a : Nat} {t : Timer}
    {r : Bool} {m' : TimerManager} (ht : m.heap a = some t) (hc : m.cancel a t = some (r, m')) :
    Effect m (.cancel a) m' := by
  rw [TimerManager.cancel] at hc
  cases hcb : t.m_cb.isSome with
  | false =>
      rw [hcb, if_neg Bool.false_ne_true] at hc
      cases Option.some.inj hc
      refine .same (by simp) (by simp) ?_ rfl
      rintro b ⟨⟩
      rw [callback_of_heap ht]
      exact Option.not_isSome_iff_eq_none.mp (by simp [hcb])
  | true =>
      have hless : less (Function.update m.heap a (some { t with m_cb := none })) = less m.heap :=
        less_update_next ht { t with m_cb := none } rfl
      rw [if_pos hcb] at hc
      simp only [hless] at hc
      cases hf : find? (less m.heap) a m.m_timers with
      | none => simp [hf] at hc
      | some b =>
          simp only [hf, Option.some.injEq, Prod.mk.injEq] at hc
          obtain ⟨_, rfl⟩ := hc
          exact .cancelled ht hcb rfl
            (fun b => mem_erase (less_strictTotal _) h.sorted) rfl rfl

theorem Ordered.refresh_effect {m : TimerManager} (h : m.Ordered) {a : Nat} {t : Timer}
    (ht : m.heap a = some t) (now : UInt64) :
    Effect m (.refresh now a) (m.refresh now a t).2 := by
  have hsame : Effect m (.refresh now a) m := .same (by simp) (by simp) (by simp) rfl
  rw [TimerManager.refresh]
  cases hcb : t.m_cb.isSome with
  | false => exact hsame
  | true =>
      simp only [if_true]
      cases hf : find? (less m.heap) a m.m_timers with
      | none => exact hsame
      | some b =>
          have hmem := ((find?_eq_some (less_strictTotal _) h.sorted).mp hf).2
          exact .refreshed ht hmem (h.rearmed hmem _ _) rfl

theorem Ordered.reset_effect {m : TimerManager} (h : m.Ordered) {a : Nat} {t : Timer}
    (ht : m.heap a = some t) (now ms : UInt64) (from_now : Bool) :
    Effect m (.reset now a ms from_now) (m.reset now a t ms from_now).2.1 := by
  have hsame : Effect m (.reset now a ms from_now) m := .same (by simp) (by simp) (by simp) rfl
  rw [TimerManager.reset]
  by_cases hms : ms = t.m_ms ∧ from_now = false
  · rw [if_pos hms]; exact hsame
  · rw [if_neg hms]
    cases hcb : t.m_cb.isSome with
    | false => exact hsame
    | true =>
        simp only [if_true]
        cases hf : find? (less m.heap) a m.m_timers with
        | none => exact hsame
        | some b =>
            have hmem := ((find?_eq_some (less_strictTotal _) h.sorted).mp hf).2
            exact .moved ht hmem (h.rearmed hmem _ _) (insertTimer_tickled _ a)

theorem Ordered.step_effect {m m' : TimerManager} (h : m.Ordered) {act : Act}
    (hstep : TimerManager.step m act = some m') : Effect m act m' := by
  cases act with
  | addTimer now a ms cb recurring =>
      simp only [TimerManager.step, Option.ite_none_left_eq_some, Option.some.injEq] at hstep
      obtain ⟨hfree, rfl⟩ := hstep
      exact addTimer_effect (Option.not_isSome_iff_eq_none.mp hfree) now ms cb recurring
  | cancel a =>
      simp only [TimerManager.step, Option.bind_eq_some_iff, Option.map_eq_some_iff] at hstep
      obtain ⟨t, ht, ⟨r, m''⟩, hc, rfl⟩ := hstep
      exact h.cancel_effect ht hc
  | refresh now a =>
      obtain ⟨t, ht, rfl⟩ := Option.map_eq_some_iff.mp hstep
      exact h.refresh_effect ht now
  | reset now a ms from_now =>
      obtain ⟨t, ht, rfl⟩ := Option.map_eq_some_iff.mp hstep
      exact h.reset_effect ht now ms from_now
  | getNextTimer now =>
      cases Option.some.inj hstep
      rw [getNextTimer_snd]
      exact .asked
  | listExpiredCb now tmp =>
      simp only [TimerManager.step, Option.ite_none_left_eq_some, Option.some.injEq] at hstep
      obtain ⟨_, rfl⟩ := hstep
      exact .swept

/-! ## The sweep -/

/-- A timer whose callback has been collected. -/
def fired (now_ms : UInt64) (t : Timer) : Timer :=
  if t.m_recurring then { t with m_next := now_ms + t.m_ms } else { t with m_cb := none }

/-- The timers `listExpiredCb` takes out: its local `expired`. -/
def expired (m : TimerManager) (now_ms : UInt64) (tmp : Nat) : List Nat :=
  match m.m_timers with
  | [] => []
  | first :: _ =>
      let rollover := (m.detectColckRollover now_ms).1
      if rollover = false ∧ nextOf m.heap first > now_ms then []
      else (m.splitDue rollover now_ms tmp).1

/-- Whether `timer->m_recurring`. -/
def recurs (heap : Nat → Option Timer) (a : Nat) : Bool :=
  ((heap a).map Timer.m_recurring).getD false

theorem recurs_of_heap {heap : Nat → Option Timer} {a : Nat} {t : Timer} (h : heap a = some t) :
    recurs heap a = t.m_recurring := by
  rw [recurs, h]
  rfl

/-- Each timer of `due` is fired, the recurring ones are in the set, and the others are as they
were. -/
structure Swept (m m' : TimerManager) (now_ms : UInt64) (due : List Nat) : Prop where
  heap : ∀ a ∈ due, m'.heap a = (m.heap a).map (fired now_ms)
  rest : ∀ a, a ∉ due → m'.heap a = m.heap a
  timers : ∀ a, a ∈ m'.m_timers ↔ a ∈ m.m_timers ∨ a ∈ due ∧ recurs m.heap a = true
  tickled : m'.m_tickled = m.m_tickled
  previousTime : m'.m_previousTime = m.m_previousTime

theorem collect_spec (now_ms : UInt64) :
    ∀ {due : List Nat} {m : TimerManager}, due.Nodup → (∀ a ∈ due, (m.heap a).isSome = true) →
      (collect now_ms due m).1 = due.map (callback m.heap) ∧
        Swept m (collect now_ms due m).2 now_ms due
  | [], m, _, _ => ⟨rfl, by simp [collect], fun _ _ => rfl, by simp [collect], rfl, rfl⟩
  | a :: due, m, hnodup, halloc => by
      obtain ⟨ha, hnodup'⟩ := List.nodup_cons.mp hnodup
      obtain ⟨t, ht⟩ := Option.isSome_iff_exists.mp (halloc a List.mem_cons_self)
      -- the timers behind `a` are as they were when its turn is over
      have hstep : ∃ m₁ : TimerManager, collect now_ms (a :: due) m =
            (t.m_cb :: (collect now_ms due m₁).1, (collect now_ms due m₁).2) ∧
          m₁.heap = Function.update m.heap a (some (fired now_ms t)) ∧
          (∀ b, b ∈ m₁.m_timers ↔ b ∈ m.m_timers ∨ b = a ∧ t.m_recurring = true) ∧
          m₁.m_tickled = m.m_tickled ∧ m₁.m_previousTime = m.m_previousTime := by
        rw [collect]
        simp only [ht]
        refine ⟨_, rfl, ?_⟩
        cases hrec : t.m_recurring with
        | true =>
            refine ⟨by simp [fired, hrec], fun b => ?_, rfl, rfl⟩
            simp only [if_true, mem_insert (less_strictTotal _)]
            simp [or_comm]
        | false => exact ⟨by simp [fired, hrec], by simp, rfl, rfl⟩
      obtain ⟨m₁, heq, hheap, htimers, htick, hprev⟩ := hstep
      have hold : ∀ b, b ≠ a → m₁.heap b = m.heap b := fun b hb => by
        rw [hheap, Function.update_of_ne hb]
      have hne : ∀ b ∈ due, b ≠ a := fun b hb hba => ha (hba ▸ hb)
      obtain ⟨hcbs, hswept⟩ := collect_spec now_ms (m := m₁) hnodup' (fun b hb => by
        rw [hold b (hne b hb)]
        exact halloc b (List.mem_cons_of_mem _ hb))
      rw [heq]
      refine ⟨?_, ?_, ?_, ?_, hswept.tickled.trans htick, hswept.previousTime.trans hprev⟩
      · have hmap : due.map (callback m₁.heap) = due.map (callback m.heap) :=
          List.map_congr_left fun b hb => by rw [callback, callback, hold b (hne b hb)]
        show t.m_cb :: (collect now_ms due m₁).1 = _
        rw [List.map_cons, callback_of_heap ht, hcbs, hmap]
      · intro b hb
        cases List.mem_cons.mp hb with
        | inl hba =>
            subst hba
            rw [hswept.rest b ha, hheap, Function.update_self, ht]
            rfl
        | inr hmem => rw [hswept.heap b hmem, hold b (hne b hmem)]
      · intro b hb
        rw [List.mem_cons, not_or] at hb
        rw [hswept.rest b hb.2, hold b hb.1]
      · intro b
        rw [hswept.timers b, htimers b, List.mem_cons, or_assoc]
        refine or_congr_right ?_
        constructor
        · rintro (⟨rfl, hrec⟩ | ⟨hmem, hrec⟩)
          · exact ⟨Or.inl rfl, by rw [recurs_of_heap ht, hrec]⟩
          · exact ⟨Or.inr hmem, by rwa [recurs, hold b (hne b hmem)] at hrec⟩
        · rintro ⟨rfl | hmem, hrec⟩
          · exact Or.inl ⟨rfl, by rwa [recurs_of_heap ht] at hrec⟩
          · exact Or.inr ⟨hmem, by rwa [recurs, hold b (hne b hmem)]⟩

end TimerManager

end Muqiu
