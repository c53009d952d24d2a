import Muqiu.Timer.Delivery

/-!
# Wakeups

A waiting loop sleeps until the due time it has got from `getNextTimer`.  A timer that becomes
due before that must wake it: an insertion at the front sets `m_tickled` and calls
`onTimerInsertAtFront`, and `getNextTimer` clears the flag (`Woken`).

`refresh` and the re-arming of `listExpiredCb` insert without a look at the front.  While the
clock does not go back they can only move a timer to a later time, since every timer in the set
was started at a time the clock had reached (`Watched.Sane`).
-/

namespace Muqiu

open SortedSet Runs

namespace TimerManager

/-- The time an operation reads from the clock. -/
def Act.now : Act → Option UInt64
  | .addTimer now _ _ _ _ => some now
  | .cancel _ => none
  | .refresh now _ => some now
  | .reset now _ _ _ => some now
  | .getNextTimer now => some now
  | .listExpiredCb now _ => some now

/-- Whether an operation calls `onTimerInsertAtFront`. -/
def notifies (m : TimerManager) : Act → Bool
  | .addTimer now a ms cb recurring => (m.addTimer now a ms cb recurring).2
  | .reset now a ms from_now =>
      ((m.heap a).map fun t => (m.reset now a t ms from_now).2.2).getD false
  | _ => false

/-- The sum of the time and a period does not wrap around. -/
def Fits (now ms : UInt64) : Prop := now.toNat + ms.toNat < UInt64.size

instance (now ms : UInt64) : Decidable (Fits now ms) := inferInstanceAs (Decidable (_ < _))

/-- No operation adds a period to the time that does not fit. -/
def NoOverflow (m : TimerManager) : Act → Prop
  | .addTimer now _ ms _ _ => Fits now ms
  | .refresh now a => ∀ t ∈ m.heap a, Fits now t.m_ms
  | .reset now _ ms _ => Fits now ms
  | .listExpiredCb now _ => ∀ a ∈ m.m_timers, ∀ t ∈ m.heap a, Fits now t.m_ms
  | _ => True

instance decidableNoOverflow (m : TimerManager) : ∀ act, Decidable (m.NoOverflow act)
  | .addTimer now _ ms _ _ => inferInstanceAs (Decidable (Fits now ms))
  | .cancel _ => .isTrue trivial
  | .refresh now a => inferInstanceAs (Decidable (∀ t ∈ m.heap a, Fits now t.m_ms))
  | .reset now _ ms _ => inferInstanceAs (Decidable (Fits now ms))
  | .getNextTimer _ => .isTrue trivial
  | .listExpiredCb now _ =>
      inferInstanceAs (Decidable (∀ a ∈ m.m_timers, ∀ t ∈ m.heap a, Fits now t.m_ms))

/-- A manager, the time last read, the due time last seen by `getNextTimer` (`none` when it
found no timer) and whether `onTimerInsertAtFront` has been called since. -/
structure Watched where
  m : TimerManager
  clock : UInt64
  seen : Option UInt64
  notified : Bool

namespace Watched

/-- Before the first call, at a time. -/
def start (now : UInt64) : Watched := ⟨new now, now, none, false⟩

/-- A step, and what the idle loop has seen and been told since. -/
def step (w : Watched) (act : Act) : Option Watched :=
  (w.m.step act).map fun m' =>
    match act with
    | .getNextTimer now => ⟨m', now, w.m.m_timers.head?.map (nextOf w.m.heap), false⟩
    | _ => ⟨m', act.now.getD w.clock, w.seen, w.notified || w.m.notifies act⟩

/-- The clock does not go back, and no sum overflows. -/
def Regular (w : Watched) (act : Act) : Prop :=
  (∀ now ∈ act.now, w.clock ≤ now) ∧ w.m.NoOverflow act

instance (w : Watched) (act : Act) : Decidable (w.Regular act) :=
  @instDecidableAnd _ _ (Option.decidableForallMem act.now) (w.m.decidableNoOverflow act)

/-- The due time is no earlier than the one seen. -/
def NotBefore (seen : Option UInt64) (next : UInt64) : Prop := ∃ s, seen = some s ∧ s ≤ next

/-- No armed timer is due earlier than seen, or the flag is set; and where it is set,
`onTimerInsertAtFront` has been called. -/
structure Woken (w : Watched) : Prop where
  woken : (∀ a ∈ w.m.m_timers, NotBefore w.seen (nextOf w.m.heap a)) ∨ w.m.m_tickled = true
  called : w.m.m_tickled = true → w.notified = true

/-- The timer was started at a time no later than `clock`. -/
def StartedBy (t : Timer) (clock : UInt64) : Prop :=
  t.m_ms.toNat ≤ t.m_next.toNat ∧ t.m_next.toNat - t.m_ms.toNat ≤ clock.toNat

/-- The timers in the set were started at times the clock has reached. -/
structure Sane (w : Watched) : Prop where
  ordered : w.m.Ordered
  started : ∀ a ∈ w.m.m_timers, ∀ t, w.m.heap a = some t → StartedBy t w.clock
  previousTime : w.m.m_previousTime ≤ w.clock
  woken : Woken w

theorem start_sane (now : UInt64) : Sane (start now) where
  ordered := new_ordered now
  started := fun _ h => by simp [start, new] at h
  previousTime := UInt64.le_refl now
  woken := ⟨Or.inl fun _ h => by simp [start, new] at h, fun h => by simp [start, new] at h⟩

end Watched

/-! ## Operations -/

theorem Fits.toNat_add {now ms : UInt64} (h : Fits now ms) :
    (now + ms).toNat = now.toNat + ms.toNat := by
  rw [UInt64.toNat_add]
  exact Nat.mod_eq_of_lt h

theorem insertTimer_notifies (m : TimerManager) (a : Nat)
    (h : (m.insertTimer a).1.m_tickled = true) :
    m.m_tickled = true ∨ (m.insertTimer a).2 = true := by
  rw [insertTimer] at h ⊢
  cases htick : m.m_tickled with
  | true => exact Or.inl rfl
  | false =>
      rw [htick] at h
      right
      simpa using h

/-- The flag is set only where `onTimerInsertAtFront` is called. -/
theorem Ordered.tickled_notifies {m m' : TimerManager} (h : m.Ordered) {act : Act}
    (hstep : TimerManager.step m act = some m') (htick : m'.m_tickled = true) :
    (m.m_tickled = true ∧ ∀ now, act ≠ .getNextTimer now) ∨ m.notifies act = true := by
  cases act with
  | addTimer now a ms cb recurring =>
      simp only [TimerManager.step, Option.ite_none_left_eq_some, Option.some.injEq] at hstep
      obtain ⟨_, rfl⟩ := hstep
      exact (insertTimer_notifies _ a htick).imp_left fun hold => ⟨hold, by simp⟩
  | cancel a =>
      refine Or.inl ⟨?_, by simp⟩
      cases h.step_effect hstep with
      | same _ _ _ hm => rwa [← hm]
      | cancelled _ _ _ _ hsame _ => rwa [← hsame]
  | refresh now a =>
      refine Or.inl ⟨?_, by simp⟩
      cases h.step_effect hstep with
      | same _ _ _ hm => rwa [← hm]
      | refreshed _ _ _ hsame => rwa [← hsame]
  | reset now a ms from_now =>
      obtain ⟨t, ht, rfl⟩ := Option.map_eq_some_iff.mp hstep
      rw [notifies, ht, Option.map_some, Option.getD_some]
      rw [TimerManager.reset] at htick ⊢
      by_cases hms : ms = t.m_ms ∧ from_now = false
      · rw [if_pos hms] at htick
        exact Or.inl ⟨htick, by simp⟩
      · rw [if_neg hms] at htick ⊢
        cases hcb : t.m_cb.isSome with
        | false =>
            rw [hcb, if_neg Bool.false_ne_true] at htick
            exact Or.inl ⟨htick, by simp⟩
        | true =>
            rw [hcb, if_pos rfl] at htick
            rw [if_pos rfl]
            cases hf : find? (less m.heap) a m.m_timers with
            | none =>
                simp only [hf] at htick
                exact Or.inl ⟨htick, by simp⟩
            | some b =>
                simp only [hf] at htick
                exact (insertTimer_notifies _ a htick).imp_left fun hold => ⟨hold, by simp⟩
  | getNextTimer now =>
      cases Option.some.inj hstep
      rw [getNextTimer_snd] at htick
      simp at htick
  | listExpiredCb now tmp =>
      simp only [TimerManager.step, Option.ite_none_left_eq_some, Option.some.injEq] at hstep
      obtain ⟨_, rfl⟩ := hstep
      obtain ⟨_, _, _, _, _, hsame⟩ := h.listExpiredCb_spec now tmp
      exact Or.inl ⟨hsame ▸ htick, by simp⟩

theorem collect_previousTime (now_ms : UInt64) :
    ∀ (due : List Nat) (m : TimerManager),
      (collect now_ms due m).2.m_previousTime = m.m_previousTime
  | [], _ => rfl
  | a :: due, m => by
      rw [collect]
      cases m.heap a with
      | none => exact collect_previousTime now_ms due m
      | some t =>
          refine (collect_previousTime now_ms due _).trans ?_
          cases t.m_recurring <;> rfl

/-- The time of the previous check is as before or that of this one. -/
theorem listExpiredCb_previousTime (m : TimerManager) (now_ms : UInt64) (tmp : Nat) :
    (m.listExpiredCb now_ms tmp).2.m_previousTime = m.m_previousTime ∨
      (m.listExpiredCb now_ms tmp).2.m_previousTime = now_ms := by
  rw [TimerManager.listExpiredCb]
  cases m.m_timers with
  | nil => exact Or.inl rfl
  | cons first rest =>
      right
      simp only
      split
      · rfl
      · exact collect_previousTime now_ms _ _

/-- The first timer of the set is not after any other. -/
theorem Ordered.head_le {m : TimerManager} (h : m.Ordered) {a b : Nat}
    (ha : m.m_timers.head? = some a) (hb : b ∈ m.m_timers) :
    nextOf m.heap a ≤ nextOf m.heap b := by
  obtain ⟨rest, hts⟩ := List.head?_eq_some_iff.mp ha
  exact UInt64.le_iff_toNat_le.mpr (((h.isEarliest hts).mpr rfl).2 b hb)

namespace Watched

theorem NotBefore.trans {seen : Option UInt64} {u v : UInt64} (h : NotBefore seen u) (huv : u ≤ v) :
    NotBefore seen v := by
  obtain ⟨s, hs, hle⟩ := h
  exact ⟨s, hs, UInt64.le_trans hle huv⟩

/-- A timer put in the set: it comes to the front and the flag is set, or it is behind one that
was in the set. -/
theorem Woken.fronted {w : Watched} (h : w.Woken) (m' : TimerManager) (hord : m'.Ordered)
    {a : Nat} {t : Timer} (hr : Rearmed w.m m' a t) (hfront : Fronted w.m m' a) :
    (∀ b ∈ m'.m_timers, NotBefore w.seen (nextOf m'.heap b)) ∨ m'.m_tickled = true := by
  rw [hfront]
  rcases h.woken with hold | htick
  · by_cases hhead : m'.m_timers.head? = some a
    · right
      rw [decide_eq_true hhead, Bool.or_true]
    · left
      -- the front is a timer that was in the set
      have hbehind : ∀ b, b ≠ a → b ∈ m'.m_timers → NotBefore w.seen (nextOf m'.heap b) := by
        intro b hba hb
        rw [hr.heap, nextOf_update_ne hba]
        exact hold b (((hr.timers b).mp hb).resolve_left hba)
      intro b hb
      by_cases hba : b = a
      · cases hcur : m'.m_timers.head? with
        | none => rw [List.head?_eq_none_iff.mp hcur] at hb; simp at hb
        | some c =>
            have hca : c ≠ a := fun heq => hhead (heq ▸ hcur)
            exact (hbehind c hca (List.mem_of_head? hcur)).trans (hord.head_le hcur hb)
      · exact hbehind b hba hb
  · exact Or.inr (by rw [htick, Bool.true_or])

/-- The time an operation leaves as the last one read. -/
theorem Regular.clock_le {w : Watched} {act : Act} (h : w.Regular act) :
    w.clock ≤ act.now.getD w.clock := by
  cases hnow : act.now with
  | none => exact UInt64.le_refl _
  | some now => exact h.1 now hnow

theorem StartedBy.mono {t : Timer} {c c' : UInt64} (h : StartedBy t c) (hle : c ≤ c') :
    StartedBy t c' :=
  ⟨h.1, Nat.le_trans h.2 (UInt64.le_iff_toNat_le.mp hle)⟩

/-- A timer started at `start`, which the clock has reached. -/
theorem startedBy_add {start now ms : UInt64} (hle : start.toNat ≤ now.toNat) (hfit : Fits now ms)
    (recurring : Bool) (cb : Option Nat) : StartedBy ⟨recurring, ms, start + ms, cb⟩ now := by
  have hsum : (start + ms).toNat = start.toNat + ms.toNat :=
    Fits.toNat_add (show start.toNat + ms.toNat < UInt64.size from
      Nat.lt_of_le_of_lt (Nat.add_le_add_right hle _) hfit)
  simp only [StartedBy, hsum]
  omega

/-- A sweep whose clock has not gone back takes out what is due. -/
theorem Sane.expired_due {w : Watched} (h : w.Sane) {now : UInt64} (hnow : w.clock ≤ now)
    (tmp : Nat) {a : Nat} (ha : a ∈ w.m.expired now tmp) :
    a ∈ w.m.m_timers ∧ nextOf w.m.heap a ≤ now := by
  obtain ⟨hmem, hroll | hle⟩ := (h.ordered.mem_expired now tmp a).mp ha
  · rw [detectColckRollover, decide_eq_true_iff, UInt64.lt_iff_toNat_lt] at hroll
    have hprev := UInt64.le_iff_toNat_le.mp (UInt64.le_trans h.previousTime hnow)
    omega
  · exact ⟨hmem, hle⟩

theorem Sane.started_step {w : Watched} (h : w.Sane) {act : Act} (hreg : w.Regular act)
    {m' : TimerManager} (hm : w.m.step act = some m') :
    ∀ a ∈ m'.m_timers, ∀ t, m'.heap a = some t → StartedBy t (act.now.getD w.clock) := by
  have hclock := hreg.clock_le
  have hold : ∀ a ∈ w.m.m_timers, ∀ t, w.m.heap a = some t →
      StartedBy t (act.now.getD w.clock) := fun a ha t ht => (h.started a ha t ht).mono hclock
  -- a timer put in the set was started by now
  have hrearmed : ∀ {a : Nat} {t : Timer}, Rearmed w.m m' a t →
      StartedBy t (act.now.getD w.clock) → ∀ b ∈ m'.m_timers, ∀ u, m'.heap b = some u →
        StartedBy u (act.now.getD w.clock) := by
    intro a t hr ht b hb u hu
    rw [hr.heap] at hu
    by_cases hba : b = a
    · rw [hba, Function.update_self] at hu
      cases Option.some.inj hu
      exact ht
    · rw [Function.update_of_ne hba] at hu
      exact hold b (((hr.timers b).mp hb).resolve_left hba) u hu
  cases h.ordered.step_effect hm with
  | same _ _ _ heq => rw [heq]; exact hold
  | asked => exact hold
  | added _ hr _ => exact hrearmed hr (startedBy_add (Nat.le_refl _) hreg.2 _ _)
  | @cancelled a t m' ht _ hheap htimers _ _ =>
      intro b hb u hu
      obtain ⟨hba, hmem⟩ := (htimers b).mp hb
      rw [hheap, Function.update_of_ne hba] at hu
      exact hold b hmem u hu
  | refreshed ht _ hr _ =>
      exact hrearmed hr (startedBy_add (Nat.le_refl _) (hreg.2 _ ht) _ _)
  | @moved now ms a from_now t m' ht hmem hr _ =>
      refine hrearmed hr (startedBy_add ?_ hreg.2 _ _)
      cases from_now with
      | true => exact Nat.le_refl _
      | false =>
          obtain ⟨hle, hstart⟩ := hold a hmem t ht
          rw [if_neg Bool.false_ne_true,
            UInt64.toNat_sub_of_le _ _ (UInt64.le_iff_toNat_le.mpr hle)]
          exact hstart
  | @swept now tmp =>
      obtain ⟨_, _, hheap, hrest, htimers, _⟩ := h.ordered.listExpiredCb_spec now tmp
      intro a ha t ht
      obtain ⟨hmem, hrec⟩ := (htimers a).mp ha
      by_cases hexp : a ∈ w.m.expired now tmp
      · rw [hheap a hexp] at ht
        obtain ⟨t₀, ht₀, rfl⟩ := Option.map_eq_some_iff.mp ht
        have hrec₀ := hrec hexp
        rw [recurs_of_heap ht₀] at hrec₀
        rw [fired, if_pos hrec₀]
        exact startedBy_add (Nat.le_refl _) (hreg.2 a hmem t₀ ht₀) _ _
      · rw [hrest a hexp] at ht
        exact hold a hmem t ht

theorem Sane.woken_step {w : Watched} (h : w.Sane) {act : Act} (hreg : w.Regular act)
    (hask : ∀ now, act ≠ .getNextTimer now) {m' : TimerManager} (hm : w.m.step act = some m') :
    (∀ a ∈ m'.m_timers, NotBefore w.seen (nextOf m'.heap a)) ∨ m'.m_tickled = true := by
  have hord := h.ordered.step hm
  cases h.ordered.step_effect hm with
  | same _ _ _ heq => rw [heq]; exact h.woken.woken
  | asked => exact absurd rfl (hask _)
  | added _ hr hfront => exact h.woken.fronted m' hord hr hfront
  | @cancelled a t m' ht _ hheap htimers hsame _ =>
      rw [hsame]
      refine h.woken.woken.imp_left fun hold b hb => ?_
      obtain ⟨hba, hmem⟩ := (htimers b).mp hb
      rw [hheap, nextOf_update_ne hba]
      exact hold b hmem
  | @refreshed now a t m' ht hmem hr hsame =>
      rw [hsame]
      refine h.woken.woken.imp_left fun hold b hb => ?_
      by_cases hba : b = a
      · -- the timer is due no earlier than before
        obtain ⟨hle, hstart⟩ := h.started a hmem t ht
        have hnow := UInt64.le_iff_toNat_le.mp (hreg.1 now rfl)
        have hsum := Fits.toNat_add (hreg.2 t ht)
        have hnext := hold a hmem
        rw [nextOf_of_heap ht] at hnext
        rw [hba, hr.heap, nextOf, Function.update_self]
        refine hnext.trans (UInt64.le_iff_toNat_le.mpr ?_)
        show t.m_next.toNat ≤ (now + t.m_ms).toNat
        omega
      · rw [hr.heap, nextOf_update_ne hba]
        exact hold b (((hr.timers b).mp hb).resolve_left hba)
  | moved _ _ hr hfront => exact h.woken.fronted m' hord hr hfront
  | @swept now tmp =>
      obtain ⟨_, _, hheap, hrest, htimers, hsame⟩ := h.ordered.listExpiredCb_spec now tmp
      rw [hsame]
      refine h.woken.woken.imp_left fun hold a ha => ?_
      obtain ⟨hmem, hrec⟩ := (htimers a).mp ha
      have hnext := hold a hmem
      by_cases hexp : a ∈ w.m.expired now tmp
      · -- it was due, and is due again no earlier than now
        obtain ⟨t, ht⟩ := Option.isSome_iff_exists.mp (h.ordered.allocated a hmem)
        have hrec' := hrec hexp
        rw [recurs_of_heap ht] at hrec'
        have hdue := (h.expired_due (hreg.1 now rfl) tmp hexp).2
        have hsum := Fits.toNat_add (hreg.2 a hmem t ht)
        refine (hnext.trans hdue).trans (UInt64.le_iff_toNat_le.mpr ?_)
        rw [nextOf, hheap a hexp, ht, Option.map_some, fired, if_pos hrec']
        show now.toNat ≤ (now + t.m_ms).toNat
        omega
      · rwa [nextOf, hrest a hexp]

theorem Sane.previousTime_step {w : Watched} (h : w.Sane) {act : Act} (hreg : w.Regular act)
    {m' : TimerManager} (hm : w.m.step act = some m') :
    m'.m_previousTime ≤ act.now.getD w.clock := by
  have hold := UInt64.le_trans h.previousTime hreg.clock_le
  cases h.ordered.step_effect hm with
  | same _ _ _ heq => rw [heq]; exact hold
  | asked => exact hold
  | added _ hr _ => rw [hr.previousTime]; exact hold
  | cancelled _ _ _ _ _ hprev => rw [hprev]; exact hold
  | refreshed _ _ hr _ => rw [hr.previousTime]; exact hold
  | moved _ _ hr _ => rw [hr.previousTime]; exact hold
  | @swept now tmp =>
      rcases listExpiredCb_previousTime w.m now tmp with hprev | hprev
      · rw [hprev]; exact hold
      · rw [hprev]; exact UInt64.le_refl _

theorem Sane.step {w w' : Watched} (h : w.Sane) {act : Act} (hreg : w.Regular act)
    (hstep : w.step act = some w') : w'.Sane := by
  obtain ⟨m', hm, heq⟩ := Option.map_eq_some_iff.mp hstep
  have hstarted := h.started_step hreg hm
  have hprev := h.previousTime_step hreg hm
  have hord := h.ordered.step hm
  by_cases hask : ∃ now, act = .getNextTimer now
  · obtain ⟨now, rfl⟩ := hask
    cases heq
    refine ⟨hord, hstarted, hprev, Or.inl fun a ha => ?_, fun htick => ?_⟩
    · cases Option.some.inj hm
      rw [getNextTimer_snd] at ha ⊢
      cases hcur : w.m.m_timers.head? with
      | none =>
          have hmem : a ∈ w.m.m_timers := ha
          rw [List.head?_eq_none_iff.mp hcur] at hmem
          simp at hmem
      | some c => exact ⟨_, rfl, h.ordered.head_le hcur ha⟩
    · cases Option.some.inj hm
      rw [getNextTimer_snd] at htick
      simp at htick
  · have hask' : ∀ now, act ≠ .getNextTimer now := fun now hnow => hask ⟨now, hnow⟩
    have hw' : w' = ⟨m', act.now.getD w.clock, w.seen, w.notified || w.m.notifies act⟩ := by
      rw [← heq]
      cases act with
      | getNextTimer now => exact absurd rfl (hask' now)
      | _ => rfl
    rw [hw']
    refine ⟨hord, hstarted, hprev, h.woken_step hreg hask' hm, fun htick => ?_⟩
    rcases h.ordered.tickled_notifies hm htick with ⟨hold, _⟩ | hcalls
    · simp [h.woken.called hold]
    · simp [hcalls]

/-- With a clock that does not go back and sums that do not overflow, no wakeup is lost. -/
theorem woken_of_regular {t₀ : UInt64} {as : List Act}
    (h : Along step (fun w act _ => w.Regular act) (start t₀) as) :
    Throughout step Woken (start t₀) as := by
  have hrun : Throughout step Sane (start t₀) as :=
    throughout_of_along (fun _ _ _ hs hreg hstep => hs.step hreg hstep) (start_sane t₀) h
  exact hrun.mono fun _ hs => hs.woken

/-- A recurring timer, found by `getNextTimer`, and one that is due before it. -/
def secondTimer : List Act :=
  [.addTimer 100 0 50 (some 1) true, .getNextTimer 101, .addTimer 102 1 10 (some 2) false,
    .listExpiredCb 160 2, .refresh 161 0, .getNextTimer 162]

theorem woken_of_regular_secondTimer : Throughout step Woken (start 100) secondTimer :=
  woken_of_regular (by decide)

end Watched

end TimerManager

end Muqiu
