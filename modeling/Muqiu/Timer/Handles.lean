import Muqiu.Timer.Delivery

/-!
# What the handle of a timer reports

`cancel`, `refresh` and `reset` should return true just when the timer is armed, which is when it
is in the set.  After a refresh or a reset that returns true the timer should be in the set once
and due a period after the clock reading it was armed at, or is armed at now; the due time is a
number here and not a word.  After false the manager should be as it was (`Tells`).

The clock reading a timer was armed at last is not in the code.  `Clocked` has it beside the
manager.  `reset` gets it back as `m_next - m_ms`, and that is right in every run, also where the
sum has wrapped around (`Sound`).

`reset` returns true before it looks at the timer when the period is the old one and counted from
the old start.
-/

namespace Muqiu

open SortedSet Runs

namespace TimerManager

/-! ## The operations on a handle -/

section Handle

variable {m : TimerManager} {a : Nat} {t : Timer}

theorem Ordered.find?_of_mem (h : m.Ordered) (ha : a ∈ m.m_timers) :
    find? (less m.heap) a m.m_timers = some a :=
  (find?_eq_some (less_strictTotal _) h.sorted).mpr ⟨rfl, ha⟩

theorem Ordered.find?_of_not_mem (h : m.Ordered) (ha : a ∉ m.m_timers) :
    find? (less m.heap) a m.m_timers = none := by
  cases hf : find? (less m.heap) a m.m_timers with
  | none => rfl
  | some b => exact absurd ((find?_eq_some (less_strictTotal _) h.sorted).mp hf).2 ha

theorem cancel_of_null (hcb : t.m_cb.isSome = false) : m.cancel a t = some (false, m) := by
  rw [cancel, if_neg (Bool.eq_false_iff.mp hcb)]

theorem Ordered.cancel_of_mem (h : m.Ordered) (ht : m.heap a = some t)
    (hcb : t.m_cb.isSome = true) (ha : a ∈ m.m_timers) :
    ∃ m', m.cancel a t = some (true, m') := by
  have hless : less (Function.update m.heap a (some { t with m_cb := none })) = less m.heap :=
    less_update_next ht { t with m_cb := none } rfl
  rw [TimerManager.cancel, if_pos hcb]
  simp only [hless, h.find?_of_mem ha]
  exact ⟨_, rfl⟩

theorem Ordered.refresh_refused (h : m.Ordered) (now : UInt64)
    (hnot : ¬(t.m_cb.isSome = true ∧ a ∈ m.m_timers)) : m.refresh now a t = (false, m) := by
  rw [TimerManager.refresh]
  split
  next hcb => rw [h.find?_of_not_mem fun ha => hnot ⟨hcb, ha⟩]
  next => rfl

theorem Ordered.refresh_rearmed (h : m.Ordered) (now : UInt64) (hcb : t.m_cb.isSome = true)
    (ha : a ∈ m.m_timers) :
    ∃ m', m.refresh now a t = (true, m') ∧ Rearmed m m' a { t with m_next := now + t.m_ms } := by
  rw [TimerManager.refresh, if_pos hcb, h.find?_of_mem ha]
  exact ⟨_, rfl, h.rearmed ha _ _⟩

theorem reset_shortcut (now : UInt64) : m.reset now a t t.m_ms false = (true, m, false) := by
  rw [reset, if_pos ⟨rfl, rfl⟩]

theorem Ordered.reset_refused (h : m.Ordered) (now : UInt64) {ms : UInt64} {from_now : Bool}
    (hms : ¬(ms = t.m_ms ∧ from_now = false)) (hnot : ¬(t.m_cb.isSome = true ∧ a ∈ m.m_timers)) :
    m.reset now a t ms from_now = (false, m, false) := by
  rw [TimerManager.reset, if_neg hms]
  split
  next hcb => rw [h.find?_of_not_mem fun ha => hnot ⟨hcb, ha⟩]
  next => rfl

theorem Ordered.reset_rearmed (h : m.Ordered) (now : UInt64) {ms : UInt64} {from_now : Bool}
    (hms : ¬(ms = t.m_ms ∧ from_now = false)) (hcb : t.m_cb.isSome = true)
    (ha : a ∈ m.m_timers) :
    ∃ r, m.reset now a t ms from_now = (true, r) ∧
      Rearmed m r.1 a { t with
        m_ms := ms, m_next := (if from_now then now else t.m_next - t.m_ms) + ms } := by
  rw [TimerManager.reset, if_neg hms, if_pos hcb, h.find?_of_mem ha]
  exact ⟨_, rfl, h.rearmed ha _ _⟩

end Handle

/-! ## Clock readings -/

/-- A manager, and for each timer the clock reading it was armed at last. -/
structure Clocked where
  manager : TimerManager
  start : Nat → UInt64

namespace Clocked

/-- A new manager. -/
def new (now : UInt64) : Clocked := ⟨TimerManager.new now, fun _ => 0⟩

/-- The clock readings after a step. -/
def starts (s : Clocked) : Act → Nat → UInt64
  | .addTimer now a _ _ _ => Function.update s.start a now
  | .refresh now a =>
      match s.manager.heap a with
      | some t =>
          if (s.manager.refresh now a t).1 then Function.update s.start a now else s.start
      | none => s.start
  | .reset now a ms from_now =>
      match s.manager.heap a with
      | some t =>
          if from_now && (s.manager.reset now a t ms from_now).1 then
            Function.update s.start a now
          else s.start
      | none => s.start
  | .listExpiredCb now tmp => fun a =>
      if (s.manager.expired now tmp).contains a && recurs s.manager.heap a then now
      else s.start a
  | .cancel _ => s.start
  | .getNextTimer _ => s.start

/-- A step, and the times of the timers that it starts. -/
def step (s : Clocked) (act : Act) : Option Clocked :=
  (s.manager.step act).map fun m => ⟨m, s.starts act⟩

/-- The timer is in the set, once, and due at a time. -/
def ArmedAt (m : TimerManager) (a due : Nat) : Prop :=
  m.m_timers.count a = 1 ∧ (nextOf m.heap a).toNat = due

/-- An operation on a handle reports the truth. -/
def Tells (s : Clocked) : Act → Prop
  | .cancel a => ∀ t, s.manager.heap a = some t →
      ∃ r m, s.manager.cancel a t = some (r, m) ∧ (r = true ↔ a ∈ s.manager.m_timers) ∧
        (r = false → m = s.manager)
  | .refresh now a => ∀ t, s.manager.heap a = some t →
      ∃ r m, s.manager.refresh now a t = (r, m) ∧ (r = true ↔ a ∈ s.manager.m_timers) ∧
        (r = true → ArmedAt m a (now.toNat + t.m_ms.toNat)) ∧ (r = false → m = s.manager)
  | .reset now a ms from_now => ∀ t, s.manager.heap a = some t →
      ∃ r m at_front, s.manager.reset now a t ms from_now = (r, m, at_front) ∧
        (r = true ↔ a ∈ s.manager.m_timers) ∧
        (r = true → ArmedAt m a ((if from_now then now else s.start a).toNat + ms.toNat)) ∧
        (r = false → m = s.manager)
  | _ => True

/-- An armed timer has a callback and its new due time is a word; the period of a timer that is
not armed is not reset to itself. -/
def Meets (s : Clocked) : Act → Prop
  | .cancel a => ∀ t, s.manager.heap a = some t → a ∈ s.manager.m_timers → t.m_cb.isSome = true
  | .refresh now a => ∀ t, s.manager.heap a = some t → a ∈ s.manager.m_timers →
      t.m_cb.isSome = true ∧ now.toNat + t.m_ms.toNat < UInt64.size
  | .reset now a ms from_now => ∀ t, s.manager.heap a = some t →
      (a ∈ s.manager.m_timers →
        (t.m_cb.isSome = true ∨ ms = t.m_ms ∧ from_now = false) ∧
          (if from_now then now else s.start a).toNat + ms.toNat < UInt64.size) ∧
      (a ∉ s.manager.m_timers → ¬(ms = t.m_ms ∧ from_now = false))
  | _ => True

/-! ## The invariant -/

/-- The set is in order and has every timer with a callback, and a timer is due a period after it
was armed, in words. -/
structure Sound (s : Clocked) : Prop where
  ordered : s.manager.Ordered
  listed : ∀ a, s.manager.Armed a → a ∈ s.manager.m_timers
  due : ∀ a t, s.manager.heap a = some t → t.m_next = s.start a + t.m_ms

theorem new_sound (now : UInt64) : (new now).Sound := by
  refine ⟨new_ordered now, fun a h => ?_, fun a t h => ?_⟩
  · simp [new, TimerManager.new, Armed, callback] at h
  · cases h

/-- A timer is armed again at a clock reading, and the others stay. -/
theorem Sound.rearmed {s : Clocked} (h : s.Sound) {m' : TimerManager} {start' : Nat → UInt64}
    {a : Nat} {t : Timer} (hordered : m'.Ordered) (hr : Rearmed s.manager m' a t)
    (hstart : ∀ b, b ≠ a → start' b = s.start b) (hdue : t.m_next = start' a + t.m_ms) :
    Sound ⟨m', start'⟩ := by
  refine ⟨hordered, fun b hb => ?_, fun b u hu => ?_⟩
  · rw [hr.timers]
    by_cases hba : b = a
    · exact Or.inl hba
    · rw [Armed, hr.heap, callback_update_ne hba] at hb
      exact Or.inr (h.listed b hb)
  · dsimp only at hu ⊢
    rw [hr.heap] at hu
    by_cases hba : b = a
    · subst hba
      rw [Function.update_self, Option.some.injEq] at hu
      rw [← hu, hdue]
    · rw [Function.update_of_ne hba] at hu
      rw [hstart b hba, h.due b u hu]

theorem Sound.addTimer {s : Clocked} (h : s.Sound) {now ms : UInt64} {a : Nat}
    (hfree : (s.manager.heap a).isSome = false) (cb : Option Nat) (recurring : Bool) :
    Sound ⟨(s.manager.addTimer now a ms cb recurring).1, Function.update s.start a now⟩ := by
  have hr : Rearmed s.manager (s.manager.addTimer now a ms cb recurring).1 a
      ⟨recurring, ms, now + ms, cb⟩ := ⟨rfl, fun _ => mem_insert (less_strictTotal _), rfl⟩
  refine h.rearmed (h.ordered.addTimer hfree ms cb recurring) hr
    (fun b hb => Function.update_of_ne hb _ _) ?_
  rw [Function.update_self]

theorem Sound.cancel {s : Clocked} (h : s.Sound) {a : Nat} {t : Timer} {r : Bool}
    {m' : TimerManager} (ht : s.manager.heap a = some t)
    (hc : s.manager.cancel a t = some (r, m')) : Sound ⟨m', s.start⟩ := by
  have hordered := h.ordered.cancel ht hc
  cases h.ordered.cancel_effect ht hc with
  | same _ _ _ hm =>
      subst hm
      exact h
  | @cancelled _ u _ hu _ hheap htimers _ _ =>
      refine ⟨hordered, fun b hb => ?_, fun b v hv => ?_⟩
      · dsimp only at hb ⊢
        rw [Armed, hheap] at hb
        have hba : b ≠ a := by
          rintro rfl
          rw [callback, Function.update_self] at hb
          exact absurd hb Bool.false_ne_true
        rw [callback_update_ne hba] at hb
        exact (htimers b).mpr ⟨hba, h.listed b hb⟩
      · dsimp only at hv ⊢
        rw [hheap] at hv
        by_cases hba : b = a
        · subst hba
          rw [Function.update_self, Option.some.injEq] at hv
          rw [← hv]
          exact h.due b u hu
        · rw [Function.update_of_ne hba] at hv
          exact h.due b v hv

theorem Sound.refresh {s : Clocked} (h : s.Sound) {a : Nat} {t : Timer}
    (ht : s.manager.heap a = some t) (now : UInt64) :
    Sound ⟨(s.manager.refresh now a t).2, s.starts (.refresh now a)⟩ := by
  have hordered := h.ordered.refresh now a t
  rw [starts, ht]
  dsimp only
  by_cases hcan : t.m_cb.isSome = true ∧ a ∈ s.manager.m_timers
  · obtain ⟨m', heq, hr⟩ := h.ordered.refresh_rearmed now hcan.1 hcan.2
    rw [heq] at hordered ⊢
    rw [if_pos rfl]
    refine h.rearmed hordered hr (fun b hb => Function.update_of_ne hb _ _) ?_
    rw [Function.update_self]
  · rw [h.ordered.refresh_refused now hcan]
    exact h

/-- The old start is `m_next - m_ms`. -/
theorem Sound.start_eq {s : Clocked} (h : s.Sound) {a : Nat} {t : Timer}
    (ht : s.manager.heap a = some t) : t.m_next - t.m_ms = s.start a := by
  rw [h.due a t ht, UInt64.add_sub_cancel]

theorem Sound.reset {s : Clocked} (h : s.Sound) {a : Nat} {t : Timer}
    (ht : s.manager.heap a = some t) (now ms : UInt64) (from_now : Bool) :
    Sound ⟨(s.manager.reset now a t ms from_now).2.1, s.starts (.reset now a ms from_now)⟩ := by
  have hordered := h.ordered.reset now a t ms from_now
  rw [starts, ht]
  dsimp only
  by_cases hms : ms = t.m_ms ∧ from_now = false
  · obtain ⟨rfl, rfl⟩ := hms
    rw [reset_shortcut]
    exact h
  · by_cases hcan : t.m_cb.isSome = true ∧ a ∈ s.manager.m_timers
    · obtain ⟨r, heq, hr⟩ := h.ordered.reset_rearmed now hms hcan.1 hcan.2
      rw [heq] at hordered ⊢
      dsimp only at hordered ⊢
      rw [Bool.and_true]
      cases from_now with
      | true =>
          refine h.rearmed hordered hr (fun b hb => Function.update_of_ne hb _ _) ?_
          dsimp only
          rw [if_pos rfl, if_pos rfl, Function.update_self]
      | false =>
          refine h.rearmed hordered hr (fun b _ => rfl) ?_
          dsimp only
          rw [if_neg Bool.false_ne_true, if_neg Bool.false_ne_true, h.start_eq ht]
    · rw [h.ordered.reset_refused now hms hcan]
      dsimp only
      rw [Bool.and_false]
      exact h

theorem Sound.listExpiredCb {s : Clocked} (h : s.Sound) (now : UInt64) (tmp : Nat) :
    Sound ⟨(s.manager.listExpiredCb now tmp).2, s.starts (.listExpiredCb now tmp)⟩ := by
  obtain ⟨hsub, -, hheap, hrest, htimers, -⟩ := h.ordered.listExpiredCb_spec now tmp
  refine ⟨h.ordered.listExpiredCb now tmp, fun a ha => ?_, fun a u hu => ?_⟩
  · rw [htimers]
    rw [Armed, callback] at ha
    by_cases hexp : a ∈ s.manager.expired now tmp
    · rw [hheap a hexp] at ha
      refine ⟨hsub.subset hexp, fun _ => ?_⟩
      cases ht : s.manager.heap a with
      | none => simp [ht] at ha
      | some t =>
          rw [recurs_of_heap ht]
          cases hrec : t.m_recurring with
          | true => rfl
          | false => simp [ht, callback_fired, hrec] at ha
    · rw [hrest a hexp] at ha
      exact ⟨h.listed a ha, fun hmem => absurd hmem hexp⟩
  · dsimp only [starts] at hu ⊢
    by_cases hexp : a ∈ s.manager.expired now tmp
    · rw [hheap a hexp, Option.map_eq_some_iff] at hu
      obtain ⟨t, ht, rfl⟩ := hu
      have hold := h.due a t ht
      rw [recurs_of_heap ht, List.contains_iff_mem.mpr hexp, Bool.true_and, fired]
      cases hrec : t.m_recurring with
      | true => rfl
      | false => simpa using hold
    · have hnot : (s.manager.expired now tmp).contains a = false := by simpa using hexp
      rw [hrest a hexp] at hu
      rw [hnot, Bool.false_and, if_neg Bool.false_ne_true]
      exact h.due a u hu

theorem Sound.step {s s' : Clocked} {act : Act} (h : s.Sound)
    (hstep : Clocked.step s act = some s') : s'.Sound := by
  rw [Clocked.step, Option.map_eq_some_iff] at hstep
  obtain ⟨m, hm, rfl⟩ := hstep
  cases act with
  | addTimer now a ms cb recurring =>
      simp only [TimerManager.step, Option.ite_none_left_eq_some, Option.some.injEq] at hm
      obtain ⟨hfree, rfl⟩ := hm
      exact h.addTimer (Bool.eq_false_iff.mpr hfree) cb recurring
  | cancel a =>
      simp only [TimerManager.step, Option.bind_eq_some_iff, Option.map_eq_some_iff] at hm
      obtain ⟨t, ht, ⟨r, m'⟩, hc, rfl⟩ := hm
      exact h.cancel ht hc
  | refresh now a =>
      obtain ⟨t, ht, rfl⟩ := Option.map_eq_some_iff.mp hm
      exact h.refresh ht now
  | reset now a ms from_now =>
      obtain ⟨t, ht, rfl⟩ := Option.map_eq_some_iff.mp hm
      exact h.reset ht now ms from_now
  | getNextTimer now =>
      cases Option.some.inj hm
      rw [getNextTimer_snd]
      exact ⟨⟨h.ordered.sorted, h.ordered.allocated⟩, h.listed, h.due⟩
  | listExpiredCb now tmp =>
      simp only [TimerManager.step, Option.ite_none_left_eq_some, Option.some.injEq] at hm
      obtain ⟨-, rfl⟩ := hm
      exact h.listExpiredCb now tmp

/-! ## One operation -/

theorem toNat_add_iff {x y : UInt64} :
    (x + y).toNat = x.toNat + y.toNat ↔ x.toNat + y.toNat < UInt64.size := by
  rw [UInt64.toNat_add]
  constructor
  · intro h
    rw [← h]
    exact Nat.mod_lt _ (by decide)
  · exact Nat.mod_eq_of_lt

theorem armedAt_iff {m : TimerManager} (h : m.Ordered) {a due : Nat} (ha : a ∈ m.m_timers) :
    ArmedAt m a due ↔ (nextOf m.heap a).toNat = due :=
  ⟨And.right, fun hdue => ⟨List.count_eq_one_of_mem (Sorted.nodup h.sorted) ha, hdue⟩⟩

theorem armedAt_of_rearmed {m m' : TimerManager} (h : m'.Ordered) {a : Nat} {t : Timer}
    (hr : Rearmed m m' a t) (due : Nat) : ArmedAt m' a due ↔ t.m_next.toNat = due := by
  rw [armedAt_iff h ((hr.timers a).mpr (Or.inl rfl)), hr.heap, nextOf, Function.update_self]

section Report

variable {s : Clocked} (h : s.Sound)
include h

theorem Sound.tells_cancel (a : Nat) : s.Tells (.cancel a) ↔ s.Meets (.cancel a) := by
  refine forall_congr' fun t => forall_congr' fun ht => ?_
  cases hcb : t.m_cb.isSome with
  | true =>
      have ha : a ∈ s.manager.m_timers := h.listed a (by rw [Armed, callback_of_heap ht, hcb])
      obtain ⟨m, heq⟩ := h.ordered.cancel_of_mem ht hcb ha
      exact iff_of_true
        ⟨true, m, heq, iff_of_true rfl ha, fun hf => absurd hf.symm Bool.false_ne_true⟩
        fun _ => rfl
  | false =>
      rw [cancel_of_null hcb]
      constructor
      · rintro ⟨_, _, hpair, hr, -⟩ ha
        cases hpair
        exact hr.mpr ha
      · intro hin
        have hna : a ∉ s.manager.m_timers := fun ha => Bool.false_ne_true (hin ha)
        exact ⟨_, _, rfl, iff_of_false Bool.false_ne_true hna, fun _ => rfl⟩

theorem Sound.tells_refresh (now : UInt64) (a : Nat) :
    s.Tells (.refresh now a) ↔ s.Meets (.refresh now a) := by
  refine forall_congr' fun t => forall_congr' fun ht => ?_
  have hordered := h.ordered.refresh now a t
  by_cases hcan : t.m_cb.isSome = true ∧ a ∈ s.manager.m_timers
  · obtain ⟨m', heq, hrearmed⟩ := h.ordered.refresh_rearmed now hcan.1 hcan.2
    rw [heq] at hordered ⊢
    have harmed := armedAt_of_rearmed hordered hrearmed (now.toNat + t.m_ms.toNat)
    constructor
    · rintro ⟨_, _, hpair, -, hdue, -⟩ _
      cases hpair
      exact ⟨hcan.1, toNat_add_iff.mp (harmed.mp (hdue rfl))⟩
    · intro hin
      exact ⟨_, _, rfl, iff_of_true rfl hcan.2,
        fun _ => harmed.mpr (toNat_add_iff.mpr (hin hcan.2).2),
        fun hf => absurd hf.symm Bool.false_ne_true⟩
  · rw [h.ordered.refresh_refused now hcan]
    constructor
    · rintro ⟨_, _, hpair, hr, -⟩ ha
      cases hpair
      exact absurd (hr.mpr ha) Bool.false_ne_true
    · intro hin
      have hna : a ∉ s.manager.m_timers := fun ha => hcan ⟨(hin ha).1, ha⟩
      exact ⟨_, _, rfl, iff_of_false Bool.false_ne_true hna,
        fun hf => absurd hf Bool.false_ne_true, fun _ => rfl⟩

/-- The shortcut tells the truth of a timer that is armed. -/
theorem Sound.reset_shortcut_due {a : Nat} {t : Timer} (ht : s.manager.heap a = some t)
    (ha : a ∈ s.manager.m_timers) :
    ArmedAt s.manager a ((s.start a).toNat + t.m_ms.toNat) ↔
      (s.start a).toNat + t.m_ms.toNat < UInt64.size := by
  rw [armedAt_iff h.ordered ha, nextOf_of_heap ht, h.due a t ht]
  exact toNat_add_iff

theorem Sound.tells_reset (now : UInt64) (a : Nat) (ms : UInt64) (from_now : Bool) :
    s.Tells (.reset now a ms from_now) ↔ s.Meets (.reset now a ms from_now) := by
  refine forall_congr' fun t => forall_congr' fun ht => ?_
  have hordered := h.ordered.reset now a t ms from_now
  by_cases hms : ms = t.m_ms ∧ from_now = false
  · obtain ⟨rfl, rfl⟩ := hms
    rw [reset_shortcut]
    constructor
    · rintro ⟨_, _, _, heq, hr, hdue, -⟩
      cases heq
      have ha := hr.mp rfl
      exact ⟨fun _ => ⟨Or.inr ⟨rfl, rfl⟩, (h.reset_shortcut_due ht ha).mp (hdue rfl)⟩,
        fun hna => absurd ha hna⟩
    · rintro ⟨hin, hout⟩
      have ha : a ∈ s.manager.m_timers := by
        by_contra hna
        exact hout hna ⟨rfl, rfl⟩
      exact ⟨_, _, _, rfl, iff_of_true rfl ha, fun _ => (h.reset_shortcut_due ht ha).mpr (hin ha).2,
        fun hf => absurd hf.symm Bool.false_ne_true⟩
  · by_cases hcan : t.m_cb.isSome = true ∧ a ∈ s.manager.m_timers
    · obtain ⟨r, heq, hrearmed⟩ := h.ordered.reset_rearmed now hms hcan.1 hcan.2
      rw [heq] at hordered ⊢
      rw [h.start_eq ht] at hrearmed
      have harmed := armedAt_of_rearmed hordered hrearmed
        ((if from_now then now else s.start a).toNat + ms.toNat)
      constructor
      · rintro ⟨_, _, _, hpair, -, hdue, -⟩
        cases hpair
        exact ⟨fun _ => ⟨Or.inl hcan.1, toNat_add_iff.mp (harmed.mp (hdue rfl))⟩,
          fun hna => absurd hcan.2 hna⟩
      · rintro ⟨hin, -⟩
        exact ⟨_, _, _, rfl, iff_of_true rfl hcan.2,
          fun _ => harmed.mpr (toNat_add_iff.mpr (hin hcan.2).2),
          fun hf => absurd hf.symm Bool.false_ne_true⟩
    · rw [h.ordered.reset_refused now hms hcan]
      constructor
      · rintro ⟨_, _, _, hpair, hr, -⟩
        cases hpair
        exact ⟨fun ha => absurd (hr.mpr ha) Bool.false_ne_true, fun _ => hms⟩
      · rintro ⟨hin, -⟩
        have hna : a ∉ s.manager.m_timers := fun ha =>
          (hin ha).1.elim (fun hcb => hcan ⟨hcb, ha⟩) hms
        exact ⟨_, _, _, rfl, iff_of_false Bool.false_ne_true hna,
          fun hf => absurd hf Bool.false_ne_true, fun _ => rfl⟩

theorem Sound.tells_iff (act : Act) : s.Tells act ↔ s.Meets act := by
  cases act with
  | cancel a => exact h.tells_cancel a
  | refresh now a => exact h.tells_refresh now a
  | reset now a ms from_now => exact h.tells_reset now a ms from_now
  | addTimer now a ms cb recurring => exact Iff.rfl
  | getNextTimer now => exact Iff.rfl
  | listExpiredCb now tmp => exact Iff.rfl

end Report

/-! ## Every run -/

/-- In every state of every run an operation on a handle reports the truth just when it meets the
condition. -/
theorem handles_tell_iff (now : UInt64) (acts : List Act) :
    Throughout step (fun s => ∀ act, s.Tells act ↔ s.Meets act) (new now) acts :=
  (throughout_of_step (fun _ _ _ h hstep => h.step hstep) (new_sound now) acts).mono
    fun _ h act => h.tells_iff act

/-- A timer is cancelled and its period reset to what it is. -/
theorem cancelledTimer_not_tells :
    ¬Throughout step (fun s => ∀ act, s.Tells act) (new 0)
      [.addTimer 0 1 100 (some 0) false, .cancel 1] := by
  intro h
  obtain ⟨r, m, at_front, heq, hr, -⟩ := h.final rfl (.reset 0 1 100 false) _ rfl
  cases heq
  exact absurd (hr.mp rfl) List.not_mem_nil

end Clocked

end TimerManager

end Muqiu
