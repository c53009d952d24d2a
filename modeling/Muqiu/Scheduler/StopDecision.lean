import Muqiu.Scheduler.Model

/-!
# The decision to stop

`stopping` reads the counter and the queue under the mutex.  A worker decrements the counter
before it looks at the state its fiber came back in, so between the two a fiber in `READY` is
neither counted nor queued.

`InTime` is the exact condition: with both flags set, the last active worker accounts for its
task only when no fiber in `READY` will be left to put back, and `stop()` comes at no such
moment.
-/

namespace Muqiu

open Runs

/-- The fiber that a worker has accounted for and may have to queue again. -/
def Phase.owed : Phase → Option Nat
  | .counted f _ => some f
  | .requeue f _ => some f
  | _ => none

namespace Scheduler

/-- Some worker has still to put a fiber in `READY` back into the queue. -/
def PendingReady (s : Scheduler) : Prop :=
  ∃ (i : Nat) (w : Worker) (f : Nat), s.workers[i]? = some w ∧ w.phase.owed = some f ∧
    s.state f = .READY

/-- What `stopping` is to mean. -/
structure Finished (s : Scheduler) : Prop where
  queue : s.m_fibers = []
  workers : ∀ w ∈ s.workers, w.phase.active = false
  ready : ¬s.PendingReady

/-- The scheduler only says that it stops when it is finished. -/
def Sound (s : Scheduler) : Prop := s.stopping = true → s.Finished

/-- `begin` drops the task. -/
def Drops (s : Scheduler) (ft : FiberAndThread) : Prop :=
  (ft.fiber.filter fun f => !(s.state f).ended) = none ∧ ft.cb = none

/-- The step of a worker does not decrement the counter, or leaves no fiber in `READY` behind
that is not queued. -/
def Clean (s : Scheduler) (w : Worker) : Prop :=
  match w.phase with
  | .returned f _ => s.state f ≠ .READY ∧ ¬s.PendingReady
  | .taken ft => s.Drops ft → ¬s.PendingReady
  | _ => True

/-- No decrement to zero and no `stop()` while a fiber in `READY` is not queued. -/
def InTime (s : Scheduler) (a : Act) (_ : Scheduler) : Prop :=
  match a with
  | .stop => s.m_activeThreadCount = 0 → s.m_fibers = [] → ¬s.PendingReady
  | .advance i =>
      ∀ w, s.workers[i]? = some w → s.m_autoStop = true → s.m_stopping = true →
        s.m_activeThreadCount = 1 → s.m_fibers = [] → s.Clean w
  | _ => True

theorem stopping_iff (s : Scheduler) :
    s.stopping = true ↔ s.m_autoStop = true ∧ s.m_stopping = true ∧
      s.m_activeThreadCount = 0 ∧ s.m_fibers = [] := by
  rw [stopping, Bool.and_eq_true, Bool.and_eq_true, Bool.and_eq_true, decide_eq_true_iff,
    List.isEmpty_iff, and_assoc, and_assoc]

/-- The count answers for the queue and the workers. -/
theorem sound_iff {s : Scheduler} (h : s.Counted) :
    s.Sound ↔ (s.stopping = true → ¬s.PendingReady) := by
  constructor
  · exact fun hsound hstop => (hsound hstop).ready
  · intro hready hstop
    obtain ⟨_, _, hzero, hempty⟩ := s.stopping_iff.mp hstop
    exact ⟨hempty, h.not_active hzero, hready hstop⟩

/-! ## Steps that cannot go wrong -/

section Steps

variable {s t : Scheduler} {i : Nat} {w w' : Worker}

theorem Counted.sound_of_active (h : t.Counted) (hw : t.workers[i]? = some w')
    (hactive : w'.phase.active = true) : t.Sound := by
  intro hstop
  have hnot := h.not_active (t.stopping_iff.mp hstop).2.2.1 w' (List.mem_of_getElem? hw)
  rw [hactive] at hnot
  cases hnot

theorem sound_of_queued (h : t.m_fibers ≠ []) : t.Sound :=
  fun hstop => absurd (t.stopping_iff.mp hstop).2.2.2 h

theorem Sound.keep (h : s.Sound) (ht : t.Counted) (hstop : t.stopping = true → s.stopping = true)
    (hready : t.PendingReady → s.PendingReady) : t.Sound :=
  (sound_iff ht).mpr fun hafter hpending => (h (hstop hafter)).ready (hready hpending)

/-- A worker's step that owes no more than before. -/
theorem PendingReady.of_set (hset : t.workers = s.workers.set i w')
    (hw : s.workers[i]? = some w) (hstate : ∀ f, t.state f = .READY → s.state f = .READY)
    (howed : ∀ f, w'.phase.owed = some f → t.state f = .READY → w.phase.owed = some f)
    (h : t.PendingReady) : s.PendingReady := by
  obtain ⟨j, wj, f, hj, hf, hready⟩ := h
  rcases worker_of_set hset hj with ⟨_, rfl⟩ | ⟨_, hj'⟩
  · exact ⟨i, w, f, hw, howed f hf hready, hstate f hready⟩
  · exact ⟨j, wj, f, hj', hf, hstate f hready⟩

/-- A worker's step that owed nothing before. -/
theorem PendingReady.to_set (hset : t.workers = s.workers.set i w')
    (hw : s.workers[i]? = some w) (hstate : t.state = s.state) (howed : w.phase.owed = none)
    (h : s.PendingReady) : t.PendingReady := by
  obtain ⟨j, wj, f, hj, hf, hready⟩ := h
  refine ⟨j, wj, f, ?_, hf, by rw [hstate]; exact hready⟩
  rw [hset, List.getElem?_set]
  split
  next hij =>
    rw [← hij, hw] at hj
    cases hj
    rw [howed] at hf
    cases hf
  next => exact hj

/-- The worker after its own step. -/
theorem worker_set_self (hw : s.workers[i]? = some w) (hset : t.workers = s.workers.set i w') :
    t.workers[i]? = some w' := by
  obtain ⟨hi, _⟩ := List.getElem?_eq_some_iff.mp hw
  rw [hset, List.getElem?_set_self hi]

theorem inTime_iff (hw : s.workers[i]? = some w) :
    s.InTime (.advance i) t ↔ (s.m_autoStop = true → s.m_stopping = true →
      s.m_activeThreadCount = 1 → s.m_fibers = [] → s.Clean w) := by
  constructor
  · exact fun h => h w hw
  · intro h w' hw'
    cases Option.some.inj (hw.symm.trans hw')
    exact h

/-- A step that is fine whatever the flags are. -/
theorem sound_iff_of_clean (hw : s.workers[i]? = some w) (hsound : t.Sound) (hclean : s.Clean w) :
    t.Sound ↔ s.InTime (.advance i) t :=
  ⟨fun _ => (inTime_iff hw).mpr fun _ _ _ _ => hclean, fun _ => hsound⟩

/-- A step that decrements the counter. -/
theorem sound_account (ht : t.Counted)
    (hcount : t.m_activeThreadCount = s.m_activeThreadCount - 1)
    (hauto : t.m_autoStop = s.m_autoStop) (hflag : t.m_stopping = s.m_stopping)
    (hqueue : t.m_fibers = s.m_fibers) :
    t.Sound ↔ (s.m_autoStop = true → s.m_stopping = true → s.m_activeThreadCount = 1 →
      s.m_fibers = [] → ¬t.PendingReady) := by
  rw [sound_iff ht, stopping_iff, hauto, hflag, hqueue, hcount]
  constructor
  · intro h ha hf hone hempty
    exact h ⟨ha, hf, by omega, hempty⟩
  · rintro h ⟨ha, hf, hzero, hempty⟩
    exact h ha hf (by omega) hempty

end Steps

/-! ## The steps -/

theorem sound_scan {s : Scheduler} {i : Nat} {w : Worker} (h : s.Sound)
    (hw : s.workers[i]? = some w) (hphase : w.phase = .scan) (ht : (s.scan i w).Counted) :
    (s.scan i w).Sound ↔ s.InTime (.advance i) (s.scan i w) := by
  refine sound_iff_of_clean hw ?_ (by rw [Clean, hphase]; trivial)
  rw [scan] at ht ⊢
  cases htake : takeFirst (s.eligible w.thread) s.m_fibers with
  | none =>
      rw [htake] at ht
      refine h.keep ht (fun hstop => hstop) (PendingReady.of_set rfl hw (fun _ hr => hr) ?_)
      rintro _ ⟨⟩
  | some r =>
      rw [htake] at ht
      exact ht.sound_of_active (worker_set_self hw rfl) rfl

theorem sound_begin {s : Scheduler} {i : Nat} {w : Worker} {ft : FiberAndThread}
    (hw : s.workers[i]? = some w) (hphase : w.phase = .taken ft)
    (ht : (s.begin i w ft).Counted) :
    (s.begin i w ft).Sound ↔ s.InTime (.advance i) (s.begin i w ft) := by
  have hclean : s.Clean w ↔ (s.Drops ft → ¬s.PendingReady) := by rw [Clean, hphase]
  rw [begin] at ht ⊢
  split at ht
  next f _ hfilter =>
    refine sound_iff_of_clean hw (ht.sound_of_active (worker_set_self hw rfl) rfl)
      (hclean.mpr fun hdrops => ?_)
    cases hfilter.symm.trans hdrops.1
  next cb _ hcb =>
    have hkept : s.Clean w := hclean.mpr fun hdrops => by cases hcb.symm.trans hdrops.2
    cases hown : w.cb_fiber with
    | some f =>
        rw [hown] at ht
        exact sound_iff_of_clean hw (ht.sound_of_active (worker_set_self hw rfl) rfl) hkept
    | none =>
        rw [hown] at ht
        exact sound_iff_of_clean hw (ht.sound_of_active (worker_set_self hw rfl) rfl) hkept
  next hfilter hcb =>
    rw [sound_account ht rfl rfl rfl rfl, inTime_iff hw, hclean]
    have howed : w.phase.owed = none := by rw [hphase]; rfl
    have hsame : (s.account.setWorker i { w with phase := .scan }).PendingReady ↔
        s.PendingReady :=
      ⟨PendingReady.of_set rfl hw (fun _ hr => hr) (by rintro _ ⟨⟩),
        PendingReady.to_set rfl hw rfl howed⟩
    rw [hsame]
    exact ⟨fun h ha hf hone hempty _ => h ha hf hone hempty,
      fun h ha hf hone hempty => h ha hf hone hempty ⟨hfilter, hcb⟩⟩

theorem sound_returned {s : Scheduler} {i f : Nat} {w : Worker} {own : Bool}
    (hw : s.workers[i]? = some w) (hphase : w.phase = .returned f own)
    (ht : (s.account.setWorker i { w with phase := .counted f own }).Counted) :
    (s.account.setWorker i { w with phase := .counted f own }).Sound ↔
      s.InTime (.advance i) (s.account.setWorker i { w with phase := .counted f own }) := by
  have howed : w.phase.owed = none := by rw [hphase]; rfl
  have hclean : s.Clean w ↔ s.state f ≠ .READY ∧ ¬s.PendingReady := by rw [Clean, hphase]
  have hpending : (s.account.setWorker i { w with phase := .counted f own }).PendingReady ↔
      s.state f = .READY ∨ s.PendingReady := by
    constructor
    · rintro ⟨j, wj, g, hj, hg, hready⟩
      rcases worker_of_set rfl hj with ⟨_, rfl⟩ | ⟨_, hj'⟩
      · cases hg
        exact Or.inl hready
      · exact Or.inr ⟨j, wj, g, hj', hg, hready⟩
    · rintro (hready | hbefore)
      · exact ⟨i, _, f, worker_set_self hw rfl, rfl, hready⟩
      · exact PendingReady.to_set rfl hw rfl howed hbefore
  rw [sound_account ht rfl rfl rfl rfl, inTime_iff hw, hclean, hpending, not_or]

theorem sound_look {s : Scheduler} {i f : Nat} {w : Worker} {own : Bool} (h : s.Sound)
    (hw : s.workers[i]? = some w) (hphase : w.phase = .counted f own)
    (ht : (s.look i w f own).Counted) :
    (s.look i w f own).Sound ↔ s.InTime (.advance i) (s.look i w f own) := by
  have howed : w.phase.owed = some f := by rw [hphase]; rfl
  refine sound_iff_of_clean hw ?_ (by rw [Clean, hphase]; trivial)
  rw [look] at ht ⊢
  split at ht
  next hready =>
    rw [if_pos hready]
    refine h.keep ht (fun hstop => hstop) (PendingReady.of_set rfl hw (fun _ hr => hr) ?_)
    exact fun g hg _ => howed.trans hg
  next hready =>
    rw [if_neg hready]
    split at ht
    next hended =>
      rw [if_pos hended]
      cases own with
      | false =>
          refine h.keep ht (fun hstop => hstop) (PendingReady.of_set rfl hw (fun _ hr => hr) ?_)
          rintro _ ⟨⟩
      | true =>
          refine h.keep ht (fun hstop => hstop) (PendingReady.of_set rfl hw ?_ ?_)
          · intro g hr
            have hg : Function.update s.state f .INIT g = .READY := hr
            rw [Function.update_apply] at hg
            split at hg
            · cases hg
            · exact hg
          · rintro _ ⟨⟩
    next hended =>
      rw [if_neg hended]
      refine h.keep ht (fun hstop => hstop) (PendingReady.of_set rfl hw (fun _ hr => hr) ?_)
      rintro _ ⟨⟩

theorem sound_hold {s : Scheduler} {i f : Nat} {w : Worker} {own : Bool} (h : s.Sound)
    (hw : s.workers[i]? = some w) (hphase : w.phase = .holding f own)
    (ht : (s.hold i w f own).Counted) :
    (s.hold i w f own).Sound ↔ s.InTime (.advance i) (s.hold i w f own) := by
  refine sound_iff_of_clean hw ?_ (by rw [Clean, hphase]; trivial)
  refine h.keep ht (fun hstop => hstop) (PendingReady.of_set rfl hw ?_ (by rintro _ ⟨⟩))
  intro g hr
  have hg : Function.update s.state f .HOLD g = .READY := hr
  rw [Function.update_apply] at hg
  split at hg
  · cases hg
  · exact hg

theorem sound_advance {s t : Scheduler} {i : Nat} {w : Worker} (h : s.Sound)
    (hw : s.workers[i]? = some w) (hadv : s.advance i w = some t) (ht : t.Counted) :
    t.Sound ↔ s.InTime (.advance i) t := by
  cases advance_cases hadv with
  | scan hphase => exact sound_scan h hw hphase ht
  | begin ft hphase => exact sound_begin hw hphase ht
  | enter f own hphase =>
      exact sound_iff_of_clean hw (ht.sound_of_active (worker_set_self hw rfl) rfl)
        (by rw [Clean, hphase]; trivial)
  | account f own hphase => exact sound_returned hw hphase ht
  | look f own hphase => exact sound_look h hw hphase ht
  | requeue f own hphase =>
      exact sound_iff_of_clean hw
        (sound_of_queued (List.append_ne_nil_of_right_ne_nil _ (List.cons_ne_nil _ _)))
        (by rw [Clean, hphase]; trivial)
  | hold f own hphase => exact sound_hold h hw hphase ht
  | idle hphase =>
      refine sound_iff_of_clean hw ?_ (by rw [Clean, hphase]; trivial)
      rw [goIdle] at ht ⊢
      split at ht
      next hterm =>
        rw [if_pos hterm]
        refine h.keep ht (fun hstop => hstop) (PendingReady.of_set rfl hw (fun _ hr => hr) ?_)
        rintro _ ⟨⟩
      next hterm =>
        rw [if_neg hterm]
        refine h.keep ht (fun hstop => hstop) (PendingReady.of_set rfl hw (fun _ hr => hr) ?_)
        rintro _ ⟨⟩

/-- A step keeps the decision to stop sound exactly when it is in time. -/
theorem sound_step {s t : Scheduler} {a : Act} (hs : s.Counted) (h : s.Sound)
    (hstep : s.step a = some t) : t.Sound ↔ s.InTime a t := by
  have ht := step_counted hs hstep
  cases step_cases hstep with
  | schedule fts =>
      refine ⟨fun _ => trivial, fun _ => h.keep ht (fun hstop => ?_) (fun hready => hready)⟩
      obtain ⟨ha, hf, hzero, hempty⟩ := (stopping_iff _).mp hstop
      exact s.stopping_iff.mpr ⟨ha, hf, hzero, (List.append_eq_nil_iff.mp hempty).1⟩
  | advance i w hw hadv => exact sound_advance h hw hadv ht
  | setState i st w f own hw hphase hended =>
      exact ⟨fun _ => trivial, fun _ => ht.sound_of_active hw (by rw [hphase]; rfl)⟩
  | swapOut i w f own hw hphase =>
      exact ⟨fun _ => trivial, fun _ => ht.sound_of_active (worker_set_self hw rfl) rfl⟩
  | idleOut i st w hw hphase =>
      refine ⟨fun _ => trivial, fun _ => h.keep ht (fun hstop => hstop)
        (PendingReady.of_set rfl hw (fun _ hr => hr) ?_)⟩
      rintro _ ⟨⟩
  | stop =>
      rw [sound_iff ht, stopping_iff]
      exact ⟨fun hnot hzero hempty => hnot ⟨rfl, rfl, hzero, hempty⟩,
        fun hnot ⟨_, _, hzero, hempty⟩ => hnot hzero hempty⟩

/-- `stopping` is sound throughout a run exactly when every step of the run is in time. -/
theorem stop_decision_iff (threads : List Int) (n : Nat) (state : Nat → FiberState)
    (as : List Act) :
    Throughout step Sound (startWith threads n state) as ↔
      Along step InTime (startWith threads n state) as := by
  have hall : ∀ a ∈ as, True := fun _ _ => trivial
  have hstart : (startWith threads n state).Sound := by
    intro hstop
    cases ((stopping_iff _).mp hstop).1
  exact throughout_iff_along (J := Counted) (fun _ _ _ _ hs hstep => step_counted hs hstep)
    (fun _ _ _ _ hs h hstep => sound_step hs h hstep) hall (start_counted threads) hstart

/-- `stop()` while a fiber runs that will swap out in `READY`. -/
def stopWhileReady : List Act :=
  [.schedule [⟨some 0, none, -1⟩], .advance 0, .advance 0, .advance 0, .setState 0 .READY, .stop,
    .swapOut 0, .advance 0]

theorem stopWhileReady_not_sound : ¬ ∀ (threads : List Int) (n : Nat)
    (state : Nat → FiberState) (as : List Act),
      Throughout step Sound (startWith threads n state) as := by
  intro h
  have hrun : (exec step (startWith [1] 1 fun _ => .HOLD) stopWhileReady).map
      (fun s => (s.stopping, s.workers.map (·.phase), s.state 0)) =
        some (true, [.counted 0 false], .READY) := by
    decide
  obtain ⟨s, hs, heq⟩ := Option.map_eq_some_iff.mp hrun
  simp only [Prod.mk.injEq] at heq
  obtain ⟨hstop, hphases, hready⟩ := heq
  obtain ⟨w, hw, hphase⟩ := List.map_eq_singleton_iff.mp hphases
  refine ((h [1] 1 (fun _ => .HOLD) stopWhileReady).final hs hstop).ready ?_
  exact ⟨0, w, 0, by rw [hw]; rfl, by rw [hphase]; rfl, hready⟩

end Scheduler

end Muqiu
