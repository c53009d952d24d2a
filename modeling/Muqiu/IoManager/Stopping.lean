import Muqiu.IoManager.Steps
import Muqiu.Scheduler.Model
import Muqiu.Timer.NextTimer

/-!
# The stop decision

An `IOManager` is a `Scheduler`, a `TimerManager` and the event registry.  What the parts
hand to each other is the tasks: `triggerEvent` schedules continuations, and an idle loop
schedules the callbacks `listExpiredCb` has returned to it, which it holds in a vector of
its own in between.  An idle loop ends where `stopping` says so.

`stopping` trusts `getNextTimer` to tell that no timer is armed.  The count of active workers
is exact in every reachable state, so the rest of its decision is sound.
-/

namespace Muqiu

open Runs

namespace IOManager

/-- An `IOManager` with its workers. -/
structure Machine where
  scheduler : Scheduler
  timers : TimerManager
  world : World
  /-- What idle loops have got from `listExpiredCb` and not scheduled yet. -/
  expired : List (List (Option Nat))

namespace Machine

/-- The queue entry of a task. -/
def entry : Option Task → FiberAndThread
  | some (.cb f) => ⟨none, some f, -1⟩
  | some (.fiber id) => ⟨some id, none, -1⟩
  | none => ⟨none, none, -1⟩

/-- The tasks a step of the registry hands over, in order. -/
def handed (w w' : World) : List FiberAndThread :=
  (w'.log.take (w'.log.length - w.log.length)).reverse.filterMap fun
    | .fire _ t => some (entry t)
    | _ => none

/-- `stopping` at time `now`. -/
def stopping (m : Machine) (now : UInt64) : Bool :=
  decide ((m.timers.getNextTimer now).1 = TimerManager.noTimer) &&
    decide (m.world.m_pendingEventCount = 0) && m.scheduler.stopping

/-- A step of the machine. -/
inductive Act where
  | task (a : Scheduler.Act)
  | timer (a : TimerManager.Act)
  | event (a : IOManager.Act)
  /-- An idle loop calls `listExpiredCb`. -/
  | expire (now : UInt64) (tmp : Nat)
  /-- An idle loop schedules the callbacks it got. -/
  | submit (i : Nat)
  /-- The idle loop of worker `i` finds that it may stop. -/
  | idleExit (i : Nat) (now : UInt64)

/-- The idle fiber of a worker does not end by itself. -/
def endsIdle : Scheduler.Act → Bool
  | .idleOut _ st => st.ended
  | _ => false

/-- `listExpiredCb` is called by idle loops, which keep what it returns. -/
def sweeps : TimerManager.Act → Bool
  | .listExpiredCb _ _ => true
  | _ => false

/-- One step; `none` when it is not enabled. -/
def step (m : Machine) : Act → Option Machine
  | .task a =>
      if endsIdle a then none else (m.scheduler.step a).map fun s => { m with scheduler := s }
  | .timer a =>
      if sweeps a then none else (m.timers.step a).map fun t => { m with timers := t }
  | .event a =>
      (IOManager.step m.world a).map fun w =>
        { m with world := w, scheduler := m.scheduler.schedule (handed m.world w) }
  | .expire now tmp =>
      if (m.timers.heap tmp).isSome then none
      else
        let r := m.timers.listExpiredCb now tmp
        some { m with timers := r.2, expired := m.expired ++ [r.1] }
  | .submit i =>
      (m.expired[i]?).map fun cbs =>
        { m with
          expired := m.expired.eraseIdx i
          scheduler := m.scheduler.schedule (cbs.map fun cb => ⟨none, cb, -1⟩) }
  | .idleExit i now =>
      if m.stopping now then
        (m.scheduler.step (.idleOut i .TERM)).map fun s =>
          { m with scheduler := s, timers := (m.timers.getNextTimer now).2 }
      else none

/-- A new manager with the given worker threads. -/
def start (threads : List Int) (now : UInt64) : Machine :=
  ⟨Scheduler.start threads, TimerManager.new now, IOManager.start, []⟩

/-- `stopping` answers yes only where there is nothing left to do. -/
def StoppingSafe (m : Machine) (now : UInt64) : Prop :=
  m.stopping now = true →
    m.timers.m_timers = [] ∧ m.world.m_pendingEventCount = 0 ∧ m.scheduler.m_fibers = [] ∧
      ∀ w ∈ m.scheduler.workers, w.phase.active = false

/-- The invariant of the parts. -/
structure Sane (m : Machine) : Prop where
  timers : m.timers.Ordered
  counted : m.scheduler.Counted

theorem Sane.step {m m' : Machine} {a : Act} (h : m.Sane) (hstep : Machine.step m a = some m') :
    m'.Sane := by
  cases a with
  | task a =>
      rw [Machine.step, Option.ite_none_left_eq_some] at hstep
      obtain ⟨s, hs, rfl⟩ := Option.map_eq_some_iff.mp hstep.2
      exact ⟨h.timers, Scheduler.step_counted h.counted hs⟩
  | timer a =>
      rw [Machine.step, Option.ite_none_left_eq_some] at hstep
      obtain ⟨t, ht, rfl⟩ := Option.map_eq_some_iff.mp hstep.2
      exact ⟨h.timers.step ht, h.counted⟩
  | event a =>
      obtain ⟨w, _, rfl⟩ := Option.map_eq_some_iff.mp hstep
      exact ⟨h.timers, h.counted⟩
  | expire now tmp =>
      simp only [Machine.step, Option.ite_none_left_eq_some, Option.some.injEq] at hstep
      obtain ⟨_, rfl⟩ := hstep
      exact ⟨h.timers.listExpiredCb now tmp, h.counted⟩
  | submit i =>
      obtain ⟨cbs, _, rfl⟩ := Option.map_eq_some_iff.mp hstep
      exact ⟨h.timers, h.counted⟩
  | idleExit i now =>
      rw [Machine.step, Option.ite_none_right_eq_some] at hstep
      obtain ⟨s, hs, rfl⟩ := Option.map_eq_some_iff.mp hstep.2
      exact ⟨h.timers.getNextTimer now, Scheduler.step_counted h.counted hs⟩

theorem start_sane (threads : List Int) (now : UInt64) : (start threads now).Sane :=
  ⟨TimerManager.new_ordered now, Scheduler.start_counted threads⟩

/-- Where `getNextTimer` is exact, the stop decision is safe. -/
theorem Sane.stoppingSafe {m : Machine} (h : m.Sane) {now : UInt64}
    (hexact : m.timers.NextTimerExact now) : m.StoppingSafe now := by
  intro hstop
  simp only [stopping, Scheduler.stopping, Bool.and_eq_true, decide_eq_true_iff,
    List.isEmpty_iff] at hstop
  obtain ⟨⟨hnone, hpending⟩, ⟨⟨_, hactive⟩, hqueue⟩⟩ := hstop
  exact ⟨hexact.none.mp hnone, hpending, hqueue, h.counted.not_active hactive⟩

/-- In every reachable state `getNextTimer` is exact and the stop decision safe exactly when
no timer is armed or the first one is not overdue. -/
theorem nextTimer_and_stopping_iff {threads : List Int} {t₀ : UInt64} {m : Machine}
    (h : Reachable step (start threads t₀) m) (now : UInt64) :
    m.timers.NextTimerExact now ∧ m.StoppingSafe now ↔ m.timers.InTime now := by
  have hsane : m.Sane := h.invariant (I := Sane) (fun _ _ _ hs hstep => hs.step hstep)
    (start_sane threads t₀)
  have hiff := TimerManager.nextTimerExact_iff hsane.timers now
  exact ⟨fun hboth => hiff.mp hboth.1,
    fun hin => ⟨hiff.mpr hin, hsane.stoppingSafe (hiff.mpr hin)⟩⟩

/-- A timer due at time 100 is armed and `stop` is called. -/
def armAndStop : List Act := [.timer (.addTimer 90 0 10 (some 1) false), .task .stop]

/-- Before it is due, both are right. -/
theorem nextTimer_and_stopping_armAndStop :
    ∃ m, exec step (start [1] 90) armAndStop = some m ∧
      m.timers.NextTimerExact 95 ∧ m.StoppingSafe 95 := by
  have hrun : (exec step (start [1] 90) armAndStop).map
      (fun m => (m.timers.m_timers, TimerManager.nextOf m.timers.heap 0)) = some ([0], 100) := by
    decide +kernel
  obtain ⟨m, hm, heq⟩ := Option.map_eq_some_iff.mp hrun
  obtain ⟨htimers, hnext⟩ := Prod.mk.inj heq
  have hearliest : m.timers.IsEarliest 100 := by
    refine ⟨⟨0, by rw [htimers]; exact List.mem_cons_self, hnext⟩, fun a ha => ?_⟩
    rw [htimers] at ha
    rw [List.mem_singleton.mp ha, hnext]
  exact ⟨m, hm, (nextTimer_and_stopping_iff ⟨armAndStop, hm⟩ 95).mpr
    (Or.inr ⟨100, hearliest, by decide, by decide⟩)⟩

/-- One millisecond after it was due, the armed timer looks like no timer. -/
theorem armAndStop_stops :
    ¬ ∀ (threads : List Int) (t₀ : UInt64) (m : Machine), Reachable step (start threads t₀) m →
      ∀ now, m.timers.NextTimerExact now ∧ m.StoppingSafe now := by
  intro h
  have hrun : (exec step (start [1] 90) armAndStop).map
      (fun m => (m.stopping 101, m.timers.m_timers)) = some (true, [0]) := by decide +kernel
  obtain ⟨m, hm, heq⟩ := Option.map_eq_some_iff.mp hrun
  obtain ⟨hstop, hts⟩ := Prod.mk.inj heq
  have hsafe := ((h [1] 90 m ⟨armAndStop, hm⟩ 101).2 hstop).1
  rw [hts] at hsafe
  simp at hsafe

end Machine

end IOManager

end Muqiu
