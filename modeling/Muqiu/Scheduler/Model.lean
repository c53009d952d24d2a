import Muqiu.Lib.Runs

/-!
# The scheduler

`m_fibers` is the queue of tasks.  Every worker thread runs `Scheduler::run`: it scans the
queue under the mutex for the first task it may take, runs the task outside the lock and
accounts for it.  `Phase` says where in the loop a worker is, so the steps of the workers
interleave: the test of the fiber's state, the `swapIn` that sets it to `RUNING`, the
decrement of the counter, the look at the state left behind and the step that follows from it
are one step each.  A fiber is a number, and `state` holds the `m_state` of every fiber object.

What a fiber's code does while it runs is up to the environment: it may schedule tasks, set
its state, and swap out.  `tickle` and log lines have no state.  The counters are integers,
so a decrement below zero shows.
-/

namespace Muqiu

/-- `Fiber::STATE` -/
inductive FiberState where
  | INIT
  | HOLD
  | RUNING
  | TERM
  | READY
  | EXCEPT
deriving DecidableEq, Repr

/-- The state is `TERM` or `EXCEPT`. -/
def FiberState.ended (st : FiberState) : Bool := st = .TERM || st = .EXCEPT

/-- A queued task: a fiber or a callback, and the thread it is pinned to or -1. -/
structure FiberAndThread where
  fiber : Option Nat
  cb : Option Nat
  thread_id : Int
deriving DecidableEq, Repr

/-- Where in `Scheduler::run` a worker is. -/
inductive Phase where
  /-- before the scan of the queue -/
  | scan
  /-- with a task taken off the queue -/
  | taken (ft : FiberAndThread)
  /-- before `swapIn` of a fiber, one taken that has not ended or its own -/
  | entering (fiber : Nat) (own : Bool)
  /-- inside `swapIn` -/
  | running (fiber : Nat) (own : Bool)
  /-- `swapIn` has returned -/
  | returned (fiber : Nat) (own : Bool)
  /-- after `--m_activeThreadCount` -/
  | counted (fiber : Nat) (own : Bool)
  /-- before `schedule` of a fiber found in `READY` -/
  | requeue (fiber : Nat) (own : Bool)
  /-- before `setState(HOLD)` -/
  | holding (fiber : Nat) (own : Bool)
  /-- the scan found no task -/
  | nothing
  /-- inside `swapIn` of the idle fiber -/
  | idling
  /-- out of the loop -/
  | exited
deriving DecidableEq, Repr

/-- The worker has taken a task and not accounted for it yet. -/
def Phase.active : Phase → Bool
  | .taken _ => true
  | .entering _ _ => true
  | .running _ _ => true
  | .returned _ _ => true
  | _ => false

/-- A worker thread: its id, its fiber for callbacks, the state of its idle fiber. -/
structure Worker where
  thread : Int
  cb_fiber : Option Nat
  idle_fiber : FiberState
  phase : Phase
deriving DecidableEq, Repr

/-- A `Scheduler` with its workers and the fibers. -/
structure Scheduler where
  m_fibers : List FiberAndThread
  m_activeThreadCount : Int
  m_idleThreadCount : Int
  m_stopping : Bool
  m_autoStop : Bool
  workers : List Worker
  state : Nat → FiberState
  nextFiber : Nat

namespace Scheduler

/-- After `start()` with the given thread ids. -/
def start (threads : List Int) : Scheduler where
  m_fibers := []
  m_activeThreadCount := 0
  m_idleThreadCount := 0
  m_stopping := false
  m_autoStop := false
  workers := threads.map fun t => ⟨t, none, .RUNING, .scan⟩
  state := fun _ => .INIT
  nextFiber := 0

/-- With `n` fibers made before, in the given states. -/
def startWith (threads : List Int) (n : Nat) (state : Nat → FiberState) : Scheduler :=
  { start threads with state := state, nextFiber := n }

/-- `scheduleNoLock` on each task: a null one is not queued. -/
def schedule (s : Scheduler) (fts : List FiberAndThread) : Scheduler :=
  { s with m_fibers := s.m_fibers ++ fts.filter fun ft => ft.fiber.isSome || ft.cb.isSome }

/-- `setState`: a fiber in another state. -/
def setState (s : Scheduler) (fiber : Nat) (st : FiberState) : Scheduler :=
  { s with state := Function.update s.state fiber st }

/-- The scan passes over tasks pinned to another thread and over running fibers. -/
def eligible (s : Scheduler) (thread : Int) (ft : FiberAndThread) : Bool :=
  (ft.thread_id = -1 || ft.thread_id = thread) &&
    match ft.fiber with
    | some f => s.state f ≠ .RUNING
    | none => true

/-- Take the first task that qualifies off a queue. -/
def takeFirst (p : FiberAndThread → Bool) :
    List FiberAndThread → Option (FiberAndThread × List FiberAndThread)
  | [] => none
  | ft :: rest =>
      if p ft then some (ft, rest)
      else (takeFirst p rest).map fun r => (r.1, ft :: r.2)

/-- Another state of worker `i`. -/
def setWorker (s : Scheduler) (i : Nat) (w : Worker) : Scheduler :=
  { s with workers := s.workers.set i w }

/-- One active thread less. -/
def account (s : Scheduler) : Scheduler :=
  { s with m_activeThreadCount := s.m_activeThreadCount - 1 }

/-- The scan under the mutex. -/
def scan (s : Scheduler) (i : Nat) (w : Worker) : Scheduler :=
  match takeFirst (s.eligible w.thread) s.m_fibers with
  | none => s.setWorker i { w with phase := .nothing }
  | some (ft, rest) =>
      { s with m_fibers := rest, m_activeThreadCount := s.m_activeThreadCount + 1 }.setWorker i
        { w with phase := .taken ft }

/-- The task that was taken: go on to swap its fiber in, or a fiber of the worker's own that
gets the callback, or drop a fiber that has ended. -/
def begin (s : Scheduler) (i : Nat) (w : Worker) (ft : FiberAndThread) : Scheduler :=
  match ft.fiber.filter fun f => !(s.state f).ended, ft.cb with
  | some f, _ => s.setWorker i { w with phase := .entering f false }
  | none, some _ =>
      match w.cb_fiber with
      | some f => (s.setState f .INIT).setWorker i { w with phase := .entering f true }
      | none =>
          { s with nextFiber := s.nextFiber + 1 }.setState s.nextFiber .RUNING |>.setWorker i
            { w with cb_fiber := some s.nextFiber, phase := .entering s.nextFiber true }
  | none, none => s.account.setWorker i { w with phase := .scan }

/-- `swapIn` sets the state through `setThis`. -/
def enter (s : Scheduler) (i : Nat) (w : Worker) (f : Nat) (own : Bool) : Scheduler :=
  (s.setState f .RUNING).setWorker i { w with phase := .running f own }

/-- After the accounting: a fiber that is ready will be queued again, one that has not ended
will be held, a fiber of the worker's own that has ended is reset. -/
def look (s : Scheduler) (i : Nat) (w : Worker) (f : Nat) (own : Bool) : Scheduler :=
  if s.state f = .READY then s.setWorker i { w with phase := .requeue f own }
  else if (s.state f).ended then
    (if own then s.setState f .INIT else s).setWorker i { w with phase := .scan }
  else s.setWorker i { w with phase := .holding f own }

/-- The worker without its own fiber, if that is the one it leaves to the queue. -/
def Worker.release (w : Worker) (own : Bool) : Worker :=
  { w with phase := .scan, cb_fiber := if own then none else w.cb_fiber }

/-- The fiber of a worker is queued again. -/
def requeueFiber (s : Scheduler) (i : Nat) (w : Worker) (f : Nat) (own : Bool) : Scheduler :=
  (s.schedule [⟨some f, none, -1⟩]).setWorker i (Worker.release w own)

/-- The fiber of a worker is on hold. -/
def hold (s : Scheduler) (i : Nat) (w : Worker) (f : Nat) (own : Bool) : Scheduler :=
  (s.setState f .HOLD).setWorker i (Worker.release w own)

/-- No task to run: leave the loop once the idle fiber has ended, or swap it in. -/
def goIdle (s : Scheduler) (i : Nat) (w : Worker) : Scheduler :=
  if w.idle_fiber = .TERM then s.setWorker i { w with phase := .exited }
  else
    { s with m_idleThreadCount := s.m_idleThreadCount + 1 }.setWorker i
      { w with phase := .idling, idle_fiber := .RUNING }

/-- The idle fiber comes back in state `st`. -/
def leaveIdle (s : Scheduler) (i : Nat) (w : Worker) (st : FiberState) : Scheduler :=
  { s with m_idleThreadCount := s.m_idleThreadCount - 1 }.setWorker i
    { w with phase := .scan, idle_fiber := if st.ended then st else .HOLD }

/-- `stopping` -/
def stopping (s : Scheduler) : Bool :=
  s.m_autoStop && s.m_stopping && decide (s.m_activeThreadCount = 0) && s.m_fibers.isEmpty

/-! ## Steps -/

/-- What happens in the scheduler. -/
inductive Act where
  /-- Some thread or fiber calls `schedule`. -/
  | schedule (fts : List FiberAndThread)
  /-- Worker `i` takes its next step in `run`. -/
  | advance (i : Nat)
  /-- The fiber worker `i` runs sets its state, its code before `swapOut` or `mainFunc` at
  the end. -/
  | setState (i : Nat) (st : FiberState)
  /-- The fiber worker `i` runs swaps out. -/
  | swapOut (i : Nat)
  /-- The idle fiber of worker `i` swaps out in state `st`. -/
  | idleOut (i : Nat) (st : FiberState)
  /-- `stop()` sets the two flags. -/
  | stop
deriving DecidableEq, Repr

/-- The next step of a worker in `run`. -/
def advance (s : Scheduler) (i : Nat) (w : Worker) : Option Scheduler :=
  match w.phase with
  | .scan => some (s.scan i w)
  | .taken ft => some (s.begin i w ft)
  | .entering f own => some (s.enter i w f own)
  | .returned f own => some (s.account.setWorker i { w with phase := .counted f own })
  | .counted f own => some (s.look i w f own)
  | .requeue f own => some (s.requeueFiber i w f own)
  | .holding f own => some (s.hold i w f own)
  | .nothing => some (s.goIdle i w)
  | _ => none

/-- One step; `none` when it is not enabled. -/
def step (s : Scheduler) : Act → Option Scheduler
  | .schedule fts => some (s.schedule fts)
  | .advance i => (s.workers[i]?).bind fun w => s.advance i w
  | .setState i st =>
      (s.workers[i]?).bind fun w =>
        match w.phase with
        | .running f _ => if (s.state f).ended then none else some (s.setState f st)
        | _ => none
  | .swapOut i =>
      (s.workers[i]?).bind fun w =>
        match w.phase with
        | .running f own => some (s.setWorker i { w with phase := .returned f own })
        | _ => none
  | .idleOut i st =>
      (s.workers[i]?).bind fun w =>
        if w.phase = .idling then some (s.leaveIdle i w st) else none
  | .stop => some { s with m_autoStop := true, m_stopping := true }

/-! ## What a step is -/

/-- What a worker's next step is, by its phase. -/
inductive Advances (s : Scheduler) (i : Nat) (w : Worker) : Scheduler → Prop where
  | scan (hphase : w.phase = .scan) : Advances s i w (s.scan i w)
  | begin (ft : FiberAndThread) (hphase : w.phase = .taken ft) : Advances s i w (s.begin i w ft)
  | enter (f : Nat) (own : Bool) (hphase : w.phase = .entering f own) :
      Advances s i w (s.enter i w f own)
  | account (f : Nat) (own : Bool) (hphase : w.phase = .returned f own) :
      Advances s i w (s.account.setWorker i { w with phase := .counted f own })
  | look (f : Nat) (own : Bool) (hphase : w.phase = .counted f own) :
      Advances s i w (s.look i w f own)
  | requeue (f : Nat) (own : Bool) (hphase : w.phase = .requeue f own) :
      Advances s i w (s.requeueFiber i w f own)
  | hold (f : Nat) (own : Bool) (hphase : w.phase = .holding f own) :
      Advances s i w (s.hold i w f own)
  | idle (hphase : w.phase = .nothing) : Advances s i w (s.goIdle i w)

theorem advance_cases {s t : Scheduler} {i : Nat} {w : Worker} (h : s.advance i w = some t) :
    s.Advances i w t := by
  rw [advance] at h
  cases hphase : w.phase with
  | scan =>
      simp only [hphase, Option.some.injEq] at h
      rw [← h]
      exact .scan hphase
  | taken ft =>
      simp only [hphase, Option.some.injEq] at h
      rw [← h]
      exact .begin ft hphase
  | entering f own =>
      simp only [hphase, Option.some.injEq] at h
      rw [← h]
      exact .enter f own hphase
  | returned f own =>
      simp only [hphase, Option.some.injEq] at h
      rw [← h]
      exact .account f own hphase
  | counted f own =>
      simp only [hphase, Option.some.injEq] at h
      rw [← h]
      exact .look f own hphase
  | requeue f own =>
      simp only [hphase, Option.some.injEq] at h
      rw [← h]
      exact .requeue f own hphase
  | holding f own =>
      simp only [hphase, Option.some.injEq] at h
      rw [← h]
      exact .hold f own hphase
  | nothing =>
      simp only [hphase, Option.some.injEq] at h
      rw [← h]
      exact .idle hphase
  | running f own => simp [hphase] at h
  | idling => simp [hphase] at h
  | exited => simp [hphase] at h

/-- What a step is, with its guard. -/
inductive Steps (s : Scheduler) : Act → Scheduler → Prop where
  | schedule (fts : List FiberAndThread) : Steps s (.schedule fts) (s.schedule fts)
  | advance {t : Scheduler} (i : Nat) (w : Worker) (hw : s.workers[i]? = some w)
      (hadv : s.advance i w = some t) : Steps s (.advance i) t
  | setState (i : Nat) (st : FiberState) (w : Worker) (f : Nat) (own : Bool)
      (hw : s.workers[i]? = some w) (hphase : w.phase = .running f own)
      (hended : (s.state f).ended = false) : Steps s (.setState i st) (s.setState f st)
  | swapOut (i : Nat) (w : Worker) (f : Nat) (own : Bool) (hw : s.workers[i]? = some w)
      (hphase : w.phase = .running f own) :
      Steps s (.swapOut i) (s.setWorker i { w with phase := .returned f own })
  | idleOut (i : Nat) (st : FiberState) (w : Worker) (hw : s.workers[i]? = some w)
      (hphase : w.phase = .idling) : Steps s (.idleOut i st) (s.leaveIdle i w st)
  | stop : Steps s .stop { s with m_autoStop := true, m_stopping := true }

theorem step_cases {s t : Scheduler} {a : Act} (h : s.step a = some t) : s.Steps a t := by
  cases a with
  | schedule fts =>
      cases Option.some.inj h
      exact .schedule fts
  | advance i =>
      obtain ⟨w, hw, hadv⟩ := Option.bind_eq_some_iff.mp h
      exact .advance i w hw hadv
  | setState i st =>
      obtain ⟨w, hw, hset⟩ := Option.bind_eq_some_iff.mp h
      cases hphase : w.phase with
      | running f own =>
          simp only [hphase, Option.ite_none_left_eq_some, Option.some.injEq] at hset
          obtain ⟨hended, rfl⟩ := hset
          exact .setState i st w f own hw hphase (Bool.eq_false_iff.mpr hended)
      | _ => simp [hphase] at hset
  | swapOut i =>
      obtain ⟨w, hw, hout⟩ := Option.bind_eq_some_iff.mp h
      cases hphase : w.phase with
      | running f own =>
          simp only [hphase, Option.some.injEq] at hout
          rw [← hout]
          exact .swapOut i w f own hw hphase
      | _ => simp [hphase] at hout
  | idleOut i st =>
      obtain ⟨w, hw, hout⟩ := Option.bind_eq_some_iff.mp h
      rw [Option.ite_none_right_eq_some] at hout
      obtain ⟨hphase, heq⟩ := hout
      cases Option.some.inj heq
      exact .idleOut i st w hw hphase
  | stop =>
      cases Option.some.inj h
      exact .stop

/-- The workers after a step of one of them. -/
theorem worker_of_set {s t : Scheduler} {i : Nat} {w' : Worker}
    (hset : t.workers = s.workers.set i w') {j : Nat} {wj : Worker}
    (hj : t.workers[j]? = some wj) :
    j = i ∧ wj = w' ∨ j ≠ i ∧ s.workers[j]? = some wj := by
  rw [hset, List.getElem?_set] at hj
  split at hj
  next hij =>
    split at hj
    · exact Or.inl ⟨hij.symm, (Option.some.inj hj).symm⟩
    · cases hj
  next hij => exact Or.inr ⟨fun h => hij h.symm, hj⟩

/-! ## The number of active workers -/

/-- The workers that have taken a task and not accounted for it. -/
def activeWorkers (s : Scheduler) : Nat := s.workers.countP fun w => w.phase.active

/-- `m_activeThreadCount` counts the active workers. -/
def Counted (s : Scheduler) : Prop := s.m_activeThreadCount = s.activeWorkers

theorem activeWorkers_setWorker {s : Scheduler} {i : Nat} {w : Worker}
    (hw : s.workers[i]? = some w) (w' : Worker) :
    ((s.setWorker i w').activeWorkers : Int) =
      s.activeWorkers - (if w.phase.active then 1 else 0) + if w'.phase.active then 1 else 0 := by
  obtain ⟨hi, hget⟩ := List.getElem?_eq_some_iff.mp hw
  have hset := List.countP_set (p := fun w : Worker => w.phase.active) (a := w') hi
  have hpos : w.phase.active = true → 0 < s.activeWorkers := fun ha =>
    List.countP_pos_iff.mpr ⟨w, List.mem_of_getElem? hw, ha⟩
  rw [hget] at hset
  rw [activeWorkers, setWorker, hset]
  cases ha : w.phase.active with
  | false => cases w'.phase.active <;> simp [activeWorkers]
  | true =>
      have := hpos ha
      rw [activeWorkers] at *
      cases w'.phase.active <;> simp <;> omega

/-- A worker's step that moves the counter as it moves the worker. -/
theorem Counted.setWorker {s t : Scheduler} {i : Nat} {w w' : Worker} (h : s.Counted)
    (hw : s.workers[i]? = some w) (hworkers : t.workers = s.workers)
    (hcount : t.m_activeThreadCount =
      s.m_activeThreadCount - (if w.phase.active then 1 else 0) +
        if w'.phase.active then 1 else 0) : (t.setWorker i w').Counted := by
  have ht : t.workers[i]? = some w := by rw [hworkers]; exact hw
  have hact := activeWorkers_setWorker ht w'
  rw [Counted, hact, activeWorkers, hworkers, ← activeWorkers, ← h]
  exact hcount

theorem start_counted (threads : List Int) : (start threads).Counted := by
  rw [Counted, activeWorkers, start]
  simp only [List.countP_map]
  induction threads with
  | nil => rfl
  | cons t ts ih => simpa [Phase.active] using ih

theorem advance_counted {s t : Scheduler} {i : Nat} {w : Worker} (h : s.Counted)
    (hw : s.workers[i]? = some w) (hstep : s.advance i w = some t) : t.Counted := by
  cases advance_cases hstep with
  | scan hphase =>
      rw [scan]
      cases takeFirst (s.eligible w.thread) s.m_fibers with
      | none => exact h.setWorker hw rfl (by simp [hphase, Phase.active])
      | some r => exact h.setWorker hw rfl (by simp [hphase, Phase.active])
  | begin ft hphase =>
      rw [begin]
      split
      · exact h.setWorker hw rfl (by simp [hphase, Phase.active])
      · cases w.cb_fiber with
        | some f => exact h.setWorker hw rfl (by simp [hphase, Phase.active, setState])
        | none => exact h.setWorker hw rfl (by simp [hphase, Phase.active, setState])
      · exact h.setWorker hw rfl (by simp [hphase, Phase.active, account])
  | enter f own hphase =>
      exact h.setWorker hw rfl (by simp [hphase, Phase.active, setState])
  | account f own hphase =>
      exact h.setWorker hw rfl (by simp [hphase, Phase.active, account])
  | look f own hphase =>
      rw [look]
      split
      · exact h.setWorker hw rfl (by simp [hphase, Phase.active])
      · split
        · cases own with
          | true => exact h.setWorker hw rfl (by simp [hphase, Phase.active, setState])
          | false => exact h.setWorker hw rfl (by simp [hphase, Phase.active])
        · exact h.setWorker hw rfl (by simp [hphase, Phase.active])
  | requeue f own hphase =>
      exact h.setWorker hw rfl (by simp [hphase, Phase.active, schedule, Worker.release])
  | hold f own hphase =>
      exact h.setWorker hw rfl (by simp [hphase, Phase.active, setState, Worker.release])
  | idle hphase =>
      rw [goIdle]
      split
      · exact h.setWorker hw rfl (by simp [hphase, Phase.active])
      · exact h.setWorker hw rfl (by simp [hphase, Phase.active])

/-- Every step keeps the count. -/
theorem step_counted {s t : Scheduler} {a : Act} (h : s.Counted) (hstep : s.step a = some t) :
    t.Counted := by
  cases step_cases hstep with
  | schedule fts => exact h
  | advance i w hw hadv => exact advance_counted h hw hadv
  | setState i st w f own hw hphase hended => exact h
  | swapOut i w f own hw hphase =>
      exact h.setWorker hw rfl (by simp [hphase, Phase.active])
  | idleOut i st w hw hphase => exact h.setWorker hw rfl (by simp [hphase, Phase.active])
  | stop => exact h

/-- With the count at zero no worker is active. -/
theorem Counted.not_active {s : Scheduler} (h : s.Counted) (hzero : s.m_activeThreadCount = 0) :
    ∀ w ∈ s.workers, w.phase.active = false := by
  rw [Counted, hzero] at h
  have hcount : s.activeWorkers = 0 := by omega
  intro w hw
  exact Bool.eq_false_iff.mpr (List.countP_eq_zero.mp hcount w hw)

end Scheduler

end Muqiu
