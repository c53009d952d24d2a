import Muqiu.Hook.FdManager
import Muqiu.IoManager.Stopping

/-!
# Hooked calls

The threads are workers of one `IOManager`, with hooks enabled.  A fiber calls a function of
the C library on a descriptor and is somewhere in `do_io` (`Call`); the descriptor manager,
the event registry and the condition timers are shared, and a `close` goes through its calls
one at a time, so the steps of fibers, timers and closers interleave.

The kernel decides what a call comes to, and which free number a new descriptor gets.
`files` says which open file a number refers to.  The registry takes the steps of
`IOManager`, and a fiber that `triggerEvent` hands to the scheduler can be swapped in again.
Undefined behaviour ends the run.  `closed` and `trace` are not in the source: they record
whether the descriptor of a fiber was closed while the fiber waited, and what `do_io` called
and returned.
-/

namespace Muqiu

open Runs

namespace Hook

open IOManager (Event)

/-- The values of `errno` that the code tells apart. -/
inductive Errno where
  | EBADF
  | EAGAIN
  | EINTR
  | ETIMEDOUT
  /-- any other -/
  | errno (code : Nat)
deriving DecidableEq, Repr

/-- A count or a descriptor, or -1 with `errno`. -/
inductive Outcome where
  | ok (n : Nat)
  | fail (e : Errno)
deriving DecidableEq, Repr

/-- Where in `do_io` a fiber is. -/
inductive Stage where
  /-- before `return fun(fd, ...)` -/
  | direct
  /-- at `retry` -/
  | retry
  /-- `fun` has failed with `EAGAIN` -/
  | again
  /-- before `addEvent` -/
  | armed
  /-- inside `swapOut` -/
  | waiting
deriving DecidableEq, Repr

/-- A call of `do_io`.  `tinfo` names its `timer_info`, `cancelled` says whether that is
`ETIMEDOUT`, and `timer` whether the variable of that name holds one. -/
structure Call where
  fd : Int
  event : Event
  timeout : UInt64
  tinfo : Nat
  cancelled : Bool
  timer : Bool
  stage : Stage
  closed : Bool
deriving DecidableEq, Repr

/-- A condition timer of `do_io`, with what its callback captures. -/
structure ConditionTimer where
  fiber : Nat
  tinfo : Nat
  fd : Int
  event : Event
deriving DecidableEq, Repr

/-- Where in `close` a thread is. -/
inductive CloseStage where
  /-- before `cancelAll` -/
  | cancelling
  /-- before `del` -/
  | deleting
  /-- before `close_f` -/
  | closing
deriving DecidableEq, Repr

/-- What can be seen of a call. -/
inductive Observation where
  /-- `do_io` calls `fun(fd, ...)` while the number refers to `file`. -/
  | invoked (fiber : Nat) (fd : Int) (file : Option Nat) (closed : Bool)
  | returned (fiber : Nat) (outcome : Outcome) (closed : Bool)
deriving DecidableEq, Repr

/-- The two tables of the process, its descriptors, and the calls that its fibers are in. -/
structure Process where
  registry : IOManager.World
  fds : FdManager
  files : Int → Option Nat
  nextFile : Nat
  calls : Nat → Option Call
  nextInfo : Nat
  /-- Condition timers in `m_timers`. -/
  armed : List ConditionTimer
  /-- Callbacks that `listExpiredCb` has taken. -/
  due : List ConditionTimer
  /-- Callbacks that have set `cancelled`, before `cancelEvent`. -/
  cancels : List (Int × Event)
  closers : List (Int × CloseStage)
  /-- Fibers handed to the scheduler. -/
  scheduled : List Nat
  trace : List Observation

/-- The option `do_io` is called with for an event. -/
def timeoutType : Event → TimeoutType
  | .read => .SO_RCVTIMEO
  | .write => .SO_SNDTIMEO

/-- The fibers a step of the registry hands to the scheduler. -/
def woken (w w' : IOManager.World) : List Nat :=
  (IOManager.Machine.handed w w').filterMap FiberAndThread.fiber

namespace Process

/-- Before the first call. -/
def start : Process where
  registry := IOManager.start
  fds := FdManager.new
  files := fun _ => none
  nextFile := 0
  calls := fun _ => none
  nextInfo := 0
  armed := []
  due := []
  cancels := []
  closers := []
  scheduled := []
  trace := []

/-- The call that a fiber is in. -/
def setCall (s : Process) (fiber : Nat) (c : Option Call) : Process :=
  { s with calls := Function.update s.calls fiber c }

/-- `do_io` returns. -/
def ret (s : Process) (fiber : Nat) (c : Call) (outcome : Outcome) : Process :=
  { s.setCall fiber none with trace := .returned fiber outcome c.closed :: s.trace }

/-- A step of the registry that is not undefined. -/
def event (s : Process) (a : IOManager.Act) : Option Process :=
  (IOManager.step s.registry a).bind fun w =>
    if w.crashed then none
    else some { s with registry := w, scheduled := s.scheduled ++ woken s.registry w }

/-! ## `do_io` -/

/-- Up to the label `retry`. -/
def enter (s : Process) (fiber : Nat) (fd : Int) (ev : Event) : Option Process :=
  let c : Call := ⟨fd, ev, noTimeout, s.nextInfo, false, false, .direct, false⟩
  match s.fds.lookup fd false with
  | .found none => some (s.setCall fiber (some c))
  | .found (some p) =>
      (s.fds.heap[p]?).map fun ctx =>
        if ctx.m_isClosed then s.ret fiber c (.fail .EBADF)
        else if !ctx.m_isSocket || ctx.m_userNonblock then s.setCall fiber (some c)
        else
          { s with nextInfo := s.nextInfo + 1 }.setCall fiber
            (some { c with timeout := ctx.getTimeout (timeoutType ev), stage := .retry })
  | _ => none

/-- `fun(fd, ...)`, which is called again where it was interrupted. -/
def invoke (s : Process) (fiber : Nat) (c : Call) (outcome : Outcome) : Process :=
  let s := { s with trace := .invoked fiber c.fd (s.files c.fd) c.closed :: s.trace }
  if c.stage = .direct then s.ret fiber c outcome
  else
    match outcome with
    | .fail .EINTR => s
    | .fail .EAGAIN => s.setCall fiber (some { c with stage := .again })
    | _ => s.ret fiber c outcome

/-- The condition timer of a call. -/
def timerOf (fiber : Nat) (c : Call) : ConditionTimer := ⟨fiber, c.tinfo, c.fd, c.event⟩

/-- `addConditionTimer`, when there is a timeout. -/
def arm (s : Process) (fiber : Nat) (c : Call) : Process :=
  if c.timeout = noTimeout then
    s.setCall fiber (some { c with timer := false, stage := .armed })
  else
    { s with armed := s.armed ++ [timerOf fiber c] }.setCall fiber
      (some { c with timer := true, stage := .armed })

/-- `if (timer) timer->cancel();` -/
def cancelTimer (s : Process) (fiber : Nat) (c : Call) : Process :=
  if c.timer then { s with armed := s.armed.erase (timerOf fiber c) } else s

/-- `addEvent`, and `swapOut` when that succeeds. -/
def await (s : Process) (fiber : Nat) (c : Call) (ok : Bool) : Option Process :=
  (s.event (.addEvent ⟨some 0, fiber, true⟩ c.fd c.event none ok)).map fun t =>
    if (s.registry.addTarget c.fd ok).isSome then
      t.setCall fiber (some { c with stage := .waiting })
    else (t.cancelTimer fiber c).ret fiber c (.fail (.errno 0))

/-- Behind `swapOut`. -/
def resume (s : Process) (fiber : Nat) (c : Call) : Process :=
  let s := { s with scheduled := s.scheduled.erase fiber }.cancelTimer fiber c
  if c.cancelled then s.ret fiber c (.fail .ETIMEDOUT)
  else s.setCall fiber (some { c with stage := .retry })

/-- The callback of a condition timer, up to `cancelEvent`: nothing once `do_io` has returned
or the timer has fired. -/
def callback (s : Process) (t : ConditionTimer) : Process :=
  match s.calls t.fiber with
  | none => s
  | some c =>
      if c.tinfo = t.tinfo ∧ c.stage ≠ .direct ∧ c.cancelled = false then
        { s with cancels := s.cancels ++ [(t.fd, t.event)] }.setCall t.fiber
          (some { c with cancelled := true })
      else s

/-! ## `close` -/

/-- The descriptor of every fiber that waits on `fd` is being closed. -/
def markClosed (s : Process) (fd : Int) : Process :=
  { s with
    calls := fun fiber => (s.calls fiber).map fun c =>
      if c.fd = fd ∧ c.stage = .waiting then { c with closed := true } else c }

/-- Up to `cancelAll`. -/
def close (s : Process) (fd : Int) : Option Process :=
  match s.fds.lookup fd false with
  | .found none => some { s with closers := s.closers ++ [(fd, .closing)] }
  | .found (some _) => some { s with closers := s.closers ++ [(fd, .cancelling)] }
  | _ => none

/-- The next call of a closer, `rest` being the others. -/
def closeNext (s : Process) (fd : Int) (rest : List (Int × CloseStage)) (ok : Bool) :
    CloseStage → Option Process
  | .cancelling =>
      ((s.markClosed fd).event (.cancelAll fd ok)).map fun t =>
        { t with closers := rest ++ [(fd, .deleting)] }
  | .deleting =>
      (s.fds.del fd).map fun fds => { s with fds := fds, closers := rest ++ [(fd, .closing)] }
  | .closing =>
      ((s.markClosed fd).event (.close fd)).map fun t =>
        { t with files := Function.update t.files fd none, closers := rest }

end Process

/-! ## Steps -/

/-- What happens in the process. -/
inductive Act where
  /-- The kernel gives out a free number: `socket_f`, or `accept_f` that has succeeded. -/
  | opened (fd : Nat)
  /-- Some thread in `get(fd, true)` creates the context. -/
  | create (fd : Int) (fstat : Option Bool)
  | setUserNonblock (ctx : Nat) (v : Bool)
  | setTimeout (ctx : Nat) (type : TimeoutType) (v : UInt64)
  /-- A fiber calls a hooked function. -/
  | enter (fiber : Nat) (fd : Int) (event : Event)
  | invoke (fiber : Nat) (outcome : Outcome)
  | arm (fiber : Nat)
  | await (fiber : Nat) (ok : Bool)
  /-- A fiber that was handed to the scheduler is swapped in. -/
  | resume (fiber : Nat)
  /-- An idle loop takes the callback of an expired timer. -/
  | expire (t : ConditionTimer)
  | callback (t : ConditionTimer)
  /-- A callback calls `cancelEvent`. -/
  | cancel (i : Nat) (ok : Bool)
  /-- Any other use of the registry, the idle loops among them. -/
  | event (a : IOManager.Act)
  | close (fd : Int)
  /-- The closer at place `i` goes on. -/
  | closeNext (i : Nat) (ok : Bool)
deriving DecidableEq, Repr

/-- `close_f` is called by `close` alone. -/
def closes : IOManager.Act → Bool
  | .close _ => true
  | _ => false

namespace Process

/-- The call of a fiber, when it is at one of some places. -/
def callAt (s : Process) (fiber : Nat) (p : Stage → Bool) : Option Call :=
  (s.calls fiber).filter fun c => p c.stage

/-- One step; `none` when it is not enabled or undefined. -/
def step (s : Process) : Act → Option Process
  | .opened fd =>
      if s.files fd = none then
        some { s with files := Function.update s.files fd (some s.nextFile),
                      nextFile := s.nextFile + 1 }
      else none
  | .create fd fstat => (s.fds.create fd fstat).map fun fds => { s with fds := fds }
  | .setUserNonblock p v => some { s with fds := s.fds.update p (·.setUserNonblock v) }
  | .setTimeout p type v => some { s with fds := s.fds.update p (·.setTimeout type v) }
  | .enter fiber fd event => if (s.calls fiber).isSome then none else s.enter fiber fd event
  | .invoke fiber outcome =>
      (s.callAt fiber fun p => p = .direct || p = .retry).bind fun c =>
        if s.files c.fd = none ∧ outcome ≠ .fail .EBADF then none
        else some (s.invoke fiber c outcome)
  | .arm fiber => (s.callAt fiber fun p => p = .again).map fun c => s.arm fiber c
  | .await fiber ok => (s.callAt fiber fun p => p = .armed).bind fun c => s.await fiber c ok
  | .resume fiber =>
      if fiber ∈ s.scheduled then
        (s.callAt fiber fun p => p = .waiting).map fun c => s.resume fiber c
      else none
  | .expire t =>
      if t ∈ s.armed then some { s with armed := s.armed.erase t, due := s.due ++ [t] } else none
  | .callback t =>
      if t ∈ s.due then some ({ s with due := s.due.erase t }.callback t) else none
  | .cancel i ok =>
      (s.cancels[i]?).bind fun r =>
        { s with cancels := s.cancels.eraseIdx i }.event (.cancelEvent r.1 r.2 ok)
  | .event a => if closes a then none else s.event a
  | .close fd => s.close fd
  | .closeNext i ok =>
      (s.closers[i]?).bind fun r => s.closeNext r.1 (s.closers.eraseIdx i) ok r.2

/-! ## What an enabled action does -/

/-- One constructor for each action, with what enables it. -/
inductive Stepped (s : Process) : Act → Process → Prop where
  | opened {fd : Nat} (hfree : s.files fd = none) :
      Stepped s (.opened fd) { s with
        files := Function.update s.files fd (some s.nextFile), nextFile := s.nextFile + 1 }
  | create {fd : Int} {fstat : Option Bool} {fds : FdManager}
      (hcreate : s.fds.create fd fstat = some fds) :
      Stepped s (.create fd fstat) { s with fds := fds }
  | setUserNonblock (p : Nat) (v : Bool) :
      Stepped s (.setUserNonblock p v) { s with fds := s.fds.update p (·.setUserNonblock v) }
  | setTimeout (p : Nat) (type : TimeoutType) (v : UInt64) :
      Stepped s (.setTimeout p type v) { s with fds := s.fds.update p (·.setTimeout type v) }
  | enter {fiber : Nat} {fd : Int} {ev : Event} {t : Process}
      (henter : s.enter fiber fd ev = some t) : Stepped s (.enter fiber fd ev) t
  | invoke {fiber : Nat} {c : Call}
      (hc : (s.callAt fiber fun p => p = .direct || p = .retry) = some c) {outcome : Outcome}
      (hfile : ¬(s.files c.fd = none ∧ outcome ≠ .fail .EBADF)) :
      Stepped s (.invoke fiber outcome) (s.invoke fiber c outcome)
  | arm {fiber : Nat} {c : Call} (hc : (s.callAt fiber fun p => p = .again) = some c) :
      Stepped s (.arm fiber) (s.arm fiber c)
  | await {fiber : Nat} {c : Call} {ok : Bool} {t : Process}
      (hc : (s.callAt fiber fun p => p = .armed) = some c) (hawait : s.await fiber c ok = some t) :
      Stepped s (.await fiber ok) t
  | resume {fiber : Nat} {c : Call} (hscheduled : fiber ∈ s.scheduled)
      (hc : (s.callAt fiber fun p => p = .waiting) = some c) :
      Stepped s (.resume fiber) (s.resume fiber c)
  | expire {timer : ConditionTimer} (harmed : timer ∈ s.armed) :
      Stepped s (.expire timer)
        { s with armed := s.armed.erase timer, due := s.due ++ [timer] }
  | callback {timer : ConditionTimer} (hdue : timer ∈ s.due) :
      Stepped s (.callback timer) ({ s with due := s.due.erase timer }.callback timer)
  | cancel {i : Nat} {ok : Bool} {r : Int × Event} {t : Process} (hr : s.cancels[i]? = some r)
      (hevent : { s with cancels := s.cancels.eraseIdx i }.event (.cancelEvent r.1 r.2 ok) =
        some t) : Stepped s (.cancel i ok) t
  | event {a : IOManager.Act} {t : Process} (hopen : ¬closes a) (hevent : s.event a = some t) :
      Stepped s (.event a) t
  | close {fd : Int} {ctx : Option Nat} (hfound : s.fds.lookup fd false = .found ctx) :
      Stepped s (.close fd) { s with
        closers := s.closers ++ [(fd, if ctx.isSome then .cancelling else .closing)] }
  | closeNext {i : Nat} {ok : Bool} {r : Int × CloseStage} {t : Process}
      (hr : s.closers[i]? = some r)
      (hnext : s.closeNext r.1 (s.closers.eraseIdx i) ok r.2 = some t) :
      Stepped s (.closeNext i ok) t

/-- A step is one of these. -/
theorem stepped {s t : Process} {a : Act} (hstep : s.step a = some t) : s.Stepped a t := by
  cases a with
  | opened fd =>
      rw [step, Option.ite_none_right_eq_some] at hstep
      cases Option.some.inj hstep.2
      exact .opened hstep.1
  | create fd fstat =>
      obtain ⟨fds, hcreate, rfl⟩ := Option.map_eq_some_iff.mp hstep
      exact .create hcreate
  | setUserNonblock p v =>
      cases Option.some.inj hstep
      exact .setUserNonblock p v
  | setTimeout p type v =>
      cases Option.some.inj hstep
      exact .setTimeout p type v
  | enter fiber fd event =>
      rw [step, Option.ite_none_left_eq_some] at hstep
      exact .enter hstep.2
  | invoke fiber outcome =>
      obtain ⟨c, hc, hinvoke⟩ := Option.bind_eq_some_iff.mp hstep
      rw [Option.ite_none_left_eq_some] at hinvoke
      cases Option.some.inj hinvoke.2
      exact .invoke hc hinvoke.1
  | arm fiber =>
      obtain ⟨c, hc, rfl⟩ := Option.map_eq_some_iff.mp hstep
      exact .arm hc
  | await fiber ok =>
      obtain ⟨c, hc, hawait⟩ := Option.bind_eq_some_iff.mp hstep
      exact .await hc hawait
  | resume fiber =>
      rw [step, Option.ite_none_right_eq_some] at hstep
      obtain ⟨c, hc, rfl⟩ := Option.map_eq_some_iff.mp hstep.2
      exact .resume hstep.1 hc
  | expire timer =>
      rw [step, Option.ite_none_right_eq_some] at hstep
      cases Option.some.inj hstep.2
      exact .expire hstep.1
  | callback timer =>
      rw [step, Option.ite_none_right_eq_some] at hstep
      cases Option.some.inj hstep.2
      exact .callback hstep.1
  | cancel i ok =>
      obtain ⟨r, hr, hevent⟩ := Option.bind_eq_some_iff.mp hstep
      exact .cancel hr hevent
  | event a =>
      rw [step, Option.ite_none_left_eq_some] at hstep
      exact .event hstep.1 hstep.2
  | close fd =>
      rw [step, close] at hstep
      split at hstep
      next hfound =>
        cases Option.some.inj hstep
        exact .close hfound
      next hfound =>
        cases Option.some.inj hstep
        exact .close hfound
      · cases hstep
  | closeNext i ok =>
      obtain ⟨r, hr, hnext⟩ := Option.bind_eq_some_iff.mp hstep
      exact .closeNext hr hnext

/-! ## What a step does to the shared parts -/

/-- What may become of the descriptor manager. -/
inductive FdsStep (m : FdManager) : FdManager → Prop where
  | same : FdsStep m m
  | create {m' : FdManager} (fd : Int) (fstat : Option Bool) (h : m.create fd fstat = some m') :
      FdsStep m m'
  | del {m' : FdManager} (fd : Int) (h : m.del fd = some m') : FdsStep m m'
  | update (p : Nat) (f : FdCtx → FdCtx) (h : ∀ ctx, (f ctx).m_isClosed = ctx.m_isClosed) :
      FdsStep m (m.update p f)

theorem FdsStep.noneClosed {m m' : FdManager} (h : FdsStep m m') (hm : m.NoneClosed) :
    m'.NoneClosed := by
  cases h with
  | same => exact hm
  | create fd fstat hcreate => exact hm.create hcreate
  | del fd hdel => exact hm.del hdel
  | update p f hf => exact hm.update p hf

/-- The registry stays or takes one of its steps, the manager one of its own. -/
structure Frame (s t : Process) : Prop where
  registry : t.registry = s.registry ∨ ∃ a, IOManager.step s.registry a = some t.registry
  fds : FdsStep s.fds t.fds

section Frames

variable {s t : Process} {fiber : Nat} {c : Call}

theorem Frame.of_same (hregistry : t.registry = s.registry) (hfds : t.fds = s.fds) :
    s.Frame t :=
  ⟨Or.inl hregistry, by rw [hfds]; exact .same⟩

theorem event_frame {a : IOManager.Act} (hstep : s.event a = some t) : s.Frame t := by
  obtain ⟨w, hw, hcrash⟩ := Option.bind_eq_some_iff.mp hstep
  rw [Option.ite_none_left_eq_some] at hcrash
  cases Option.some.inj hcrash.2
  exact ⟨Or.inr ⟨a, hw⟩, .same⟩

theorem cancelTimer_frame (s : Process) (fiber : Nat) (c : Call) :
    (s.cancelTimer fiber c).registry = s.registry ∧ (s.cancelTimer fiber c).fds = s.fds := by
  rw [cancelTimer]
  split
  · exact ⟨rfl, rfl⟩
  · exact ⟨rfl, rfl⟩

theorem enter_frame {fd : Int} {ev : Event} (hstep : s.enter fiber fd ev = some t) :
    s.Frame t := by
  rw [enter] at hstep
  split at hstep
  · cases Option.some.inj hstep
    exact .of_same rfl rfl
  · obtain ⟨ctx, _, heq⟩ := Option.map_eq_some_iff.mp hstep
    rw [← heq]
    split
    · exact .of_same rfl rfl
    · split
      · exact .of_same rfl rfl
      · exact .of_same rfl rfl
  · cases hstep

theorem invoke_frame (outcome : Outcome) : s.Frame (s.invoke fiber c outcome) := by
  unfold invoke
  split
  · exact .of_same rfl rfl
  · split
    · exact .of_same rfl rfl
    · exact .of_same rfl rfl
    · exact .of_same rfl rfl

theorem arm_frame : s.Frame (s.arm fiber c) := by
  rw [arm]
  split
  · exact .of_same rfl rfl
  · exact .of_same rfl rfl

theorem await_frame {ok : Bool} (hstep : s.await fiber c ok = some t) : s.Frame t := by
  obtain ⟨u, hu, heq⟩ := Option.map_eq_some_iff.mp hstep
  have hframe := event_frame hu
  rw [← heq]
  split
  · exact ⟨hframe.registry, hframe.fds⟩
  · obtain ⟨hregistry, hfds⟩ := cancelTimer_frame u fiber c
    refine ⟨?_, ?_⟩
    · have := hframe.registry
      rw [← hregistry] at this
      exact this
    · have := hframe.fds
      rw [← hfds] at this
      exact this

theorem resume_frame : s.Frame (s.resume fiber c) := by
  obtain ⟨hregistry, hfds⟩ :=
    cancelTimer_frame { s with scheduled := s.scheduled.erase fiber } fiber c
  rw [resume]
  split
  · exact .of_same hregistry hfds
  · exact .of_same hregistry hfds

theorem callback_frame (timer : ConditionTimer) : s.Frame (s.callback timer) := by
  rw [callback]
  split
  · exact .of_same rfl rfl
  · split
    · exact .of_same rfl rfl
    · exact .of_same rfl rfl

theorem closeNext_frame {fd : Int} {rest : List (Int × CloseStage)} {ok : Bool}
    {stage : CloseStage} (hstep : s.closeNext fd rest ok stage = some t) : s.Frame t := by
  cases stage with
  | cancelling =>
      obtain ⟨u, hu, heq⟩ := Option.map_eq_some_iff.mp hstep
      have hframe := event_frame hu
      rw [← heq]
      exact ⟨hframe.registry, hframe.fds⟩
  | deleting =>
      obtain ⟨fds, hdel, heq⟩ := Option.map_eq_some_iff.mp hstep
      rw [← heq]
      exact ⟨Or.inl rfl, .del fd hdel⟩
  | closing =>
      obtain ⟨u, hu, heq⟩ := Option.map_eq_some_iff.mp hstep
      have hframe := event_frame hu
      rw [← heq]
      exact ⟨hframe.registry, hframe.fds⟩

theorem step_frame {a : Act} (hstep : s.step a = some t) : s.Frame t := by
  cases stepped hstep with
  | opened _ => exact .of_same rfl rfl
  | create hcreate => exact ⟨Or.inl rfl, .create _ _ hcreate⟩
  | setUserNonblock p v => exact ⟨Or.inl rfl, .update p _ fun _ => rfl⟩
  | setTimeout p type v =>
      exact ⟨Or.inl rfl, .update p _ fun ctx => ctx.setTimeout_isClosed type v⟩
  | enter henter => exact enter_frame henter
  | invoke _ _ => exact invoke_frame _
  | arm _ => exact arm_frame
  | await _ hawait => exact await_frame hawait
  | resume _ _ => exact resume_frame
  | expire _ => exact .of_same rfl rfl
  | @callback timer _ =>
      have hframe := callback_frame (s := { s with due := s.due.erase timer }) timer
      exact ⟨hframe.registry, hframe.fds⟩
  | cancel _ hevent =>
      have hframe := event_frame hevent
      exact ⟨hframe.registry, hframe.fds⟩
  | event _ hevent => exact event_frame hevent
  | close _ => exact .of_same rfl rfl
  | closeNext _ hnext => exact closeNext_frame hnext

/-- The registry of a process is reachable in `IOManager`, so what holds there of every
reachable registry holds here. -/
theorem registry_reachable (h : Reachable step start s) :
    Reachable IOManager.step IOManager.start s.registry := by
  refine h.invariant (I := fun s => Reachable IOManager.step IOManager.start s.registry)
    (fun s a t hs hstep => ?_) (Reachable.refl _)
  rcases (step_frame hstep).registry with heq | ⟨b, hb⟩
  · rw [heq]
    exact hs
  · exact hs.snoc hb

/-- No step sets `m_isClosed`. -/
theorem noneClosed (h : Reachable step start s) : s.fds.NoneClosed :=
  h.invariant (I := fun s => s.fds.NoneClosed)
    (fun _ _ _ hs hstep => (step_frame hstep).fds.noneClosed hs) FdManager.new_noneClosed

end Frames

end Process

end Hook

end Muqiu
