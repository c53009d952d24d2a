import Muqiu.Lib.Runs
import Muqiu.Lib.OneShot
import Mathlib.Algebra.BigOperators.Group.List.Basic
import Mathlib.Algebra.Order.Group.Int

/-!
# The event registry of `IOManager`

An `FdContext` is a heap object; a pointer to it is its place in `heap`.  The table
`m_fdContexts` holds such pointers, null as `none`, and `epoll_event.data.ptr` holds them
too.  Objects are never freed while the manager runs.

The kernel side is the interest list of the epoll instance (a mask and a data pointer per
descriptor) and the reports `epoll_wait` has handed out and no idle loop has processed yet.
`epoll_ctl` fails on its own terms (`EEXIST`, `ENOENT`) and whenever the environment says so.

Every operation runs under the locks of the source, so one operation is one step here.
Undefined behaviour, a failed `assert` and a call through a null `ctx.scheduler` end the
run: `crashed`.  Log lines and return values are not part of the state.  `log` and
`triggers` are not in the source: they record what was registered, retired and handed to a
scheduler, and for every call of `triggerEvent` whether its bit was set.
-/

namespace Muqiu

open OneShot

namespace IOManager

/-! ## Events -/

/-- `READ` or `WRITE`, the `Event` an operation is called with. -/
inductive Event where
  | read
  | write
deriving DecidableEq, Repr

/-- A mask of events, `fd_ctx->events`. -/
structure Events where
  read : Bool
  write : Bool
deriving DecidableEq, Repr

namespace Events

/-- No event. -/
def NONE : Events := ⟨false, false⟩

/-- The bit of an event. -/
def has (m : Events) : Event → Bool
  | .read => m.read
  | .write => m.write

/-- `m | event` -/
def insert (m : Events) : Event → Events
  | .read => { m with read := true }
  | .write => { m with write := true }

/-- `m & ~event` -/
def erase (m : Events) : Event → Events
  | .read => { m with read := false }
  | .write => { m with write := false }

/-- `m | n` -/
def union (m n : Events) : Events := ⟨m.read || n.read, m.write || n.write⟩

/-- `m & n` -/
def inter (m n : Events) : Events := ⟨m.read && n.read, m.write && n.write⟩

/-- `m & ~n` -/
def diff (m n : Events) : Events := ⟨m.read && !n.read, m.write && !n.write⟩

/-- No bit is set. -/
def isNone (m : Events) : Bool := !m.read && !m.write

/-- The events of a mask, `READ` before `WRITE`. -/
def toList (m : Events) : List Event :=
  (if m.read then [.read] else []) ++ (if m.write then [.write] else [])

/-- The number of bits set. -/
def bits (m : Events) : Int := m.toList.length

theorem mem_toList {m : Events} {e : Event} : e ∈ m.toList ↔ m.has e = true := by
  obtain ⟨r, w⟩ := m
  cases e <;> cases r <;> cases w <;> simp [toList, has]

theorem has_insert (m : Events) (e e' : Event) :
    (m.insert e).has e' = (decide (e' = e) || m.has e') := by
  cases e <;> cases e' <;> simp [insert, has]

theorem has_erase (m : Events) (e e' : Event) :
    (m.erase e).has e' = (!decide (e' = e) && m.has e') := by
  cases e <;> cases e' <;> simp [erase, has]

theorem bits_insert (m : Events) (e : Event) :
    (m.insert e).bits = m.bits + if m.has e then 0 else 1 := by
  obtain ⟨r, w⟩ := m
  cases e <;> cases r <;> cases w <;> rfl

theorem bits_erase (m : Events) (e : Event) :
    (m.erase e).bits = m.bits - if m.has e then 1 else 0 := by
  obtain ⟨r, w⟩ := m
  cases e <;> cases r <;> cases w <;> rfl

end Events

/-! ## Contexts -/

/-- What a scheduler is handed: a callback or a fiber. -/
inductive Task where
  | cb (f : Nat)
  | fiber (id : Nat)
deriving DecidableEq, Repr

/-- `FdContext::EventContext`; `none` is a null pointer or an empty `std::function`. -/
structure EventContext where
  scheduler : Option Nat
  fiber : Option Nat
  cb : Option Nat
deriving DecidableEq, Repr

namespace EventContext

/-- A context that is not registered. -/
def empty : EventContext := ⟨none, none, none⟩

/-- The task `triggerEvent` hands over.  A null fiber gives the scheduler no task. -/
def task (ctx : EventContext) : Option Task :=
  match ctx.cb with
  | some f => some (.cb f)
  | none => ctx.fiber.map .fiber

end EventContext

/-- `IOManager::FdContext`, less its mutex. -/
structure FdContext where
  read : EventContext
  write : EventContext
  fd : Nat
  events : Events
deriving DecidableEq, Repr

namespace FdContext

/-- `new FdContext` with its `fd` set. -/
def new (fd : Nat) : FdContext := ⟨.empty, .empty, fd, .NONE⟩

/-- `getContext` -/
def getContext (c : FdContext) : Event → EventContext
  | .read => c.read
  | .write => c.write

/-- Another context for an event. -/
def setContext (c : FdContext) (event : Event) (ctx : EventContext) : FdContext :=
  match event with
  | .read => { c with read := ctx }
  | .write => { c with write := ctx }

/-- `resetContext` -/
def resetContext (c : FdContext) (event : Event) : FdContext := c.setContext event .empty

/-- `triggerEvent`: clear the bit and hand the continuation over.  `none` is the call
through a null `ctx.scheduler`.  Neither `ctx.cb` nor `ctx.fiber` is cleared. -/
def triggerEvent (c : FdContext) (event : Event) : Option (Option Task × FdContext) :=
  let ctx := c.getContext event
  match ctx.scheduler with
  | none => none
  | some _ =>
      some (ctx.task, { c.setContext event { ctx with scheduler := none } with
        events := c.events.erase event })

@[simp] theorem fd_setContext (c : FdContext) (e : Event) (ctx : EventContext) :
    (c.setContext e ctx).fd = c.fd := by cases e <;> rfl

@[simp] theorem events_setContext (c : FdContext) (e : Event) (ctx : EventContext) :
    (c.setContext e ctx).events = c.events := by cases e <;> rfl

@[simp] theorem getContext_withEvents (c : FdContext) (m : Events) (e : Event) :
    ({ c with events := m } : FdContext).getContext e = c.getContext e := by cases e <;> rfl

theorem getContext_setContext (c : FdContext) (e e' : Event) (ctx : EventContext) :
    (c.setContext e ctx).getContext e' = if e' = e then ctx else c.getContext e' := by
  cases e <;> cases e' <;> rfl

end FdContext

/-! ## The manager and the kernel -/

/-- A report of `epoll_wait` about the descriptor whose context is `ptr`. -/
structure Report where
  ptr : Nat
  ready : Events
  /-- `EPOLLERR` or `EPOLLHUP` -/
  failed : Bool
deriving DecidableEq, Repr

/-- A call of `triggerEvent`: its bit and its `ctx.scheduler` when it is made. -/
structure Trigger where
  bit : Bool
  scheduler : Option Nat
deriving DecidableEq, Repr

/-- The thread that calls `addEvent`: its scheduler, its current fiber and whether that fiber
is `RUNING`. -/
structure Caller where
  scheduler : Option Nat
  fiber : Nat
  running : Bool
deriving DecidableEq, Repr

/-- The continuation a call of `addEvent` supplies. -/
def Caller.continuation (caller : Caller) : Option Nat → Task
  | some f => .cb f
  | none => .fiber caller.fiber

/-- What `addEvent` puts into a context.  The field it does not fill stays as it was. -/
def EventContext.fill (ctx : EventContext) (caller : Caller) : Option Nat → EventContext
  | some f => { ctx with scheduler := caller.scheduler, cb := some f }
  | none => { ctx with scheduler := caller.scheduler, fiber := some caller.fiber }

/-- The manager's registry, the kernel's view of it and the record of a run. -/
structure World where
  /-- The atomic `size_t`, as an integer: a decrement below zero shows. -/
  m_pendingEventCount : Int
  m_fdContexts : List (Option Nat)
  heap : List FdContext
  interest : Int → Option (Events × Nat)
  reports : List Report
  crashed : Bool
  log : List (Entry (Int × Event) (Option Task))
  triggers : List Trigger

namespace World

/-- Something undefined has happened. -/
def crash (w : World) : World := { w with crashed := true }

/-! ## The table -/

/-- The loop of `contextResize` from index `i` on: fill null entries with new contexts. -/
def fillNull : Nat → List (Option Nat) → List FdContext → List (Option Nat) × List FdContext
  | _, [], heap => ([], heap)
  | i, some p :: rest, heap =>
      let r := fillNull (i + 1) rest heap
      (some p :: r.1, r.2)
  | i, none :: rest, heap =>
      let r := fillNull (i + 1) rest (heap ++ [.new i])
      (some heap.length :: r.1, r.2)

/-- `contextResize`: `resize` cuts the table or extends it with null pointers. -/
def contextResize (w : World) (size : Nat) : World :=
  let r := fillNull 0
    (w.m_fdContexts.take size ++ List.replicate (size - w.m_fdContexts.length) none) w.heap
  { w with m_fdContexts := r.1, heap := r.2 }

/-- `(int)m_fdContexts.size()` -/
def tableSize (w : World) : Int := (BitVec.ofNat 32 w.m_fdContexts.length).toInt

/-- `m_fdContexts[fd]`, `none` outside the table. -/
def contextAt (w : World) (fd : Int) : Option Nat :=
  if 0 ≤ fd then (w.m_fdContexts[fd.toNat]?).join else none

/-! ## epoll -/

/-- The operations of `epoll_ctl`. -/
inductive CtlOp where
  | ADD
  | MOD
  | DEL
deriving DecidableEq, Repr

/-- Whether `epoll_ctl` succeeds: `EEXIST`, `ENOENT` and the environment's `ok`. -/
def ctlOk (w : World) (ok : Bool) (op : CtlOp) (fd : Int) : Bool :=
  ok && match op with
    | .ADD => (w.interest fd).isNone
    | .MOD => (w.interest fd).isSome
    | .DEL => (w.interest fd).isSome

/-- `epoll_ctl` for `fd` with mask `events` and `data.ptr`; `none` when it fails. -/
def epollCtl (w : World) (ok : Bool) (op : CtlOp) (fd : Int) (events : Events) (ptr : Nat) :
    Option World :=
  if w.ctlOk ok op fd then
    let entry := if op = .DEL then none else some (events, ptr)
    some { w with interest := Function.update w.interest fd entry }
  else none

/-! ## Registering and triggering -/

/-- The end of `addEvent`: count the event, set its bit and fill its context. -/
def register (w : World) (caller : Caller) (p : Nat) (c : FdContext) (fd : Int) (event : Event)
    (cb : Option Nat) : World :=
  { w with
    m_pendingEventCount := w.m_pendingEventCount + 1
    heap := w.heap.set p
      { c.setContext event ((c.getContext event).fill caller cb) with
        events := c.events.insert event }
    log := .add (fd, event) (some (caller.continuation cb)) :: w.log }

/-- The end of `delEvent`. -/
def unregister (w : World) (p : Nat) (c : FdContext) (fd : Int) (event : Event) : World :=
  { w with
    m_pendingEventCount := w.m_pendingEventCount - 1
    heap := w.heap.set p { c.resetContext event with events := c.events.erase event }
    log := .drop (fd, event) :: w.log }

/-- `fd_ctx->triggerEvent(event); --m_pendingEventCount;` -/
def fire (w : World) (p : Nat) (event : Event) : World :=
  if w.crashed then w
  else
    match w.heap[p]? with
    | none => w.crash
    | some c =>
        let w := { w with
          triggers := ⟨c.events.has event, (c.getContext event).scheduler⟩ :: w.triggers }
        match c.triggerEvent event with
        | none => w.crash
        | some (task, c') =>
            { w with
              m_pendingEventCount := w.m_pendingEventCount - 1
              heap := w.heap.set p c'
              log := .fire (c.fd, event) task :: w.log }

/-! ## Operations -/

/-- The read-locked size test of `addEvent` and, where it fails, the write-locked resize. -/
def ensure (w : World) (fd : Int) : World :=
  if w.tableSize > fd then w else w.contextResize (3 * fd.toNat / 2)

/-- `addEvent` under the mutex of the context `p`. -/
def addLocked (w : World) (caller : Caller) (p : Nat) (fd : Int) (event : Event)
    (cb : Option Nat) (ok : Bool) : World :=
  match w.heap[p]? with
  | none => w.crash
  | some c =>
      let op := if c.events.isNone then .ADD else .MOD
      match w.epollCtl ok op fd (c.events.insert event) p with
      | none => w
      | some w =>
          let w := w.register caller p c fd event cb
          -- the assertion on the current fiber, reached where no callback is given
          if cb.isSome || caller.running then w else w.crash

/-- `addEvent` -/
def addEvent (w : World) (caller : Caller) (fd : Int) (event : Event) (cb : Option Nat)
    (ok : Bool) : World :=
  let w := w.ensure fd
  match w.contextAt fd with
  | none => w.crash
  | some p => w.addLocked caller p fd event cb ok

/-- `delEvent` and `cancelEvent` up to `epoll_ctl`: the world after it, the context and its
pointer, or `none` where the call returns false. -/
def removeCtl (w : World) (fd : Int) (event : Event) (ok : Bool) (p : Nat) :
    Option (World × FdContext) :=
  match w.heap[p]? with
  | none => none
  | some c =>
      if c.events.has event then
        let new_events := c.events.erase event
        let op := if new_events.isNone then .DEL else .MOD
        (w.epollCtl ok op fd new_events p).map fun w => (w, c)
      else none

/-- `delEvent` -/
def delEvent (w : World) (fd : Int) (event : Event) (ok : Bool) : World :=
  if w.tableSize ≤ fd then w
  else
    match w.contextAt fd with
    | none => w.crash
    | some p =>
        match w.removeCtl fd event ok p with
        | none => w
        | some (w, c) => w.unregister p c fd event

/-- `cancelEvent`, which also triggers the event. -/
def cancelEvent (w : World) (fd : Int) (event : Event) (ok : Bool) : World :=
  if w.tableSize ≤ fd then w
  else
    match w.contextAt fd with
    | none => w.crash
    | some p =>
        match w.removeCtl fd event ok p with
        | none => w
        | some (w, _) => w.fire p event

/-- `fd_ctx->events` -/
def eventsAt (w : World) (p : Nat) : Events := ((w.heap[p]?).map FdContext.events).getD .NONE

/-- `cancelAll`, which also triggers what is registered. -/
def cancelAll (w : World) (fd : Int) (ok : Bool) : World :=
  if w.tableSize ≤ fd then w
  else
    match w.contextAt fd with
    | none => w.crash
    | some p =>
        if (w.eventsAt p).isNone then w
        else
          match w.epollCtl ok .DEL fd .NONE p with
          | none => w
          | some w =>
              let w := if (w.eventsAt p).read then w.fire p .read else w
              let w := if (w.eventsAt p).write then w.fire p .write else w
              if (w.eventsAt p).isNone then w else w.crash

/-- The events the idle loop takes a report for: an error counts as everything registered. -/
def realEvents (events : Events) (r : Report) : Events :=
  if r.failed then r.ready.union events else r.ready

/-- The body of the idle loop for one report. -/
def dispatch (w : World) (r : Report) (ok : Bool) : World :=
  match w.heap[r.ptr]? with
  | none => w.crash
  | some c =>
      let real_events := realEvents c.events r
      if (c.events.inter real_events).isNone then w
      else
        let left_events := c.events.diff real_events
        let op := if left_events.isNone then .DEL else .MOD
        match w.epollCtl ok op c.fd left_events r.ptr with
        | none => w
        | some w =>
            let w := if real_events.read then w.fire r.ptr .read else w
            if real_events.write then w.fire r.ptr .write else w

end World

/-! ## Steps -/

/-- One step of some thread or of the kernel.  `ok` is what `epoll_ctl` returns. -/
inductive Act where
  | addEvent (caller : Caller) (fd : Int) (event : Event) (cb : Option Nat) (ok : Bool)
  | delEvent (fd : Int) (event : Event) (ok : Bool)
  | cancelEvent (fd : Int) (event : Event) (ok : Bool)
  | cancelAll (fd : Int) (ok : Bool)
  /-- `epoll_wait` reports readiness within the interest mask, or an error. -/
  | epollWait (fd : Int) (ready : Events) (failed : Bool)
  /-- An idle loop processes the report at place `i`. -/
  | dispatch (i : Nat) (ok : Bool)
  /-- The descriptor is closed, which removes it from the epoll instance. -/
  | close (fd : Int)
deriving DecidableEq, Repr

/-- One step; `none` when it is not enabled. -/
def step (w : World) (a : Act) : Option World :=
  if w.crashed then none
  else
    match a with
    | .addEvent caller fd event cb ok => some (w.addEvent caller fd event cb ok)
    | .delEvent fd event ok => some (w.delEvent fd event ok)
    | .cancelEvent fd event ok => some (w.cancelEvent fd event ok)
    | .cancelAll fd ok => some (w.cancelAll fd ok)
    | .epollWait fd ready failed =>
        match w.interest fd with
        | none => none
        | some (mask, ptr) =>
            if (ready.diff mask).isNone then
              some { w with reports := w.reports ++ [⟨ptr, ready, failed⟩] }
            else none
    | .dispatch i ok =>
        match w.reports[i]? with
        | none => none
        | some r => some ({ w with reports := w.reports.eraseIdx i }.dispatch r ok)
    | .close fd => some { w with interest := Function.update w.interest fd none }

/-- The constructor's `contextResize(32)` on an empty registry. -/
def start : World :=
  World.contextResize ⟨0, [], [], fun _ => none, [], false, [], []⟩ 32

end IOManager

end Muqiu
