import Muqiu.Lib.Runs
import Muqiu.Lib.SortedSet

/-!
# Timers

A `Timer` is a heap object.  A `Timer::ptr` is its address, and the allocator chooses the
address of a new one, so an operation that allocates takes a free address as an argument.
Objects are not freed while the manager lives.  `m_timers` is the `std::set` of addresses in
the order of `Timer::Comparator`, which reads `m_next` through the pointer.

`GetCurrentMS()` is the argument `now`.  Times are `uint64_t`: sums and differences wrap.
Every operation runs under the manager's mutex and is one step.  `none` is undefined
behaviour: `erase(end())`.
-/

namespace Muqiu

open SortedSet

/-- A `Timer`, less the pointer to its manager. -/
structure Timer where
  m_recurring : Bool
  m_ms : UInt64
  m_next : UInt64
  /-- The callback, `none` when it is null. -/
  m_cb : Option Nat
deriving DecidableEq, Repr

namespace Timer

/-- `Timer::Comparator` on pointers, each null or given by `m_next` and its address. -/
def comparator : Option (UInt64 × Nat) → Option (UInt64 × Nat) → Bool
  | none, none => false
  | none, some _ => true
  | some _, none => false
  | some lhs, some rhs =>
      if lhs.1 < rhs.1 then true
      else if rhs.1 < lhs.1 then false
      else lhs.2 < rhs.2

end Timer

/-- A `TimerManager` and the timers it has made. -/
structure TimerManager where
  heap : Nat → Option Timer
  m_timers : List Nat
  m_tickled : Bool
  m_previousTime : UInt64

namespace TimerManager

/-- `~0ull` -/
def noTimer : UInt64 := 0xFFFFFFFFFFFFFFFF

/-- The constructor, at a time. -/
def new (now : UInt64) : TimerManager := ⟨fun _ => none, [], false, now⟩

/-- `timer->m_next` -/
def nextOf (heap : Nat → Option Timer) (a : Nat) : UInt64 :=
  match heap a with
  | some t => t.m_next
  | none => 0

/-- The comparator of `m_timers` on addresses. -/
def less (heap : Nat → Option Timer) (a b : Nat) : Bool :=
  Timer.comparator (some (nextOf heap a, a)) (some (nextOf heap b, b))

/-- `addTimer(val, lock)`: insert, and whether `onTimerInsertAtFront` is called. -/
def insertTimer (m : TimerManager) (a : Nat) : TimerManager × Bool :=
  let timers := insert (less m.heap) a m.m_timers
  let at_front := decide (timers.head? = some a) && !m.m_tickled
  ({ m with m_timers := timers, m_tickled := m.m_tickled || at_front }, at_front)

/-- `addTimer(ms, cb, recurring)`.  `addConditionTimer` calls it with a bound callback. -/
def addTimer (m : TimerManager) (now : UInt64) (a : Nat) (ms : UInt64) (cb : Option Nat)
    (recurring : Bool) : TimerManager × Bool :=
  let timer : Timer := ⟨recurring, ms, now + ms, cb⟩
  { m with heap := Function.update m.heap a (some timer) }.insertTimer a

/-- `Timer::cancel` -/
def cancel (m : TimerManager) (a : Nat) (t : Timer) : Option (Bool × TimerManager) :=
  if t.m_cb.isSome then
    let heap := Function.update m.heap a (some { t with m_cb := none })
    match find? (less heap) a m.m_timers with
    | none => none
    | some _ => some (true, { m with heap := heap, m_timers := erase (less heap) a m.m_timers })
  else some (false, m)

/-- `Timer::refresh` -/
def refresh (m : TimerManager) (now : UInt64) (a : Nat) (t : Timer) : Bool × TimerManager :=
  if t.m_cb.isSome then
    match find? (less m.heap) a m.m_timers with
    | none => (false, m)
    | some _ =>
        let timers := erase (less m.heap) a m.m_timers
        let heap := Function.update m.heap a (some { t with m_next := now + t.m_ms })
        (true, { m with heap := heap, m_timers := insert (less heap) a timers })
  else (false, m)

/-- `Timer::reset`, with whether `onTimerInsertAtFront` is called. -/
def reset (m : TimerManager) (now : UInt64) (a : Nat) (t : Timer) (ms : UInt64)
    (from_now : Bool) : Bool × TimerManager × Bool :=
  if ms = t.m_ms ∧ from_now = false then (true, m, false)
  else if t.m_cb.isSome then
    match find? (less m.heap) a m.m_timers with
    | none => (false, m, false)
    | some _ =>
        let timers := erase (less m.heap) a m.m_timers
        let start := if from_now then now else t.m_next - t.m_ms
        let heap := Function.update m.heap a (some { t with m_ms := ms, m_next := start + ms })
        (true, { m with heap := heap, m_timers := timers }.insertTimer a)
  else (false, m, false)

/-- `getNextTimer` -/
def getNextTimer (m : TimerManager) (now_ms : UInt64) : UInt64 × TimerManager :=
  let m := { m with m_tickled := false }
  match m.m_timers with
  | [] => (noTimer, m)
  | a :: _ =>
      if now_ms = nextOf m.heap a then (0, m) else (nextOf m.heap a - now_ms, m)

/-- `detectColckRollover` -/
def detectColckRollover (m : TimerManager) (now_ms : UInt64) : Bool × TimerManager :=
  (decide (now_ms < m.m_previousTime ∧ now_ms < m.m_previousTime - 60 * 60 * 1000),
    { m with m_previousTime := now_ms })

/-- The end of `listExpiredCb`: collect the callbacks and re-arm what recurs. -/
def collect (now_ms : UInt64) :
    List Nat → TimerManager → List (Option Nat) × TimerManager
  | [], m => ([], m)
  | a :: expired, m =>
      match m.heap a with
      | none => collect now_ms expired m
      | some t =>
          let m :=
            if t.m_recurring then
              let heap := Function.update m.heap a (some { t with m_next := now_ms + t.m_ms })
              { m with heap := heap, m_timers := insert (less heap) a m.m_timers }
            else { m with heap := Function.update m.heap a (some { t with m_cb := none }) }
          let r := collect now_ms expired m
          (t.m_cb :: r.1, r.2)

/-- What `listExpiredCb` takes out of the set and what it leaves: up to the lower bound of the
timer it makes at `tmp` to search with, or to the end, and on past timers due right now. -/
def splitDue (m : TimerManager) (rollover : Bool) (now_ms : UInt64) (tmp : Nat) :
    List Nat × List Nat :=
  let below := fun a =>
    rollover || Timer.comparator (some (nextOf m.heap a, a)) (some (now_ms, tmp))
  let now := fun a => decide (nextOf m.heap a = now_ms)
  let rest := m.m_timers.dropWhile below
  (m.m_timers.takeWhile below ++ rest.takeWhile now, rest.dropWhile now)

/-- `listExpiredCb`: the callbacks it returns. -/
def listExpiredCb (m : TimerManager) (now_ms : UInt64) (tmp : Nat) :
    List (Option Nat) × TimerManager :=
  match m.m_timers with
  | [] => ([], m)
  | first :: _ =>
      let (rollover, m) := m.detectColckRollover now_ms
      if rollover = false ∧ nextOf m.heap first > now_ms then ([], m)
      else
        let (expired, left) := m.splitDue rollover now_ms tmp
        collect now_ms expired { m with m_timers := left }

/-! ## Steps -/

/-- One operation on the manager or on one of its timers. -/
inductive Act where
  | addTimer (now : UInt64) (a : Nat) (ms : UInt64) (cb : Option Nat) (recurring : Bool)
  | cancel (a : Nat)
  | refresh (now : UInt64) (a : Nat)
  | reset (now : UInt64) (a : Nat) (ms : UInt64) (from_now : Bool)
  | getNextTimer (now : UInt64)
  | listExpiredCb (now : UInt64) (tmp : Nat)
deriving DecidableEq, Repr

/-- One step; `none` when it is not enabled: a taken address, or a handle of no timer. -/
def step (m : TimerManager) : Act → Option TimerManager
  | .addTimer now a ms cb recurring =>
      if (m.heap a).isSome then none else some (m.addTimer now a ms cb recurring).1
  | .cancel a => (m.heap a).bind fun t => (m.cancel a t).map Prod.snd
  | .refresh now a => (m.heap a).map fun t => (m.refresh now a t).2
  | .reset now a ms from_now => (m.heap a).map fun t => (m.reset now a t ms from_now).2.1
  | .getNextTimer now => some (m.getNextTimer now).2
  | .listExpiredCb now tmp => if (m.heap tmp).isSome then none else some (m.listExpiredCb now tmp).2

end TimerManager

end Muqiu
