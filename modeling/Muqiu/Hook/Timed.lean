import Muqiu.Hook.Model
import Muqiu.Timer.Wakeup

/-!
# Hooked calls on a clock

The timers of `do_io` are timers of the `TimerManager` that every other timer of the process
is in.  Here a process runs with that manager and a clock that does not go back.  The timer a
fiber holds in its variable `timer` is an address, and the callback of a timer is named by its
address; `captured` says what the callback captures when `do_io` has made it.

`Timer` and `listExpiredCb` read the clock before they take the lock of the manager, so each of
the two is a reading and, at any time after it, an operation with that reading.  `started` is
not in the source: it records when the call of `do_io` with a `timer_info` began, and with what
timeout.
-/

namespace Muqiu

open Runs

namespace Hook

/-- The process and its timers, with the clock and what is known of each call that waits. -/
structure Timed where
  p : Process
  m : TimerManager
  clock : UInt64
  /-- What the callback of a timer captures, for the timers of `do_io`. -/
  captured : Nat → Option ConditionTimer
  /-- The variable `timer` of the call of a fiber. -/
  timer : Nat → Option Nat
  /-- The time the constructor of the next timer has read, for each `timer_info`. -/
  reading : Nat → Option UInt64
  /-- The times the calls of `listExpiredCb` under way have read. -/
  checks : List UInt64
  started : Nat → Option (UInt64 × UInt64)

/-- What happens in the process, in time. -/
inductive TimedAct where
  | tick (now : UInt64)
  | enter (fiber : Nat) (fd : Int) (event : IOManager.Event)
  /-- The constructor of the timer of a call reads the clock. -/
  | construct (fiber : Nat)
  /-- `addConditionTimer`, whose timer is at `a`. -/
  | arm (fiber : Nat) (a : Nat)
  | await (fiber : Nat) (ok : Bool)
  | resume (fiber : Nat)
  /-- `listExpiredCb` reads the clock. -/
  | check
  /-- The call of `listExpiredCb` at place `i` takes the lock. -/
  | sweep (i : Nat) (tmp : Nat)
  /-- Other code uses its timers. -/
  | timers (a : TimerManager.Act)
  /-- Any other step of the process. -/
  | process (a : Act)
deriving DecidableEq, Repr

/-- The steps of a process that are no steps of its timers. -/
def untimed : Act → Bool
  | .enter _ _ _ => false
  | .arm _ => false
  | .await _ _ => false
  | .resume _ => false
  | .expire _ => false
  | _ => true

namespace Process

/-- The callbacks `listExpiredCb` has returned leave `m_timers` and are due. -/
def expireAll (p : Process) (ts : List ConditionTimer) : Process :=
  { p with armed := ts.foldl List.erase p.armed, due := p.due ++ ts }

end Process

namespace Timed

/-- Before the first call, at a time. -/
def start (now : UInt64) : Timed where
  p := Process.start
  m := TimerManager.new now
  clock := now
  captured := fun _ => none
  timer := fun _ => none
  reading := fun _ => none
  checks := []
  started := fun _ => none

/-- The timer of an operation of other code is not one of `do_io`, its callback has its name,
and the time it has read is not to come. -/
def Foreign (s : Timed) : TimerManager.Act → Prop
  | .addTimer now a _ cb _ => s.captured a = none ∧ (∀ id ∈ cb, id = a) ∧ now ≤ s.clock
  | .cancel a => s.captured a = none
  | .refresh now a => s.captured a = none ∧ now ≤ s.clock
  | .reset now a _ _ => s.captured a = none ∧ now ≤ s.clock
  | .getNextTimer now => now ≤ s.clock
  | .listExpiredCb _ _ => False

instance decidableForeign (s : Timed) : DecidablePred s.Foreign
  | .addTimer _ _ _ _ _ => inferInstanceAs (Decidable (_ ∧ _ ∧ _))
  | .cancel _ => inferInstanceAs (Decidable (_ = _))
  | .refresh _ _ => inferInstanceAs (Decidable (_ ∧ _))
  | .reset _ _ _ _ => inferInstanceAs (Decidable (_ ∧ _))
  | .getNextTimer _ => inferInstanceAs (Decidable (_ ≤ _))
  | .listExpiredCb _ _ => .isFalse id

/-- A call of `do_io` begins, unless it has returned at once. -/
def record (s : Timed) (fiber : Nat) (p : Process) : Timed :=
  match p.calls fiber with
  | none => { s with p := p }
  | some c =>
      { s with p := p, started := Function.update s.started c.tinfo (some (s.clock, c.timeout)) }

/-- `if (timer) timer->cancel();` -/
def cancelTimer (s : Timed) (fiber : Nat) : Option TimerManager :=
  match s.timer fiber with
  | none => some s.m
  | some a => s.m.step (.cancel a)

/-- `addConditionTimer` of the call `c`, after its timer has read the clock. -/
def arm (s : Timed) (fiber : Nat) (c : Call) (p : Process) (a : Nat) : Option Timed :=
  if c.timeout = noTimeout then some { s with p := p, timer := Function.update s.timer fiber none }
  else
    (s.reading c.tinfo).bind fun now =>
      (s.m.step (.addTimer now a c.timeout (some a) false)).map fun m =>
        { s with
          p := p
          m := m
          captured := Function.update s.captured a (some (Process.timerOf fiber c))
          timer := Function.update s.timer fiber (some a)
          reading := Function.update s.reading c.tinfo none }

/-- One step; `none` when it is not enabled or undefined. -/
def step (s : Timed) : TimedAct → Option Timed
  | .tick now => if s.clock ≤ now then some { s with clock := now } else none
  | .enter fiber fd event => (s.p.step (.enter fiber fd event)).map fun p => s.record fiber p
  | .construct fiber =>
      (s.p.callAt fiber fun p => p = .again).map fun c =>
        { s with reading := Function.update s.reading c.tinfo (some s.clock) }
  | .arm fiber a =>
      (s.p.callAt fiber fun p => p = .again).bind fun c =>
        (s.p.step (.arm fiber)).bind fun p => s.arm fiber c p a
  | .await fiber ok =>
      (s.p.step (.await fiber ok)).bind fun p =>
        if (p.calls fiber).isSome then some { s with p := p }
        else (s.cancelTimer fiber).map fun m => { s with p := p, m := m }
  | .resume fiber =>
      (s.p.step (.resume fiber)).bind fun p =>
        (s.cancelTimer fiber).map fun m => { s with p := p, m := m }
  | .check => some { s with checks := s.checks ++ [s.clock] }
  | .sweep i tmp =>
      (s.checks[i]?).bind fun now =>
        (s.m.step (.listExpiredCb now tmp)).map fun m =>
          { s with
            p := s.p.expireAll
              ((s.m.listExpiredCb now tmp).1.filterMap fun cb => cb.bind s.captured)
            m := m
            checks := s.checks.eraseIdx i }
  | .timers a => if s.Foreign a then (s.m.step a).map fun m => { s with m := m } else none
  | .process a => if untimed a then (s.p.step a).map fun p => { s with p := p } else none

end Timed

end Hook

end Muqiu
