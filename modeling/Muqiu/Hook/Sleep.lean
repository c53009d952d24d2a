import Mathlib.Algebra.Group.Nat.Defs
import Muqiu.Timer.Model

/-!
# Hooked sleeps

`sleep`, `usleep` and `nanosleep` arm a timer that schedules the calling fiber.  Each computes the
milliseconds in a type of its own: `sleep` multiplies in `unsigned int`, `usleep` rounds down, and
`nanosleep` rounds down in `long` and keeps an `int` of it.  The constructor of `Timer` adds them
to the time, in 64 bits.
-/

namespace Muqiu

namespace Hook

/-- A `timespec` that `nanosleep` takes. -/
structure Timespec where
  tv_sec : Nat
  tv_nsec : Nat
  sec_lt : tv_sec < 2 ^ 63
  nsec_lt : tv_nsec < 10 ^ 9

/-- A call of a hooked sleep. -/
inductive Sleep where
  | sleep (seconds : UInt32)
  | usleep (usec : UInt32)
  | nanosleep (req : Timespec)

namespace Sleep

/-- `int timeout_ms = req->tv_sec * 1000 + req->tv_nsec / 1000 / 1000`; `none` when the `long`
overflows. -/
def timeout_ms (req : Timespec) : Option Int :=
  let ms := req.tv_sec * 1000 + req.tv_nsec / 1000 / 1000
  if ms < 2 ^ 63 then some (BitVec.ofNat 32 ms).toInt else none

/-- What `addTimer` is called with. -/
def ms : Sleep → Option UInt64
  | sleep seconds => some (seconds * 1000).toUInt64
  | usleep usec => some (usec / 1000).toUInt64
  | nanosleep req => (timeout_ms req).map UInt64.ofInt

/-- The timer manager after a call, with its timer at `a`.  Without hooking the original function
is called. -/
def arm (t_hook_enable : Bool) (call : Sleep) (m : TimerManager) (now : UInt64) (a : Nat)
    (fiber : Nat) : Option TimerManager :=
  if !t_hook_enable then some m
  else call.ms.map fun ms => (m.addTimer now a ms (some fiber) false).1

/-- The duration that is asked for in milliseconds, rounded up. -/
def duration : Sleep → Nat
  | sleep seconds => seconds.toNat * 1000
  | usleep usec => (usec.toNat + 999) / 1000
  | nanosleep req => req.tv_sec * 1000 + (req.tv_nsec + 999999) / 1000000

/-- The timer is due no earlier than the duration from now. -/
def LongEnough (call : Sleep) (m : TimerManager) (now : UInt64) (a fiber : Nat) : Prop :=
  ∃ m' t, call.arm true m now a fiber = some m' ∧ m'.heap a = some t ∧
    now.toNat + call.duration ≤ t.m_next.toNat

/-- The milliseconds are whole and fit their types, and the sum does not overflow.  An `int` that
is negative makes a very late timer, if the clock has counted fewer milliseconds than it. -/
def Fits (now : UInt64) : Sleep → Prop
  | sleep seconds => seconds.toNat * 1000 < 2 ^ 32 ∧ now.toNat + seconds.toNat * 1000 < 2 ^ 64
  | usleep usec => usec.toNat % 1000 = 0 ∧ now.toNat + usec.toNat / 1000 < 2 ^ 64
  | nanosleep req =>
      let ms := req.tv_sec * 1000 + req.tv_nsec / 1000000
      req.tv_nsec % 1000000 = 0 ∧ ms < 2 ^ 31 ∧ now.toNat + ms < 2 ^ 64 ∨
        ms < 2 ^ 63 ∧ 2 ^ 31 ≤ ms % 2 ^ 32 ∧ now.toNat + ms % 2 ^ 32 < 2 ^ 32

/-! ## The timer -/

/-- A sum that has wrapped is below both of its terms. -/
theorem le_wrapped_sum_iff {time need got : Nat} (htime : time < 2 ^ 64) (hgot : got < 2 ^ 64) :
    time + need ≤ (time + got) % 2 ^ 64 ↔ need ≤ got ∧ time + got < 2 ^ 64 := by
  rcases Nat.lt_or_ge (time + got) (2 ^ 64) with hlt | hge
  · rw [Nat.mod_eq_of_lt hlt]
    omega
  · omega

theorem longEnough_iff_sum (call : Sleep) (m : TimerManager) (now : UInt64) (a fiber : Nat) :
    call.LongEnough m now a fiber ↔
      ∃ ms, call.ms = some ms ∧ call.duration ≤ ms.toNat ∧ now.toNat + ms.toNat < 2 ^ 64 := by
  have hheap : ∀ ms, (m.addTimer now a ms (some fiber) false).1.heap a =
      some ⟨false, ms, now + ms, some fiber⟩ := fun ms => Function.update_self a _ m.heap
  constructor
  · rintro ⟨m', t, harm, ht, hle⟩
    obtain ⟨ms, hms, rfl⟩ := Option.map_eq_some_iff.mp harm
    rw [hheap] at ht
    cases Option.some.inj ht
    rw [UInt64.toNat_add] at hle
    exact ⟨ms, hms, (le_wrapped_sum_iff now.toNat_lt ms.toNat_lt).mp hle⟩
  · rintro ⟨ms, hms, hle⟩
    refine ⟨_, _, Option.map_eq_some_iff.mpr ⟨ms, hms, rfl⟩, hheap ms, ?_⟩
    rw [UInt64.toNat_add]
    exact (le_wrapped_sum_iff now.toNat_lt ms.toNat_lt).mpr hle

/-- The 64-bit value of an `int`. -/
theorem toNat_ofInt32 (n : Nat) :
    (UInt64.ofInt (BitVec.ofNat 32 n).toInt).toNat =
      if n % 2 ^ 32 < 2 ^ 31 then n % 2 ^ 32 else 2 ^ 64 - (2 ^ 32 - n % 2 ^ 32) := by
  rw [UInt64.ofInt, UInt64.toNat_ofNat', BitVec.toInt_eq_toNat_cond, BitVec.toNat_ofNat]
  split
  · split <;> omega
  · split <;> omega

/-- A hooked sleep is long enough exactly when its milliseconds are whole and fit. -/
theorem longEnough_iff (call : Sleep) (m : TimerManager) (now : UInt64) (a fiber : Nat) :
    call.LongEnough m now a fiber ↔ call.Fits now := by
  have hnow : now.toNat < 2 ^ 64 := now.toNat_lt
  rw [longEnough_iff_sum]
  cases call with
  | sleep seconds =>
      have hval : (seconds * 1000).toUInt64.toNat = seconds.toNat * 1000 % 2 ^ 32 := by
        rw [UInt32.toNat_toUInt64, UInt32.toNat_mul]
        rfl
      simp only [ms, Option.some.injEq, exists_eq_left', duration, Fits, hval]
      omega
  | usleep usec =>
      have hval : (usec / 1000).toUInt64.toNat = usec.toNat / 1000 := by
        rw [UInt32.toNat_toUInt64, UInt32.toNat_div]
        rfl
      simp only [ms, Option.some.injEq, exists_eq_left', duration, Fits, hval]
      have husec : usec.toNat < 2 ^ 32 := usec.toNat_lt
      omega
  | nanosleep req =>
      have hdiv : req.tv_nsec / 1000 / 1000 = req.tv_nsec / 1000000 := Nat.div_div_eq_div_mul _ _ _
      have hnsec := req.nsec_lt
      simp only [ms, timeout_ms, duration, Fits, hdiv]
      split
      next hlt =>
        simp only [Option.map_some, Option.some.injEq, exists_eq_left', toNat_ofInt32]
        split <;> omega
      next hge =>
        refine iff_of_false ?_ (by omega)
        rintro ⟨_, hnone, _⟩
        cases hnone

/-- A microsecond is not slept at all. -/
theorem usleep_short :
    ¬ (usleep 1).LongEnough (TimerManager.new 0) 1000 0 0 := by
  rintro ⟨m', t, harm, ht, hle⟩
  cases Option.some.inj harm
  cases Option.some.inj ht
  revert hle
  decide

end Sleep

end Hook

end Muqiu
