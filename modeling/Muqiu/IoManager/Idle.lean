import Mathlib.Algebra.Group.Nat.Defs
import Muqiu.Timer.NextTimer

/-!
# How long the idle loop sleeps

`idle` hands the answer of `getNextTimer` to `epoll_wait`, as an `int` that is cut off at
`MAX_TIMEOUT`.  The cast keeps the low 32 bits only, and the answer for an overdue timer has
wrapped.  A negative argument waits without a limit.
-/

namespace Muqiu

open SortedSet

namespace IOManager

/-- `(int)v` -/
def toInt (v : UInt64) : Int := (BitVec.ofNat 32 v.toNat).toInt

/-- The longest sleep of the idle loop, in milliseconds. -/
def MAX_TIMEOUT : Int := 3000

/-- What the loop makes of `next_timeout`. -/
def clampTimeout (next_timeout : UInt64) : UInt64 :=
  if next_timeout ≠ TimerManager.noTimer then
    if toInt next_timeout > MAX_TIMEOUT then UInt64.ofInt MAX_TIMEOUT else next_timeout
  else UInt64.ofInt MAX_TIMEOUT

/-- The arguments of `epoll_wait` in the `do` loop, when a number of the calls is interrupted. -/
def waits : Nat → UInt64 → List Int
  | 0, next_timeout => [toInt (clampTimeout next_timeout)]
  | interrupts + 1, next_timeout =>
      toInt (clampTimeout next_timeout) :: waits interrupts (clampTimeout next_timeout)

/-- The arguments in a round of `idle` that has read the clock at `now`. -/
def idleWaits (m : TimerManager) (now : UInt64) (interrupts : Nat) : List Int :=
  waits interrupts (m.getNextTimer now).1

/-- An argument is between 0 and `MAX_TIMEOUT`, and not more than the time left until the first
timer is due. -/
structure Punctual (m : TimerManager) (now : UInt64) (timeout : Int) : Prop where
  nonneg : 0 ≤ timeout
  bounded : timeout ≤ MAX_TIMEOUT
  left : ∀ e, m.IsEarliest e → timeout ≤ ((e.toNat - now.toNat : Nat) : Int)

/-- Every argument in a round is punctual. -/
def RoundPunctual (m : TimerManager) (now : UInt64) (interrupts : Nat) : Prop :=
  ∀ timeout ∈ idleWaits m now interrupts, Punctual m now timeout

/-- No timer is armed, or the time until the first one is due is no negative `int` in its low 32
bits, or it is overdue by a multiple of 2^32 ms. -/
def SleepFits (m : TimerManager) (now : UInt64) : Prop :=
  m.m_timers = [] ∨ ∃ e, m.IsEarliest e ∧
    if now.toNat ≤ e.toNat then
      (e.toNat - now.toNat) % 2 ^ 32 < 2 ^ 31 ∨ e.toNat - now.toNat = UInt64.size - 1
    else (now.toNat - e.toNat) % 2 ^ 32 = 0

/-! ## The cast -/

theorem toInt_of_low {v : UInt64} (h : v.toNat % 2 ^ 32 < 2 ^ 31) :
    toInt v = (v.toNat % 2 ^ 32 : Nat) := by
  rw [toInt, BitVec.toInt_eq_toNat_of_lt (by rw [BitVec.toNat_ofNat]; omega), BitVec.toNat_ofNat]

theorem toInt_of_high {v : UInt64} (h : 2 ^ 31 ≤ v.toNat % 2 ^ 32) : toInt v < 0 := by
  rw [toInt, BitVec.toInt_eq_toNat_cond, if_neg (by rw [BitVec.toNat_ofNat]; omega),
    BitVec.toNat_ofNat]
  omega

theorem toInt_clamp_noTimer : toInt (clampTimeout TimerManager.noTimer) = MAX_TIMEOUT := by decide

/-- The argument for any other answer. -/
theorem toInt_clamp {v : UInt64} (h : v ≠ TimerManager.noTimer) :
    toInt (clampTimeout v) = min (toInt v) MAX_TIMEOUT := by
  rw [clampTimeout, if_pos h]
  split
  next hgt => rw [Int.min_eq_right (Int.le_of_lt hgt)]; decide
  next hle => rw [Int.min_eq_left (Int.not_lt.mp hle)]

theorem clampTimeout_clampTimeout (v : UInt64) :
    clampTimeout (clampTimeout v) = clampTimeout v := by
  by_cases h : v = TimerManager.noTimer
  · rw [h]
    decide
  · by_cases hgt : toInt v > MAX_TIMEOUT
    · rw [clampTimeout, clampTimeout, if_pos h, if_pos hgt]
      decide
    · have hsame : clampTimeout v = v := by rw [clampTimeout, if_pos h, if_neg hgt]
      rw [hsame, hsame]

/-- An interrupted call is made again with its argument. -/
theorem mem_waits {interrupts : Nat} : ∀ {v : UInt64} {timeout : Int},
    timeout ∈ waits interrupts v ↔ timeout = toInt (clampTimeout v) := by
  induction interrupts with
  | zero => exact List.mem_singleton
  | succ interrupts ih =>
      intro v timeout
      rw [waits, List.mem_cons, ih, clampTimeout_clampTimeout, or_self]

/-! ## The sleep -/

/-- The argument made of a wrapped difference is not above what is left of the time exactly when
the difference fits. -/
theorem clamp_fits_iff {v : UInt64} {next time : Nat} (hnext : next < UInt64.size)
    (htime : time < UInt64.size) (hval : v.toNat = (UInt64.size - time + next) % UInt64.size) :
    (0 ≤ toInt (clampTimeout v) ∧ toInt (clampTimeout v) ≤ MAX_TIMEOUT ∧
        toInt (clampTimeout v) ≤ ((next - time : Nat) : Int)) ↔
      if time ≤ next then (next - time) % 2 ^ 32 < 2 ^ 31 ∨ next - time = UInt64.size - 1
      else (time - next) % 2 ^ 32 = 0 := by
  have hsize : UInt64.size = 18446744073709551616 := rfl
  have hmax : MAX_TIMEOUT = 3000 := rfl
  rw [hsize] at hval hnext htime ⊢
  by_cases hv : v = TimerManager.noTimer
  · have hmost : v.toNat = 18446744073709551615 := by rw [hv]; rfl
    rw [hv, toInt_clamp_noTimer, hmax]
    split
    next hle => omega
    next hgt => omega
  · have hless : v.toNat ≠ 18446744073709551615 := fun heq => hv (UInt64.toNat_inj.mp heq)
    rw [toInt_clamp hv, hmax]
    rcases Nat.lt_or_ge (v.toNat % 2 ^ 32) (2 ^ 31) with hlow | hhigh
    · rw [toInt_of_low hlow]
      split
      next hle => omega
      next hgt => omega
    · have hneg := toInt_of_high hhigh
      split
      next hle => omega
      next hgt => omega

/-- In a round of `idle`, however often it is interrupted, every sleep is bounded and ends before
the first timer is due exactly when what is left of that time fits. -/
theorem idle_sleep_iff {m : TimerManager} (h : m.Ordered) (now : UInt64) (interrupts : Nat) :
    RoundPunctual m now interrupts ↔ SleepFits m now := by
  have hall : RoundPunctual m now interrupts ↔
      Punctual m now (toInt (clampTimeout (m.getNextTimer now).1)) := by
    simp only [RoundPunctual, idleWaits, mem_waits, forall_eq]
  rw [hall]
  cases hts : m.m_timers with
  | nil =>
      have hnone : ∀ e, ¬ m.IsEarliest e := by
        rintro e ⟨⟨a, ha, _⟩, _⟩
        rw [hts] at ha
        cases ha
      rw [TimerManager.getNextTimer_nil hts, toInt_clamp_noTimer]
      exact iff_of_true ⟨by decide, Int.le_refl _, fun e he => absurd he (hnone e)⟩ (Or.inl hts)
  | cons a rest =>
      have hear : ∀ e, m.IsEarliest e ↔ e = TimerManager.nextOf m.heap a := fun e =>
        h.isEarliest hts
      have hpunctual : ∀ timeout, Punctual m now timeout ↔ 0 ≤ timeout ∧ timeout ≤ MAX_TIMEOUT ∧
          timeout ≤ (((TimerManager.nextOf m.heap a).toNat - now.toNat : Nat) : Int) := by
        intro timeout
        constructor
        · exact fun hp => ⟨hp.nonneg, hp.bounded, hp.left _ ((hear _).mpr rfl)⟩
        · rintro ⟨hnonneg, hbounded, hleft⟩
          exact ⟨hnonneg, hbounded, fun e he => by rw [(hear e).mp he]; exact hleft⟩
      rw [hpunctual, clamp_fits_iff (TimerManager.nextOf m.heap a).toNat_lt now.toNat_lt
        (TimerManager.getNextTimer_cons hts now), SleepFits, hts,
        or_iff_right (List.cons_ne_nil a rest)]
      simp only [hear, exists_eq_left]

/-- A timer that is due in a second is waited for. -/
theorem sleeps_until_due :
    RoundPunctual ((TimerManager.new 0).addTimer 0 0 1000 (some 0) false).1 0 1 :=
  (idle_sleep_iff ((TimerManager.new_ordered 0).addTimer rfl 1000 (some 0) false) 0 1).mpr
    (Or.inr ⟨1000, ⟨⟨0, List.mem_singleton_self 0, rfl⟩, by
      intro a ha
      rw [List.mem_singleton.mp ha]
      exact UInt64.le_refl _⟩, by decide⟩)

/-- A timer that is five milliseconds overdue makes the loop wait without a limit. -/
theorem overdue_sleeps :
    idleWaits ((TimerManager.new 0).addTimer 0 0 10 (some 0) false).1 15 0 = [-5] ∧
      ¬ RoundPunctual ((TimerManager.new 0).addTimer 0 0 10 (some 0) false).1 15 0 := by
  have hwaits : idleWaits ((TimerManager.new 0).addTimer 0 0 10 (some 0) false).1 15 0 = [-5] := by
    decide
  refine ⟨hwaits, fun h => ?_⟩
  rw [RoundPunctual, hwaits] at h
  exact absurd (h (-5) (List.mem_singleton_self _)).nonneg (by decide)

end IOManager

end Muqiu
