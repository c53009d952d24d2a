import Muqiu.IoManager.Steps
import Mathlib.Algebra.Order.BigOperators.Group.List
import Mathlib.Algebra.Ring.Int.Defs

/-!
# Pending-event accounting

`excess` is the counter less the bits set over all contexts.  `unregister` and `fire` keep
it, since both meet a set bit: an event whose bit is clear has no scheduler (`Retired`), so
firing it crashes before the counter is touched.  `register` keeps it when the bit was clear
and adds one when it was set.  `addEvent` logs that case and carries on, so the counter is
exact in every state of a run exactly when the run has no such step.
-/

namespace Muqiu

open Runs

namespace IOManager

namespace World

/-- The bits set over all contexts. -/
def bitsSet (w : World) : Int := (w.heap.map fun c => c.events.bits).sum

/-- The counter less the bits set. -/
def excess (w : World) : Int := w.m_pendingEventCount - w.bitsSet

/-- The counter is the number of bits set, and not below zero. -/
def Accounted (w : World) : Prop :=
  w.crashed = false → w.m_pendingEventCount = w.bitsSet ∧ 0 ≤ w.m_pendingEventCount

/-- An event whose bit is clear has no scheduler. -/
def Retired (c : FdContext) : Prop :=
  ∀ e, c.events.has e = false → (c.getContext e).scheduler = none

/-- An `addEvent` that returns 0 for an event already registered on the descriptor. -/
def Duplicate (w : World) : Act → Prop
  | .addEvent caller fd event cb ok =>
      (cb.isSome || caller.running) = true ∧
        ∃ p c, w.addTarget fd ok = some (p, c) ∧ c.events.has event = true
  | _ => False

/-! ## Sums -/

theorem sum_map_set (f : FdContext → Int) (c' : FdContext) :
    ∀ {heap : List FdContext} {p : Nat} {c : FdContext}, heap[p]? = some c →
      ((heap.set p c').map f).sum = (heap.map f).sum - f c + f c'
  | [], _, _, h => by simp at h
  | d :: heap, 0, c, h => by
      cases Option.some.inj h
      simp only [List.set_cons_zero, List.map_cons, List.sum_cons]
      omega
  | d :: heap, p + 1, c, h => by
      have ih := sum_map_set f c' (show heap[p]? = some c from h)
      simp only [List.set_cons_succ, List.map_cons, List.sum_cons]
      omega

theorem bitsSet_nonneg (w : World) : 0 ≤ w.bitsSet := by
  refine List.sum_nonneg ?_
  intro n hn
  obtain ⟨c, _, rfl⟩ := List.mem_map.mp hn
  exact Int.natCast_nonneg _

theorem bitsSet_set {w v : World} {p : Nat} {c : FdContext} (c' : FdContext)
    (hc : w.heap[p]? = some c) (hv : v.heap = w.heap.set p c') :
    v.bitsSet = w.bitsSet - c.events.bits + c'.events.bits := by
  rw [bitsSet, hv, sum_map_set _ c' hc, bitsSet]

theorem Same.excess {v w : World} (h : v.Same w) : v.excess = w.excess := by
  rw [World.excess, World.excess, bitsSet, bitsSet, h.count, h.heap]

theorem ensure_excess (w : World) (fd : Int) : (w.ensure fd).excess = w.excess := by
  by_cases hlt : w.tableSize > fd
  · rw [ensure, if_pos hlt]
  · rw [ensure, if_neg hlt]
    obtain ⟨extra, heq, hextra⟩ := contextResize_heap w (3 * fd.toNat / 2)
    have hzero : (extra.map fun c => c.events.bits).sum = 0 := by
      refine List.sum_eq_zero ?_
      intro n hn
      obtain ⟨c, hc, rfl⟩ := List.mem_map.mp hn
      obtain ⟨i, rfl⟩ := hextra c hc
      rfl
    rw [excess, excess, bitsSet, bitsSet, heq, List.map_append, List.sum_append, hzero, add_zero]
    rfl

/-! ## The three updates -/

theorem register_excess {w : World} {caller : Caller} {p : Nat} {c : FdContext} {fd : Int}
    {event : Event} {cb : Option Nat} (hc : w.heap[p]? = some c) :
    (w.register caller p c fd event cb).excess =
      w.excess + if c.events.has event then 1 else 0 := by
  have hbits := bitsSet_set (v := w.register caller p c fd event cb)
    (c.filled caller event cb) hc rfl
  have hinsert : (c.filled caller event cb).events.bits = _ := Events.bits_insert c.events event
  rw [excess, excess, hbits, hinsert]
  cases c.events.has event <;> simp [register] <;> omega

theorem unregister_excess {w : World} {p : Nat} {c : FdContext} {fd : Int} {event : Event}
    (hc : w.heap[p]? = some c) (hbit : c.events.has event = true) :
    (w.unregister p c fd event).excess = w.excess := by
  have hbits := bitsSet_set (v := w.unregister p c fd event) (c.cleared event) hc rfl
  have herase : (c.cleared event).events.bits = _ := Events.bits_erase c.events event
  rw [excess, excess, hbits, herase, hbit]
  simp only [unregister, if_true]
  omega

theorem fire_excess {w : World} (hr : Each Retired w) (p : Nat) (e : Event) :
    (w.fire p e).excess = w.excess := by
  cases hcr : w.crashed with
  | true => rw [fire_crashed hcr]
  | false =>
      cases hc : w.heap[p]? with
      | none =>
          rw [fire, if_neg (by simp [hcr])]
          simp only [hc]
          rfl
      | some c =>
          cases hs : (c.getContext e).scheduler with
          | none => rw [fire_null hcr hc hs]; rfl
          | some s =>
              have hbit : c.events.has e = true := by
                cases hb : c.events.has e with
                | true => rfl
                | false => rw [hr p c hc e hb] at hs; simp at hs
              have hbits := bitsSet_set (v := w.fire p e) (c.fired e) hc
                (by rw [fire_some hcr hc hs])
              have herase : (c.fired e).events.bits = _ := Events.bits_erase c.events e
              rw [excess, excess, hbits, herase, hbit, fire_some hcr hc hs]
              simp only [if_true]
              omega

/-! ## Steps -/

theorem retired_new (i : Nat) : Retired (.new i) := by
  intro e _
  cases e <;> rfl

theorem retired_filled {c : FdContext} (h : Retired c) (caller : Caller) (e : Event)
    (cb : Option Nat) : Retired (c.filled caller e cb) := by
  intro e' hbit
  rw [FdContext.has_filled, Bool.or_eq_false_iff, decide_eq_false_iff_not] at hbit
  rw [FdContext.getContext_filled, if_neg hbit.1]
  exact h e' hbit.2

theorem retired_cleared {c : FdContext} (h : Retired c) (e : Event) : Retired (c.cleared e) := by
  intro e' hbit
  rw [FdContext.getContext_cleared]
  by_cases he : e' = e
  · rw [if_pos he]; rfl
  · rw [if_neg he]
    rw [FdContext.has_cleared, decide_eq_false he] at hbit
    exact h e' hbit

theorem retired_fired {c : FdContext} (h : Retired c) (e : Event) : Retired (c.fired e) := by
  intro e' hbit
  rw [FdContext.getContext_fired]
  by_cases he : e' = e
  · rw [if_pos he]
  · rw [if_neg he]
    rw [FdContext.has_fired, decide_eq_false he] at hbit
    exact h e' hbit

theorem retired_step {w v : World} {a : Act} (h : Each Retired w) (hstep : step w a = some v) :
    Each Retired v :=
  h.step retired_new (fun _ _ _ _ _ _ _ hc => retired_filled hc _ _ _)
    (fun _ _ hc => retired_cleared hc _) (fun _ _ hc => retired_fired hc _) hstep

theorem fireAll_excess (p : Nat) :
    ∀ (es : List Event) {w : World}, Each Retired w → (w.fireAll p es).excess = w.excess
  | [], _, _ => rfl
  | e :: es, w, h => by
      have hfire : Each Retired (w.fire p e) :=
        Each.fireAll (fun c e' hc => retired_fired hc e') p [e] h
      rw [fireAll_cons, fireAll_excess p es hfire, fire_excess h]

theorem Duplicate.adds {w : World} : ∀ {a : Act}, Duplicate w a → Adds a
  | .addEvent _ _ _ _ _, _ => trivial

/-- A duplicate `addEvent` counts a bit twice; no other step that returns changes the
excess. -/
theorem step_excess {w v : World} {a : Act} (h : Each Retired w) (hstep : step w a = some v) :
    (Duplicate w a → v.crashed = false ∧ v.excess = w.excess + 1) ∧
      (¬ Duplicate w a → v.crashed = false → v.excess = w.excess) := by
  cases step_effect hstep with
  | same hadd _ hv => exact ⟨fun hdup => absurd hdup.adds hadd, fun _ _ => hv.excess⟩
  | ensured htarget hv =>
      refine ⟨?_, fun _ _ => hv.excess.trans (ensure_excess w _)⟩
      rintro ⟨_, p, c, htarget', _⟩
      rw [htarget] at htarget'
      simp at htarget'
  | registered htarget hv hret =>
      have hc := (addTarget_spec htarget).2
      have hexcess := hv.excess.trans (register_excess hc)
      rw [ensure_excess] at hexcess
      constructor
      · rintro ⟨hreturns, p, c, htarget', hbit⟩
        rw [htarget] at htarget'
        cases Option.some.inj htarget'
        rw [hbit, if_pos rfl] at hexcess
        exact ⟨hret.mpr hreturns, hexcess⟩
      · intro hdup hok
        have hbit : _ = false := Bool.eq_false_iff.mpr
          fun hbit => hdup ⟨hret.mp hok, _, _, htarget, hbit⟩
        rw [hbit] at hexcess
        simpa using hexcess
  | unregistered _ hc hbit hv =>
      exact ⟨False.elim, fun _ _ => hv.excess.trans (unregister_excess hc hbit)⟩
  | cancelled hadd _ _ hu _ _ _ hv _ =>
      refine ⟨fun hdup => absurd hdup.adds hadd, fun _ _ => ?_⟩
      rw [hv.excess, fireAll_excess _ _ (h.of_heap hu.heap), hu.excess]
  | dispatched _ _ _ hu _ =>
      refine ⟨False.elim, fun _ _ => ?_⟩
      rw [fireAll_excess _ _ (h.of_heap hu.heap), hu.excess]

end World

open World

theorem start_excess : start.excess = 0 := by decide

/-- The counter is exact in every state of a run exactly when no `addEvent` of the run
succeeds on an event already registered. -/
theorem pending_accounted_iff (as : List Act) :
    Throughout step Accounted start as ↔ Along step (fun w a _ => ¬ Duplicate w a) start as := by
  refine throughout_iff_along (J := Each Retired) (Q := fun _ => True)
    (fun _ _ _ _ => retired_step) ?_ (fun _ _ => trivial) (Each.start retired_new) ?_
  · intro w a v _ hr hacc hstep
    obtain ⟨hdup, hkeep⟩ := step_excess hr hstep
    obtain ⟨hcount, _⟩ := hacc (step_ok hstep)
    have hzero : w.excess = 0 := by rw [excess, hcount]; omega
    constructor
    · intro hv hd
      obtain ⟨hok, hexcess⟩ := hdup hd
      have hvcount := (hv hok).1
      rw [hzero, excess] at hexcess
      omega
    · intro hd hok
      have hexcess := hkeep hd hok
      have hnonneg := bitsSet_nonneg v
      rw [hzero, excess] at hexcess
      exact ⟨by omega, by omega⟩
  · intro _
    have hexcess := start_excess
    have hnonneg := bitsSet_nonneg start
    rw [excess] at hexcess
    exact ⟨by omega, by omega⟩

/-- Two registrations of `READ` on descriptor 5, each with a callback. -/
def readTwice : List Act :=
  [.addEvent ⟨some 0, 0, true⟩ 5 .read (some 1) true,
    .addEvent ⟨some 0, 0, true⟩ 5 .read (some 2) true]

/-- The second registration counts the bit again. -/
theorem readTwice_not_accounted : ¬ ∀ as, Throughout step Accounted start as := by
  intro h
  have hrun : (exec step start readTwice).map (fun w => (w.crashed, w.excess)) =
      some (false, 1) := by decide +kernel
  obtain ⟨w, hw, heq⟩ := Option.map_eq_some_iff.mp hrun
  obtain ⟨hok, hexcess⟩ := Prod.mk.inj heq
  have hcount := ((h readTwice).final hw hok).1
  rw [excess] at hexcess
  omega

end IOManager

end Muqiu
