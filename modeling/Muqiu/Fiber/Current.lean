import Muqiu.Scheduler.Model

/-!
# The current fiber of a thread

One worker thread, from where `Scheduler::run` has made `t_scheduler_fiber`.  Fiber 0 is that
fiber, `t_thread_fiber` as well; its code runs on the thread's own stack.  The code of a task
fiber runs on the stack of the fiber.  `executing` names the fiber whose code runs, which no
variable of the source holds: `t_fiber` and `m_state` are what the source says about it, and
`m_context` is where `swapcontext` saves the code it leaves and finds the code it resumes.

`mainFunc` takes the fiber it ends from `getThis` at its first line, right behind the
`setThis` of `swapIn`, so it ends the fiber whose code it is.  Every other `swapOut` of the
source is on `getThis()`.
-/

namespace Muqiu

open Runs

/-- The fibers of a thread, `nextFiber` of them made. -/
structure FiberThread where
  t_fiber : Nat
  executing : Nat
  state : Nat → FiberState
  /-- `m_context`: the fiber whose code a switch to it resumes. -/
  context : Nat → Nat
  nextFiber : Nat

namespace FiberThread

/-- In `run` with `n` task fibers made before, in the given states. -/
def startWith (n : Nat) (state : Nat → FiberState) : FiberThread where
  t_fiber := 0
  executing := 0
  state := state
  context := id
  nextFiber := n + 1

/-- `Fiber::GetThis`: the fiber that `t_fiber` points to. -/
def getThis (t : FiberThread) : Nat := t.t_fiber

/-- `setState`: a fiber in another state. -/
def setState (t : FiberThread) (f : Nat) (st : FiberState) : FiberThread :=
  { t with state := Function.update t.state f st }

/-- `setThis` of a fiber that is not null -/
def setThis (t : FiberThread) (f : Nat) : FiberThread := { t.setState f .RUNING with t_fiber := f }

/-- `makecontext` of `mainFunc` on the fiber's stack -/
def makecontext (t : FiberThread) (f : Nat) : FiberThread :=
  { t with context := Function.update t.context f f }

/-- Save the code that runs in one context, resume the code in another. -/
def swapcontext (t : FiberThread) (save resume : Nat) : FiberThread :=
  let context := Function.update t.context save t.executing
  { t with context := context, executing := context resume }

/-- `Fiber(cb)`: `m_state(RUNING)`, then `setThis(this)`. -/
def construct (t : FiberThread) : FiberThread :=
  let fiber := { t with nextFiber := t.nextFiber + 1 }.setState t.nextFiber .RUNING
  (fiber.setThis t.nextFiber).makecontext t.nextFiber

/-- `reset`: a context of its own again, in `INIT`. -/
def reset (t : FiberThread) (f : Nat) : FiberThread := (t.makecontext f).setState f .INIT

/-- `swapIn`: `t_fiber` is the fiber, and the control goes to it. -/
def swapIn (t : FiberThread) (f : Nat) : FiberThread := (t.setThis f).swapcontext 0 f

/-- `swapOut`: `t_fiber` is the main fiber, and the control goes back. -/
def swapOut (t : FiberThread) (f : Nat) : FiberThread := (t.setThis 0).swapcontext f 0

/-- The end of `mainFunc`, after the callback has returned or thrown. -/
def mainFunc (t : FiberThread) (threw : Bool) : FiberThread :=
  (t.setState t.executing (if threw then .EXCEPT else .TERM)).swapOut t.executing

/-- What happens on the thread. -/
inductive Act where
  /-- A task fiber is made. -/
  | construct
  | reset (f : Nat)
  /-- `setState`, of `run` or of a fiber's code -/
  | setState (f : Nat) (st : FiberState)
  | swapIn (f : Nat)
  /-- `Fiber::getThis()->swapOut()` -/
  | swapOut
  /-- The code that executes reaches the end of its `mainFunc`. -/
  | mainFunc (threw : Bool)
deriving DecidableEq, Repr

/-- One call; `none` when there is no such task fiber, or no `mainFunc` to end. -/
def step (t : FiberThread) : Act → Option FiberThread
  | .construct => some t.construct
  | .reset f => if 0 < f ∧ f < t.nextFiber then some (t.reset f) else none
  | .setState f st => if f < t.nextFiber then some (t.setState f st) else none
  | .swapIn f => if 0 < f ∧ f < t.nextFiber then some (t.swapIn f) else none
  | .swapOut => some (t.swapOut t.getThis)
  | .mainFunc threw => if t.executing = 0 then none else some (t.mainFunc threw)

/-! ## Coherence -/

/-- `getThis` is the fiber whose code executes, and no other task fiber is in `RUNING`. -/
structure Coherent (t : FiberThread) : Prop where
  current : t.getThis = t.executing
  running : ∀ f, 0 < f → f < t.nextFiber → t.state f = .RUNING → f = t.executing

/-- The calls that keep a thread coherent: no fiber is made, `RUNING` is set on no other task
fiber, a task fiber that leaves by `swapIn` or `swapOut` is not in `RUNING`, and it was swapped
in by the code of the scheduler's fiber. -/
def Keeps (t : FiberThread) (a : Act) (_ : FiberThread) : Prop :=
  match a with
  | .construct => False
  | .reset _ => True
  | .setState f st => st = .RUNING → f = 0 ∨ f = t.executing
  | .swapIn f => t.executing = 0 ∨ t.executing = f ∨ t.state t.executing ≠ .RUNING
  | .swapOut => t.executing = 0 ∨ t.context 0 = 0 ∧ t.state t.executing ≠ .RUNING
  | .mainFunc _ => t.context 0 = 0

/-- The context of a task fiber resumes its own code. -/
structure Sound (t : FiberThread) : Prop where
  executing_lt : t.executing < t.nextFiber
  context_lt : t.context 0 < t.nextFiber
  own : ∀ f, 0 < f → f < t.nextFiber → t.context f = f

theorem startWith_sound (n : Nat) (state : Nat → FiberState) : (startWith n state).Sound where
  executing_lt := Nat.succ_pos n
  context_lt := Nat.succ_pos n
  own := fun _ _ _ => rfl

theorem startWith_coherent (n : Nat) (state : Nat → FiberState) :
    (startWith n state).Coherent ↔ ∀ f, 0 < f → f ≤ n → state f ≠ .RUNING := by
  constructor
  · intro h f hpos hle hrunning
    have hzero : f = 0 := h.running f hpos (Nat.lt_succ_of_le hle) hrunning
    exact Nat.ne_of_gt hpos hzero
  · intro h
    exact ⟨rfl, fun f hpos hlt hrunning => absurd hrunning (h f hpos (Nat.le_of_lt_succ hlt))⟩

/-! ## One call -/

theorem swapIn_executing {t : FiberThread} (h : t.Sound) {f : Nat} (hpos : 0 < f)
    (hlt : f < t.nextFiber) : (t.swapIn f).executing = f := by
  have hcontext : Function.update t.context 0 t.executing f = t.context f :=
    Function.update_of_ne (Nat.ne_of_gt hpos) _ _
  exact hcontext.trans (h.own f hpos hlt)

/-- The executing fiber saves its code in its own context, so that of fiber 0 counts. -/
theorem swapOut_executing (t : FiberThread) :
    (t.swapOut t.executing).executing = if t.executing = 0 then 0 else t.context 0 := by
  change Function.update t.context t.executing t.executing 0 = _
  split
  next hzero =>
    rw [hzero]
    exact Function.update_self _ _ _
  next hpos => exact Function.update_of_ne (Ne.symm hpos) _ _

theorem swapOut_sound {t : FiberThread} (h : t.Sound) : (t.swapOut t.executing).Sound := by
  have hcontext : ∀ f, (t.swapOut t.executing).context f =
      if f = t.executing then t.executing else t.context f :=
    fun f => Function.update_apply _ _ _ _
  refine ⟨?_, ?_, ?_⟩
  · rw [swapOut_executing]
    split
    next hzero => exact Nat.lt_of_le_of_lt (Nat.zero_le _) h.executing_lt
    next => exact h.context_lt
  · rw [hcontext]
    split
    · exact h.executing_lt
    · exact h.context_lt
  · intro f hpos hlt
    rw [hcontext]
    split
    next hf => exact hf.symm
    next => exact h.own f hpos hlt

theorem swapIn_sound {t : FiberThread} (h : t.Sound) {f : Nat} (hpos : 0 < f)
    (hlt : f < t.nextFiber) : (t.swapIn f).Sound := by
  refine ⟨?_, ?_, ?_⟩
  · rw [swapIn_executing h hpos hlt]
    exact hlt
  · have hcontext : Function.update t.context 0 t.executing 0 = t.executing :=
      Function.update_self _ _ _
    exact Nat.lt_of_le_of_lt (Nat.le_of_eq hcontext) h.executing_lt
  · intro g hg hlt'
    exact (Function.update_of_ne (Nat.ne_of_gt hg) _ _).trans (h.own g hg hlt')

theorem makecontext_context (t : FiberThread) (f g : Nat) :
    (t.makecontext f).context g = if g = f then f else t.context g :=
  Function.update_apply _ _ _ _

/-- From a coherent thread every call keeps the contexts sound. -/
theorem Sound.step {t t' : FiberThread} {a : Act} (h : t.Sound) (hcoherent : t.Coherent)
    (hstep : t.step a = some t') : t'.Sound := by
  cases a with
  | construct =>
      cases Option.some.inj hstep
      have hpos := Nat.zero_lt_of_lt h.executing_lt
      refine ⟨Nat.lt_succ_of_lt h.executing_lt, ?_, ?_⟩
      · refine Nat.lt_of_le_of_lt (Nat.le_of_eq ?_) (Nat.lt_succ_of_lt h.context_lt)
        exact (makecontext_context _ _ _).trans (if_neg (Nat.ne_of_lt hpos))
      · intro f hf hlt
        refine (makecontext_context _ _ _).trans ?_
        split
        next heq => exact heq.symm
        next hne => exact h.own f hf (Nat.lt_of_le_of_ne (Nat.le_of_lt_succ hlt) hne)
  | reset f =>
      rw [FiberThread.step, Option.ite_none_right_eq_some] at hstep
      obtain ⟨⟨hpos, _⟩, heq⟩ := hstep
      cases Option.some.inj heq
      refine ⟨h.executing_lt, ?_, ?_⟩
      · refine Nat.lt_of_le_of_lt (Nat.le_of_eq ?_) h.context_lt
        exact (makecontext_context t f 0).trans (if_neg (Nat.ne_of_lt hpos))
      · intro g hg hlt
        refine (makecontext_context t f g).trans ?_
        split
        next hgf => exact hgf.symm
        next => exact h.own g hg hlt
  | setState f st =>
      rw [FiberThread.step, Option.ite_none_right_eq_some] at hstep
      cases Option.some.inj hstep.2
      exact ⟨h.executing_lt, h.context_lt, h.own⟩
  | swapIn f =>
      rw [FiberThread.step, Option.ite_none_right_eq_some] at hstep
      obtain ⟨⟨hpos, hlt⟩, heq⟩ := hstep
      cases Option.some.inj heq
      exact swapIn_sound h hpos hlt
  | swapOut =>
      rw [FiberThread.step, hcoherent.current] at hstep
      cases Option.some.inj hstep
      exact swapOut_sound h
  | mainFunc threw =>
      rw [FiberThread.step, Option.ite_none_left_eq_some] at hstep
      cases Option.some.inj hstep.2
      have hset : (t.setState t.executing (if threw then .EXCEPT else .TERM)).Sound :=
        ⟨h.executing_lt, h.context_lt, h.own⟩
      exact swapOut_sound hset

/-- When the thread is coherent after a switch to the code of fiber `f`, with `getThis`
moved to it. -/
theorem coherent_switch {t t' : FiberThread} {f : Nat} (h : t.Coherent)
    (hlt : t.executing < t.nextFiber) (hcurrent : t'.getThis = t'.executing)
    (hexecuting : t'.executing = f) (hnext : t'.nextFiber = t.nextFiber)
    (hstate : ∀ g, g ≠ f → t'.state g = t.state g) :
    t'.Coherent ↔ t.executing = 0 ∨ t.executing = f ∨ t.state t.executing ≠ .RUNING := by
  constructor
  · intro hcoherent
    rcases Nat.eq_zero_or_pos t.executing with hzero | hpos
    · exact Or.inl hzero
    · refine Or.inr ?_
      by_cases hrunning : t.state t.executing = .RUNING
      · refine Or.inl ?_
        refine Decidable.byContradiction fun hne => hne ?_
        rw [← hexecuting]
        refine hcoherent.running t.executing hpos (by rw [hnext]; exact hlt) ?_
        rw [hstate t.executing hne]
        exact hrunning
      · exact Or.inr hrunning
  · intro hleft
    refine ⟨hcurrent, fun g hpos hgt hrunning => ?_⟩
    rw [hexecuting]
    refine Decidable.byContradiction fun hne => ?_
    rw [hstate g hne] at hrunning
    have hg := h.running g hpos (by rw [← hnext]; exact hgt) hrunning
    rw [hg] at hpos hne hrunning
    rcases hleft with hzero | hsame | hnot
    · exact Nat.ne_of_gt hpos hzero
    · exact hne hsame
    · exact hnot hrunning

/-- When a thread is coherent after `swapOut` of the fiber that executes. -/
theorem swapOut_coherent {t : FiberThread} (h : t.Sound)
    (hothers : ∀ f, 0 < f → f < t.nextFiber → t.state f = .RUNING → f = t.executing) :
    (t.swapOut t.executing).Coherent ↔
      t.executing = 0 ∨ t.context 0 = 0 ∧ t.state t.executing ≠ .RUNING := by
  have hexecuting := swapOut_executing t
  have hstate : ∀ f, 0 < f → (t.swapOut t.executing).state f = t.state f :=
    fun f hpos => Function.update_of_ne (Nat.ne_of_gt hpos) _ _
  constructor
  · intro hcoherent
    rcases Nat.eq_zero_or_pos t.executing with hzero | hpos
    · exact Or.inl hzero
    · have hcontext : t.context 0 = 0 := by
        rw [if_neg (Nat.ne_of_gt hpos)] at hexecuting
        exact hexecuting.symm.trans hcoherent.current.symm
      refine Or.inr ⟨hcontext, fun hrunning => ?_⟩
      rw [← hstate t.executing hpos] at hrunning
      have hsame := hcoherent.running t.executing hpos h.executing_lt hrunning
      rw [hexecuting, if_neg (Nat.ne_of_gt hpos), hcontext] at hsame
      exact Nat.ne_of_gt hpos hsame
  · intro hmay
    have hback : (t.swapOut t.executing).executing = 0 := by
      rw [hexecuting]
      split
      next => rfl
      next hpos =>
        rcases hmay with hzero | ⟨hcontext, _⟩
        · exact absurd hzero hpos
        · exact hcontext
    refine ⟨hback.symm, fun f hpos hlt hrunning => ?_⟩
    rw [hstate f hpos] at hrunning
    have hf := hothers f hpos hlt hrunning
    rw [hf] at hpos hrunning
    rcases hmay with hzero | ⟨_, hnot⟩
    · exact absurd hzero (Nat.ne_of_gt hpos)
    · exact absurd hrunning hnot

theorem construct_not_coherent {t : FiberThread} (h : t.Sound) : ¬t.construct.Coherent := by
  intro hcoherent
  exact Nat.ne_of_gt h.executing_lt hcoherent.current

/-- Only the fiber written to can have come into `RUNING`. -/
theorem running_of_update {state : Nat → FiberState} {f g : Nat} {st : FiberState}
    (h : Function.update state f st g = .RUNING) :
    g = f ∧ st = .RUNING ∨ state g = .RUNING := by
  rw [Function.update_apply] at h
  split at h
  next hgf => exact Or.inl ⟨hgf, h⟩
  next => exact Or.inr h

/-- A state may be written when it is not `RUNING`, or to the fiber that executes. -/
theorem coherent_setState {t : FiberThread} (h : t.Coherent) {f : Nat} (hlt : f < t.nextFiber)
    (st : FiberState) :
    (t.setState f st).Coherent ↔ (st = .RUNING → f = 0 ∨ f = t.executing) := by
  constructor
  · intro hafter hst
    rcases Nat.eq_zero_or_pos f with hzero | hpos
    · exact Or.inl hzero
    · have hself : Function.update t.state f st f = st := Function.update_self _ _ _
      exact Or.inr (hafter.running f hpos hlt (hself.trans hst))
  · intro hmay
    refine ⟨h.current, fun g hpos hgt hrunning => ?_⟩
    rcases running_of_update hrunning with ⟨hgf, hst⟩ | hrunning'
    · rw [hgf] at hpos ⊢
      rcases hmay hst with hzero | hexecuting
      · exact absurd hzero (Nat.ne_of_gt hpos)
      · exact hexecuting
    · exact h.running g hpos hgt hrunning'

/-- `mainFunc` ends the fiber that executes and gives the processor back. -/
theorem coherent_ended {t : FiberThread} (h : t.Sound) (hcoherent : t.Coherent)
    (hpos : t.executing ≠ 0) {st : FiberState} (hst : st ≠ .RUNING) :
    ((t.setState t.executing st).swapOut t.executing).Coherent ↔ t.context 0 = 0 := by
  have hset : (t.setState t.executing st).Sound := ⟨h.executing_lt, h.context_lt, h.own⟩
  have hended : Function.update t.state t.executing st t.executing ≠ .RUNING := by
    rw [Function.update_self]
    exact hst
  have hothers : ∀ f, 0 < f → f < t.nextFiber →
      Function.update t.state t.executing st f = .RUNING → f = t.executing := by
    intro f hf hlt hrunning
    rcases running_of_update hrunning with ⟨hsame, _⟩ | hrunning'
    · exact hsame
    · exact hcoherent.running f hf hlt hrunning'
  refine (swapOut_coherent hset hothers).trans ⟨?_, fun hzero => Or.inr ⟨hzero, hended⟩⟩
  rintro (hzero | ⟨hcontext, _⟩)
  · exact absurd hzero hpos
  · exact hcontext

/-- A call keeps a thread coherent exactly when `Keeps` says so. -/
theorem coherent_step {t t' : FiberThread} {a : Act} (h : t.Sound) (hcoherent : t.Coherent)
    (hstep : t.step a = some t') : t'.Coherent ↔ t.Keeps a t' := by
  cases a with
  | construct =>
      cases Option.some.inj hstep
      exact ⟨construct_not_coherent h, False.elim⟩
  | reset f =>
      rw [FiberThread.step, Option.ite_none_right_eq_some] at hstep
      obtain ⟨⟨_, hlt⟩, heq⟩ := hstep
      cases Option.some.inj heq
      have hcontext : (t.makecontext f).Coherent := ⟨hcoherent.current, hcoherent.running⟩
      refine ⟨fun _ => trivial, fun _ => (coherent_setState hcontext hlt .INIT).mpr ?_⟩
      rintro ⟨⟩
  | setState f st =>
      rw [FiberThread.step, Option.ite_none_right_eq_some] at hstep
      obtain ⟨hlt, heq⟩ := hstep
      cases Option.some.inj heq
      exact coherent_setState hcoherent hlt st
  | swapIn f =>
      rw [FiberThread.step, Option.ite_none_right_eq_some] at hstep
      obtain ⟨⟨hpos, hlt⟩, heq⟩ := hstep
      cases Option.some.inj heq
      have hexecuting := swapIn_executing h hpos hlt
      exact coherent_switch hcoherent h.executing_lt hexecuting.symm hexecuting rfl
        (fun g hg => Function.update_of_ne hg _ _)
  | swapOut =>
      rw [FiberThread.step, hcoherent.current] at hstep
      cases Option.some.inj hstep
      exact swapOut_coherent h hcoherent.running
  | mainFunc threw =>
      rw [FiberThread.step, Option.ite_none_left_eq_some] at hstep
      obtain ⟨hpos, heq⟩ := hstep
      cases Option.some.inj heq
      refine coherent_ended h hcoherent hpos ?_
      cases threw with
      | true => rintro ⟨⟩
      | false => rintro ⟨⟩

/-- A thread is coherent throughout a run exactly when it starts so, with no task fiber in
`RUNING`, and every call keeps it. -/
theorem coherent_iff (n : Nat) (state : Nat → FiberState) (as : List Act) :
    Throughout step Coherent (startWith n state) as ↔
      (∀ f, 0 < f → f ≤ n → state f ≠ .RUNING) ∧ Along step Keeps (startWith n state) as := by
  have hsound := startWith_sound n state
  rw [← startWith_coherent n state]
  have hall : ∀ a ∈ as, True := fun _ _ => trivial
  have hrule : (startWith n state).Coherent →
      (Throughout step Coherent (startWith n state) as ↔
        Along step Keeps (startWith n state) as) := fun hstart =>
    throughout_iff_along_beside (J := Sound)
      (fun _ _ _ _ hs hc hstep => Sound.step hs hc hstep)
      (fun _ _ _ _ hs hc hstep => coherent_step hs hc hstep) hall hsound hstart
  exact ⟨fun h => ⟨h.start, (hrule h.start).mp h⟩, fun h => (hrule h.1).mpr h.2⟩

/-- A fiber makes a fiber. -/
theorem construct_breaks : ¬ ∀ (n : Nat) (state : Nat → FiberState) (as : List Act),
    (∀ f, 0 < f → f ≤ n → state f ≠ .RUNING) →
      Throughout step Coherent (startWith n state) as := by
  intro h
  have hrun := h 1 (fun _ => .INIT) [.swapIn 1, .construct] (fun _ _ _ => by rintro ⟨⟩)
  exact absurd (hrun.final rfl).current (by decide)

/-! ## What coherence gives -/

/-- In a coherent thread the scan takes any other task fiber that is queued for any worker. -/
theorem Coherent.eligible {t : FiberThread} (h : t.Coherent) {f : Nat} (hpos : 0 < f)
    (hlt : f < t.nextFiber) (hother : f ≠ t.executing) {s : Scheduler}
    (hstate : s.state f = t.state f) (thread : Int) :
    s.eligible thread ⟨some f, none, -1⟩ = true := by
  have hidle : s.state f ≠ .RUNING := by
    rw [hstate]
    exact fun hrunning => hother (h.running f hpos hlt hrunning)
  rw [Scheduler.eligible, Bool.and_eq_true]
  exact ⟨rfl, decide_eq_true hidle⟩

/-- A hooked call of a task fiber leaves it in `RUNING`; with the `HOLD` that `run` sets
behind `swapIn` the thread is coherent again. -/
theorem Coherent.hold {t : FiberThread} (h : t.Coherent) (hsound : t.Sound)
    (hpos : 0 < t.executing) (hcontext : t.context 0 = 0) :
    ∃ t', exec step t [.swapOut, .setState t.executing .HOLD] = some t' ∧ t'.Coherent ∧
      t'.executing = 0 ∧ t'.state t.executing = .HOLD := by
  have hexecuting : (t.swapOut t.executing).executing = 0 := by
    rw [swapOut_executing, if_neg (Nat.ne_of_gt hpos), hcontext]
  refine ⟨(t.swapOut t.executing).setState t.executing .HOLD, ?_, ⟨hexecuting.symm, ?_⟩,
    hexecuting, Function.update_self _ _ _⟩
  · rw [exec_cons_some _ (by rw [step, h.current]), exec_cons_some _ (if_pos hsound.executing_lt),
      exec_nil]
  · intro f hf hlt hrunning
    have hg : Function.update (t.swapOut t.executing).state t.executing .HOLD f = .RUNING :=
      hrunning
    rw [Function.update_apply] at hg
    split at hg
    · cases hg
    next hne =>
      have hg' : Function.update t.state 0 .RUNING f = .RUNING := hg
      rw [Function.update_of_ne (Nat.ne_of_gt hf)] at hg'
      exact absurd (h.running f hf hlt hg') hne

end FiberThread

end Muqiu
