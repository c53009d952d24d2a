import Muqiu.Hook.Timed

/-!
# No hooked call times out early

One `timer_info` serves all the rounds of a call of `do_io`.  Every round arms a timer of its own
with the timeout of the call, so whichever of them expires, and however late its callback runs,
the timeout has passed since the call began.  That is, unless `listExpiredCb` takes out timers
that are not due, which it does when it sees the clock going back.

The clock does not go back here, but a reading of it can be old: `listExpiredCb` reads the clock
before it takes the lock, and compares with the reading of whoever had the lock before.  In the
first hour of the clock any older reading counts as a rollover, later one that is older by more
than an hour.  In a run without such a sweep no call times out early.
-/

namespace Muqiu

open Runs

namespace Hook

/-! ## What a step does to the calls and the callbacks -/

/-- The call `c` later on: with its `timer_info`, its timeout and its way through `do_io`, and
timed out only by a callback that was due. -/
structure Call.Continues (due : List ConditionTimer) (c c' : Call) : Prop where
  tinfo : c'.tinfo = c.tinfo
  timeout : c'.timeout = c.timeout
  direct : c'.stage = .direct ↔ c.stage = .direct
  cancelled : c'.cancelled = true → c.cancelled = true ∨ ∃ timer ∈ due, timer.tinfo = c.tinfo

theorem Call.Continues.refl (due : List ConditionTimer) (c : Call) : c.Continues due c :=
  ⟨rfl, rfl, Iff.rfl, Or.inl⟩

namespace Process

/-- The calls continue calls there were, and no callback becomes due. -/
structure Carries (s t : Process) : Prop where
  nextInfo : t.nextInfo = s.nextInfo
  due : ∀ timer ∈ t.due, timer ∈ s.due
  calls : ∀ fiber c', t.calls fiber = some c' → ∃ c, s.calls fiber = some c ∧
    c.Continues s.due c'

section Carries

variable {s t : Process} {fiber : Nat} {c c' : Call}

theorem carries_same (hnext : t.nextInfo = s.nextInfo) (hdue : t.due = s.due)
    (hcalls : t.calls = s.calls) : s.Carries t := by
  refine ⟨hnext, by rw [hdue]; exact fun _ h => h, fun fiber d hd => ?_⟩
  rw [hcalls] at hd
  exact ⟨d, hd, .refl _ d⟩

/-- A call goes on. -/
theorem carries_on (hnext : t.nextInfo = s.nextInfo) (hdue : ∀ timer ∈ t.due, timer ∈ s.due)
    (hcalls : t.calls = Function.update s.calls fiber (some c')) (hcall : s.calls fiber = some c)
    (hc : c.Continues s.due c') : s.Carries t := by
  refine ⟨hnext, hdue, fun other d hd => ?_⟩
  rw [hcalls, Function.update_apply] at hd
  split at hd
  next heq =>
    cases Option.some.inj hd
    exact ⟨c, by rw [heq]; exact hcall, hc⟩
  next => exact ⟨d, hd, .refl _ d⟩

/-- A call returns. -/
theorem carries_gone (hnext : t.nextInfo = s.nextInfo) (hdue : t.due = s.due)
    (hcalls : t.calls = Function.update s.calls fiber none) : s.Carries t := by
  refine ⟨hnext, by rw [hdue]; exact fun _ h => h, fun other d hd => ?_⟩
  rw [hcalls, Function.update_apply] at hd
  split at hd
  next => cases hd
  next => exact ⟨d, hd, .refl _ d⟩

theorem carries_markClosed (hnext : t.nextInfo = s.nextInfo) (hdue : t.due = s.due) {fd : Int}
    (hcalls : t.calls = (s.markClosed fd).calls) : s.Carries t := by
  refine ⟨hnext, by rw [hdue]; exact fun _ h => h, fun other d hd => ?_⟩
  rw [hcalls] at hd
  obtain ⟨c, hc, heq⟩ := Option.map_eq_some_iff.mp hd
  refine ⟨c, hc, ?_⟩
  rw [← heq]
  split
  · exact ⟨rfl, rfl, Iff.rfl, Or.inl⟩
  · exact .refl _ c

/-- The registry has no part in the calls. -/
theorem event_calls {a : IOManager.Act} (hstep : s.event a = some t) :
    t.nextInfo = s.nextInfo ∧ t.due = s.due ∧ t.calls = s.calls := by
  obtain ⟨w, _, hw⟩ := Option.bind_eq_some_iff.mp hstep
  rw [Option.ite_none_left_eq_some] at hw
  cases Option.some.inj hw.2
  exact ⟨rfl, rfl, rfl⟩

theorem cancelTimer_calls (s : Process) (fiber : Nat) (c : Call) :
    (s.cancelTimer fiber c).nextInfo = s.nextInfo ∧ (s.cancelTimer fiber c).due = s.due ∧
      (s.cancelTimer fiber c).calls = s.calls := by
  rw [cancelTimer]
  split
  · exact ⟨rfl, rfl, rfl⟩
  · exact ⟨rfl, rfl, rfl⟩

theorem carries_invoke (hcall : s.calls fiber = some c) (outcome : Outcome) :
    s.Carries (s.invoke fiber c outcome) := by
  unfold invoke
  split
  · exact carries_gone rfl rfl rfl
  next hdirect =>
    split
    · exact carries_same rfl rfl rfl
    · have hgoes : c.Continues s.due { c with stage := .again } :=
        ⟨rfl, rfl, iff_of_false (by rintro ⟨⟩) hdirect, Or.inl⟩
      exact carries_on rfl (fun _ h => h) rfl hcall hgoes
    · exact carries_gone rfl rfl rfl

theorem carries_arm (hcall : s.calls fiber = some c) (hstage : c.stage = .again) :
    s.Carries (s.arm fiber c) := by
  have hdirect : c.stage ≠ .direct := by
    rw [hstage]
    rintro ⟨⟩
  have hgoes : ∀ timer : Bool, c.Continues s.due { c with timer := timer, stage := .armed } :=
    fun _ => ⟨rfl, rfl, iff_of_false (by rintro ⟨⟩) hdirect, Or.inl⟩
  rw [arm]
  split
  · exact carries_on rfl (fun _ h => h) rfl hcall (hgoes false)
  · exact carries_on rfl (fun _ h => h) rfl hcall (hgoes true)

theorem carries_await (hcall : s.calls fiber = some c) (hstage : c.stage = .armed) {ok : Bool}
    (hstep : s.await fiber c ok = some t) : s.Carries t := by
  obtain ⟨u, hu, heq⟩ := Option.map_eq_some_iff.mp hstep
  obtain ⟨hnext, hdue, hcalls⟩ := event_calls hu
  have hdirect : c.stage ≠ .direct := by
    rw [hstage]
    rintro ⟨⟩
  split at heq
  · have hgoes : c.Continues s.due { c with stage := .waiting } :=
      ⟨rfl, rfl, iff_of_false (by rintro ⟨⟩) hdirect, Or.inl⟩
    rw [← heq]
    exact carries_on hnext (by rw [← hdue]; exact fun _ h => h) (by rw [← hcalls]; rfl) hcall
      hgoes
  · obtain ⟨hnext', hdue', hcalls'⟩ := cancelTimer_calls u fiber c
    rw [← heq]
    exact carries_gone (hnext'.trans hnext) (hdue'.trans hdue)
      (by rw [← hcalls, ← hcalls']; rfl)

theorem carries_resume (hcall : s.calls fiber = some c) (hstage : c.stage = .waiting) :
    s.Carries (s.resume fiber c) := by
  have hdirect : c.stage ≠ .direct := by
    rw [hstage]
    rintro ⟨⟩
  have hgoes : c.Continues s.due { c with stage := .retry } :=
    ⟨rfl, rfl, iff_of_false (by rintro ⟨⟩) hdirect, Or.inl⟩
  have hends : ∀ u : Process, u.nextInfo = s.nextInfo → u.due = s.due → u.calls = s.calls →
      s.Carries (if c.cancelled then u.ret fiber c (.fail .ETIMEDOUT)
        else u.setCall fiber (some { c with stage := .retry })) := by
    intro u hnext hdue hcalls
    split
    · exact carries_gone hnext hdue (by rw [← hcalls]; rfl)
    · exact carries_on hnext (by rw [← hdue]; exact fun _ h => h) (by rw [← hcalls]; rfl) hcall
        hgoes
  obtain ⟨hnext, hdue, hcalls⟩ :=
    cancelTimer_calls { s with scheduled := s.scheduled.erase fiber } fiber c
  exact hends _ hnext hdue hcalls

/-- The callback of a timer times out the call with its `timer_info` only. -/
theorem carries_callback {timer : ConditionTimer} (htimer : timer ∈ s.due) :
    s.Carries ({ s with due := s.due.erase timer }.callback timer) := by
  have hdue : ∀ other ∈ s.due.erase timer, other ∈ s.due := fun _ h => List.mem_of_mem_erase h
  have hsame : s.Carries { s with due := s.due.erase timer } :=
    ⟨rfl, hdue, fun _ d hd => ⟨d, hd, .refl _ d⟩⟩
  rw [callback]
  split
  · exact hsame
  next c hcall =>
    split
    next hlive =>
      have hgoes : c.Continues s.due { c with cancelled := true } :=
        ⟨rfl, rfl, Iff.rfl, fun _ => Or.inr ⟨timer, htimer, hlive.1.symm⟩⟩
      exact carries_on rfl hdue rfl hcall hgoes
    · exact hsame

theorem carries_closeNext {fd : Int} {rest : List (Int × CloseStage)} {ok : Bool}
    {stage : CloseStage} (hstep : s.closeNext fd rest ok stage = some t) : s.Carries t := by
  cases stage with
  | cancelling =>
      obtain ⟨u, hu, heq⟩ := Option.map_eq_some_iff.mp hstep
      obtain ⟨hnext, hdue, hcalls⟩ := event_calls hu
      rw [← heq]
      exact carries_markClosed hnext hdue hcalls
  | deleting =>
      obtain ⟨fds, _, heq⟩ := Option.map_eq_some_iff.mp hstep
      rw [← heq]
      exact carries_same rfl rfl rfl
  | closing =>
      obtain ⟨u, hu, heq⟩ := Option.map_eq_some_iff.mp hstep
      obtain ⟨hnext, hdue, hcalls⟩ := event_calls hu
      rw [← heq]
      exact carries_markClosed hnext hdue hcalls

/-- No call begins and no callback becomes due. -/
def carrying : Act → Bool
  | .enter _ _ _ => false
  | .expire _ => false
  | _ => true

theorem carrying_of_untimed {a : Act} (ha : untimed a = true) : carrying a = true := by
  cases a with
  | enter fiber fd ev => cases ha
  | expire timer => cases ha
  | _ => rfl

theorem step_carries {a : Act} (ha : carrying a = true) (hstep : s.step a = some t) :
    s.Carries t := by
  cases stepped hstep with
  | opened _ => exact carries_same rfl rfl rfl
  | create _ => exact carries_same rfl rfl rfl
  | setUserNonblock p v => exact carries_same rfl rfl rfl
  | setTimeout p type v => exact carries_same rfl rfl rfl
  | enter _ => cases ha
  | invoke hc _ => exact carries_invoke (Option.filter_eq_some_iff.mp hc).1 _
  | arm hc =>
      obtain ⟨hcall, hstage⟩ := Option.filter_eq_some_iff.mp hc
      exact carries_arm hcall (of_decide_eq_true hstage)
  | await hc hawait =>
      obtain ⟨hcall, hstage⟩ := Option.filter_eq_some_iff.mp hc
      exact carries_await hcall (of_decide_eq_true hstage) hawait
  | resume _ hc =>
      obtain ⟨hcall, hstage⟩ := Option.filter_eq_some_iff.mp hc
      exact carries_resume hcall (of_decide_eq_true hstage)
  | expire _ => cases ha
  | callback hdue => exact carries_callback hdue
  | cancel _ hevent =>
      obtain ⟨hnext, hdue, hcalls⟩ := event_calls hevent
      exact carries_same hnext hdue hcalls
  | event _ hevent =>
      obtain ⟨hnext, hdue, hcalls⟩ := event_calls hevent
      exact carries_same hnext hdue hcalls
  | close _ => exact carries_same rfl rfl rfl
  | closeNext _ hnext => exact carries_closeNext hnext

/-- A call that begins. -/
structure Begins (s : Process) (fiber : Nat) (t : Process) : Prop where
  due : t.due = s.due
  others : ∀ fiber', fiber' ≠ fiber → t.calls fiber' = s.calls fiber'
  /-- it returns at once, calls its function directly or gets a `timer_info` -/
  call : t.calls fiber = none ∧ t.nextInfo = s.nextInfo ∨
    ∃ c, t.calls fiber = some c ∧ c.tinfo = s.nextInfo ∧ c.cancelled = false ∧
      (c.stage = .direct ∧ t.nextInfo = s.nextInfo ∨ t.nextInfo = s.nextInfo + 1)

theorem enter_begins {fd : Int} {ev : IOManager.Event} (hstep : s.enter fiber fd ev = some t) :
    s.Begins fiber t := by
  have hothers : ∀ (x : Option Call) (fiber' : Nat), fiber' ≠ fiber →
      Function.update s.calls fiber x fiber' = s.calls fiber' :=
    fun x _ hne => Function.update_of_ne hne x s.calls
  have hself : ∀ x : Option Call, Function.update s.calls fiber x fiber = x :=
    fun x => Function.update_self fiber x s.calls
  rw [enter] at hstep
  split at hstep
  · cases Option.some.inj hstep
    exact ⟨rfl, hothers _, Or.inr ⟨_, hself _, rfl, rfl, Or.inl ⟨rfl, rfl⟩⟩⟩
  · obtain ⟨ctx, _, heq⟩ := Option.map_eq_some_iff.mp hstep
    rw [← heq]
    split
    · exact ⟨rfl, hothers _, Or.inl ⟨hself none, rfl⟩⟩
    · split
      · exact ⟨rfl, hothers _, Or.inr ⟨_, hself _, rfl, rfl, Or.inl ⟨rfl, rfl⟩⟩⟩
      · exact ⟨rfl, hothers _, Or.inr ⟨_, hself _, rfl, rfl, Or.inr rfl⟩⟩
  · cases hstep

end Carries

end Process

namespace Timed

/-! ## The invariant -/

/-- The timeout of the call with a `timer_info` has passed at `time`. -/
def DueBy (s : Timed) (tinfo : Nat) (time : Nat) : Prop :=
  tinfo < s.p.nextInfo ∧ ∃ since timeout, s.started tinfo = some (since, timeout) ∧
    timeout ≠ noTimeout ∧ since.toNat + timeout.toNat ≤ time

/-- A call began no later than now, and once it is timed out its timeout has passed. -/
structure InTime (s : Timed) (c : Call) : Prop where
  known : c.tinfo < s.p.nextInfo
  began : ∃ since, s.started c.tinfo = some (since, c.timeout) ∧ since ≤ s.clock
  cancelled : c.cancelled = true → s.DueBy c.tinfo s.clock.toNat

/-- No timer of `do_io` is due before the timeout of its call has passed, and what has come of
one has come late enough. -/
structure Timely (s : Timed) : Prop where
  ordered : s.m.Ordered
  checks : ∀ now ∈ s.checks, now ≤ s.clock
  /-- Callbacks have the names of their timers. -/
  named : ∀ a t, s.m.heap a = some t → ∀ id ∈ t.m_cb, id = a
  timers : ∀ a ct t, s.captured a = some ct → s.m.heap a = some t →
    t.m_recurring = false ∧ s.DueBy ct.tinfo t.m_next.toNat
  due : ∀ ct ∈ s.p.due, s.DueBy ct.tinfo s.clock.toNat
  calls : ∀ fiber c, s.p.calls fiber = some c → c.stage ≠ .direct → s.InTime c
  reading : ∀ tinfo now, s.reading tinfo = some now → tinfo < s.p.nextInfo ∧ now ≤ s.clock ∧
    ∀ since timeout, s.started tinfo = some (since, timeout) → since ≤ now

theorem start_timely (now : UInt64) : (start now).Timely := by
  refine ⟨TimerManager.new_ordered now, ?_, ?_, ?_, ?_, ?_, ?_⟩
  · rintro _ ⟨⟩
  · rintro _ _ ⟨⟩
  · rintro _ _ _ ⟨⟩
  · rintro _ ⟨⟩
  · rintro _ _ ⟨⟩
  · rintro _ _ ⟨⟩

section Steps

variable {s t : Timed}

/-- What was recorded stays, and time passes. -/
structure Later (s t : Timed) : Prop where
  nextInfo : s.p.nextInfo ≤ t.p.nextInfo
  started : ∀ tinfo < s.p.nextInfo, t.started tinfo = s.started tinfo
  clock : s.clock ≤ t.clock

theorem Later.dueBy (h : s.Later t) {tinfo time time' : Nat} (hdue : s.DueBy tinfo time)
    (htime : time ≤ time') : t.DueBy tinfo time' := by
  obtain ⟨hknown, since, timeout, hstarted, hne, hle⟩ := hdue
  refine ⟨Nat.lt_of_lt_of_le hknown h.nextInfo, since, timeout, ?_, hne, hle.trans htime⟩
  rw [h.started tinfo hknown, hstarted]

theorem Later.dueBy_clock (h : s.Later t) {tinfo : Nat} (hdue : s.DueBy tinfo s.clock.toNat) :
    t.DueBy tinfo t.clock.toNat :=
  h.dueBy hdue (UInt64.le_iff_toNat_le.mp h.clock)

theorem Later.inTime (h : s.Later t) {c : Call} (hc : s.InTime c) : t.InTime c := by
  obtain ⟨since, hstarted, hle⟩ := hc.began
  refine ⟨Nat.lt_of_lt_of_le hc.known h.nextInfo, ⟨since, ?_, UInt64.le_trans hle h.clock⟩,
    fun hcancelled => h.dueBy_clock (hc.cancelled hcancelled)⟩
  rw [h.started c.tinfo hc.known, hstarted]

/-- The clock goes on. -/
theorem Timely.tick (h : s.Timely) {now : UInt64} (hnow : s.clock ≤ now) :
    ({ s with clock := now } : Timed).Timely := by
  have hlater : s.Later { s with clock := now } := ⟨Nat.le_refl _, fun _ _ => rfl, hnow⟩
  refine ⟨h.ordered, fun r hr => UInt64.le_trans (h.checks r hr) hnow, h.named, h.timers,
    fun ct hct => hlater.dueBy_clock (h.due ct hct),
    fun fiber c hc hstage => hlater.inTime (h.calls fiber c hc hstage), fun tinfo r hr => ?_⟩
  obtain ⟨hknown, hle, hsince⟩ := h.reading tinfo r hr
  exact ⟨hknown, UInt64.le_trans hle hnow, hsince⟩

/-- A step of the process that carries the calls on. -/
theorem Timely.process (h : s.Timely) {p : Process} (hp : s.p.Carries p) :
    ({ s with p := p } : Timed).Timely := by
  have hlater : s.Later { s with p := p } :=
    ⟨Nat.le_of_eq hp.nextInfo.symm, fun _ _ => rfl, UInt64.le_refl _⟩
  refine ⟨h.ordered, h.checks, h.named, fun a ct t hct ht => ?_,
    fun ct hct => hlater.dueBy_clock (h.due ct (hp.due ct hct)), fun fiber c' hc' hstage => ?_,
    fun tinfo now hnow => ?_⟩
  · obtain ⟨hrec, hdue⟩ := h.timers a ct t hct ht
    exact ⟨hrec, hlater.dueBy hdue (Nat.le_refl _)⟩
  · obtain ⟨c, hc, hgoes⟩ := hp.calls fiber c' hc'
    have hin := hlater.inTime (h.calls fiber c hc fun hd => hstage (hgoes.direct.mpr hd))
    refine ⟨by rw [hgoes.tinfo]; exact hin.known,
      by rw [hgoes.tinfo, hgoes.timeout]; exact hin.began, fun hcancelled => ?_⟩
    rw [hgoes.tinfo]
    rcases hgoes.cancelled hcancelled with hbefore | ⟨timer, htimer, heq⟩
    · exact hin.cancelled hbefore
    · rw [← heq]
      exact hlater.dueBy_clock (h.due timer htimer)
  · obtain ⟨hknown, hle, hsince⟩ := h.reading tinfo now hnow
    exact ⟨by rw [hp.nextInfo]; exact hknown, hle, hsince⟩

/-- The operation moves no timer of `do_io`, and what it adds is not one. -/
def Apart (s : Timed) : TimerManager.Act → Prop
  | .addTimer _ a _ cb _ => s.captured a = none ∧ ∀ id ∈ cb, id = a
  | .refresh _ a => s.captured a = none
  | .reset _ a _ _ => s.captured a = none
  | _ => True

theorem Foreign.apart {a : TimerManager.Act} (h : s.Foreign a) : s.Apart a := by
  cases a with
  | addTimer now b ms cb recurring => exact ⟨h.1, h.2.1⟩
  | refresh now b => exact h.1
  | reset now b ms from_now => exact h.1
  | _ => trivial

theorem Timely.manager (h : s.Timely) {act : TimerManager.Act} {m : TimerManager}
    (hstep : s.m.step act = some m) (hapart : s.Apart act) :
    ({ s with m := m } : Timed).Timely := by
  have hlater : s.Later { s with m := m } :=
    ⟨Nat.le_refl _, fun _ _ => rfl, UInt64.le_refl _⟩
  refine ⟨h.ordered.step hstep, h.checks, fun a t' ht' id hid => ?_, fun a ct t' hct ht' => ?_,
    h.due, fun fiber c hc hstage => hlater.inTime (h.calls fiber c hc hstage), h.reading⟩
  · rcases h.ordered.timer_cases hstep ht' with ⟨now, ms, cb, recurring, rfl, rfl⟩ | hold
    · exact hapart.2 id hid
    · obtain ⟨t, ht, hcb | hcb, _⟩ := hold
      · rw [hcb] at hid
        exact h.named a t ht id hid
      · rw [hcb] at hid
        cases hid
  · rcases h.ordered.timer_cases hstep ht' with ⟨now, ms, cb, recurring, rfl, _⟩ | hold
    · cases hct.symm.trans hapart.1
    · obtain ⟨t, ht, _, hrec', hnext⟩ := hold
      obtain ⟨hrec, hdue⟩ := h.timers a ct t hct ht
      refine ⟨hrec'.trans hrec, ?_⟩
      rw [hnext hrec]
      · exact hdue
      · rintro now rfl
        cases hct.symm.trans hapart
      · rintro now ms from_now rfl
        cases hct.symm.trans hapart

theorem Timely.cancelTimer (h : s.Timely) {fiber : Nat} {m : TimerManager}
    (hm : s.cancelTimer fiber = some m) : ({ s with m := m } : Timed).Timely := by
  rw [Timed.cancelTimer] at hm
  split at hm
  · cases Option.some.inj hm
    exact h
  · exact h.manager hm trivial

/-- A call begins. -/
theorem Timely.enter (h : s.Timely) {fiber : Nat} {p : Process} (hp : s.p.Begins fiber p) :
    (s.record fiber p).Timely := by
  rw [record]
  rcases hp.call with ⟨hnone, hnext⟩ | ⟨c, hc, htinfo, hcancelled, hnext⟩
  · simp only [hnone]
    have hcarries : s.p.Carries p := by
      refine ⟨hnext, by rw [hp.due]; exact fun _ hd => hd, fun other d hd => ?_⟩
      have hne : other ≠ fiber := by
        rintro rfl
        cases hnone.symm.trans hd
      exact ⟨d, by rw [← hp.others other hne]; exact hd, .refl _ d⟩
    exact h.process hcarries
  · simp only [hc]
    have hge : s.p.nextInfo ≤ p.nextInfo := by omega
    have hlater : s.Later { s with
        p := p
        started := Function.update s.started c.tinfo (some (s.clock, c.timeout)) } := by
      refine ⟨hge, fun tinfo hlt => ?_, UInt64.le_refl _⟩
      have hne : tinfo ≠ c.tinfo := by omega
      exact Function.update_of_ne hne _ _
    refine ⟨h.ordered, h.checks, h.named, fun a ct t hct ht => ?_, fun ct hct => ?_,
      fun other d hd hstage => ?_, fun tinfo now hnow => ?_⟩
    · obtain ⟨hrec, hdue⟩ := h.timers a ct t hct ht
      exact ⟨hrec, hlater.dueBy hdue (Nat.le_refl _)⟩
    · rw [hp.due] at hct
      exact hlater.dueBy_clock (h.due ct hct)
    · by_cases hother : other = fiber
      · rw [hother] at hd
        cases Option.some.inj (hc.symm.trans hd)
        rcases hnext with ⟨hdirect, _⟩ | hnext
        · exact absurd hdirect hstage
        · refine ⟨by rw [htinfo, hnext]; exact Nat.lt_succ_self _, ⟨s.clock, ?_, UInt64.le_refl _⟩,
            fun hc' => ?_⟩
          · exact Function.update_self _ _ _
          · cases hcancelled.symm.trans hc'
      · rw [hp.others other hother] at hd
        exact hlater.inTime (h.calls other d hd hstage)
    · obtain ⟨hknown, hle, hsince⟩ := h.reading tinfo now hnow
      refine ⟨Nat.lt_of_lt_of_le hknown hge, hle, fun since timeout hs => ?_⟩
      rw [hlater.started tinfo hknown] at hs
      exact hsince since timeout hs

/-- `listExpiredCb` reads the clock. -/
theorem Timely.check (h : s.Timely) :
    ({ s with checks := s.checks ++ [s.clock] } : Timed).Timely := by
  have hlater : s.Later { s with checks := s.checks ++ [s.clock] } :=
    ⟨Nat.le_refl _, fun _ _ => rfl, UInt64.le_refl _⟩
  refine ⟨h.ordered, fun now hnow => ?_, h.named, h.timers, h.due,
    fun other d hd hs => hlater.inTime (h.calls other d hd hs), h.reading⟩
  rcases List.mem_append.mp hnow with hold | hnew
  · exact h.checks now hold
  · rw [List.mem_singleton.mp hnew]
    exact UInt64.le_refl _

/-- Which timer a fiber holds is nothing to the times. -/
theorem Timely.timer (h : s.Timely) (timer : Nat → Option Nat) :
    ({ s with timer := timer } : Timed).Timely := by
  have hlater : s.Later { s with timer := timer } :=
    ⟨Nat.le_refl _, fun _ _ => rfl, UInt64.le_refl _⟩
  exact ⟨h.ordered, h.checks, h.named, h.timers, h.due,
    fun other d hd hs => hlater.inTime (h.calls other d hd hs), h.reading⟩

/-- A reading is used up. -/
theorem Timely.unread (h : s.Timely) (tinfo : Nat) :
    ({ s with reading := Function.update s.reading tinfo none } : Timed).Timely := by
  have hlater : s.Later { s with reading := Function.update s.reading tinfo none } :=
    ⟨Nat.le_refl _, fun _ _ => rfl, UInt64.le_refl _⟩
  refine ⟨h.ordered, h.checks, h.named, h.timers, h.due,
    fun other d hd hs => hlater.inTime (h.calls other d hd hs), fun k now hnow => ?_⟩
  have hupdate : Function.update s.reading tinfo none k = some now := hnow
  rw [Function.update_apply] at hupdate
  split at hupdate
  next => cases hupdate
  next => exact h.reading k now hupdate

/-- The constructor of a timer reads the clock. -/
theorem Timely.construct (h : s.Timely) {fiber : Nat} {c : Call}
    (hc : s.p.calls fiber = some c) (hstage : c.stage ≠ .direct) :
    ({ s with reading := Function.update s.reading c.tinfo (some s.clock) } : Timed).Timely := by
  have hin := h.calls fiber c hc hstage
  have hlater : s.Later
      { s with reading := Function.update s.reading c.tinfo (some s.clock) } :=
    ⟨Nat.le_refl _, fun _ _ => rfl, UInt64.le_refl _⟩
  refine ⟨h.ordered, h.checks, h.named, h.timers, h.due,
    fun other d hd hstage' => hlater.inTime (h.calls other d hd hstage'),
    fun tinfo now hnow => ?_⟩
  have hupdate : Function.update s.reading c.tinfo (some s.clock) tinfo = some now := hnow
  rw [Function.update_apply] at hupdate
  split at hupdate
  next heq =>
    cases Option.some.inj hupdate
    refine ⟨by rw [heq]; exact hin.known, UInt64.le_refl _, fun since timeout hs => ?_⟩
    obtain ⟨since', hs', hle⟩ := hin.began
    rw [heq] at hs
    cases Option.some.inj (hs.symm.trans hs')
    exact hle
  next => exact h.reading tinfo now hupdate

/-- A timer of `do_io` is known by what its callback captures. -/
theorem Timely.capture (h : s.Timely) {a : Nat} {x : Option ConditionTimer}
    (hnew : ∀ ct t, x = some ct → s.m.heap a = some t →
      t.m_recurring = false ∧ s.DueBy ct.tinfo t.m_next.toNat) :
    ({ s with captured := Function.update s.captured a x } : Timed).Timely := by
  have hlater : s.Later { s with captured := Function.update s.captured a x } :=
    ⟨Nat.le_refl _, fun _ _ => rfl, UInt64.le_refl _⟩
  refine ⟨h.ordered, h.checks, h.named, fun b ct t hct ht => ?_, h.due,
    fun other d hd hs => hlater.inTime (h.calls other d hd hs), h.reading⟩
  have hupdate : Function.update s.captured a x b = some ct := hct
  rw [Function.update_apply] at hupdate
  split at hupdate
  next heq =>
    rw [heq] at ht
    exact hnew ct t hupdate ht
  next => exact h.timers b ct t hupdate ht

/-- The timer a call arms is due when the timeout has passed since its constructor has read the
clock. -/
theorem Timely.arm (h : s.Timely) {fiber : Nat} {c : Call} {p : Process} {a : Nat}
    (hc : s.p.calls fiber = some c) (hstage : c.stage ≠ .direct) (hp : s.p.Carries p)
    (hfits : c.timeout ≠ noTimeout → ∀ now ∈ s.reading c.tinfo, TimerManager.Fits now c.timeout)
    (harm : s.arm fiber c p a = some t) : t.Timely := by
  have hin := h.calls fiber c hc hstage
  rw [Timed.arm] at harm
  split at harm
  next =>
    cases Option.some.inj harm
    exact (h.process hp).timer _
  next hne =>
    obtain ⟨now, hnow, hmap⟩ := Option.bind_eq_some_iff.mp harm
    obtain ⟨m, hm, rfl⟩ := Option.map_eq_some_iff.mp hmap
    obtain ⟨_, _, hsince⟩ := h.reading c.tinfo now hnow
    obtain ⟨since, hs, _⟩ := hin.began
    have hdue : DueBy { s with p := p } c.tinfo (now + c.timeout).toNat := by
      have hle := UInt64.le_iff_toNat_le.mp (hsince since c.timeout hs)
      refine ⟨by rw [hp.nextInfo]; exact hin.known, since, c.timeout, hs, hne, ?_⟩
      rw [(hfits hne now hnow).toNat_add]
      omega
    have hfree := (h.process hp).capture (a := a) (x := none) (by rintro _ _ ⟨⟩)
    have hadded := hfree.manager hm ⟨Function.update_self a none s.captured, fun id hid => by
      cases Option.mem_some.mp hid
      rfl⟩
    have hheap : m.heap a = some ⟨false, c.timeout, now + c.timeout, some a⟩ := by
      simp only [TimerManager.step, Option.ite_none_left_eq_some, Option.some.injEq] at hm
      obtain ⟨_, rfl⟩ := hm
      exact Function.update_self a _ s.m.heap
    have hcaptured := hadded.capture (a := a) (x := some (Process.timerOf fiber c))
      (fun ct t hct ht => by
        cases Option.some.inj hct
        cases Option.some.inj (hheap.symm.trans ht)
        exact ⟨rfl, hdue⟩)
    simp only [Function.update_idem] at hcaptured
    exact (hcaptured.timer _).unread c.tinfo

/-- `listExpiredCb` that sees no rollover takes out timers that are due. -/
theorem Timely.sweep (h : s.Timely) {i : Nat} {now : UInt64} {tmp : Nat} {m : TimerManager}
    (hnow : s.checks[i]? = some now) (hroll : (s.m.detectColckRollover now).1 = false)
    (hm : s.m.step (.listExpiredCb now tmp) = some m) :
    ({ s with
      p := s.p.expireAll ((s.m.listExpiredCb now tmp).1.filterMap fun cb => cb.bind s.captured)
      m := m
      checks := s.checks.eraseIdx i } : Timed).Timely := by
  have hswept := h.manager hm trivial
  have hle := UInt64.le_iff_toNat_le.mp (h.checks now (List.mem_of_getElem? hnow))
  have hlater : s.Later { s with
      p := s.p.expireAll ((s.m.listExpiredCb now tmp).1.filterMap fun cb => cb.bind s.captured)
      m := m
      checks := s.checks.eraseIdx i } := ⟨Nat.le_refl _, fun _ _ => rfl, UInt64.le_refl _⟩
  refine ⟨hswept.ordered, fun r hr => h.checks r (List.mem_of_mem_eraseIdx hr), hswept.named,
    hswept.timers, fun ct hct => ?_,
    fun other d hd hs => hlater.inTime (h.calls other d hd hs), h.reading⟩
  rcases List.mem_append.mp hct with hbefore | hnew
  · exact h.due ct hbefore
  · obtain ⟨cb, hcb, hbind⟩ := List.mem_filterMap.mp hnew
    obtain ⟨id, rfl, hct'⟩ := Option.bind_eq_some_iff.mp hbind
    obtain ⟨_, hcbs, _⟩ := h.ordered.listExpiredCb_spec now tmp
    rw [hcbs, List.mem_map] at hcb
    obtain ⟨a, ha, hcallback⟩ := hcb
    obtain ⟨t, ht, hid⟩ := Option.bind_eq_some_iff.mp hcallback
    cases h.named a t ht id hid
    obtain ⟨_, hnext⟩ := (h.ordered.mem_expired now tmp id).mp ha
    rw [hroll, TimerManager.nextOf_of_heap ht] at hnext
    have hpast := UInt64.le_iff_toNat_le.mp (hnext.resolve_left Bool.false_ne_true)
    exact hlater.dueBy (h.timers id ct t hct' ht).2 (hpast.trans hle)

/-! ## Runs -/

/-- The sum of the time and the timeout of a call does not overflow where its timer is made. -/
def Fitting (s : Timed) (a : TimedAct) (_ : Timed) : Prop :=
  match a with
  | .arm fiber _ => ∀ c ∈ s.p.calls fiber, c.timeout ≠ noTimeout →
      ∀ now ∈ s.reading c.tinfo, TimerManager.Fits now c.timeout
  | _ => True

/-- A sweep sees no rollover of the clock. -/
def Steady (s : Timed) (a : TimedAct) (_ : Timed) : Prop :=
  match a with
  | .sweep i _ => ∀ now ∈ s.checks[i]?, (s.m.detectColckRollover now).1 = false
  | _ => True

/-- A call that comes back timed out has a timeout, which has passed since the call began. -/
def NotEarly (s : Timed) (a : TimedAct) (_ : Timed) : Prop :=
  match a with
  | .resume fiber => ∀ c ∈ s.p.calls fiber, c.cancelled = true → c.timeout ≠ noTimeout ∧
      ∃ since ∈ (s.started c.tinfo).map Prod.fst,
        since.toNat + c.timeout.toNat ≤ s.clock.toNat
  | _ => True

instance decidableFitting (s : Timed) : (a : TimedAct) → (t : Timed) → Decidable (s.Fitting a t)
  | .arm fiber _, _ =>
      letI (c : Call) : Decidable (∀ now ∈ s.reading c.tinfo, TimerManager.Fits now c.timeout) :=
        Option.decidableForallMem (s.reading c.tinfo)
      Option.decidableForallMem (s.p.calls fiber)
  | .process _, _ | .tick _, _ | .timers _, _ | .enter _ _ _, _ | .construct _, _
  | .await _ _, _ | .resume _, _ | .check, _ | .sweep _ _, _ => .isTrue trivial

instance decidableSteady (s : Timed) : (a : TimedAct) → (t : Timed) → Decidable (s.Steady a t)
  | .sweep i _, _ => Option.decidableForallMem s.checks[i]?
  | .process _, _ | .tick _, _ | .timers _, _ | .enter _ _ _, _ | .construct _, _ | .arm _ _, _
  | .await _ _, _ | .resume _, _ | .check, _ => .isTrue trivial

instance decidableNotEarly (s : Timed) :
    (a : TimedAct) → (t : Timed) → Decidable (s.NotEarly a t)
  | .resume fiber, _ =>
      letI (c : Call) : Decidable (∃ since ∈ (s.started c.tinfo).map Prod.fst,
          since.toNat + c.timeout.toNat ≤ s.clock.toNat) :=
        Option.decidableExistsMem ((s.started c.tinfo).map Prod.fst)
      Option.decidableForallMem (s.p.calls fiber)
  | .process _, _ | .tick _, _ | .timers _, _ | .enter _ _ _, _ | .construct _, _ | .arm _ _, _
  | .await _ _, _ | .check, _ | .sweep _ _, _ => .isTrue trivial

theorem Timely.step {a : TimedAct} (h : s.Timely) (hfits : s.Fitting a t) (hsteady : s.Steady a t)
    (hstep : s.step a = some t) : t.Timely := by
  cases a with
  | tick now =>
      rw [Timed.step, Option.ite_none_right_eq_some] at hstep
      cases Option.some.inj hstep.2
      exact h.tick hstep.1
  | enter fiber fd event =>
      obtain ⟨p, hp, rfl⟩ := Option.map_eq_some_iff.mp hstep
      rw [Process.step, Option.ite_none_left_eq_some] at hp
      exact h.enter (Process.enter_begins hp.2)
  | construct fiber =>
      obtain ⟨c, hc, rfl⟩ := Option.map_eq_some_iff.mp hstep
      obtain ⟨hcall, hstage⟩ := Option.filter_eq_some_iff.mp hc
      refine h.construct hcall ?_
      rw [of_decide_eq_true hstage]
      rintro ⟨⟩
  | arm fiber a =>
      obtain ⟨c, hc, hbind⟩ := Option.bind_eq_some_iff.mp hstep
      obtain ⟨p, hp, harm⟩ := Option.bind_eq_some_iff.mp hbind
      obtain ⟨hcall, hstage⟩ := Option.filter_eq_some_iff.mp hc
      have hcarries : s.p.Carries p := Process.step_carries rfl hp
      refine h.arm hcall ?_ hcarries (hfits c hcall) harm
      rw [of_decide_eq_true hstage]
      rintro ⟨⟩
  | await fiber ok =>
      obtain ⟨p, hp, hrest⟩ := Option.bind_eq_some_iff.mp hstep
      have hprocess := h.process (Process.step_carries rfl hp)
      split at hrest
      next =>
        cases Option.some.inj hrest
        exact hprocess
      next =>
        obtain ⟨m, hm, rfl⟩ := Option.map_eq_some_iff.mp hrest
        exact hprocess.cancelTimer hm
  | resume fiber =>
      obtain ⟨p, hp, hrest⟩ := Option.bind_eq_some_iff.mp hstep
      obtain ⟨m, hm, rfl⟩ := Option.map_eq_some_iff.mp hrest
      exact (h.process (Process.step_carries rfl hp)).cancelTimer hm
  | check =>
      cases Option.some.inj hstep
      exact h.check
  | sweep i tmp =>
      obtain ⟨now, hnow, hmap⟩ := Option.bind_eq_some_iff.mp hstep
      obtain ⟨m, hm, rfl⟩ := Option.map_eq_some_iff.mp hmap
      exact h.sweep hnow (hsteady now hnow) hm
  | timers a =>
      rw [Timed.step, Option.ite_none_right_eq_some] at hstep
      obtain ⟨m, hm, rfl⟩ := Option.map_eq_some_iff.mp hstep.2
      exact h.manager hm (Foreign.apart hstep.1)
  | process a =>
      rw [Timed.step, Option.ite_none_right_eq_some] at hstep
      obtain ⟨p, hp, rfl⟩ := Option.map_eq_some_iff.mp hstep.2
      exact h.process (Process.step_carries (Process.carrying_of_untimed hstep.1) hp)

theorem Timely.notEarly {a : TimedAct} (h : s.Timely) (hstep : s.step a = some t) :
    s.NotEarly a t := by
  cases a with
  | resume fiber =>
      obtain ⟨p, hp, _⟩ := Option.bind_eq_some_iff.mp hstep
      rw [Process.step, Option.ite_none_right_eq_some] at hp
      obtain ⟨c, hc, _⟩ := Option.map_eq_some_iff.mp hp.2
      obtain ⟨hcall, hstage⟩ := Option.filter_eq_some_iff.mp hc
      have hdirect : c.stage ≠ .direct := by
        rw [of_decide_eq_true hstage]
        rintro ⟨⟩
      intro d hd hcancelled
      cases Option.some.inj (hcall.symm.trans hd)
      have hin := h.calls fiber c hcall hdirect
      obtain ⟨_, since, timeout, hs, hne, hle⟩ := hin.cancelled hcancelled
      obtain ⟨since', hs', _⟩ := hin.began
      cases Option.some.inj (hs.symm.trans hs')
      exact ⟨hne, since, by rw [hs]; rfl, hle⟩
  | _ => trivial

end Steps

/-- In a run in which no sum of time and timeout overflows and no sweep sees a rollover of the
clock, no call of `do_io` times out before its timeout has passed since it began, and none
without a timeout does. -/
theorem not_early {now : UInt64} {as : List TimedAct} (hfits : Along step Fitting (start now) as)
    (hsteady : Along step Steady (start now) as) : Along step NotEarly (start now) as := by
  have htimely : ∀ (s : Timed) (a : TimedAct) (t : Timed), s.Timely →
      s.Fitting a t ∧ s.Steady a t → step s a = some t → s.NotEarly a t ∧ t.Timely :=
    fun _ _ _ h hp hstep => ⟨h.notEarly hstep, h.step hp.1 hp.2 hstep⟩
  exact along_of_step htimely (start_timely now) (hfits.and hsteady)

/-- A sweep has read the clock no earlier than the one that had the lock before. -/
def InOrder (s : Timed) (a : TimedAct) (_ : Timed) : Prop :=
  match a with
  | .sweep i _ => ∀ now ∈ s.checks[i]?, s.m.m_previousTime ≤ now
  | _ => True

/-- Sweeps that take the lock in the order of their readings see no rollover. -/
theorem not_early_of_inOrder {now : UInt64} {as : List TimedAct}
    (hfits : Along step Fitting (start now) as) (horder : Along step InOrder (start now) as) :
    Along step NotEarly (start now) as := by
  refine not_early hfits (horder.mono fun s a t ha => ?_)
  cases a with
  | sweep i tmp =>
      intro now hnow
      have hle := UInt64.le_iff_toNat_le.mp (ha now hnow)
      refine decide_eq_false ?_
      rintro ⟨hback, _⟩
      rw [UInt64.lt_iff_toNat_lt] at hback
      omega
  | _ => trivial

/-- A fiber waits to read from descriptor 5, with a timeout of ten seconds.  A worker has read
the clock for a sweep before another worker does. -/
def oldReading : List TimedAct :=
  [.process (.opened 5), .process (.create 5 (some true)),
    .process (.setTimeout 0 .SO_RCVTIMEO 10000), .enter 1 5 .read,
    .process (.invoke 1 (.fail .EAGAIN)), .construct 1, .arm 1 0, .await 1 true, .check,
    .tick 1001, .check, .sweep 1 1, .sweep 0 1, .process (.callback ⟨1, 0, 5, .read⟩),
    .process (.cancel 0 true), .resume 1]

/-- The sweep of the first comes second and sees a rollover, and the fiber comes back timed out
a millisecond after it has begun. -/
theorem oldReading_early :
    ¬ ∀ now as, Along step Fitting (start now) as → Along step NotEarly (start now) as := by
  intro h
  have hfits : Along step Fitting (start 1000) oldReading := by decide +kernel
  have hearly : ¬ Along step NotEarly (start 1000) oldReading := by decide +kernel
  exact hearly (h 1000 oldReading hfits)

/-- The same fiber and the timer that was armed for it, and a sweep when that is due. -/
def dueReading : List TimedAct :=
  [.process (.opened 5), .process (.create 5 (some true)),
    .process (.setTimeout 0 .SO_RCVTIMEO 10000), .enter 1 5 .read,
    .process (.invoke 1 (.fail .EAGAIN)), .construct 1, .arm 1 0, .await 1 true, .tick 11000,
    .check, .sweep 0 1, .process (.callback ⟨1, 0, 5, .read⟩), .process (.cancel 0 true),
    .resume 1]

theorem dueReading_not_early : Along step NotEarly (start 1000) dueReading := by
  have hfits : Along step Fitting (start 1000) dueReading := by decide +kernel
  have hsteady : Along step Steady (start 1000) dueReading := by decide +kernel
  exact not_early hfits hsteady

end Timed

end Hook

end Muqiu
