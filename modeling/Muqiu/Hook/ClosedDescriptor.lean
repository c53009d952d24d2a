import Muqiu.Hook.Model

/-!
# Calls on a closed descriptor

`close` wakes the fibers that wait on the descriptor and frees its number.  A fiber that is
swapped in again behind `swapOut` looks at its `timer_info` only and jumps to `retry`: the
context it got before it waited is not asked again, and its flag `m_isClosed` is set nowhere.
So a fiber whose descriptor was closed while it waited comes back with `ETIMEDOUT` or calls
its function on the number again, whatever that refers to by then.  `Refused` holds
throughout a run exactly when no such fiber is swapped in.
-/

namespace Muqiu

open Runs

namespace Hook

/-- `do_io` called nothing, or returned -1 with `EBADF`, once the descriptor was closed. -/
def Observation.Refusal : Observation → Prop
  | .invoked _ _ _ closed => closed = false
  | .returned _ outcome closed => closed = true → outcome = .fail .EBADF

namespace Process

/-- A fiber whose descriptor was closed while it waited still waits or has returned -1 with
`EBADF`, and has called nothing in between. -/
structure Refused (s : Process) : Prop where
  waits : ∀ fiber c, s.calls fiber = some c → c.closed = true → c.stage = .waiting
  trace : ∀ o ∈ s.trace, o.Refusal

/-- No fiber whose descriptor was closed while it waited is swapped in. -/
def Unwoken (s : Process) (a : Act) (_ : Process) : Prop :=
  match a with
  | .resume fiber => ∀ c, s.calls fiber = some c → c.closed = false
  | _ => True

/-! ## What the steps do to calls -/

section Steps

variable {s t : Process} {fiber : Nat} {c : Call}

theorem start_refused : start.Refused := by
  refine ⟨?_, ?_⟩
  · rintro _ _ ⟨⟩
  · rintro _ ⟨⟩

/-- A step that touches no call. -/
theorem Refused.same (h : s.Refused) (hcalls : t.calls = s.calls) (htrace : t.trace = s.trace) :
    t.Refused := by
  refine ⟨?_, ?_⟩
  · rw [hcalls]
    exact h.waits
  · rw [htrace]
    exact h.trace

theorem Refused.setCall (h : s.Refused) {c' : Option Call}
    (hc : ∀ c, c' = some c → c.closed = true → c.stage = .waiting) :
    (s.setCall fiber c').Refused := by
  refine ⟨fun other c hother => ?_, h.trace⟩
  have hupdate : Function.update s.calls fiber c' other = some c := hother
  rw [Function.update_apply] at hupdate
  split at hupdate
  · exact hc c hupdate
  · exact h.waits other c hupdate

theorem Refused.observe (h : s.Refused) {o : Observation} (ho : o.Refusal) :
    ({ s with trace := o :: s.trace } : Process).Refused := by
  refine ⟨h.waits, fun o' ho' => ?_⟩
  rcases List.mem_cons.mp ho' with rfl | hold
  · exact ho
  · exact h.trace o' hold

theorem Refused.ret (h : s.Refused) {outcome : Outcome} (hc : c.closed = false) :
    (s.ret fiber c outcome).Refused := by
  have hnone : ∀ d : Call, none = some d → d.closed = true → d.stage = .waiting := by
    rintro _ ⟨⟩
  have hcleared : (s.setCall fiber none).Refused := h.setCall hnone
  refine hcleared.observe fun hclosed => ?_
  rw [hc] at hclosed
  cases hclosed

theorem Refused.markClosed (h : s.Refused) (fd : Int) : (s.markClosed fd).Refused := by
  refine ⟨fun other c hother => ?_, h.trace⟩
  obtain ⟨d, hd, heq⟩ := Option.map_eq_some_iff.mp hother
  split at heq
  next hwaits =>
    intro _
    rw [← heq]
    exact hwaits.2
  next =>
    rw [← heq]
    exact h.waits other d hd

theorem event_same {a : IOManager.Act} (hstep : s.event a = some t) :
    t.calls = s.calls ∧ t.trace = s.trace := by
  obtain ⟨w, _, hw⟩ := Option.bind_eq_some_iff.mp hstep
  rw [Option.ite_none_left_eq_some] at hw
  cases Option.some.inj hw.2
  exact ⟨rfl, rfl⟩

theorem Refused.event (h : s.Refused) {a : IOManager.Act} (hstep : s.event a = some t) :
    t.Refused :=
  h.same (event_same hstep).1 (event_same hstep).2

theorem cancelTimer_same (s : Process) (fiber : Nat) (c : Call) :
    (s.cancelTimer fiber c).calls = s.calls ∧ (s.cancelTimer fiber c).trace = s.trace := by
  rw [cancelTimer]
  split
  · exact ⟨rfl, rfl⟩
  · exact ⟨rfl, rfl⟩

theorem Refused.cancelTimer (h : s.Refused) (fiber : Nat) (c : Call) :
    (s.cancelTimer fiber c).Refused :=
  h.same (cancelTimer_same s fiber c).1 (cancelTimer_same s fiber c).2

/-- A call somewhere else than inside `swapOut` is on a descriptor that was not closed. -/
theorem Refused.callAt (h : s.Refused) {p : Stage → Bool} (hp : p .waiting = false)
    (hc : s.callAt fiber p = some c) : s.calls fiber = some c ∧ c.closed = false := by
  obtain ⟨hcall, hstage⟩ := Option.filter_eq_some_iff.mp hc
  refine ⟨hcall, ?_⟩
  cases hclosed : c.closed with
  | false => rfl
  | true =>
      rw [h.waits fiber c hcall hclosed, hp] at hstage
      cases hstage

/-! ## The steps of `do_io` -/

theorem Refused.enter (h : s.Refused) {fd : Int} {ev : IOManager.Event}
    (hstep : s.enter fiber fd ev = some t) : t.Refused := by
  have hopen : ∀ {s' : Process} {d : Call}, s'.Refused → d.closed = false →
      (s'.setCall fiber (some d)).Refused := by
    intro s' d hs' hd
    refine hs'.setCall fun c hc hclosed => ?_
    rw [← Option.some.inj hc, hd] at hclosed
    cases hclosed
  rw [Process.enter] at hstep
  split at hstep
  · cases Option.some.inj hstep
    exact hopen h rfl
  next p _ =>
    obtain ⟨ctx, _, hctx⟩ := Option.map_eq_some_iff.mp hstep
    split at hctx
    · rw [← hctx]
      exact h.ret rfl
    · split at hctx
      · rw [← hctx]
        exact hopen h rfl
      · rw [← hctx]
        exact hopen (h.same rfl rfl) rfl
  · cases hstep

theorem Refused.invoke (h : s.Refused) (hc : c.closed = false) (outcome : Outcome) :
    (s.invoke fiber c outcome).Refused := by
  have hcalled : ({ s with
      trace := .invoked fiber c.fd (s.files c.fd) c.closed :: s.trace } : Process).Refused :=
    h.observe hc
  unfold Process.invoke
  split
  · exact hcalled.ret hc
  · split
    · exact hcalled
    · refine hcalled.setCall fun d hd hclosed => ?_
      rw [← Option.some.inj hd] at hclosed
      cases hc.symm.trans hclosed
    · exact hcalled.ret hc

theorem Refused.arm (h : s.Refused) (hc : c.closed = false) : (s.arm fiber c).Refused := by
  have hopen : ∀ {s' : Process} {timer : Bool}, s'.Refused →
      (s'.setCall fiber (some { c with timer := timer, stage := .armed })).Refused := by
    intro s' timer hs'
    refine hs'.setCall fun d hd hclosed => ?_
    rw [← Option.some.inj hd] at hclosed
    cases hc.symm.trans hclosed
  rw [Process.arm]
  split
  · exact hopen h
  · exact hopen (h.same rfl rfl)

theorem Refused.await (h : s.Refused) (hc : c.closed = false) {ok : Bool}
    (hstep : s.await fiber c ok = some t) : t.Refused := by
  obtain ⟨u, hu, heq⟩ := Option.map_eq_some_iff.mp hstep
  have hu' := h.event hu
  split at heq
  · rw [← heq]
    refine hu'.setCall fun d hd _ => ?_
    rw [← Option.some.inj hd]
  · rw [← heq]
    exact (hu'.cancelTimer fiber c).ret hc

/-- Behind `swapOut` nothing asks whether the descriptor was closed. -/
theorem resume_refused (h : s.Refused) : (s.resume fiber c).Refused ↔ c.closed = false := by
  have htaken : ({ s with scheduled := s.scheduled.erase fiber } : Process).Refused :=
    h.same rfl rfl
  have hbefore := htaken.cancelTimer fiber c
  rw [Process.resume]
  split
  next hcancelled =>
    refine ⟨fun hafter => ?_, fun hopen => hbefore.ret hopen⟩
    cases hclosed : c.closed with
    | false => rfl
    | true => cases hafter.trace _ List.mem_cons_self hclosed
  next hcancelled =>
    constructor
    · intro hafter
      cases hclosed : c.closed with
      | false => rfl
      | true =>
          have hself := Function.update_self fiber (some { c with stage := Stage.retry })
            (({ s with scheduled := s.scheduled.erase fiber } : Process).cancelTimer
              fiber c).calls
          cases hafter.waits fiber _ hself hclosed
    · intro hopen
      refine hbefore.setCall fun d hd hclosed => ?_
      rw [← Option.some.inj hd] at hclosed
      cases hopen.symm.trans hclosed

theorem Refused.callback (h : s.Refused) (timer : ConditionTimer) :
    (s.callback timer).Refused := by
  rw [Process.callback]
  split
  · exact h
  next c hc =>
    split
    · have hqueued : ({ s with
          cancels := s.cancels ++ [(timer.fd, timer.event)] } : Process).Refused :=
        h.same rfl rfl
      refine hqueued.setCall fun d hd hclosed => ?_
      rw [← Option.some.inj hd] at hclosed ⊢
      exact h.waits timer.fiber c hc hclosed
    · exact h

theorem Refused.closeNext (h : s.Refused) {fd : Int} {rest : List (Int × CloseStage)}
    {ok : Bool} {stage : CloseStage} (hstep : s.closeNext fd rest ok stage = some t) :
    t.Refused := by
  cases stage with
  | cancelling =>
      obtain ⟨u, hu, heq⟩ := Option.map_eq_some_iff.mp hstep
      rw [← heq]
      exact ((h.markClosed fd).event hu).same rfl rfl
  | deleting =>
      obtain ⟨fds, _, heq⟩ := Option.map_eq_some_iff.mp hstep
      rw [← heq]
      exact h.same rfl rfl
  | closing =>
      obtain ⟨u, hu, heq⟩ := Option.map_eq_some_iff.mp hstep
      rw [← heq]
      exact ((h.markClosed fd).event hu).same rfl rfl

end Steps

/-- The test at the top of `do_io` refuses no call. -/
theorem enter_not_refused {s t : Process} (h : Reachable step start s) {fiber : Nat} {fd : Int}
    {ev : IOManager.Event} (hstep : s.enter fiber fd ev = some t) : t.trace = s.trace := by
  rw [enter] at hstep
  split at hstep
  · cases Option.some.inj hstep
    rfl
  next p _ =>
    obtain ⟨ctx, hctx, heq⟩ := Option.map_eq_some_iff.mp hstep
    rw [noneClosed h ctx (List.mem_of_getElem? hctx)] at heq
    rw [← heq, if_neg Bool.false_ne_true]
    split
    · rfl
    · rfl
  · cases hstep

/-- A step keeps `Refused` exactly when it swaps in no fiber whose descriptor was closed. -/
theorem refused_step {s t : Process} {a : Act} (h : s.Refused) (hstep : s.step a = some t) :
    t.Refused ↔ s.Unwoken a t := by
  cases stepped hstep with
  | opened _ => exact ⟨fun _ => trivial, fun _ => h.same rfl rfl⟩
  | create _ => exact ⟨fun _ => trivial, fun _ => h.same rfl rfl⟩
  | setUserNonblock p v => exact ⟨fun _ => trivial, fun _ => h.same rfl rfl⟩
  | setTimeout p type v => exact ⟨fun _ => trivial, fun _ => h.same rfl rfl⟩
  | enter henter => exact ⟨fun _ => trivial, fun _ => h.enter henter⟩
  | invoke hc _ => exact ⟨fun _ => trivial, fun _ => h.invoke (h.callAt rfl hc).2 _⟩
  | arm hc => exact ⟨fun _ => trivial, fun _ => h.arm (h.callAt rfl hc).2⟩
  | await hc hawait => exact ⟨fun _ => trivial, fun _ => h.await (h.callAt rfl hc).2 hawait⟩
  | resume _ hc =>
      obtain ⟨hcall, _⟩ := Option.filter_eq_some_iff.mp hc
      rw [resume_refused h]
      refine ⟨fun hopen d hd => ?_, fun hopen => hopen _ hcall⟩
      cases Option.some.inj (hcall.symm.trans hd)
      exact hopen
  | expire _ => exact ⟨fun _ => trivial, fun _ => h.same rfl rfl⟩
  | @callback timer _ =>
      have htaken : ({ s with due := s.due.erase timer } : Process).Refused := h.same rfl rfl
      exact ⟨fun _ => trivial, fun _ => htaken.callback timer⟩
  | @cancel i _ _ _ _ hevent =>
      have htaken : ({ s with cancels := s.cancels.eraseIdx i } : Process).Refused :=
        h.same rfl rfl
      exact ⟨fun _ => trivial, fun _ => htaken.event hevent⟩
  | event _ hevent => exact ⟨fun _ => trivial, fun _ => h.event hevent⟩
  | close _ => exact ⟨fun _ => trivial, fun _ => h.same rfl rfl⟩
  | closeNext _ hnext => exact ⟨fun _ => trivial, fun _ => h.closeNext hnext⟩

/-- No call is made on a closed descriptor, and `EBADF` is returned for it, throughout a run
exactly when the run never swaps in a fiber whose descriptor was closed while it waited. -/
theorem refused_iff (as : List Act) :
    Throughout step Refused start as ↔ Along step Unwoken start as := by
  have hall : ∀ a ∈ as, True := fun _ _ => trivial
  exact throughout_iff_along (J := fun _ => True) (P := Unwoken) (Q := fun _ => True)
    (fun _ _ _ _ _ _ => trivial) (fun _ _ _ _ _ h hstep => refused_step h hstep) hall trivial
    start_refused

/-- A fiber waits to read from descriptor 5, which is closed and given out again. -/
def closedAndReused : List Act :=
  [.opened 5, .create 5 (some true), .enter 1 5 .read, .invoke 1 (.fail .EAGAIN), .arm 1,
    .await 1 true, .close 5, .closeNext 0 true, .closeNext 0 true, .closeNext 0 true,
    .opened 5, .create 5 (some true), .resume 1, .invoke 1 (.ok 7)]

/-- It reads seven bytes from the new connection. -/
theorem closedAndReused_not_refused : ¬ ∀ as, Throughout step Refused start as := by
  intro h
  have hrun : (exec step start closedAndReused).map Process.trace =
      some [.returned 1 (.ok 7) true, .invoked 1 5 (some 1) true,
        .invoked 1 5 (some 0) false] := by
    decide +kernel
  obtain ⟨s, hs, htrace⟩ := Option.map_eq_some_iff.mp hrun
  have hrefused := ((h closedAndReused).final hs).trace (.invoked 1 5 (some 1) true)
  rw [htrace] at hrefused
  cases hrefused (List.mem_cons_of_mem _ List.mem_cons_self)

end Process

end Hook

end Muqiu
