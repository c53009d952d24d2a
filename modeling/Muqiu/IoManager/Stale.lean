import Muqiu.IoManager.Pending

/-!
# Stale readiness reports

The guard of the idle loop asks whether a report and the registered events meet; the calls
after it go by the report.  A report whose events are all registered still, or none of them,
is harmless.  A report that meets the registered events and names another one as well calls
`triggerEvent` for an event whose bit is clear, and so through a null scheduler.

`cancelEvent` and `cancelAll` test the bits they trigger.  So in a run whose `addEvent` calls
all come from threads with a scheduler, `triggerEvent` meets a set bit and a scheduler every
time exactly when no processed report is of the second kind (`Overreported`).
-/

namespace Muqiu

open Runs

namespace IOManager

namespace World

/-- Every call of `triggerEvent` so far had its bit set and a scheduler. -/
def Sound (w : World) : Prop :=
  ∀ t ∈ w.triggers, t.bit = true ∧ t.scheduler.isSome = true

/-- Outside `addEvent` the counter goes down by the number of bits cleared. -/
def CountsCleared (w : World) (a : Act) (v : World) : Prop :=
  ¬ Adds a →
    w.m_pendingEventCount - v.m_pendingEventCount = w.bitsSet - v.bitsSet

/-- The idle loop processes a report that meets the registered events and names an event that
is not registered. -/
def Overreported (w : World) : Act → Prop
  | .dispatch i ok =>
      ∃ r c e, w.reports[i]? = some r ∧ w.dispatchTarget r ok = some c ∧
        (realEvents c.events r).has e = true ∧ c.events.has e = false
  | _ => False

instance decidableOverreported (w : World) : ∀ a, Decidable (Overreported w a)
  | .dispatch i ok =>
      decidable_of_iff
        (∃ r ∈ w.reports[i]?, ∃ c ∈ w.dispatchTarget r ok, ∃ e ∈ [Event.read, Event.write],
          (realEvents c.events r).has e = true ∧ c.events.has e = false)
        ⟨fun ⟨r, hr, c, hc, e, _, he⟩ => ⟨r, c, e, hr, hc, he⟩,
          fun ⟨r, c, e, hr, hc, he⟩ => ⟨r, hr, c, hc, e, by cases e <;> simp, he⟩⟩
  | .addEvent _ _ _ _ _ => .isFalse id
  | .delEvent _ _ _ => .isFalse id
  | .cancelEvent _ _ _ => .isFalse id
  | .cancelAll _ _ => .isFalse id
  | .epollWait _ _ _ => .isFalse id
  | .close _ => .isFalse id

/-- The call is not an `addEvent` on a thread without a scheduler. -/
def onScheduler : Act → Bool
  | .addEvent caller _ _ _ _ => caller.scheduler.isSome
  | _ => true

/-- An event has a scheduler exactly when its bit is set. -/
def Scheduled (c : FdContext) : Prop :=
  ∀ e, (c.getContext e).scheduler.isSome = c.events.has e

/-! ## Contexts -/

theorem Scheduled.retired {c : FdContext} (h : Scheduled c) : Retired c := by
  intro e hbit
  have hs := h e
  rw [hbit] at hs
  simpa using hs

theorem Each.retired {w : World} (h : Each Scheduled w) : Each Retired w :=
  fun p c hc => (h p c hc).retired

theorem scheduled_new (i : Nat) : Scheduled (.new i) := by
  intro e
  cases e <;> rfl

theorem scheduled_filled {c : FdContext} (h : Scheduled c) {caller : Caller}
    (hs : caller.scheduler.isSome = true) (e : Event) (cb : Option Nat) :
    Scheduled (c.filled caller e cb) := by
  intro e'
  rw [FdContext.getContext_filled, FdContext.has_filled]
  by_cases he : e' = e
  · rw [if_pos he, FdContext.scheduler_fill, hs, decide_eq_true he, Bool.true_or]
  · rw [if_neg he, decide_eq_false he, Bool.false_or]
    exact h e'

theorem scheduled_cleared {c : FdContext} (h : Scheduled c) (e : Event) :
    Scheduled (c.cleared e) := by
  intro e'
  rw [FdContext.getContext_cleared, FdContext.has_cleared]
  by_cases he : e' = e
  · rw [if_pos he, decide_eq_true he]; rfl
  · rw [if_neg he, decide_eq_false he, Bool.not_false, Bool.true_and]
    exact h e'

theorem scheduled_fired {c : FdContext} (h : Scheduled c) (e : Event) :
    Scheduled (c.fired e) := by
  intro e'
  rw [FdContext.getContext_fired, FdContext.has_fired]
  by_cases he : e' = e
  · rw [if_pos he, decide_eq_true he]; rfl
  · rw [if_neg he, decide_eq_false he, Bool.not_false, Bool.true_and]
    exact h e'

theorem scheduled_step {w v : World} {a : Act} (ha : onScheduler a = true)
    (h : Each Scheduled w) (hstep : step w a = some v) : Each Scheduled v := by
  refine h.step scheduled_new ?_ (fun _ _ hc => scheduled_cleared hc _)
    (fun _ _ hc => scheduled_fired hc _) hstep
  rintro c caller fd e cb ok rfl hc
  exact scheduled_filled hc ha e cb

/-! ## Firing -/

/-- Firing events whose bits are set makes sound calls only. -/
theorem fireAll_sound {p : Nat} :
    ∀ {es : List Event} {w : World} {c : FdContext}, Each Scheduled w → Sound w →
      w.crashed = false → w.heap[p]? = some c → es.Nodup →
      (∀ e ∈ es, c.events.has e = true) → Sound (w.fireAll p es)
  | [], _, _, _, h, _, _, _, _ => h
  | e :: es, w, c, hsch, h, hok, hc, hnodup, hbits => by
      have hbit := hbits e List.mem_cons_self
      obtain ⟨s, hs⟩ := Option.isSome_iff_exists.mp ((hsch p c hc e).trans hbit)
      have hfire := fire_some hok hc hs
      have hlt := (List.getElem?_eq_some_iff.mp hc).1
      rw [fireAll_cons]
      refine fireAll_sound (c := c.fired e)
        (Each.fireAll (fun _ e' hd => scheduled_fired hd e') p [e] hsch) ?_ ?_ ?_
        (List.nodup_cons.mp hnodup).2 ?_
      · intro t ht
        rw [hfire] at ht
        cases List.mem_cons.mp ht with
        | inl heq => rw [heq]; exact ⟨hbit, rfl⟩
        | inr hold => exact h t hold
      · rw [hfire]; exact hok
      · rw [hfire]; exact List.getElem?_set_self hlt
      · intro e' he'
        have hne : e' ≠ e := fun heq => (List.nodup_cons.mp hnodup).1 (heq ▸ he')
        rw [FdContext.has_fired, decide_eq_false hne, Bool.not_false, Bool.true_and]
        exact hbits e' (List.mem_cons_of_mem _ he')

theorem fire_triggers_mono {w : World} (p : Nat) (e : Event) {t : Trigger}
    (ht : t ∈ w.triggers) : t ∈ (w.fire p e).triggers := by
  cases hcr : w.crashed with
  | true => rw [fire_crashed hcr]; exact ht
  | false =>
      cases hc : w.heap[p]? with
      | none =>
          rw [fire, if_neg (by simp [hcr])]
          simp only [hc]
          exact ht
      | some c =>
          cases hs : (c.getContext e).scheduler with
          | none => rw [fire_null hcr hc hs]; exact List.mem_cons_of_mem _ ht
          | some s => rw [fire_some hcr hc hs]; exact List.mem_cons_of_mem _ ht

theorem fireAll_triggers_mono (p : Nat) :
    ∀ (es : List Event) {w : World} {t : Trigger}, t ∈ w.triggers →
      t ∈ (w.fireAll p es).triggers
  | [], _, _, h => h
  | e :: es, _, _, h => fireAll_triggers_mono p es (fire_triggers_mono p e h)

/-- Firing an event whose bit is clear makes an unsound call. -/
theorem fireAll_unsound {p : Nat} :
    ∀ {es : List Event} {w : World} {c : FdContext} {e : Event}, Each Scheduled w →
      w.crashed = false → w.heap[p]? = some c → e ∈ es → es.Nodup →
      c.events.has e = false → ¬ Sound (w.fireAll p es)
  | [], _, _, _, _, _, _, hmem, _, _ => by simp at hmem
  | e' :: es, w, c, e, hsch, hok, hc, hmem, hnodup, hbit => by
      have hlt := (List.getElem?_eq_some_iff.mp hc).1
      cases hs : (c.getContext e').scheduler with
      | none =>
          intro hsound
          have htrigger : (⟨c.events.has e', none⟩ : Trigger) ∈ (w.fire p e').triggers := by
            rw [fire_null hok hc hs]
            exact List.mem_cons_self
          have hscheduler := (hsound _ (fireAll_triggers_mono p es htrigger)).2
          simp at hscheduler
      | some s =>
          have hbit' : c.events.has e' = true := by rw [← hsch p c hc e', hs]; rfl
          have hne : e ≠ e' := by
            rintro rfl
            rw [hbit'] at hbit
            simp at hbit
          rw [fireAll_cons]
          refine fireAll_unsound (c := c.fired e') (e := e)
            (Each.fireAll (fun _ e'' hd => scheduled_fired hd e'') p [e'] hsch) ?_ ?_ ?_
            (List.nodup_cons.mp hnodup).2 ?_
          · rw [fire_some hok hc hs]; exact hok
          · rw [fire_some hok hc hs]; exact List.getElem?_set_self hlt
          · exact (List.mem_cons.mp hmem).resolve_left hne
          · rw [FdContext.has_fired, hbit, Bool.and_false]

/-! ## Steps -/

theorem Sound.of_same {v w : World} (h : Sound w) (heq : v.Same w) : Sound v := by
  intro t ht
  rw [heq.triggers] at ht
  exact h t ht

theorem ensure_triggers (w : World) (fd : Int) : (w.ensure fd).triggers = w.triggers := by
  by_cases hlt : w.tableSize > fd
  · rw [ensure, if_pos hlt]
  · rw [ensure, if_neg hlt]; rfl

theorem Overreported.dispatch {w : World} :
    ∀ {a : Act}, Overreported w a → ∃ i ok, a = .dispatch i ok
  | .dispatch i ok, _ => ⟨i, ok, rfl⟩

/-- A step keeps soundness exactly when it processes no overreport. -/
theorem step_sound {w v : World} {a : Act} (hsch : Each Scheduled w) (h : Sound w)
    (hstep : step w a = some v) : Sound v ↔ ¬ Overreported w a := by
  cases step_effect hstep with
  | same _ hmiss hv =>
      refine ⟨fun _ hover => ?_, fun _ => h.of_same hv⟩
      obtain ⟨i, ok, rfl⟩ := hover.dispatch
      obtain ⟨r, c, e, hr, htarget, _⟩ := hover
      rw [hmiss i ok r rfl hr] at htarget
      simp at htarget
  | ensured _ hv =>
      refine ⟨fun _ => id, fun _ t ht => ?_⟩
      rw [hv.triggers, ensure_triggers] at ht
      exact h t ht
  | registered _ hv _ =>
      refine ⟨fun _ => id, fun _ t ht => ?_⟩
      rw [hv.triggers] at ht
      exact h t (ensure_triggers w _ ▸ ht)
  | unregistered _ _ _ hv =>
      refine ⟨fun _ => id, fun _ t ht => ?_⟩
      rw [hv.triggers] at ht
      exact h t ht
  | cancelled _ hdis hc hu hok hnodup hbits hv _ =>
      constructor
      · intro _ hover
        obtain ⟨i, ok, ha⟩ := hover.dispatch
        exact hdis i ok ha
      · intro _
        exact (fireAll_sound (hsch.of_heap hu.heap) (h.of_same hu) hok (hu.heap ▸ hc) hnodup
          hbits).of_same hv
  | @dispatched i ok r u c hr htarget hc hu hok =>
      constructor
      · rintro hv ⟨r', c', e, hr', htarget', he, hbit⟩
        rw [hr] at hr'
        cases Option.some.inj hr'
        rw [htarget] at htarget'
        cases Option.some.inj htarget'
        exact fireAll_unsound (hsch.of_heap hu.heap) hok (hu.heap ▸ hc)
          (Events.mem_toList.mpr he) (Events.nodup_toList _) hbit hv
      · intro hover
        refine fireAll_sound (hsch.of_heap hu.heap) (h.of_same hu) hok (hu.heap ▸ hc)
          (Events.nodup_toList _) ?_
        intro e he
        cases hbit : c.events.has e with
        | true => rfl
        | false => exact absurd ⟨r, c, e, hr, htarget, Events.mem_toList.mp he, hbit⟩ hover

theorem step_countsCleared {w v : World} {a : Act} (h : Each Retired w)
    (hstep : step w a = some v) : CountsCleared w a v := by
  intro hadd
  have hsame : v.excess = w.excess → _ := fun heq => by
    rw [excess, excess] at heq
    exact (by omega : w.m_pendingEventCount - v.m_pendingEventCount = w.bitsSet - v.bitsSet)
  cases step_effect hstep with
  | same _ _ hv => exact hsame hv.excess
  | ensured _ _ => exact absurd trivial hadd
  | registered _ _ _ => exact absurd trivial hadd
  | unregistered _ hc hbit hv => exact hsame (hv.excess.trans (unregister_excess hc hbit))
  | cancelled _ _ _ hu _ _ _ hv _ =>
      refine hsame ?_
      rw [hv.excess, fireAll_excess _ _ (h.of_heap hu.heap), hu.excess]
  | dispatched _ _ _ hu _ =>
      refine hsame ?_
      rw [fireAll_excess _ _ (h.of_heap hu.heap), hu.excess]

end World

open World

/-- Where every `addEvent` comes from a thread with a scheduler, reports are harmless in a
run exactly when the run processes no report that meets the registered events and names an
event not registered. -/
theorem reports_harmless_iff {as : List Act} (hs : ∀ a ∈ as, onScheduler a = true) :
    Throughout step Sound start as ∧ Along step CountsCleared start as ↔
      Along step (fun w a _ => ¬ Overreported w a) start as := by
  have hrule : Throughout step Sound start as ↔
      Along step (fun w a _ => ¬ Overreported w a) start as :=
    throughout_iff_along (J := Each Scheduled) (Q := fun a => onScheduler a = true)
      (fun _ _ _ ha h hstep => scheduled_step ha h hstep)
      (fun _ _ _ _ hsch h hstep => step_sound hsch h hstep) hs (Each.start scheduled_new)
      (by intro t ht; simp [start, contextResize] at ht)
  have hcounts : Along step CountsCleared start as :=
    along_of_invariant (I := Each Scheduled) (fun _ _ _ ha h hstep => scheduled_step ha h hstep)
      (fun _ _ _ _ h hstep => step_countsCleared (Each.retired h) hstep) hs
      (Each.start scheduled_new)
  exact ⟨fun h => hrule.mp h.1, fun h => ⟨hrule.mpr h, hcounts⟩⟩

/-- `READ` and `WRITE` are registered and reported, and the report is processed. -/
def freshReport : List Act :=
  [.addEvent ⟨some 0, 0, true⟩ 5 .read (some 1) true,
    .addEvent ⟨some 0, 0, true⟩ 5 .write (some 2) true,
    .epollWait 5 ⟨true, true⟩ false, .dispatch 0 true]

theorem reports_harmless_freshReport :
    Throughout step Sound start freshReport ∧ Along step CountsCleared start freshReport := by
  have hrule : Along step (fun w a _ => ¬ Overreported w a) start freshReport := by decide +kernel
  exact (reports_harmless_iff (by decide)).mpr hrule

/-- `READ` and `WRITE` are registered and reported; `WRITE` is deleted; the report is
processed. -/
def staleWrite : List Act :=
  [.addEvent ⟨some 0, 0, true⟩ 5 .read (some 1) true,
    .addEvent ⟨some 0, 0, true⟩ 5 .write (some 2) true,
    .epollWait 5 ⟨true, true⟩ false, .delEvent 5 .write true, .dispatch 0 true]

/-- The stale report triggers `WRITE` through a null scheduler. -/
theorem staleWrite_unsound :
    ¬ ∀ as, (∀ a ∈ as, onScheduler a = true) → Throughout step Sound start as := by
  intro h
  have hrun : (exec step start staleWrite).map (fun w => w.triggers) =
      some [⟨false, none⟩, ⟨true, some 0⟩] := by decide +kernel
  obtain ⟨w, hw, heq⟩ := Option.map_eq_some_iff.mp hrun
  have hsound := (h staleWrite (by decide)).final hw ⟨false, none⟩
    (by rw [heq]; exact List.mem_cons_self)
  simp at hsound

end IOManager

end Muqiu
