import Muqiu.IoManager.Pending

/-!
# Which continuation an event runs

The registry is a one-shot registry under the keys `(fd, event)`.  While a bit is set, its
context holds the continuation of the latest `addEvent` under its key (`Linked`), so firing
hands over that one.  What breaks the link is `addEvent` without a callback: it fills
`ctx.fiber`, and `triggerEvent` prefers `ctx.cb`, which no trigger has cleared.  Where every
such call finds `ctx.cb` empty, every firing of the run is exact.
-/

namespace Muqiu

open OneShot Runs

namespace IOManager

namespace World

/-- The call registers an event only when no registration under its key is live. -/
def Fresh (w : World) : Act → Prop
  | .addEvent _ fd event _ ok => (w.addTarget fd ok).isSome → live w.log (fd, event) = none
  | _ => True

/-- An `addEvent` without a callback finds no callback in its context. -/
def CbClear (w : World) : Act → Prop
  | .addEvent _ fd event none ok =>
      (w.addTarget fd ok).all fun pc => (pc.2.getContext event).cb.isNone
  | _ => True

instance decidableFresh (w : World) : ∀ a, Decidable (Fresh w a)
  | .addEvent _ fd event _ ok =>
      inferInstanceAs (Decidable ((w.addTarget fd ok).isSome → live w.log (fd, event) = none))
  | .delEvent _ _ _ => inferInstanceAs (Decidable True)
  | .cancelEvent _ _ _ => inferInstanceAs (Decidable True)
  | .cancelAll _ _ => inferInstanceAs (Decidable True)
  | .epollWait _ _ _ => inferInstanceAs (Decidable True)
  | .dispatch _ _ => inferInstanceAs (Decidable True)
  | .close _ => inferInstanceAs (Decidable True)

instance decidableCbClear (w : World) : ∀ a, Decidable (CbClear w a)
  | .addEvent _ fd event none ok =>
      inferInstanceAs (Decidable
        ((w.addTarget fd ok).all (fun pc => (pc.2.getContext event).cb.isNone) = true))
  | .addEvent _ _ _ (some _) _ => inferInstanceAs (Decidable True)
  | .delEvent _ _ _ => inferInstanceAs (Decidable True)
  | .cancelEvent _ _ _ => inferInstanceAs (Decidable True)
  | .cancelAll _ _ => inferInstanceAs (Decidable True)
  | .epollWait _ _ _ => inferInstanceAs (Decidable True)
  | .dispatch _ _ => inferInstanceAs (Decidable True)
  | .close _ => inferInstanceAs (Decidable True)

/-- A set bit holds the live continuation of its key, and no other context holds the bit. -/
structure Linked (w : World) : Prop where
  live : ∀ (p : Nat) (c : FdContext) (e : Event), w.heap[p]? = some c →
    c.events.has e = true → live w.log ((c.fd : Int), e) = some (c.getContext e).task
  unique : ∀ (p q : Nat) (c d : FdContext) (e : Event), w.heap[p]? = some c →
    w.heap[q]? = some d → c.fd = d.fd → c.events.has e = true → d.events.has e = true → p = q

/-- The invariant of a run. -/
structure Exactly (w : World) : Prop where
  table : TableOk w
  retired : Each Retired w
  linked : Linked w
  exact : Exact w.log

theorem Linked.of_same {v w : World} (h : Linked w) (heq : v.Same w) : Linked v := by
  refine ⟨?_, ?_⟩
  · rw [heq.heap, heq.log]; exact h.live
  · rw [heq.heap]; exact h.unique

theorem TableOk.of_same {v w : World} (h : TableOk w) (heq : v.Same w) : TableOk v := by
  intro i entry hentry
  rw [heq.table] at hentry
  rw [heq.heap]
  exact h i entry hentry

theorem Exactly.of_same {v w : World} (h : Exactly w) (heq : v.Same w) : Exactly v :=
  ⟨h.table.of_same heq, h.retired.of_heap heq.heap, h.linked.of_same heq, heq.log ▸ h.exact⟩

/-! ## Growing -/

theorem ensure_log (w : World) (fd : Int) : (w.ensure fd).log = w.log := by
  by_cases hlt : w.tableSize > fd
  · rw [ensure, if_pos hlt]
  · rw [ensure, if_neg hlt]; rfl

/-- A context with a bit set is one that was there before the table grew. -/
theorem ensure_heap_has {w : World} {fd : Int} {p : Nat} {c : FdContext} {e : Event}
    (hc : (w.ensure fd).heap[p]? = some c) (hbit : c.events.has e = true) :
    w.heap[p]? = some c := by
  by_cases hlt : w.tableSize > fd
  · rwa [ensure, if_pos hlt] at hc
  · rw [ensure, if_neg hlt] at hc
    obtain ⟨extra, heq, hextra⟩ := contextResize_heap w (3 * fd.toNat / 2)
    rw [heq] at hc
    by_cases hp : p < w.heap.length
    · rwa [List.getElem?_append_left hp] at hc
    · rw [List.getElem?_append_right (by omega)] at hc
      obtain ⟨i, rfl⟩ := hextra c (List.mem_of_getElem? hc)
      cases e <;> simp [FdContext.new, Events.NONE, Events.has] at hbit

theorem Linked.ensure {w : World} (h : Linked w) (fd : Int) : Linked (w.ensure fd) := by
  refine ⟨?_, ?_⟩
  · intro p c e hc hbit
    rw [ensure_log]
    exact h.live p c e (ensure_heap_has hc hbit) hbit
  · intro p q c d e hc hd hfd hcbit hdbit
    exact h.unique p q c d e (ensure_heap_has hc hcbit) (ensure_heap_has hd hdbit) hfd hcbit hdbit

theorem Exactly.ensure {w : World} (h : Exactly w) (fd : Int) : Exactly (w.ensure fd) :=
  ⟨h.table.ensure fd, h.retired.ensure retired_new fd, h.linked.ensure fd,
    (ensure_log w fd).symm ▸ h.exact⟩

/-! ## Registering -/

theorem getElem?_set_cases {heap : List FdContext} {p q : Nat} {c d : FdContext}
    (c' : FdContext) (hc : heap[p]? = some c) (hd : (heap.set p c')[q]? = some d) :
    q = p ∧ d = c' ∨ q ≠ p ∧ heap[q]? = some d := by
  rw [List.getElem?_set] at hd
  by_cases hpq : p = q
  · rw [if_pos hpq, if_pos (List.getElem?_eq_some_iff.mp hc).1] at hd
    exact Or.inl ⟨hpq.symm, (Option.some.inj hd).symm⟩
  · rw [if_neg hpq] at hd
    exact Or.inr ⟨fun h => hpq h.symm, hd⟩

/-- A context filled by the call holds the continuation the call supplies. -/
theorem task_fill {ctx : EventContext} {caller : Caller} {cb : Option Nat}
    (h : cb = none → ctx.cb = none) :
    (ctx.fill caller cb).task = some (caller.continuation cb) := by
  cases cb with
  | some f => rfl
  | none => simp only [EventContext.task, EventContext.fill, h rfl]; rfl

theorem Linked.register {w : World} (h : Linked w) {caller : Caller} {p : Nat} {c : FdContext}
    {fd : Int} {event : Event} {cb : Option Nat} (hc : w.heap[p]? = some c)
    (hfd : (c.fd : Int) = fd) (hfresh : OneShot.live w.log (fd, event) = none)
    (hclear : cb = none → (c.getContext event).cb = none) :
    Linked (w.register caller p c fd event cb) := by
  -- no context of this descriptor has the bit set
  have hfree : ∀ (q : Nat) (d : FdContext), w.heap[q]? = some d → d.fd = c.fd →
      d.events.has event = true → False := by
    intro q d hd hdfd hbit
    have hlive := h.live q d event hd hbit
    rw [hdfd, hfd, hfresh] at hlive
    simp at hlive
  refine ⟨?_, ?_⟩
  · intro q d e hd hbit
    show OneShot.live (.add (fd, event) (some (caller.continuation cb)) :: w.log) _ = _
    cases getElem?_set_cases (c.filled caller event cb) hc hd with
    | inl hself =>
        obtain ⟨rfl, rfl⟩ := hself
        rw [FdContext.fd_filled, hfd, FdContext.getContext_filled]
        by_cases he : e = event
        · subst he
          rw [live_add_self, if_pos rfl, task_fill hclear]
        · rw [FdContext.has_filled, decide_eq_false he, Bool.false_or] at hbit
          rw [live_cons_of_ne (by simp [Entry.key, Ne.symm he]), if_neg he, ← hfd]
          exact h.live q c e hc hbit
    | inr hother =>
        rw [live_cons_of_ne]
        · exact h.live q d e hother.2 hbit
        · intro hkey
          simp only [Entry.key, Prod.mk.injEq] at hkey
          obtain ⟨hdfd, rfl⟩ := hkey
          exact hfree q d hother.2 (Int.natCast_inj.mp (hdfd.symm.trans hfd.symm)) hbit
  · intro q r d d' e hd hd' hfds hbit hbit'
    cases getElem?_set_cases (c.filled caller event cb) hc hd with
    | inl hself =>
        obtain ⟨rfl, rfl⟩ := hself
        cases getElem?_set_cases (c.filled caller event cb) hc hd' with
        | inl hself' => exact hself'.1.symm
        | inr hother' =>
            rw [FdContext.fd_filled] at hfds
            rw [FdContext.has_filled, Bool.or_eq_true, decide_eq_true_iff] at hbit
            cases hbit with
            | inl he =>
                subst he
                exact absurd hbit' fun hb => hfree r d' hother'.2 hfds.symm hb
            | inr hold => exact h.unique q r c d' e hc hother'.2 hfds hold hbit'
    | inr hother =>
        cases getElem?_set_cases (c.filled caller event cb) hc hd' with
        | inl hself' =>
            obtain ⟨rfl, rfl⟩ := hself'
            rw [FdContext.fd_filled] at hfds
            rw [FdContext.has_filled, Bool.or_eq_true, decide_eq_true_iff] at hbit'
            cases hbit' with
            | inl he =>
                subst he
                exact absurd hbit fun hb => hfree q d hother.2 hfds hb
            | inr hold => exact h.unique q r d c e hother.2 hc hfds hbit hold
        | inr hother' => exact h.unique q r d d' e hother.2 hother'.2 hfds hbit hbit'

/-! ## Retiring -/

/-- Clearing a set bit under an entry about its key keeps the links of all other bits. -/
theorem Linked.retire {w v : World} (h : Linked w) {p : Nat} {c : FdContext}
    (c' : FdContext) {event : Event} {entry : Entry (Int × Event) (Option Task)}
    (hc : w.heap[p]? = some c) (hbit : c.events.has event = true) (hheap : v.heap = w.heap.set p c')
    (hlog : v.log = entry :: w.log) (hkey : entry.key = ((c.fd : Int), event))
    (hfd : c'.fd = c.fd)
    (hhas : ∀ e, c'.events.has e = (!decide (e = event) && c.events.has e))
    (hctx : ∀ e, e ≠ event → c'.getContext e = c.getContext e) : Linked v := by
  -- a bit of the new heap is a bit of the old one, under another key
  have hold : ∀ (q : Nat) (d : FdContext) (e : Event), v.heap[q]? = some d →
      d.events.has e = true → ∃ d' : FdContext, w.heap[q]? = some d' ∧ d'.fd = d.fd ∧
        d'.events.has e = true ∧ d'.getContext e = d.getContext e ∧
        ((d.fd : Int), e) ≠ ((c.fd : Int), event) := by
    intro q d e hd hdbit
    rw [hheap] at hd
    cases getElem?_set_cases c' hc hd with
    | inl hself =>
        obtain ⟨rfl, rfl⟩ := hself
        rw [hhas, Bool.and_eq_true, Bool.not_eq_true', decide_eq_false_iff_not] at hdbit
        exact ⟨c, hc, hfd.symm, hdbit.2, (hctx e hdbit.1).symm,
          fun heq => hdbit.1 (Prod.mk.inj heq).2⟩
    | inr hother =>
        refine ⟨d, hother.2, rfl, hdbit, rfl, fun heq => hother.1 ?_⟩
        obtain ⟨hfds, rfl⟩ := Prod.mk.inj heq
        exact h.unique q p d c e hother.2 hc (Int.natCast_inj.mp hfds) hdbit hbit
  refine ⟨?_, ?_⟩
  · intro q d e hd hdbit
    obtain ⟨d', hd', hfds, hbit', hctx', hne⟩ := hold q d e hd hdbit
    rw [hlog, live_cons_of_ne (by rw [hkey]; exact hne.symm), ← hctx', ← hfds]
    exact h.live q d' e hd' hbit'
  · intro q r d d' e hd hd' hfds hdbit hdbit'
    obtain ⟨b, hb, hbfd, hbbit, _, _⟩ := hold q d e hd hdbit
    obtain ⟨b', hb', hbfd', hbbit', _, _⟩ := hold r d' e hd' hdbit'
    exact h.unique q r b b' e hb hb' (hbfd.trans (hfds.trans hbfd'.symm)) hbbit hbbit'

theorem Exactly.unregister {w : World} (h : Exactly w) {p : Nat} {c : FdContext} {fd : Int}
    {event : Event} (hc : w.heap[p]? = some c) (hfd : (c.fd : Int) = fd)
    (hbit : c.events.has event = true) : Exactly (w.unregister p c fd event) := by
  refine ⟨h.table.set rfl rfl hc (FdContext.fd_cleared c event),
    h.retired.set rfl (retired_cleared (h.retired p c hc) event), ?_, h.exact⟩
  refine h.linked.retire (c.cleared event) hc hbit rfl rfl (by rw [Entry.key, hfd])
    (FdContext.fd_cleared c event) (FdContext.has_cleared c event) ?_
  intro e he
  rw [FdContext.getContext_cleared, if_neg he]

/-- Firing hands over the live continuation. -/
theorem Exactly.fire {w : World} (h : Exactly w) (p : Nat) (e : Event) :
    Exactly (w.fire p e) := by
  cases hcr : w.crashed with
  | true => rw [fire_crashed hcr]; exact h
  | false =>
      cases hc : w.heap[p]? with
      | none =>
          refine h.of_same ?_
          rw [World.fire, if_neg (by simp [hcr])]
          simp only [hc]
          exact crash_same w
      | some c =>
          cases hs : (c.getContext e).scheduler with
          | none =>
              rw [fire_null hcr hc hs]
              exact ⟨h.table, h.retired, ⟨h.linked.live, h.linked.unique⟩, h.exact⟩
          | some s =>
              have hbit : c.events.has e = true := by
                cases hb : c.events.has e with
                | true => rfl
                | false => rw [h.retired p c hc e hb] at hs; simp at hs
              rw [fire_some hcr hc hs]
              refine ⟨h.table.set rfl rfl hc (FdContext.fd_fired c e),
                h.retired.set rfl (retired_fired (h.retired p c hc) e), ?_,
                ⟨h.linked.live p c e hc hbit, h.exact⟩⟩
              refine h.linked.retire (c.fired e) hc hbit rfl rfl rfl
                (FdContext.fd_fired c e) (FdContext.has_fired c e) ?_
              intro e' he'
              rw [FdContext.getContext_fired, if_neg he']

theorem Exactly.fireAll (p : Nat) :
    ∀ (es : List Event) {w : World}, Exactly w → Exactly (w.fireAll p es)
  | [], _, h => h
  | e :: es, _, h => Exactly.fireAll p es (h.fire p e)

/-! ## Steps -/

theorem Exactly.step {w v : World} {a : Act} (h : Exactly w) (hfresh : Fresh w a)
    (hclear : CbClear w a) (hstep : IOManager.step w a = some v) : Exactly v := by
  cases step_effect hstep with
  | same _ _ hv => exact h.of_same hv
  | ensured _ hv => exact (h.ensure _).of_same hv
  | @registered caller fd event cb ok v p c htarget hv _ =>
      refine Exactly.of_same ?_ hv
      obtain ⟨hp, hc⟩ := addTarget_spec htarget
      obtain ⟨d, hd, hfd⟩ := (h.table.ensure fd).contextAt hp
      rw [hc] at hd
      cases Option.some.inj hd
      have hens := h.ensure fd
      refine ⟨hens.table.set rfl rfl hc (FdContext.fd_filled c caller event cb),
        hens.retired.set rfl (retired_filled (hens.retired p c hc) caller event cb), ?_,
        hens.exact⟩
      refine hens.linked.register hc hfd ?_ ?_
      · rw [ensure_log]
        exact hfresh (by rw [htarget]; rfl)
      · rintro rfl
        rw [CbClear, htarget] at hclear
        simpa using hclear
  | unregistered hp hc hbit hv =>
      obtain ⟨d, hd, hfd⟩ := h.table.contextAt hp
      rw [hc] at hd
      cases Option.some.inj hd
      exact (h.unregister hc hfd hbit).of_same hv
  | cancelled _ _ _ hu _ _ _ hv _ => exact (Exactly.fireAll _ _ (h.of_same hu)).of_same hv
  | dispatched _ _ _ hu _ => exact Exactly.fireAll _ _ (h.of_same hu)

theorem exactly_start : Exactly start := by
  have hnone : ∀ (p : Nat) (c : FdContext) (e : Event), start.heap[p]? = some c →
      c.events.has e = true → False := by
    intro p c e hc hbit
    have hunused : Unused c := Each.start (K := Unused) (fun i => ⟨i, rfl⟩) p c hc
    obtain ⟨i, rfl⟩ := hunused
    cases e <;> simp [FdContext.new, Events.NONE, Events.has] at hbit
  refine ⟨?_, Each.start retired_new, ⟨?_, ?_⟩, trivial⟩
  · refine TableOk.contextResize (w := ⟨0, [], [], fun _ => none, [], false, [], []⟩) ?_ 32
    intro i entry hentry
    simp at hentry
  · intro p c e hc hbit
    exact absurd (hnone p c e hc hbit) id
  · intro p q c d e hc _ _ hbit _
    exact absurd (hnone p c e hc hbit) id

end World

open World

/-- Where every event is registered only when it is not registered already, and every
`addEvent` without a callback finds no callback in its context, each firing hands over the
continuation of the latest `addEvent` under its key, and none twice. -/
theorem fires_latest_of_cbClear {as : List Act}
    (hfresh : Along step (fun w a _ => Fresh w a) start as)
    (hclear : Along step (fun w a _ => CbClear w a) start as) :
    Throughout step (fun w => FiresLatest w.log ∧ FiresOnce w.log) start as := by
  have hrun : Throughout step Exactly start as := throughout_of_along
    (fun _ _ _ h hP hstep => h.step hP.1 hP.2 hstep) exactly_start (hfresh.and hclear)
  exact hrun.mono fun w h => ⟨exact_iff_firesLatest.mp h.exact, h.exact.firesOnce⟩

/-- A registration of `READ` on descriptor 5, its report and the dispatch of the report. -/
def readOnce (fiber : Nat) (cb : Option Nat) : List Act :=
  [.addEvent ⟨some 0, fiber, true⟩ 5 .read cb true, .epollWait 5 ⟨true, false⟩ false,
    .dispatch 0 true]

theorem fires_latest_of_cbClear_readOnce :
    Throughout step (fun w => FiresLatest w.log ∧ FiresOnce w.log) start
      (readOnce 7 none ++ readOnce 7 (some 1)) :=
  fires_latest_of_cbClear (by decide +kernel) (by decide +kernel)

/-- A callback that has run is run again in place of the fiber registered after it. -/
theorem readOnce_fires_stale :
    ¬ ∀ as, Along step (fun w a _ => Fresh w a) start as →
      Throughout step (fun w => FiresLatest w.log ∧ FiresOnce w.log) start as := by
  intro h
  have hrun : (exec step start (readOnce 7 (some 1) ++ readOnce 7 none)).map
      (fun w => w.log) =
      some [.fire (5, .read) (some (.cb 1)), .add (5, .read) (some (.fiber 7)),
        .fire (5, .read) (some (.cb 1)), .add (5, .read) (some (.cb 1))] := by decide +kernel
  obtain ⟨w, hw, heq⟩ := Option.map_eq_some_iff.mp hrun
  have hlatest := ((h _ (by decide +kernel)).final hw).1
  rw [heq, ← exact_iff_firesLatest] at hlatest
  exact absurd hlatest (by decide)

end IOManager

end Muqiu
