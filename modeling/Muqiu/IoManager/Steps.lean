import Muqiu.IoManager.Table

/-!
# What a step does to the registry

Every step leaves the registry alone, grows the table, or does one of three things to one
context: `register`, `unregister`, or `fire` on some of its events.  `Effect` lists the
cases with the guards of the source, and `step_effect` says there are no others.  An
invariant of the registry is then a lemma about each of the three.
-/

namespace Muqiu

open OneShot

namespace IOManager

namespace FdContext

/-- A context `addEvent` has filled. -/
def filled (c : FdContext) (caller : Caller) (e : Event) (cb : Option Nat) : FdContext :=
  { c.setContext e ((c.getContext e).fill caller cb) with events := c.events.insert e }

/-- A context `delEvent` has reset. -/
def cleared (c : FdContext) (e : Event) : FdContext :=
  { c.resetContext e with events := c.events.erase e }

/-- A context whose event has been triggered. -/
def fired (c : FdContext) (e : Event) : FdContext :=
  { c.setContext e { c.getContext e with scheduler := none } with events := c.events.erase e }

@[simp] theorem fd_filled (c : FdContext) (caller : Caller) (e : Event) (cb : Option Nat) :
    (c.filled caller e cb).fd = c.fd := fd_setContext c e _

@[simp] theorem fd_cleared (c : FdContext) (e : Event) : (c.cleared e).fd = c.fd :=
  fd_setContext c e _

@[simp] theorem fd_fired (c : FdContext) (e : Event) : (c.fired e).fd = c.fd :=
  fd_setContext c e _

@[simp] theorem has_filled (c : FdContext) (caller : Caller) (e e' : Event) (cb : Option Nat) :
    (c.filled caller e cb).events.has e' = (decide (e' = e) || c.events.has e') :=
  Events.has_insert _ _ _

@[simp] theorem has_cleared (c : FdContext) (e e' : Event) :
    (c.cleared e).events.has e' = (!decide (e' = e) && c.events.has e') :=
  Events.has_erase _ _ _

@[simp] theorem has_fired (c : FdContext) (e e' : Event) :
    (c.fired e).events.has e' = (!decide (e' = e) && c.events.has e') :=
  Events.has_erase _ _ _

theorem getContext_filled (c : FdContext) (caller : Caller) (e e' : Event) (cb : Option Nat) :
    (c.filled caller e cb).getContext e' =
      if e' = e then (c.getContext e).fill caller cb else c.getContext e' := by
  rw [filled, getContext_withEvents, getContext_setContext]

theorem getContext_cleared (c : FdContext) (e e' : Event) :
    (c.cleared e).getContext e' = if e' = e then .empty else c.getContext e' := by
  rw [cleared, getContext_withEvents, resetContext, getContext_setContext]

theorem getContext_fired (c : FdContext) (e e' : Event) :
    (c.fired e).getContext e' =
      if e' = e then { c.getContext e with scheduler := none } else c.getContext e' := by
  rw [fired, getContext_withEvents, getContext_setContext]

@[simp] theorem scheduler_fill (ctx : EventContext) (caller : Caller) (cb : Option Nat) :
    (ctx.fill caller cb).scheduler = caller.scheduler := by cases cb <;> rfl

end FdContext

namespace World

/-- The same registry and the same record, whatever the kernel holds. -/
structure Same (v w : World) : Prop where
  count : v.m_pendingEventCount = w.m_pendingEventCount
  table : v.m_fdContexts = w.m_fdContexts
  heap : v.heap = w.heap
  log : v.log = w.log
  triggers : v.triggers = w.triggers

theorem Same.refl (w : World) : w.Same w := ⟨rfl, rfl, rfl, rfl, rfl⟩

theorem Same.trans {u v w : World} (h : u.Same v) (h' : v.Same w) : u.Same w :=
  ⟨h.count.trans h'.count, h.table.trans h'.table, h.heap.trans h'.heap, h.log.trans h'.log,
    h.triggers.trans h'.triggers⟩

theorem crash_same (w : World) : w.crash.Same w := ⟨rfl, rfl, rfl, rfl, rfl⟩

theorem epollCtl_same {w v : World} {ok : Bool} {op : CtlOp} {fd : Int} {events : Events}
    {p : Nat} (h : w.epollCtl ok op fd events p = some v) :
    v.Same w ∧ v.crashed = w.crashed := by
  rw [epollCtl, Option.ite_none_right_eq_some] at h
  cases Option.some.inj h.2
  exact ⟨⟨rfl, rfl, rfl, rfl, rfl⟩, rfl⟩

theorem epollCtl_isSome (w : World) (ok : Bool) (op : CtlOp) (fd : Int) (events : Events)
    (p : Nat) : (w.epollCtl ok op fd events p).isSome = w.ctlOk ok op fd := by
  rw [epollCtl]
  cases w.ctlOk ok op fd <;> rfl

theorem Same.register {v w : World} (h : v.Same w) (caller : Caller) (p : Nat) (c : FdContext)
    (fd : Int) (event : Event) (cb : Option Nat) :
    (v.register caller p c fd event cb).Same (w.register caller p c fd event cb) := by
  simp only [World.register]
  exact ⟨by rw [h.count], h.table, by rw [h.heap], by rw [h.log], h.triggers⟩

theorem Same.unregister {v w : World} (h : v.Same w) (p : Nat) (c : FdContext) (fd : Int)
    (event : Event) : (v.unregister p c fd event).Same (w.unregister p c fd event) := by
  simp only [World.unregister]
  exact ⟨by rw [h.count], h.table, by rw [h.heap], by rw [h.log], h.triggers⟩

theorem ensure_crashed (w : World) (fd : Int) : (w.ensure fd).crashed = w.crashed := by
  by_cases h : w.tableSize > fd
  · rw [ensure, if_pos h]
  · rw [ensure, if_neg h]; rfl

/-! ## Firing -/

/-- `fire` on each event of a list in turn. -/
def fireAll (w : World) (p : Nat) (es : List Event) : World :=
  es.foldl (fun w e => w.fire p e) w

@[simp] theorem fireAll_nil (w : World) (p : Nat) : w.fireAll p [] = w := rfl

@[simp] theorem fireAll_cons (w : World) (p : Nat) (e : Event) (es : List Event) :
    w.fireAll p (e :: es) = (w.fire p e).fireAll p es := rfl

/-- The two conditional calls of the idle loop fire the events of the mask in order. -/
theorem fireAll_toList (w : World) (p : Nat) (m : Events) :
    (if m.write then (if m.read then w.fire p .read else w).fire p .write
      else if m.read then w.fire p .read else w) = w.fireAll p m.toList := by
  obtain ⟨r, wr⟩ := m
  cases r <;> cases wr <;> rfl

theorem fire_crashed {w : World} (h : w.crashed = true) (p : Nat) (e : Event) :
    w.fire p e = w := by
  rw [fire, if_pos h]

theorem fireAll_crashed {w : World} (h : w.crashed = true) (p : Nat) :
    ∀ es : List Event, w.fireAll p es = w
  | [] => rfl
  | e :: es => by rw [fireAll_cons, fire_crashed h, fireAll_crashed h p es]

/-- A call through a null scheduler crashes and leaves the registry as it was. -/
theorem fire_null {w : World} {p : Nat} {c : FdContext} {e : Event} (hok : w.crashed = false)
    (hc : w.heap[p]? = some c) (hs : (c.getContext e).scheduler = none) :
    w.fire p e =
      { w with triggers := ⟨c.events.has e, none⟩ :: w.triggers, crashed := true } := by
  rw [fire, if_neg (by simp [hok])]
  simp only [hc, FdContext.triggerEvent, hs]
  rfl

/-- With a scheduler the context is fired, its task logged and the event counted off. -/
theorem fire_some {w : World} {p s : Nat} {c : FdContext} {e : Event} (hok : w.crashed = false)
    (hc : w.heap[p]? = some c) (hs : (c.getContext e).scheduler = some s) :
    w.fire p e =
      { w with
        m_pendingEventCount := w.m_pendingEventCount - 1
        heap := w.heap.set p (c.fired e)
        log := .fire (c.fd, e) (c.getContext e).task :: w.log
        triggers := ⟨c.events.has e, some s⟩ :: w.triggers } := by
  rw [fire, if_neg (by simp [hok])]
  simp only [hc, FdContext.triggerEvent, hs]
  rfl

/-! ## The operations -/

/-- The context an `addEvent` fills, when its `epoll_ctl` succeeds. -/
def addTarget (w : World) (fd : Int) (ok : Bool) : Option (Nat × FdContext) :=
  match (w.ensure fd).contextAt fd with
  | none => none
  | some p =>
      match (w.ensure fd).heap[p]? with
      | none => none
      | some c =>
          let op := if c.events.isNone then .ADD else .MOD
          if (w.ensure fd).ctlOk ok op fd then some (p, c) else none

/-- The context a report fires on, when the guard passes and `epoll_ctl` succeeds. -/
def dispatchTarget (w : World) (r : Report) (ok : Bool) : Option FdContext :=
  match w.heap[r.ptr]? with
  | none => none
  | some c =>
      let left_events := c.events.diff (realEvents c.events r)
      let op := if left_events.isNone then .DEL else .MOD
      if (c.events.inter (realEvents c.events r)).isNone then none
      else if w.ctlOk ok op c.fd then some c else none

theorem addTarget_spec {w : World} {fd : Int} {ok : Bool} {p : Nat} {c : FdContext}
    (h : w.addTarget fd ok = some (p, c)) :
    (w.ensure fd).contextAt fd = some p ∧ (w.ensure fd).heap[p]? = some c := by
  rw [addTarget] at h
  generalize w.ensure fd = g at h ⊢
  cases hp : g.contextAt fd with
  | none => simp [hp] at h
  | some q =>
      cases hc : g.heap[q]? with
      | none => simp [hp, hc] at h
      | some d =>
          simp only [hp, hc, Option.ite_none_right_eq_some, Option.some.injEq,
            Prod.mk.injEq] at h
          obtain ⟨_, rfl, rfl⟩ := h
          exact ⟨rfl, hc⟩

/-- `addEvent` fills its target, or does nothing but grow the table. -/
theorem addEvent_cases (w : World) (caller : Caller) (fd : Int) (event : Event)
    (cb : Option Nat) (ok : Bool) :
    w.addTarget fd ok = none ∧ (w.addEvent caller fd event cb ok).Same (w.ensure fd) ∨
      ∃ p c, w.addTarget fd ok = some (p, c) ∧
        (w.addEvent caller fd event cb ok).Same
          ((w.ensure fd).register caller p c fd event cb) ∧
        (w.crashed = false → ((w.addEvent caller fd event cb ok).crashed = false ↔
          (cb.isSome || caller.running) = true)) := by
  have hcrashed := ensure_crashed w fd
  simp only [addEvent, addTarget]
  generalize w.ensure fd = g at hcrashed ⊢
  cases hp : g.contextAt fd with
  | none => exact Or.inl ⟨rfl, crash_same _⟩
  | some p =>
      simp only [addLocked]
      cases hc : g.heap[p]? with
      | none => exact Or.inl ⟨rfl, crash_same _⟩
      | some c =>
          simp only [← epollCtl_isSome g ok _ fd (c.events.insert event) p]
          cases hctl : g.epollCtl ok (if c.events.isNone then .ADD else .MOD) fd
              (c.events.insert event) p with
          | none => exact Or.inl ⟨by simp, Same.refl _⟩
          | some v =>
              obtain ⟨hsame, hcr⟩ := epollCtl_same hctl
              rw [hcrashed] at hcr
              have hreg := hsame.register caller p c fd event cb
              refine Or.inr ⟨p, c, by simp, ?_, ?_⟩
              · by_cases hret : (cb.isSome || caller.running) = true
                · simp only [hret, if_true]
                  exact hreg
                · simp only [hret]
                  exact (crash_same _).trans hreg
              · intro hok
                by_cases hret : (cb.isSome || caller.running) = true
                · simp [hret, register, hcr, hok]
                · simp [hret, crash]

theorem removeCtl_spec {w v : World} {fd : Int} {event : Event} {ok : Bool} {p : Nat}
    {c : FdContext} (h : w.removeCtl fd event ok p = some (v, c)) :
    w.heap[p]? = some c ∧ c.events.has event = true ∧ v.Same w ∧ v.crashed = w.crashed := by
  rw [removeCtl] at h
  cases hc : w.heap[p]? with
  | none => simp [hc] at h
  | some d =>
      simp only [hc] at h
      split at h
      · rename_i hbit
        obtain ⟨u, hctl, heq⟩ := Option.map_eq_some_iff.mp h
        cases heq
        exact ⟨rfl, hbit, epollCtl_same hctl⟩
      · simp at h

/-- The calls of `addEvent`. -/
def Adds : Act → Prop
  | .addEvent _ _ _ _ _ => True
  | _ => False

instance decidableAdds : DecidablePred Adds
  | .addEvent _ _ _ _ _ => .isTrue trivial
  | .delEvent _ _ _ => .isFalse id
  | .cancelEvent _ _ _ => .isFalse id
  | .cancelAll _ _ => .isFalse id
  | .epollWait _ _ _ => .isFalse id
  | .dispatch _ _ => .isFalse id
  | .close _ => .isFalse id

/-- What a step does to the registry. -/
inductive Effect (w : World) : Act → World → Prop where
  | same {a : Act} {v : World} : ¬ Adds a →
      (∀ i ok r, a = .dispatch i ok → w.reports[i]? = some r → w.dispatchTarget r ok = none) →
      v.Same w → Effect w a v
  | ensured {caller : Caller} {fd : Int} {event : Event} {cb : Option Nat} {ok : Bool}
      {v : World} :
      w.addTarget fd ok = none → v.Same (w.ensure fd) →
      Effect w (.addEvent caller fd event cb ok) v
  | registered {caller : Caller} {fd : Int} {event : Event} {cb : Option Nat} {ok : Bool}
      {v : World} {p : Nat} {c : FdContext} :
      w.addTarget fd ok = some (p, c) →
      v.Same ((w.ensure fd).register caller p c fd event cb) →
      (v.crashed = false ↔ (cb.isSome || caller.running) = true) →
      Effect w (.addEvent caller fd event cb ok) v
  | unregistered {fd : Int} {event : Event} {ok : Bool} {v : World} {p : Nat} {c : FdContext} :
      w.contextAt fd = some p → w.heap[p]? = some c → c.events.has event = true →
      v.Same (w.unregister p c fd event) → Effect w (.delEvent fd event ok) v
  /-- `cancelEvent` and `cancelAll` trigger events whose bits they have tested. -/
  | cancelled {a : Act} {u v : World} {p : Nat} {c : FdContext} {es : List Event} :
      ¬ Adds a → (∀ i ok, a ≠ .dispatch i ok) → w.heap[p]? = some c → u.Same w →
      u.crashed = false → es.Nodup → (∀ e ∈ es, c.events.has e = true) → v.Same (u.fireAll p es) →
      (v.crashed = false → (u.fireAll p es).crashed = false) → Effect w a v
  /-- The idle loop triggers the events of the report. -/
  | dispatched {i : Nat} {ok : Bool} {r : Report} {u : World} {c : FdContext} :
      w.reports[i]? = some r → w.dispatchTarget r ok = some c → w.heap[r.ptr]? = some c →
      u.Same w → u.crashed = false →
      Effect w (.dispatch i ok) (u.fireAll r.ptr (realEvents c.events r).toList)

theorem delEvent_effect {w : World} (fd : Int) (event : Event) (ok : Bool) :
    Effect w (.delEvent fd event ok) (w.delEvent fd event ok) := by
  rw [delEvent]
  by_cases hsize : w.tableSize ≤ fd
  · rw [if_pos hsize]; exact .same id (by simp) (Same.refl w)
  · rw [if_neg hsize]
    cases hp : w.contextAt fd with
    | none => exact .same id (by simp) (crash_same w)
    | some p =>
        cases hr : w.removeCtl fd event ok p with
        | none => simp only [hr]; exact .same id (by simp) (Same.refl w)
        | some vc =>
            obtain ⟨v, c⟩ := vc
            obtain ⟨hc, hbit, hsame, _⟩ := removeCtl_spec hr
            simp only [hr]
            exact .unregistered hp hc hbit (hsame.unregister p c fd event)

theorem cancelEvent_effect {w : World} (hok : w.crashed = false) (fd : Int) (event : Event)
    (ok : Bool) : Effect w (.cancelEvent fd event ok) (w.cancelEvent fd event ok) := by
  rw [cancelEvent]
  by_cases hsize : w.tableSize ≤ fd
  · rw [if_pos hsize]; exact .same id (by simp) (Same.refl w)
  · rw [if_neg hsize]
    cases hp : w.contextAt fd with
    | none => exact .same id (by simp) (crash_same w)
    | some p =>
        cases hr : w.removeCtl fd event ok p with
        | none => simp only [hr]; exact .same id (by simp) (Same.refl w)
        | some vc =>
            obtain ⟨v, c⟩ := vc
            obtain ⟨hc, hbit, hsame, hcr⟩ := removeCtl_spec hr
            simp only [hr]
            have hbits : ∀ e ∈ [event], c.events.has e = true := by simpa using hbit
            exact .cancelled id (by simp) hc hsame (hcr.trans hok) (by simp) hbits
              (Same.refl _) id

theorem eventsAt_of_heap {w : World} {p : Nat} {c : FdContext} (h : w.heap[p]? = some c) :
    w.eventsAt p = c.events := by
  simp [eventsAt, h]

/-- Firing `READ` leaves the `WRITE` bit of the context alone. -/
theorem fire_read_write {w : World} {p : Nat} {c : FdContext} (hok : w.crashed = false)
    (hc : w.heap[p]? = some c) :
    (w.fire p .read).crashed = true ∨ ((w.fire p .read).eventsAt p).write = c.events.write := by
  cases hs : (c.getContext .read).scheduler with
  | none => rw [fire_null hok hc hs]; exact Or.inl rfl
  | some s =>
      right
      rw [fire_some hok hc hs]
      simp [eventsAt, (List.getElem?_eq_some_iff.mp hc).1, FdContext.fired, Events.erase]

theorem cancelAll_fires {u : World} {p : Nat} {c : FdContext} (hok : u.crashed = false)
    (hc : u.heap[p]? = some c) :
    (let w := if (u.eventsAt p).read then u.fire p .read else u
      if (w.eventsAt p).write then w.fire p .write else w) = u.fireAll p c.events.toList := by
  rw [eventsAt_of_heap hc, ← fireAll_toList]
  cases hread : c.events.read with
  | false => simp only [Bool.false_eq_true, if_false, eventsAt_of_heap hc]
  | true =>
      simp only [if_true]
      cases fire_read_write hok hc with
      | inl hcr => simp only [fire_crashed hcr, ite_self]
      | inr hw => rw [hw]

theorem Events.nodup_toList (m : Events) : m.toList.Nodup := by
  obtain ⟨r, w⟩ := m
  cases r <;> cases w <;> decide

theorem cancelAll_effect {w : World} (hok : w.crashed = false) (fd : Int) (ok : Bool) :
    Effect w (.cancelAll fd ok) (w.cancelAll fd ok) := by
  rw [cancelAll]
  by_cases hsize : w.tableSize ≤ fd
  · rw [if_pos hsize]; exact .same id (by simp) (Same.refl w)
  · rw [if_neg hsize]
    cases hp : w.contextAt fd with
    | none => exact .same id (by simp) (crash_same w)
    | some p =>
        by_cases hnone : (w.eventsAt p).isNone = true
        · simp only [hnone, if_true]; exact .same id (by simp) (Same.refl w)
        · cases hctl : w.epollCtl ok .DEL fd .NONE p with
          | none => simp only [hnone, hctl]; exact .same id (by simp) (Same.refl w)
          | some u =>
              obtain ⟨hsame, hcr⟩ := epollCtl_same hctl
              cases hc : w.heap[p]? with
              | none => exact absurd (by simp [eventsAt, hc, Events.isNone, Events.NONE]) hnone
              | some c =>
                  have huc : u.heap[p]? = some c := by rw [hsame.heap]; exact hc
                  simp only [hnone, hctl]
                  rw [if_neg (by simp)]
                  have hfires := cancelAll_fires (hcr.trans hok) huc
                  simp only at hfires
                  rw [hfires]
                  refine .cancelled id (by simp) hc hsame
                    (hcr.trans hok) (Events.nodup_toList c.events)
                    (fun e he => Events.mem_toList.mp he) ?_ ?_
                  · by_cases hend : ((u.fireAll p c.events.toList).eventsAt p).isNone = true
                    · rw [if_pos hend]; exact Same.refl _
                    · rw [if_neg hend]; exact crash_same _
                  · intro hv
                    by_cases hend : ((u.fireAll p c.events.toList).eventsAt p).isNone = true
                    · rwa [if_pos hend] at hv
                    · rw [if_neg hend] at hv
                      exact absurd hv (by simp [crash])

/-- A report without a target leaves the registry alone; otherwise its events are fired. -/
theorem dispatch_cases (w : World) (r : Report) (ok : Bool) :
    w.dispatchTarget r ok = none ∧ (w.dispatch r ok).Same w ∨
      ∃ (c : FdContext) (u : World), w.dispatchTarget r ok = some c ∧
        w.heap[r.ptr]? = some c ∧ u.Same w ∧ u.crashed = w.crashed ∧
        w.dispatch r ok = u.fireAll r.ptr (realEvents c.events r).toList := by
  rw [dispatch, dispatchTarget]
  cases hc : w.heap[r.ptr]? with
  | none => exact Or.inl ⟨rfl, crash_same w⟩
  | some c =>
      by_cases hnone : (c.events.inter (realEvents c.events r)).isNone = true
      · simp only [hnone, if_true]
        exact Or.inl ⟨trivial, Same.refl w⟩
      · simp only [hnone, Bool.false_eq_true, if_false,
          ← epollCtl_isSome w ok _ c.fd (c.events.diff (realEvents c.events r)) r.ptr]
        cases hctl : w.epollCtl ok
            (if (c.events.diff (realEvents c.events r)).isNone then .DEL else .MOD) c.fd
            (c.events.diff (realEvents c.events r)) r.ptr with
        | none => exact Or.inl ⟨by simp, Same.refl w⟩
        | some u =>
            obtain ⟨hsame, hcr⟩ := epollCtl_same hctl
            exact Or.inr ⟨c, u, by simp, rfl, hsame, hcr, fireAll_toList _ _ _⟩

theorem step_ok {w v : World} {a : Act} (h : step w a = some v) : w.crashed = false := by
  cases hcr : w.crashed with
  | false => rfl
  | true => simp [step, hcr] at h

/-- The cases of a step. -/
theorem step_effect {w v : World} {a : Act} (h : step w a = some v) : Effect w a v := by
  have hok := step_ok h
  unfold step at h
  rw [if_neg (by simp [hok])] at h
  cases a with
  | addEvent caller fd event cb ok =>
      cases Option.some.inj h
      cases addEvent_cases w caller fd event cb ok with
      | inl hidle => exact .ensured hidle.1 hidle.2
      | inr hreg =>
          obtain ⟨p, c, htarget, hsame, hcr⟩ := hreg
          exact .registered htarget hsame (hcr hok)
  | delEvent fd event ok => cases Option.some.inj h; exact delEvent_effect fd event ok
  | cancelEvent fd event ok => cases Option.some.inj h; exact cancelEvent_effect hok fd event ok
  | cancelAll fd ok => cases Option.some.inj h; exact cancelAll_effect hok fd ok
  | epollWait fd ready failed =>
      simp only at h
      cases hi : w.interest fd with
      | none => simp [hi] at h
      | some entry =>
          simp only [hi, Option.ite_none_right_eq_some, Option.some.injEq] at h
          obtain ⟨_, rfl⟩ := h
          exact .same id (by simp) ⟨rfl, rfl, rfl, rfl, rfl⟩
  | dispatch i ok =>
      simp only at h
      cases hr : w.reports[i]? with
      | none => simp [hr] at h
      | some r =>
          simp only [hr, Option.some.injEq] at h
          subst h
          have htarget : ({ w with reports := w.reports.eraseIdx i } : World).dispatchTarget r ok =
              w.dispatchTarget r ok := rfl
          cases dispatch_cases { w with reports := w.reports.eraseIdx i } r ok with
          | inl hidle =>
              have hmiss : ∀ i' ok' r', Act.dispatch i ok = .dispatch i' ok' →
                  w.reports[i']? = some r' → w.dispatchTarget r' ok' = none := by
                intro i' ok' r' heq hr'
                cases heq
                rw [hr] at hr'
                cases Option.some.inj hr'
                exact htarget ▸ hidle.1
              exact .same id hmiss (hidle.2.trans ⟨rfl, rfl, rfl, rfl, rfl⟩)
          | inr hfire =>
              obtain ⟨c, u, hc, hheap, hsame, hcr, heq⟩ := hfire
              rw [heq]
              exact .dispatched hr (htarget ▸ hc) hheap
                (hsame.trans ⟨rfl, rfl, rfl, rfl, rfl⟩) (hcr.trans hok)
  | close fd => cases Option.some.inj h; exact .same id (by simp) ⟨rfl, rfl, rfl, rfl, rfl⟩

/-! ## Properties of every context -/

/-- Every context satisfies `K`. -/
def Each (K : FdContext → Prop) (w : World) : Prop :=
  ∀ (p : Nat) (c : FdContext), w.heap[p]? = some c → K c

theorem Each.of_heap {K : FdContext → Prop} {v w : World} (h : Each K w)
    (heq : v.heap = w.heap) : Each K v := by
  intro p c hc
  rw [heq] at hc
  exact h p c hc

theorem Each.set {K : FdContext → Prop} {v w : World} {p : Nat} {c' : FdContext} (h : Each K w)
    (heq : v.heap = w.heap.set p c') (hc' : K c') : Each K v := by
  intro q c hc
  rw [heq, List.getElem?_set] at hc
  by_cases hpq : p = q
  · rw [if_pos hpq, Option.ite_none_right_eq_some] at hc
    cases Option.some.inj hc.2
    exact hc'
  · rw [if_neg hpq] at hc
    exact h q c hc

theorem Each.ensure {K : FdContext → Prop} (hnew : ∀ i, K (.new i)) {w : World} (h : Each K w)
    (fd : Int) : Each K (w.ensure fd) := by
  by_cases hlt : w.tableSize > fd
  · rw [World.ensure, if_pos hlt]; exact h
  · rw [World.ensure, if_neg hlt]
    obtain ⟨extra, heq, hextra⟩ := contextResize_heap w (3 * fd.toNat / 2)
    intro p c hc
    rw [heq] at hc
    cases List.mem_append.mp (List.mem_of_getElem? hc) with
    | inl hold =>
        obtain ⟨q, hq⟩ := List.getElem?_of_mem hold
        exact h q c hq
    | inr hnew' =>
        obtain ⟨i, rfl⟩ := hextra c hnew'
        exact hnew i

theorem Each.fireAll {K : FdContext → Prop} (hfired : ∀ c e, K c → K (c.fired e)) (p : Nat) :
    ∀ (es : List Event) {w : World}, Each K w → Each K (w.fireAll p es)
  | [], _, h => h
  | e :: es, w, h => by
      rw [fireAll_cons]
      refine Each.fireAll hfired p es ?_
      cases hcr : w.crashed with
      | true => rw [fire_crashed hcr]; exact h
      | false =>
          cases hc : w.heap[p]? with
          | none =>
              refine h.of_heap ?_
              rw [fire, if_neg (by simp [hcr])]
              simp only [hc]
              rfl
          | some c =>
              cases hs : (c.getContext e).scheduler with
              | none => rw [fire_null hcr hc hs]; exact h
              | some s =>
                  rw [fire_some hcr hc hs]
                  exact h.set rfl (hfired c e (h p c hc))

/-- What new contexts have and filling, resetting and firing keep, every step keeps. -/
theorem Each.step {K : FdContext → Prop} {w v : World} {a : Act} (hnew : ∀ i, K (.new i))
    (hfill : ∀ c caller fd e cb ok, a = .addEvent caller fd e cb ok → K c →
      K (c.filled caller e cb))
    (hclear : ∀ c e, K c → K (c.cleared e)) (hfired : ∀ c e, K c → K (c.fired e))
    (h : Each K w) (hstep : IOManager.step w a = some v) : Each K v := by
  cases step_effect hstep with
  | same _ _ hv => exact h.of_heap hv.heap
  | ensured _ hv => exact (h.ensure hnew _).of_heap hv.heap
  | registered htarget hv _ =>
      exact (h.ensure hnew _).set hv.heap
        (hfill _ _ _ _ _ _ rfl (h.ensure hnew _ _ _ (addTarget_spec htarget).2))
  | unregistered _ hc _ hv => exact h.set hv.heap (hclear _ _ (h _ _ hc))
  | cancelled _ _ _ hu _ _ _ hv _ =>
      exact (Each.fireAll hfired _ _ (h.of_heap hu.heap)).of_heap hv.heap
  | dispatched _ _ _ hu _ => exact Each.fireAll hfired _ _ (h.of_heap hu.heap)

/-- What new contexts have, all contexts of a new manager have. -/
theorem Each.start {K : FdContext → Prop} (hnew : ∀ i, K (.new i)) : Each K start := by
  obtain ⟨extra, heq, hextra⟩ :=
    contextResize_heap ⟨0, [], [], fun _ => none, [], false, [], []⟩ 32
  intro p c hc
  have hmem := List.mem_of_getElem? hc
  rw [IOManager.start, heq, List.nil_append] at hmem
  obtain ⟨i, rfl⟩ := hextra c hmem
  exact hnew i

end World

end IOManager

end Muqiu
