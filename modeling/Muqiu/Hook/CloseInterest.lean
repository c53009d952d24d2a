import Muqiu.Hook.Model
import Muqiu.IoManager.Interest

/-!
# The two masks of a descriptor across `close`

`close` goes through `cancelAll`, `del` and `close_f` one at a time.  `cancelAll` clears the
mask of the context and takes the descriptor out of the interest list; `close_f` takes it out
again and leaves the context alone.  What another thread registers between the two stays in
the context, and so does what was registered on a descriptor the manager does not know, for
which `close` makes no call but `close_f`.

The registry and the interest list agree on every descriptor nobody is closing throughout a
run exactly when every `close_f` of the run that ends the last `close` of its descriptor finds
no event in the context.
-/

namespace Muqiu

open Runs

namespace Hook

open IOManager (World)

namespace Process

/-- Some `close` of the descriptor has begun and not ended. -/
def Busy (s : Process) (fd : Int) : Prop := ∃ r ∈ s.closers, r.1 = fd

instance decidableBusy (s : Process) (fd : Int) : Decidable (s.Busy fd) :=
  inferInstanceAs (Decidable (∃ r ∈ s.closers, r.1 = fd))

/-- The context and the interest list have the same events for a descriptor no operation is
under way on. -/
def InterestCoherent (s : Process) : Prop := ∀ fd, ¬ s.Busy fd → s.registry.Agrees fd

/-- The step of the registry an action takes. -/
def registryAct (s : Process) : Act → Option IOManager.Act
  | .await fiber ok =>
      (s.callAt fiber fun p => p = .armed).map fun c =>
        .addEvent ⟨some 0, fiber, true⟩ c.fd c.event none ok
  | .cancel i ok => (s.cancels[i]?).map fun r => .cancelEvent r.1 r.2 ok
  | .event a => some a
  | .closeNext i ok =>
      match s.closers[i]? with
      | some (fd, .cancelling) => some (.cancelAll fd ok)
      | some (fd, .closing) => some (.close fd)
      | _ => none
  | _ => none

/-- The descriptor whose last `close` an action ends. -/
def lastClose (s : Process) : Act → Option Int
  | .closeNext i _ =>
      match s.closers[i]? with
      | some (fd, .closing) => if ∃ r ∈ s.closers.eraseIdx i, r.1 = fd then none else some fd
      | _ => none
  | _ => none

/-- Every `addEvent` is on a number that can be a descriptor. -/
def AddsValid (s : Process) (a : Act) (_ : Process) : Prop :=
  ∀ b ∈ s.registryAct a, World.Valid b

/-- The last `close_f` of a descriptor finds no event in its context. -/
def ClosesClean (s : Process) (a : Act) (_ : Process) : Prop :=
  ∀ fd ∈ s.lastClose a, ∀ p ∈ s.registry.contextAt fd, (s.registry.eventsAt p).isNone = true

instance decidableAddsValid (s : Process) (a : Act) (t : Process) :
    Decidable (s.AddsValid a t) :=
  inferInstanceAs (Decidable (∀ b ∈ s.registryAct a, World.Valid b))

instance decidableClosesClean (s : Process) (a : Act) (t : Process) :
    Decidable (s.ClosesClean a t) :=
  inferInstanceAs (Decidable (∀ fd ∈ s.lastClose a, ∀ p ∈ s.registry.contextAt fd,
    (s.registry.eventsAt p).isNone = true))

/-! ## What an action does to the registry -/

section Steps

variable {s t : Process} {fiber : Nat} {c : Call}

/-- The registry takes the step, if there is one, and that does not end the run. -/
def Takes (s : Process) (b : Option IOManager.Act) (t : Process) : Prop :=
  match b with
  | none => t.registry = s.registry
  | some b => IOManager.step s.registry b = some t.registry ∧ t.registry.crashed = false

theorem event_takes {b : IOManager.Act} (hstep : s.event b = some t) : s.Takes (some b) t := by
  obtain ⟨w, hw, hcrash⟩ := Option.bind_eq_some_iff.mp hstep
  rw [Option.ite_none_left_eq_some] at hcrash
  cases Option.some.inj hcrash.2
  exact ⟨hw, Bool.eq_false_iff.mpr hcrash.1⟩

theorem Takes.of_registry {u : Process} {b : Option IOManager.Act} (h : s.Takes b u)
    (hu : t.registry = u.registry) : s.Takes b t := by
  cases b with
  | none => exact hu.trans h
  | some b => exact ⟨by rw [hu]; exact h.1, by rw [hu]; exact h.2⟩

theorem event_closers {b : IOManager.Act} (hstep : s.event b = some t) :
    t.closers = s.closers := by
  obtain ⟨w, _, hw⟩ := Option.bind_eq_some_iff.mp hstep
  rw [Option.ite_none_left_eq_some] at hw
  cases Option.some.inj hw.2
  rfl

/-- A step that leaves the registry and the closers alone. -/
structure Apart (s t : Process) : Prop where
  registry : t.registry = s.registry
  closers : t.closers = s.closers

theorem enter_apart {fd : Int} {ev : IOManager.Event} (hstep : s.enter fiber fd ev = some t) :
    s.Apart t := by
  rw [enter] at hstep
  split at hstep
  · cases Option.some.inj hstep
    exact ⟨rfl, rfl⟩
  · obtain ⟨ctx, _, heq⟩ := Option.map_eq_some_iff.mp hstep
    rw [← heq]
    split
    · exact ⟨rfl, rfl⟩
    · split
      · exact ⟨rfl, rfl⟩
      · exact ⟨rfl, rfl⟩
  · cases hstep

theorem invoke_apart (outcome : Outcome) : s.Apart (s.invoke fiber c outcome) := by
  unfold invoke
  split
  · exact ⟨rfl, rfl⟩
  · split
    · exact ⟨rfl, rfl⟩
    · exact ⟨rfl, rfl⟩
    · exact ⟨rfl, rfl⟩

theorem arm_apart : s.Apart (s.arm fiber c) := by
  rw [arm]
  split
  · exact ⟨rfl, rfl⟩
  · exact ⟨rfl, rfl⟩

theorem cancelTimer_apart : s.Apart (s.cancelTimer fiber c) := by
  rw [cancelTimer]
  split
  · exact ⟨rfl, rfl⟩
  · exact ⟨rfl, rfl⟩

theorem resume_apart : s.Apart (s.resume fiber c) := by
  let u : Process := { s with scheduled := s.scheduled.erase fiber }
  have htimer : u.Apart (u.cancelTimer fiber c) := cancelTimer_apart
  rw [resume]
  split
  · exact ⟨htimer.registry, htimer.closers⟩
  · exact ⟨htimer.registry, htimer.closers⟩

theorem callback_apart (timer : ConditionTimer) : s.Apart (s.callback timer) := by
  rw [callback]
  split
  · exact ⟨rfl, rfl⟩
  · split
    · exact ⟨rfl, rfl⟩
    · exact ⟨rfl, rfl⟩

theorem await_takes {ok : Bool} (hstep : s.await fiber c ok = some t) :
    s.Takes (some (.addEvent ⟨some 0, fiber, true⟩ c.fd c.event none ok)) t ∧
      t.closers = s.closers := by
  obtain ⟨u, hu, heq⟩ := Option.map_eq_some_iff.mp hstep
  have htakes := event_takes hu
  have hclosers := event_closers hu
  rw [← heq]
  split
  · exact ⟨htakes.of_registry rfl, hclosers⟩
  · have htimer : u.Apart (u.cancelTimer fiber c) := cancelTimer_apart
    exact ⟨htakes.of_registry htimer.registry, htimer.closers.trans hclosers⟩

/-- What may become of the closers. -/
inductive ClosersMove (s : Process) : Act → Process → Prop where
  | same {a : Act} {t : Process} (ha : ∀ i ok, a ≠ .closeNext i ok)
      (h : t.closers = s.closers) : ClosersMove s a t
  | begun {a : Act} {t : Process} {fd : Int} (ha : ∀ i ok, a ≠ .closeNext i ok)
      (stage : CloseStage) (h : t.closers = s.closers ++ [(fd, stage)]) : ClosersMove s a t
  | next {i : Nat} {ok : Bool} {t : Process} {fd : Int} {stage : CloseStage}
      (stage' : CloseStage) (hr : s.closers[i]? = some (fd, stage)) (hstage : stage ≠ .closing)
      (h : t.closers = s.closers.eraseIdx i ++ [(fd, stage')]) :
      ClosersMove s (.closeNext i ok) t
  | ended {i : Nat} {ok : Bool} {t : Process} {fd : Int}
      (hr : s.closers[i]? = some (fd, .closing)) (h : t.closers = s.closers.eraseIdx i) :
      ClosersMove s (.closeNext i ok) t

theorem closeNext_takes {i : Nat} {r : Int × CloseStage} {ok : Bool} (hr : s.closers[i]? = some r)
    (hstep : s.closeNext r.1 (s.closers.eraseIdx i) ok r.2 = some t) :
    s.Takes (s.registryAct (.closeNext i ok)) t ∧ s.ClosersMove (.closeNext i ok) t := by
  obtain ⟨fd, stage⟩ := r
  simp only [registryAct, hr]
  cases stage with
  | cancelling =>
      obtain ⟨u, hu, heq⟩ := Option.map_eq_some_iff.mp hstep
      have htakes := event_takes (s := s.markClosed fd) hu
      rw [← heq]
      exact ⟨htakes.of_registry rfl, .next .deleting hr (by rintro ⟨⟩) rfl⟩
  | deleting =>
      obtain ⟨fds, _, heq⟩ := Option.map_eq_some_iff.mp hstep
      rw [← heq]
      exact ⟨rfl, .next .closing hr (by rintro ⟨⟩) rfl⟩
  | closing =>
      obtain ⟨u, hu, heq⟩ := Option.map_eq_some_iff.mp hstep
      have htakes := event_takes (s := s.markClosed fd) hu
      rw [← heq]
      exact ⟨htakes.of_registry rfl, .ended hr rfl⟩

/-- What an action does to the registry and to the closers. -/
theorem step_moves {a : Act} (hstep : s.step a = some t) :
    s.Takes (s.registryAct a) t ∧ s.ClosersMove a t := by
  cases stepped hstep with
  | opened _ => exact ⟨rfl, .same (by rintro _ _ ⟨⟩) rfl⟩
  | create _ => exact ⟨rfl, .same (by rintro _ _ ⟨⟩) rfl⟩
  | setUserNonblock p v => exact ⟨rfl, .same (by rintro _ _ ⟨⟩) rfl⟩
  | setTimeout p type v => exact ⟨rfl, .same (by rintro _ _ ⟨⟩) rfl⟩
  | enter henter =>
      have happart := enter_apart henter
      exact ⟨happart.registry, .same (by rintro _ _ ⟨⟩) happart.closers⟩
  | @invoke fiber c _ outcome _ =>
      have happart : s.Apart (s.invoke fiber c outcome) := invoke_apart outcome
      exact ⟨happart.registry, .same (by rintro _ _ ⟨⟩) happart.closers⟩
  | @arm fiber c _ =>
      have happart : s.Apart (s.arm fiber c) := arm_apart
      exact ⟨happart.registry, .same (by rintro _ _ ⟨⟩) happart.closers⟩
  | await hc hawait =>
      rw [registryAct, hc, Option.map_some]
      obtain ⟨htakes, hclosers⟩ := await_takes hawait
      exact ⟨htakes, .same (by rintro _ _ ⟨⟩) hclosers⟩
  | @resume fiber c _ _ =>
      have happart : s.Apart (s.resume fiber c) := resume_apart
      exact ⟨happart.registry, .same (by rintro _ _ ⟨⟩) happart.closers⟩
  | expire _ => exact ⟨rfl, .same (by rintro _ _ ⟨⟩) rfl⟩
  | @callback timer _ =>
      have happart := callback_apart (s := { s with due := s.due.erase timer }) timer
      exact ⟨happart.registry, .same (by rintro _ _ ⟨⟩) happart.closers⟩
  | @cancel i _ _ _ hr hevent =>
      rw [registryAct, hr, Option.map_some]
      have htakes := event_takes (s := { s with cancels := s.cancels.eraseIdx i }) hevent
      have hclosers := event_closers (s := { s with cancels := s.cancels.eraseIdx i }) hevent
      exact ⟨htakes, .same (by rintro _ _ ⟨⟩) hclosers⟩
  | event _ hevent =>
      exact ⟨event_takes hevent, .same (by rintro _ _ ⟨⟩) (event_closers hevent)⟩
  | close _ => exact ⟨rfl, .begun (by rintro _ _ ⟨⟩) _ rfl⟩
  | closeNext hr hnext => exact closeNext_takes hr hnext

theorem takes_regular {b : Option IOManager.Act} (h : s.registry.Regular)
    (hvalid : ∀ a ∈ b, World.Valid a) (htakes : s.Takes b t) : t.registry.Regular := by
  cases b with
  | none =>
      rw [htakes]
      exact h
  | some a => exact World.step_regular h (hvalid a rfl) htakes.1

theorem takes_tracks {b : Option IOManager.Act} (h : s.registry.Regular)
    (hclose : ∀ fd, b ≠ some (.close fd)) (htakes : s.Takes b t) :
    s.registry.Tracks t.registry := by
  cases b with
  | none =>
      rw [htakes]
      exact fun _ hagrees => hagrees
  | some a =>
      exact World.step_tracks h (fun fd heq => hclose fd (by rw [heq])) htakes.1 htakes.2

/-- An action that ends no `close` leaves everybody who is closing at it. -/
theorem ClosersMove.busy {a : Act} (hmove : s.ClosersMove a t)
    (hend : ∀ i ok fd, a = .closeNext i ok → s.closers[i]? ≠ some (fd, .closing)) {fd : Int}
    (hbusy : s.Busy fd) : t.Busy fd := by
  obtain ⟨r, hr, rfl⟩ := hbusy
  cases hmove with
  | same _ h => exact ⟨r, by rw [h]; exact hr, rfl⟩
  | begun _ stage h => exact ⟨r, by rw [h]; exact List.mem_append_left _ hr, rfl⟩
  | @next i ok _ fd stage stage' hi _ h =>
      obtain ⟨k, hk⟩ := List.getElem?_of_mem hr
      by_cases hki : k = i
      · rw [hki, hi] at hk
        cases hk
        exact ⟨(fd, stage'), by rw [h]; exact List.mem_append_right _ List.mem_cons_self, rfl⟩
      · have hkeep : r ∈ s.closers.eraseIdx i :=
          List.mem_eraseIdx_iff_getElem?.mpr ⟨k, hki, hk⟩
        exact ⟨r, by rw [h]; exact List.mem_append_left _ hkeep, rfl⟩
  | @ended i ok _ fd hi h => exact absurd hi (hend i ok fd rfl)

/-- `close_f` takes the descriptor out of the interest list and leaves the others. -/
theorem close_agrees {w v : World} {fd : Int} (hstep : IOManager.step w (.close fd) = some v) :
    (∀ fd', fd' ≠ fd → (v.Agrees fd' ↔ w.Agrees fd')) ∧
      (v.Agrees fd ↔ ∀ p ∈ w.contextAt fd, (w.eventsAt p).isNone = true) := by
  have hlive := World.step_ok hstep
  unfold IOManager.step at hstep
  rw [if_neg (by simp [hlive])] at hstep
  cases Option.some.inj hstep
  refine ⟨fun fd' hne => ?_, ?_⟩
  · simp only [World.Agrees, Function.update_of_ne hne]
    exact Iff.rfl
  · simp only [World.Agrees, Function.update_self]
    change none = (w.contextAt fd).bind (fun p => World.entryFor (w.eventsAt p) p) ↔ _
    cases w.contextAt fd with
    | none => exact ⟨fun _ _ hp => (by cases hp), fun _ => rfl⟩
    | some p =>
        rw [Option.bind_some, World.entryFor]
        constructor
        · intro hnone q hq
          cases Option.mem_some.mp hq
          by_contra hsome
          rw [if_neg hsome] at hnone
          cases hnone
        · intro hclean
          rw [if_pos (hclean p rfl)]

/-- The last step of a `close`. -/
theorem ended_coherent {i : Nat} {ok : Bool} {fd : Int} (h : s.InterestCoherent)
    (hr : s.closers[i]? = some (fd, .closing)) (hclosers : t.closers = s.closers.eraseIdx i)
    (htakes : s.Takes (some (.close fd)) t) :
    t.InterestCoherent ↔ s.ClosesClean (.closeNext i ok) t := by
  obtain ⟨hothers, hself⟩ := close_agrees htakes.1
  have hbusy : ∀ fd', fd' ≠ fd → s.Busy fd' → t.Busy fd' := by
    rintro _ hne ⟨r, hmem, rfl⟩
    obtain ⟨k, hk⟩ := List.getElem?_of_mem hmem
    have hki : k ≠ i := by
      rintro rfl
      rw [hr] at hk
      cases hk
      exact hne rfl
    exact ⟨r, by rw [hclosers]; exact List.mem_eraseIdx_iff_getElem?.mpr ⟨k, hki, hk⟩, rfl⟩
  have hlast : s.lastClose (.closeNext i ok) = if t.Busy fd then none else some fd := by
    simp only [lastClose, hr, Busy, hclosers]
  rw [ClosesClean, hlast]
  by_cases hend : t.Busy fd
  · rw [if_pos hend]
    refine ⟨fun _ _ hnone => (by cases hnone), fun _ fd' hfree => ?_⟩
    have hne : fd' ≠ fd := fun heq => hfree (heq ▸ hend)
    exact (hothers fd' hne).mpr (h fd' fun hb => hfree (hbusy fd' hne hb))
  · rw [if_neg hend]
    constructor
    · intro ht fd' hfd'
      cases Option.mem_some.mp hfd'
      exact hself.mp (ht fd hend)
    · intro hclean fd' hfree
      by_cases hne : fd' = fd
      · rw [hne]
        exact hself.mpr (hclean fd rfl)
      · exact (hothers fd' hne).mpr (h fd' fun hb => hfree (hbusy fd' hne hb))

/-- Only the last call of `close` is `close_f`. -/
theorem registryAct_close {a : Act} {fd : Int} (hstep : s.step a = some t)
    (hact : s.registryAct a = some (.close fd)) :
    ∃ i ok, a = .closeNext i ok ∧ s.closers[i]? = some (fd, .closing) := by
  cases a with
  | await fiber ok =>
      obtain ⟨c, _, heq⟩ := Option.map_eq_some_iff.mp hact
      cases heq
  | cancel i ok =>
      obtain ⟨r, _, heq⟩ := Option.map_eq_some_iff.mp hact
      cases heq
  | event b =>
      cases Option.some.inj hact
      rw [step, Option.ite_none_left_eq_some] at hstep
      exact absurd rfl hstep.1
  | closeNext i ok =>
      rw [registryAct] at hact
      split at hact
      next => cases hact
      next fd' hr =>
        cases Option.some.inj hact
        exact ⟨i, ok, rfl, hr⟩
      next => cases hact
  | _ => cases hact

/-- A step that ends no `close` keeps the two masks the same. -/
theorem quiet_coherent {a : Act} (hregular : s.registry.Regular) (h : s.InterestCoherent)
    (hstep : s.step a = some t)
    (hend : ∀ i ok fd, a = .closeNext i ok → s.closers[i]? ≠ some (fd, .closing)) :
    t.InterestCoherent := by
  obtain ⟨htakes, hmove⟩ := step_moves hstep
  have htracks : s.registry.Tracks t.registry := by
    refine takes_tracks hregular (fun fd hact => ?_) htakes
    obtain ⟨i, ok, ha, hr⟩ := registryAct_close hstep hact
    exact hend i ok fd ha hr
  exact fun fd hfree => htracks fd (h fd fun hb => hfree (hmove.busy hend hb))

/-- A step keeps the two masks of every descriptor nobody is closing the same exactly when it
is not the last `close_f` of a descriptor whose context still has an event. -/
theorem coherent_step {a : Act} (hregular : s.registry.Regular) (h : s.InterestCoherent)
    (hstep : s.step a = some t) : t.InterestCoherent ↔ s.ClosesClean a t := by
  by_cases hend : ∃ i ok fd, a = .closeNext i ok ∧ s.closers[i]? = some (fd, .closing)
  · obtain ⟨i, ok, fd, rfl, hr⟩ := hend
    obtain ⟨htakes, hmove⟩ := step_moves hstep
    simp only [registryAct, hr] at htakes
    cases hmove with
    | same ha _ => exact absurd rfl (ha i ok)
    | begun ha _ _ => exact absurd rfl (ha i ok)
    | next stage' hr' hstage _ =>
        rw [hr] at hr'
        cases hr'
        exact absurd rfl hstage
    | ended _ hclosers => exact ended_coherent h hr hclosers htakes
  · have hnone : ∀ i ok fd, a = .closeNext i ok → s.closers[i]? ≠ some (fd, .closing) :=
      fun i ok fd ha hr => hend ⟨i, ok, fd, ha, hr⟩
    refine ⟨fun _ fd hlast => ?_, fun _ => quiet_coherent hregular h hstep hnone⟩
    cases a with
    | closeNext i ok =>
        rw [lastClose] at hlast
        split at hlast
        next fd' hr => exact absurd hr (hnone i ok fd' rfl)
        next => cases hlast
    | _ => cases hlast

theorem start_interestCoherent : start.InterestCoherent := by
  intro fd _
  have hnone : ∀ c ∈ IOManager.start.heap, c.events = .NONE := by
    intro c hc
    obtain ⟨p, hp⟩ := List.getElem?_of_mem hc
    exact World.Each.start (K := fun c => c.events = .NONE) (fun _ => rfl) p c hp
  have hinterest : start.registry.interest fd = none := rfl
  rw [World.Agrees, hinterest]
  cases hp : start.registry.contextAt fd with
  | none => rfl
  | some p =>
      obtain ⟨c, hc, _⟩ := World.start_regular.table.contextAt hp
      have hevents : start.registry.eventsAt p = .NONE :=
        (World.eventsAt_of_heap hc).trans (hnone c (List.mem_of_getElem? hc))
      rw [Option.bind_some, hevents]
      rfl

end Steps

/-- The context and the interest list have the same events for every descriptor no `close` is
under way on, throughout a run, exactly when no `close_f` of the run that ends the last `close`
of its descriptor finds an event in the context. -/
theorem interest_coherent_iff (as : List Act) (hvalid : Along step AddsValid start as) :
    Throughout step InterestCoherent start as ↔ Along step ClosesClean start as :=
  throughout_iff_along_under (J := fun s => s.registry.Regular) (R := AddsValid)
    (fun _ _ _ hadds hregular _ hstep => takes_regular hregular hadds (step_moves hstep).1)
    (fun _ _ _ _ hregular h hstep => coherent_step hregular h hstep) hvalid
    World.start_regular start_interestCoherent

/-- A thread registers a callback on descriptor 5 between the `cancelAll` and the `close_f` of
a `close`. -/
def addWhileClosing : List Act :=
  [.opened 5, .create 5 (some true), .close 5, .closeNext 0 true,
    .event (.addEvent ⟨some 0, 1, true⟩ 5 .read (some 7) true), .closeNext 0 true,
    .closeNext 0 true]

/-- Descriptor 5 is not in the interest list any more, and its context still has the event. -/
theorem addWhileClosing_not_coherent :
    ¬ ∀ as, Along step AddsValid start as → Throughout step InterestCoherent start as := by
  intro h
  have hvalid : Along step AddsValid start addWhileClosing := by decide +kernel
  have hrun : (exec step start addWhileClosing).map (fun s =>
      (s.closers, s.registry.interest 5, (s.registry.contextAt 5).map s.registry.eventsAt)) =
      some ([], none, some ⟨true, false⟩) := by decide +kernel
  obtain ⟨s, hs, heq⟩ := Option.map_eq_some_iff.mp hrun
  simp only [Prod.mk.injEq] at heq
  obtain ⟨hclosers, hinterest, hctx⟩ := heq
  obtain ⟨p, hp, hevents⟩ := Option.map_eq_some_iff.mp hctx
  have hfree : ¬ s.Busy 5 := by
    rintro ⟨r, hr, _⟩
    rw [hclosers] at hr
    cases hr
  have hagrees := ((h addWhileClosing hvalid).final hs) 5 hfree
  rw [World.Agrees, hinterest, hp, Option.bind_some, hevents] at hagrees
  cases hagrees

/-- The same call before the `close` is undone by its `cancelAll`. -/
def addBeforeClosing : List Act :=
  [.opened 5, .create 5 (some true),
    .event (.addEvent ⟨some 0, 1, true⟩ 5 .read (some 7) true), .close 5, .closeNext 0 true,
    .closeNext 0 true, .closeNext 0 true]

theorem addBeforeClosing_coherent : Throughout step InterestCoherent start addBeforeClosing := by
  have hvalid : Along step AddsValid start addBeforeClosing := by decide +kernel
  have hclean : Along step ClosesClean start addBeforeClosing := by decide +kernel
  exact (interest_coherent_iff addBeforeClosing hvalid).mpr hclean

end Process

end Hook

end Muqiu
