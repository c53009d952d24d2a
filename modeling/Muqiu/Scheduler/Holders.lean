import Muqiu.Scheduler.Model

/-!
# The workers of a fiber

A worker holds the fiber its phase is about and its own fiber for callbacks.  The invariant is
per fiber.  `Exclusive`: at most one worker and at most one queue entry, and with both of them
the fiber is in `RUNING`.  `Done`: it has ended and is no worker's own fiber, so that its queue
entries will be dropped.

A step of one worker changes what is to be known of one fiber at most: `Tidy.rephase` and
`Tidy.rest` are for a worker that goes on with its fiber or lets go of it, `Tidy.change` for a
step that changes something about one fiber.
-/

namespace Muqiu

/-- The fiber a phase is about. -/
def Phase.fiber : Phase → Option Nat
  | .taken ft => ft.fiber
  | .entering f _ => some f
  | .running f _ => some f
  | .returned f _ => some f
  | .counted f _ => some f
  | .requeue f _ => some f
  | .holding f _ => some f
  | _ => none

/-- It is the worker's own. -/
def Phase.own : Phase → Bool
  | .entering _ own => own
  | .running _ own => own
  | .returned _ own => own
  | .counted _ own => own
  | .requeue _ own => own
  | .holding _ own => own
  | _ => false

/-- The worker has to do with the fiber. -/
def Worker.Holds (w : Worker) (f : Nat) : Prop := w.phase.fiber = some f ∨ w.cb_fiber = some f

namespace Scheduler

/-- The number of queue entries for a fiber. -/
def entries (s : Scheduler) (f : Nat) : Nat := s.m_fibers.countP fun ft => ft.fiber = some f

/-- Some worker has to do with the fiber. -/
def Held (s : Scheduler) (f : Nat) : Prop :=
  ∃ (i : Nat) (w : Worker), s.workers[i]? = some w ∧ w.Holds f

/-- The fiber has ended and is no worker's own. -/
def Over (s : Scheduler) (f : Nat) : Prop :=
  (s.state f).ended = true ∧
    ∀ (i : Nat) (w : Worker), s.workers[i]? = some w → w.cb_fiber ≠ some f

/-! ## The invariant -/

/-- What the phase of a worker says of a fiber. -/
structure Settled (s : Scheduler) (w : Worker) (f : Nat) : Prop where
  own_iff : w.phase.fiber = some f → (w.phase.own = true ↔ w.cb_fiber = some f)
  entering : ∀ own, w.phase = .entering f own → (s.state f).ended = false
  requeue : ∀ own, w.phase = .requeue f own → s.state f = .READY
  holding : ∀ own, w.phase = .holding f own → (s.state f).ended = false
  /-- An own fiber that is not in use is not in `RUNING`. -/
  idle : w.cb_fiber = some f → w.phase.fiber ≠ some f → s.state f ≠ .RUNING

/-- One worker, one queue entry, and with both of them `RUNING`. -/
structure Exclusive (s : Scheduler) (f : Nat) : Prop where
  alone : ∀ (i j : Nat) (wi wj : Worker), s.workers[i]? = some wi → s.workers[j]? = some wj →
    wi.Holds f → wj.Holds f → i = j
  once : s.entries f ≤ 1
  quiet : ∀ (i : Nat) (w : Worker), s.workers[i]? = some w → w.Holds f → 0 < s.entries f →
    s.state f = .RUNING
  settled : ∀ (i : Nat) (w : Worker), s.workers[i]? = some w → s.Settled w f

/-- Over, and no worker is to swap it in or to queue or hold it again. -/
structure Done (s : Scheduler) (f : Nat) : Prop where
  gone : s.Over f
  alone : ∀ (i j : Nat) (wi wj : Worker) (own own' : Bool), s.workers[i]? = some wi →
    s.workers[j]? = some wj → wi.phase = .running f own → wj.phase = .running f own' → i = j
  calm : ∀ (i : Nat) (w : Worker), s.workers[i]? = some w → w.phase.fiber = some f →
    w.phase.own = false ∧
      ∀ own, w.phase ≠ .entering f own ∧ w.phase ≠ .requeue f own ∧ w.phase ≠ .holding f own

/-- Every fiber a queue entry or a worker names exists. -/
structure Named (s : Scheduler) : Prop where
  queue : ∀ ft ∈ s.m_fibers, ∀ f, ft.fiber = some f → f < s.nextFiber
  workers : ∀ (i : Nat) (w : Worker), s.workers[i]? = some w → ∀ f, w.Holds f →
    f < s.nextFiber

/-- The invariant of careful runs. -/
structure Tidy (s : Scheduler) : Prop where
  named : s.Named
  fibers : ∀ f, s.Exclusive f ∨ s.Done f

/-- An exclusive fiber that is over is done. -/
theorem Exclusive.done {s : Scheduler} {f : Nat} (h : s.Exclusive f) (hover : s.Over f) :
    s.Done f where
  gone := hover
  alone := by
    intro i j wi wj own own' hwi hwj hi hj
    exact h.alone i j wi wj hwi hwj (Or.inl (by rw [hi]; rfl)) (Or.inl (by rw [hj]; rfl))
  calm := by
    intro i w hw hfiber
    have hsettled := h.settled i w hw
    refine ⟨?_, fun own => ⟨?_, ?_, ?_⟩⟩
    · cases hown : w.phase.own with
      | false => rfl
      | true => exact absurd ((hsettled.own_iff hfiber).mp hown) (hover.2 i w hw)
    · intro hphase
      have := hsettled.entering own hphase
      rw [hover.1] at this
      cases this
    · intro hphase
      have hended := hover.1
      rw [hsettled.requeue own hphase] at hended
      cases hended
    · intro hphase
      have := hsettled.holding own hphase
      rw [hover.1] at this
      cases this

/-! ## A step of one worker -/

section Update

variable {s t : Scheduler} {i f : Nat} {w w' : Worker}

/-- A worker that has nothing to do with a fiber says nothing of it. -/
theorem settled_of_not_holds (h : ¬w.Holds f) : s.Settled w f := by
  have hphase : ∀ {p : Phase}, w.phase = p → p.fiber ≠ some f := by
    intro p hp hfiber
    exact h (Or.inl (by rw [hp]; exact hfiber))
  refine ⟨fun hfiber => absurd hfiber (hphase rfl), ?_, ?_, ?_, fun hcb => absurd (Or.inr hcb) h⟩
  · exact fun own hp => absurd rfl (hphase hp)
  · exact fun own hp => absurd rfl (hphase hp)
  · exact fun own hp => absurd rfl (hphase hp)

theorem Settled.congr (h : s.Settled w f) (hstate : t.state f = s.state f) : t.Settled w f := by
  refine ⟨h.own_iff, ?_, ?_, ?_, ?_⟩
  · rw [hstate]
    exact h.entering
  · rw [hstate]
    exact h.requeue
  · rw [hstate]
    exact h.holding
  · rw [hstate]
    exact h.idle

/-- A step that gives the fiber no new entry, state or worker. -/
theorem Exclusive.update (h : s.Exclusive f) (hw : s.workers[i]? = some w)
    (hset : t.workers = s.workers.set i w') (hstate : t.state f = s.state f)
    (hentries : t.entries f ≤ s.entries f) (hholds : w'.Holds f → w.Holds f)
    (hsettled : t.Settled w' f) : t.Exclusive f := by
  have hold : ∀ {j : Nat} {wj : Worker}, t.workers[j]? = some wj → wj.Holds f →
      ∃ wj', s.workers[j]? = some wj' ∧ wj'.Holds f := by
    intro j wj hj hholdsj
    rcases worker_of_set hset hj with ⟨rfl, rfl⟩ | ⟨_, hj'⟩
    · exact ⟨w, hw, hholds hholdsj⟩
    · exact ⟨wj, hj', hholdsj⟩
  refine ⟨?_, Nat.le_trans hentries h.once, ?_, ?_⟩
  · intro a b wa wb ha hb hha hhb
    obtain ⟨wa', ha', hha'⟩ := hold ha hha
    obtain ⟨wb', hb', hhb'⟩ := hold hb hhb
    exact h.alone a b wa' wb' ha' hb' hha' hhb'
  · intro j wj hj hholdsj hpos
    obtain ⟨wj', hj', hholdsj'⟩ := hold hj hholdsj
    rw [hstate]
    exact h.quiet j wj' hj' hholdsj' (Nat.lt_of_lt_of_le hpos hentries)
  · intro j wj hj
    rcases worker_of_set hset hj with ⟨_, rfl⟩ | ⟨_, hj'⟩
    · exact hsettled
    · exact (h.settled j wj hj').congr hstate

/-- After a step of a worker that no other holds the fiber beside. -/
theorem exclusive_of_alone (hset : t.workers = s.workers.set i w')
    (halone : ∀ (j : Nat) (wj : Worker), j ≠ i → s.workers[j]? = some wj → ¬wj.Holds f)
    (honce : t.entries f ≤ 1) (hquiet : w'.Holds f → 0 < t.entries f → t.state f = .RUNING)
    (hsettled : t.Settled w' f) : t.Exclusive f := by
  have honly : ∀ {j : Nat} {wj : Worker}, t.workers[j]? = some wj → wj.Holds f →
      j = i ∧ wj = w' := by
    intro j wj hj hholds
    rcases worker_of_set hset hj with hsame | ⟨hne, hj'⟩
    · exact hsame
    · exact absurd hholds (halone j wj hne hj')
  refine ⟨?_, honce, ?_, ?_⟩
  · intro a b wa wb ha hb hha hhb
    rw [(honly ha hha).1, (honly hb hhb).1]
  · intro j wj hj hholds
    obtain ⟨_, rfl⟩ := honly hj hholds
    exact hquiet hholds
  · intro j wj hj
    rcases worker_of_set hset hj with ⟨_, rfl⟩ | ⟨hne, hj'⟩
    · exact hsettled
    · exact settled_of_not_holds (halone j wj hne hj')

/-- Beside a worker that holds the fiber no other does. -/
theorem Exclusive.others (h : s.Exclusive f) (hw : s.workers[i]? = some w)
    (hholds : w.Holds f) :
    ∀ (j : Nat) (wj : Worker), j ≠ i → s.workers[j]? = some wj → ¬wj.Holds f :=
  fun j wj hne hj hother => hne (h.alone j i wj w hj hw hother hholds)

/-- Only one worker holds the fiber. -/
theorem Exclusive.holder (h : s.Exclusive f) (hw : s.workers[i]? = some w)
    (hholds : w.Holds f) {j : Nat} {wj : Worker} (hj : s.workers[j]? = some wj)
    (hother : wj.Holds f) : wj = w := by
  have hji := h.alone j i wj w hj hw hother hholds
  subst hji
  exact Option.some.inj (hj.symm.trans hw)

/-- A fiber that is held and not in `RUNING` has no entry. -/
theorem Exclusive.unqueued (h : s.Exclusive f) (hw : s.workers[i]? = some w)
    (hholds : w.Holds f) (hidle : s.state f ≠ .RUNING) : s.entries f = 0 :=
  Nat.eq_zero_of_not_pos fun hpos => hidle (h.quiet i w hw hholds hpos)

/-- A step that leaves a fiber that is done alone, or passes it on. -/
theorem Done.update (h : s.Done f) (hw : s.workers[i]? = some w)
    (hset : t.workers = s.workers.set i w') (hstate : t.state f = s.state f)
    (hcb : w'.cb_fiber ≠ some f)
    (hrunning : ∀ own, w'.phase = .running f own → ∃ own', w.phase = .running f own')
    (hcalm : w'.phase.fiber = some f → w'.phase.own = false ∧
      ∀ own, w'.phase ≠ .entering f own ∧ w'.phase ≠ .requeue f own ∧
        w'.phase ≠ .holding f own) : t.Done f := by
  refine ⟨⟨by rw [hstate]; exact h.gone.1, ?_⟩, ?_, ?_⟩
  · intro j wj hj
    rcases worker_of_set hset hj with ⟨_, rfl⟩ | ⟨_, hj'⟩
    · exact hcb
    · exact h.gone.2 j wj hj'
  · have hold : ∀ {j : Nat} {wj : Worker} {own : Bool}, t.workers[j]? = some wj →
        wj.phase = .running f own → ∃ wj' own', s.workers[j]? = some wj' ∧
          wj'.phase = .running f own' := by
      intro j wj own hj hrun
      rcases worker_of_set hset hj with ⟨rfl, rfl⟩ | ⟨_, hj'⟩
      · obtain ⟨own', hrun'⟩ := hrunning own hrun
        exact ⟨w, own', hw, hrun'⟩
      · exact ⟨wj, own, hj', hrun⟩
    intro a b wa wb own own' ha hb hra hrb
    obtain ⟨wa', oa, ha', hra'⟩ := hold ha hra
    obtain ⟨wb', ob, hb', hrb'⟩ := hold hb hrb
    exact h.alone a b wa' wb' oa ob ha' hb' hra' hrb'
  · intro j wj hj hfiber
    rcases worker_of_set hset hj with ⟨_, rfl⟩ | ⟨_, hj'⟩
    · exact hcalm hfiber
    · exact h.calm j wj hj' hfiber

/-- What a step adds to the names. -/
theorem Named.update (h : s.Named) (hw : s.workers[i]? = some w)
    (hset : t.workers = s.workers.set i w') (hnext : s.nextFiber ≤ t.nextFiber)
    (hqueue : ∀ ft ∈ t.m_fibers, ft ∈ s.m_fibers ∨ ∀ f, ft.fiber = some f → f < t.nextFiber)
    (hholds : ∀ f, w'.Holds f → w.Holds f ∨ f < t.nextFiber) : t.Named := by
  refine ⟨?_, ?_⟩
  · intro ft hft f hf
    rcases hqueue ft hft with hold | hnew
    · exact Nat.lt_of_lt_of_le (h.queue ft hold f hf) hnext
    · exact hnew f hf
  · intro j wj hj f hf
    rcases worker_of_set hset hj with ⟨_, rfl⟩ | ⟨_, hj'⟩
    · rcases hholds f hf with hold | hnew
      · exact Nat.lt_of_lt_of_le (h.workers i w hw f hold) hnext
      · exact hnew
    · exact Nat.lt_of_lt_of_le (h.workers j wj hj' f hf) hnext

/-- A worker goes on with the fiber it holds, or lets go of one that is not its own. -/
theorem Tidy.rephase (h : s.Tidy) (hw : s.workers[i]? = some w)
    (hset : t.workers = s.workers.set i w') (hstate : t.state = s.state)
    (hnext : t.nextFiber = s.nextFiber) (hqueue : t.m_fibers.Sublist s.m_fibers)
    (hcb : w'.cb_fiber = w.cb_fiber)
    (hfiber : w'.phase.fiber = w.phase.fiber ∧ w'.phase.own = w.phase.own ∨
      w'.phase.fiber = none ∧ w.phase.own = false)
    (hentering : ∀ f own, w'.phase = .entering f own → (s.state f).ended = false)
    (hrequeue : ∀ f own, w'.phase = .requeue f own → s.state f = .READY)
    (hholding : ∀ f own, w'.phase = .holding f own → (s.state f).ended = false)
    (hrunning : ∀ f own, w'.phase ≠ .running f own) : t.Tidy := by
  have hkeep : ∀ f, w'.phase.fiber = some f →
      w.phase.fiber = some f ∧ w'.phase.own = w.phase.own := by
    intro f hf
    rcases hfiber with ⟨heq, hown⟩ | ⟨hnone, _⟩
    · exact ⟨by rw [← heq]; exact hf, hown⟩
    · rw [hnone] at hf
      cases hf
  have hholds : ∀ f, w'.Holds f → w.Holds f := by
    rintro f (hf | hf)
    · exact Or.inl (hkeep f hf).1
    · exact Or.inr (by rw [← hcb]; exact hf)
  refine ⟨h.named.update hw hset (Nat.le_of_eq hnext.symm)
    (fun ft hft => Or.inl (hqueue.subset hft)) (fun f hf => Or.inl (hholds f hf)), fun f => ?_⟩
  have hstate' : t.state f = s.state f := by rw [hstate]
  rcases h.fibers f with hexcl | hdone
  · have hold := hexcl.settled i w hw
    refine Or.inl (hexcl.update hw hset hstate' hqueue.countP_le (hholds f) ?_)
    refine ⟨?_, ?_, ?_, ?_, ?_⟩
    · intro hf
      obtain ⟨hf', hown⟩ := hkeep f hf
      rw [hown, hcb]
      exact hold.own_iff hf'
    · intro own hphase
      rw [hstate']
      exact hentering f own hphase
    · intro own hphase
      rw [hstate']
      exact hrequeue f own hphase
    · intro own hphase
      rw [hstate']
      exact hholding f own hphase
    · intro hf hne
      rw [hstate']
      rw [hcb] at hf
      refine hold.idle hf fun hfiber' => ?_
      rcases hfiber with ⟨heq, _⟩ | ⟨_, hown⟩
      · exact hne (heq.trans hfiber')
      · have := (hold.own_iff hfiber').mpr hf
        rw [hown] at this
        cases this
  · have hended := hdone.gone.1
    refine Or.inr (hdone.update hw hset hstate' ?_ ?_ ?_)
    · rw [hcb]
      exact hdone.gone.2 i w hw
    · exact fun own hphase => absurd hphase (hrunning f own)
    · intro hf
      obtain ⟨hf', hown⟩ := hkeep f hf
      refine ⟨hown.trans (hdone.calm i w hw hf').1, fun own => ⟨?_, ?_, ?_⟩⟩
      · intro hphase
        rw [hentering f own hphase] at hended
        cases hended
      · intro hphase
        rw [hrequeue f own hphase] at hended
        cases hended
      · intro hphase
        rw [hholding f own hphase] at hended
        cases hended

/-- A worker goes on to a phase that is about no fiber. -/
theorem Tidy.rest (h : s.Tidy) (hw : s.workers[i]? = some w)
    (hset : t.workers = s.workers.set i w') (hstate : t.state = s.state)
    (hnext : t.nextFiber = s.nextFiber) (hqueue : t.m_fibers.Sublist s.m_fibers)
    (hcb : w'.cb_fiber = w.cb_fiber) (hnone : w'.phase.fiber = none)
    (hown : w.phase.own = false) : t.Tidy := by
  have hno : ∀ {p : Phase} {f : Nat}, w'.phase = p → p.fiber ≠ some f := by
    rintro p f rfl hf
    cases hnone.symm.trans hf
  refine h.rephase hw hset hstate hnext hqueue hcb (Or.inr ⟨hnone, hown⟩) ?_ ?_ ?_ ?_
  · exact fun _ _ hp => absurd rfl (hno hp)
  · exact fun _ _ hp => absurd rfl (hno hp)
  · exact fun _ _ hp => absurd rfl (hno hp)
  · exact fun _ _ hp => absurd rfl (hno hp)

/-- A step that concerns one fiber: it is enough to look at that one. -/
theorem Tidy.change (h : s.Tidy) (hw : s.workers[i]? = some w)
    (hset : t.workers = s.workers.set i w') {g : Nat}
    (hstate : ∀ f, f ≠ g → t.state f = s.state f)
    (hentries : ∀ f, f ≠ g → t.entries f ≤ s.entries f)
    (hphase : ∀ f, f ≠ g → w'.phase.fiber ≠ some f)
    (hcb : ∀ f, f ≠ g → w'.cb_fiber = some f → w.cb_fiber = some f ∧ w.phase.fiber ≠ some f)
    (hg : t.Exclusive g ∨ t.Done g) (hnamed : t.Named) : t.Tidy := by
  refine ⟨hnamed, fun f => ?_⟩
  by_cases hfg : f = g
  · rw [hfg]
    exact hg
  · have hno : ∀ {p : Phase}, w'.phase = p → p.fiber ≠ some f := by
      rintro p rfl
      exact hphase f hfg
    rcases h.fibers f with hexcl | hdone
    · refine Or.inl (hexcl.update hw hset (hstate f hfg) (hentries f hfg) ?_ ?_)
      · rintro (hf | hf)
        · exact absurd hf (hphase f hfg)
        · exact Or.inr (hcb f hfg hf).1
      · refine ⟨fun hf => absurd hf (hphase f hfg), ?_, ?_, ?_, ?_⟩
        · exact fun own hp => absurd rfl (hno hp)
        · exact fun own hp => absurd rfl (hno hp)
        · exact fun own hp => absurd rfl (hno hp)
        · intro hf _
          obtain ⟨hf', hne⟩ := hcb f hfg hf
          rw [hstate f hfg]
          exact (hexcl.settled i w hw).idle hf' hne
    · refine Or.inr (hdone.update hw hset (hstate f hfg) ?_ ?_ ?_)
      · exact fun hf => hdone.gone.2 i w hw (hcb f hfg hf).1
      · exact fun own hp => absurd rfl (hno hp)
      · exact fun hf => absurd hf (hphase f hfg)

end Update

/-- A step that touches no worker and no fiber. -/
theorem Exclusive.congr {s t : Scheduler} {f : Nat} (h : s.Exclusive f)
    (hworkers : t.workers = s.workers) (hstate : t.state f = s.state f)
    (honce : t.entries f ≤ 1)
    (hquiet : ∀ (i : Nat) (w : Worker), s.workers[i]? = some w → w.Holds f → 0 < t.entries f →
      s.state f = .RUNING) : t.Exclusive f := by
  refine ⟨?_, honce, ?_, ?_⟩
  · rw [hworkers]
    exact h.alone
  · rw [hworkers, hstate]
    exact hquiet
  · rw [hworkers]
    exact fun i w hw => (h.settled i w hw).congr hstate

theorem Done.congr {s t : Scheduler} {f : Nat} (h : s.Done f) (hworkers : t.workers = s.workers)
    (hstate : t.state f = s.state f) : t.Done f := by
  refine ⟨⟨by rw [hstate]; exact h.gone.1, by rw [hworkers]; exact h.gone.2⟩, ?_, ?_⟩
  · rw [hworkers]
    exact h.alone
  · rw [hworkers]
    exact h.calm

end Scheduler

end Muqiu
