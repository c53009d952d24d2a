import Muqiu.Scheduler.Holders

/-!
# One worker to a fiber

The scan passes over fibers in `RUNING`, but a fiber that is taken gets that state only in
`swapIn`, outside the lock.  In between nothing but the lack of a second queue entry keeps
another worker off it.

`Careful` says what a run must keep to: a fiber is scheduled only when no entry for it is
queued and no worker holds it in another state than `RUNING`, and a running fiber leaves
`RUNING` only when no entry for it is queued.  Fibers that are over are exempt.  In such a
run no two workers execute one fiber or are committed to.
-/

namespace Muqiu

open Runs

namespace Scheduler

/-- Worker `w` executes fiber `f` or is committed to: with its task taken and nothing but the
state of the fiber to test, before `swapIn` or inside. -/
def Uses (s : Scheduler) (w : Worker) (f : Nat) : Prop :=
  match w.phase with
  | .taken ft =>
      ft.fiber = some f ∧ (s.state f).ended = false ∨
        (ft.fiber.filter fun g => !(s.state g).ended) = none ∧ ft.cb.isSome ∧
          w.cb_fiber = some f
  | .entering g _ => g = f
  | .running g _ => g = f
  | _ => False

/-- No two workers use one fiber. -/
def Exclusion (s : Scheduler) : Prop :=
  ∀ (f i j : Nat) (wi wj : Worker), s.workers[i]? = some wi → s.workers[j]? = some wj →
    s.Uses wi f → s.Uses wj f → i = j

/-! ## What a run must keep to -/

/-- The fiber exists and may get a queue entry. -/
def Schedulable (s : Scheduler) (f : Nat) : Prop :=
  f < s.nextFiber ∧ (s.Over f ∨ s.entries f = 0 ∧ (s.state f = .RUNING ∨ ¬s.Held f))

/-- Every fiber scheduled may be, and only one that is over twice at once; a running fiber
leaves `RUNING` only with no entry queued, or to end when it is not the worker's own. -/
def Careful (s : Scheduler) (a : Act) (_ : Scheduler) : Prop :=
  match a with
  | .schedule fts =>
      (∀ ft ∈ fts, ∀ f, ft.fiber = some f → s.Schedulable f) ∧
        ∀ f, 1 < (fts.countP fun ft => ft.fiber = some f) → s.Over f
  | .setState i st =>
      ∀ w f own, s.workers[i]? = some w → w.phase = .running f own →
        st = .RUNING ∨ s.entries f = 0 ∨ st.ended = true ∧ own = false
  | _ => True

theorem Uses.holds {s : Scheduler} {w : Worker} {f : Nat} (h : s.Uses w f) : w.Holds f := by
  cases hphase : w.phase with
  | taken ft =>
      simp only [Uses, hphase] at h
      rcases h with ⟨hfiber, _⟩ | ⟨_, _, hcb⟩
      · exact Or.inl (by rw [hphase]; exact hfiber)
      · exact Or.inr hcb
  | entering g own =>
      simp only [Uses, hphase] at h
      exact Or.inl (by rw [hphase, h]; rfl)
  | running g own =>
      simp only [Uses, hphase] at h
      exact Or.inl (by rw [hphase, h]; rfl)
  | _ => simp [Uses, hphase] at h

/-- A worker that uses a fiber that is done is inside its `swapIn`. -/
theorem Done.uses {s : Scheduler} {f i : Nat} {w : Worker} (h : s.Done f)
    (hw : s.workers[i]? = some w) (huses : s.Uses w f) : ∃ own, w.phase = .running f own := by
  cases hphase : w.phase with
  | taken ft =>
      simp only [Uses, hphase] at huses
      rcases huses with ⟨_, hended⟩ | ⟨_, _, hcb⟩
      · rw [h.gone.1] at hended
        cases hended
      · exact absurd hcb (h.gone.2 i w hw)
  | entering g own =>
      simp only [Uses, hphase] at huses
      subst huses
      exact absurd hphase ((h.calm i w hw (by rw [hphase]; rfl)).2 own).1
  | running g own =>
      simp only [Uses, hphase] at huses
      exact ⟨own, by rw [huses]⟩
  | _ => simp [Uses, hphase] at huses

theorem Tidy.exclusion {s : Scheduler} (h : s.Tidy) : s.Exclusion := by
  intro f i j wi wj hwi hwj hi hj
  rcases h.fibers f with hexcl | hdone
  · exact hexcl.alone i j wi wj hwi hwj hi.holds hj.holds
  · obtain ⟨own, hrun⟩ := hdone.uses hwi hi
    obtain ⟨own', hrun'⟩ := hdone.uses hwj hj
    exact hdone.alone i j wi wj own own' hwi hwj hrun hrun'

/-! ## The steps -/

theorem setState_same (s : Scheduler) (f : Nat) (st : FiberState) :
    (s.setState f st).state f = st := by
  rw [setState]
  exact Function.update_self f st s.state

private theorem le_one_of_zero {n : Nat} (h : n = 0) : n ≤ 1 := by omega

theorem takeFirst_split {p : FiberAndThread → Bool} {fts rest : List FiberAndThread}
    {ft : FiberAndThread} (h : takeFirst p fts = some (ft, rest)) :
    p ft = true ∧ ∃ before after, fts = before ++ ft :: after ∧ rest = before ++ after := by
  induction fts generalizing rest with
  | nil => cases h
  | cons x fts ih =>
      rw [takeFirst] at h
      split at h
      next hp =>
        cases h
        exact ⟨hp, [], fts, rfl, rfl⟩
      next =>
        obtain ⟨⟨ft', rest'⟩, hr, heq⟩ := Option.map_eq_some_iff.mp h
        cases heq
        obtain ⟨hp, before, after, hfts, hrest⟩ := ih hr
        exact ⟨hp, x :: before, after, by rw [hfts]; rfl, by rw [hrest]; rfl⟩

theorem Tidy.scan {s : Scheduler} {i : Nat} {w : Worker} (h : s.Tidy)
    (hw : s.workers[i]? = some w) (hphase : w.phase = .scan) : (s.scan i w).Tidy := by
  rw [Scheduler.scan]
  cases htake : takeFirst (s.eligible w.thread) s.m_fibers with
  | none =>
      exact h.rest hw rfl rfl rfl (List.Sublist.refl _) rfl rfl (by rw [hphase]; rfl)
  | some r =>
      obtain ⟨ft, rest⟩ := r
      obtain ⟨heligible, before, after, hsplit, hrest⟩ := takeFirst_split htake
      have hsub : rest.Sublist s.m_fibers := by
        rw [hsplit, hrest]
        exact (List.Sublist.refl before).append (List.sublist_cons_self ft after)
      cases hft : ft.fiber with
      | none =>
          exact h.rest hw rfl rfl rfl hsub rfl hft (by rw [hphase]; rfl)
      | some g =>
          have hstate : s.state g ≠ .RUNING := by
            rw [eligible, hft, Bool.and_eq_true, decide_eq_true_iff] at heligible
            exact heligible.2
          have hcount : s.entries g =
              rest.countP (fun ft => decide (ft.fiber = some g)) + 1 := by
            rw [entries, hsplit, hrest, List.countP_append, List.countP_append,
              List.countP_cons_of_pos (by simpa using hft), Nat.add_assoc]
          refine h.change hw rfl (g := g) (fun _ _ => rfl)
            (fun f _ => hsub.countP_le) ?_ ?_ ?_ ?_
          · intro f hne hf
            exact hne (Option.some.inj (hf.symm.trans hft))
          · intro f _ hf
            exact ⟨hf, by rw [hphase]; rintro ⟨⟩⟩
          · rcases h.fibers g with hexcl | hdone
            · have hfree : ∀ (j : Nat) (wj : Worker), s.workers[j]? = some wj →
                  ¬wj.Holds g := by
                intro j wj hj hholds
                exact hstate (hexcl.quiet j wj hj hholds (by omega))
              have hzero : rest.countP (fun ft => decide (ft.fiber = some g)) = 0 := by
                have := hexcl.once
                omega
              have hcb : w.cb_fiber ≠ some g := fun hcb => hfree i w hw (Or.inr hcb)
              refine Or.inl (exclusive_of_alone rfl (fun j wj _ hj => hfree j wj hj) ?_ ?_ ?_)
              · exact le_one_of_zero hzero
              · intro _ hpos
                exact absurd hzero (Nat.ne_of_gt hpos)
              · refine ⟨fun _ => ⟨?_, fun hf => absurd hf hcb⟩, ?_, ?_, ?_,
                  fun hf => absurd hf hcb⟩
                · rintro ⟨⟩
                · rintro _ ⟨⟩
                · rintro _ ⟨⟩
                · rintro _ ⟨⟩
            · refine Or.inr (hdone.update hw rfl rfl (hdone.gone.2 i w hw) ?_ ?_)
              · rintro _ ⟨⟩
              · refine fun _ => ⟨rfl, fun own => ⟨?_, ?_, ?_⟩⟩
                · rintro ⟨⟩
                · rintro ⟨⟩
                · rintro ⟨⟩
          · refine h.named.update hw rfl (Nat.le_refl _)
              (fun ft' hft' => Or.inl (hsub.subset hft')) ?_
            rintro f (hf | hf)
            · refine Or.inr (h.named.queue ft ?_ f hf)
              rw [hsplit]
              exact List.mem_append_right _ List.mem_cons_self
            · exact Or.inl (Or.inr hf)

/-- The worker's own fiber is reset and gets the callback. -/
theorem Tidy.reuse {s : Scheduler} {i g : Nat} {w : Worker} (h : s.Tidy)
    (hw : s.workers[i]? = some w) (hown : w.phase.own = false) (hcb : w.cb_fiber = some g) :
    ((s.setState g .INIT).setWorker i { w with phase := .entering g true }).Tidy := by
  have hg : w.Holds g := Or.inr hcb
  refine h.change hw rfl (g := g) (fun f hf => Function.update_of_ne hf _ _)
    (fun _ _ => Nat.le_refl _) ?_ ?_ ?_ ?_
  · intro f hne hf
    exact hne (Option.some.inj hf).symm
  · intro f hne hf
    exact absurd (Option.some.inj (hcb.symm.trans hf)).symm hne
  · rcases h.fibers g with hexcl | hdone
    · have hsettled := hexcl.settled i w hw
      have hother : w.phase.fiber ≠ some g := by
        intro hfiber
        rw [(hsettled.own_iff hfiber).mpr hcb] at hown
        cases hown
      have hzero := hexcl.unqueued hw hg (hsettled.idle hcb hother)
      refine Or.inl (exclusive_of_alone rfl (hexcl.others hw hg) hexcl.once ?_ ?_)
      · intro _ hpos
        exact absurd hzero (Nat.ne_of_gt hpos)
      · refine ⟨fun _ => ⟨fun _ => hcb, fun _ => rfl⟩, ?_, ?_, ?_, ?_⟩
        · intro own _
          exact (congrArg FiberState.ended (setState_same s g .INIT)).trans rfl
        · rintro _ ⟨⟩
        · rintro _ ⟨⟩
        · exact fun _ hne => absurd rfl hne
    · exact absurd hcb (hdone.gone.2 i w hw)
  · refine h.named.update hw rfl (Nat.le_refl _) (fun ft' hft' => Or.inl hft') ?_
    rintro f (hf | hf)
    · exact Or.inl (Or.inr (hcb.trans hf))
    · exact Or.inl (Or.inr hf)

/-- A new fiber of the worker's own gets the callback. -/
theorem Tidy.create {s : Scheduler} {i : Nat} {w : Worker} (h : s.Tidy)
    (hw : s.workers[i]? = some w) :
    (({ s with nextFiber := s.nextFiber + 1 }.setState s.nextFiber .RUNING).setWorker i
      { w with cb_fiber := some s.nextFiber, phase := .entering s.nextFiber true }).Tidy := by
  have hfree : ∀ (j : Nat) (wj : Worker), s.workers[j]? = some wj → ¬wj.Holds s.nextFiber := by
    intro j wj hj hholds
    exact Nat.lt_irrefl _ (h.named.workers j wj hj _ hholds)
  have hrunning : Function.update s.state s.nextFiber .RUNING s.nextFiber = .RUNING :=
    Function.update_self _ _ _
  have hzero : s.entries s.nextFiber = 0 := by
    rw [entries, List.countP_eq_zero]
    intro ft' hft' hf
    exact Nat.lt_irrefl _ (h.named.queue ft' hft' _ (of_decide_eq_true hf))
  refine h.change hw rfl (g := s.nextFiber) (fun f hf => Function.update_of_ne hf _ _)
    (fun _ _ => Nat.le_refl _) ?_ ?_ ?_ ?_
  · intro f hne hf
    exact hne (Option.some.inj hf).symm
  · intro f hne hf
    exact absurd (Option.some.inj hf).symm hne
  · refine Or.inl (exclusive_of_alone rfl (fun j wj _ hj => hfree j wj hj)
      (le_one_of_zero hzero) ?_ ?_)
    · exact fun _ _ => hrunning
    · refine ⟨fun _ => ⟨fun _ => rfl, fun _ => rfl⟩, ?_, ?_, ?_, ?_⟩
      · intro own _
        exact (congrArg FiberState.ended hrunning).trans rfl
      · rintro _ ⟨⟩
      · rintro _ ⟨⟩
      · exact fun _ hne => absurd rfl hne
  · refine h.named.update hw rfl (Nat.le_succ _) (fun ft' hft' => Or.inl hft') ?_
    rintro f (hf | hf)
    · rw [← Option.some.inj hf]
      exact Or.inr (Nat.lt_succ_self _)
    · rw [← Option.some.inj hf]
      exact Or.inr (Nat.lt_succ_self _)

theorem Tidy.begin {s : Scheduler} {i : Nat} {w : Worker} {ft : FiberAndThread} (h : s.Tidy)
    (hw : s.workers[i]? = some w) (hphase : w.phase = .taken ft) :
    (s.begin i w ft).Tidy := by
  have hown : w.phase.own = false := by rw [hphase]; rfl
  rw [Scheduler.begin]
  split
  next f _ hfilter =>
    obtain ⟨hf, hended⟩ := Option.filter_eq_some_iff.mp hfilter
    rw [Bool.not_eq_true'] at hended
    refine h.rephase hw rfl rfl rfl (List.Sublist.refl _) rfl
      (Or.inl ⟨by rw [hphase]; exact hf.symm, hown.symm⟩) ?_ (by rintro _ _ ⟨⟩)
      (by rintro _ _ ⟨⟩) (by rintro _ _ ⟨⟩)
    rintro _ _ ⟨⟩
    exact hended
  next =>
    split
    next g hcb => exact h.reuse hw hown hcb
    next => exact h.create hw
  next => exact h.rest hw rfl rfl rfl (List.Sublist.refl _) rfl rfl hown

theorem Tidy.enter {s : Scheduler} {i g : Nat} {w : Worker} {own : Bool} (h : s.Tidy)
    (hw : s.workers[i]? = some w) (hphase : w.phase = .entering g own) :
    (s.enter i w g own).Tidy := by
  have hfiber : w.phase.fiber = some g := by rw [hphase]; rfl
  have hg : w.Holds g := Or.inl hfiber
  refine h.change hw rfl (g := g) (fun f hf => Function.update_of_ne hf _ _)
    (fun _ _ => Nat.le_refl _) ?_ ?_ ?_ ?_
  · intro f hne hf
    exact hne (Option.some.inj hf).symm
  · intro f hne hf
    refine ⟨hf, fun hf' => ?_⟩
    exact hne (Option.some.inj (hf'.symm.trans hfiber))
  · rcases h.fibers g with hexcl | hdone
    · have hiff := (hexcl.settled i w hw).own_iff hfiber
      rw [hphase] at hiff
      refine Or.inl (exclusive_of_alone rfl (hexcl.others hw hg) hexcl.once ?_ ?_)
      · exact fun _ _ => setState_same s g .RUNING
      · refine ⟨fun _ => hiff, ?_, ?_, ?_, ?_⟩
        · rintro _ ⟨⟩
        · rintro _ ⟨⟩
        · rintro _ ⟨⟩
        · exact fun _ hne => absurd rfl hne
    · exact absurd hphase ((hdone.calm i w hw hfiber).2 own).1
  · refine h.named.update hw rfl (Nat.le_refl _) (fun ft' hft' => Or.inl hft') ?_
    rintro f (hf | hf)
    · exact Or.inl (Or.inl (hfiber.trans hf))
    · exact Or.inl (Or.inr hf)

/-- A fiber that sets its own state, as `Careful` has it. -/
theorem Tidy.setState {s : Scheduler} {i g : Nat} {w : Worker} {own : Bool} {st : FiberState}
    (h : s.Tidy) (hw : s.workers[i]? = some w) (hphase : w.phase = .running g own)
    (hended : (s.state g).ended = false)
    (hst : st = .RUNING ∨ s.entries g = 0 ∨ st.ended = true ∧ own = false) :
    (s.setState g st).Tidy := by
  have hfiber : w.phase.fiber = some g := by rw [hphase]; rfl
  have hg : w.Holds g := Or.inl hfiber
  have hstate := setState_same s g st
  obtain ⟨hi, hget⟩ := List.getElem?_eq_some_iff.mp hw
  have hset : (s.setState g st).workers = s.workers.set i w := by
    rw [← hget, List.set_getElem_self]
    rfl
  refine h.change hw hset (g := g) (fun f hf => Function.update_of_ne hf _ _)
    (fun _ _ => Nat.le_refl _) ?_ ?_ ?_ ?_
  · intro f hne hf
    exact hne (Option.some.inj (hf.symm.trans hfiber))
  · intro f hne hf
    refine ⟨hf, fun hf' => ?_⟩
    exact hne (Option.some.inj (hf'.symm.trans hfiber))
  · rcases h.fibers g with hexcl | hdone
    · have hiff := (hexcl.settled i w hw).own_iff hfiber
      have halone := hexcl.others hw hg
      have hsettled : (s.setState g st).Settled w g := by
        refine ⟨fun _ => hiff, ?_, ?_, ?_, fun _ hne => absurd hfiber hne⟩
        · intro own' hp
          rw [hphase] at hp
          cases hp
        · intro own' hp
          rw [hphase] at hp
          cases hp
        · intro own' hp
          rw [hphase] at hp
          cases hp
      rcases hst with hrun | hzero | ⟨hst, hown⟩
      · exact Or.inl (exclusive_of_alone hset halone hexcl.once
          (fun _ _ => hstate.trans hrun) hsettled)
      · exact Or.inl (exclusive_of_alone hset halone hexcl.once
          (fun _ hpos => absurd hzero (Nat.ne_of_gt hpos)) hsettled)
      · have hcb : w.cb_fiber ≠ some g := by
          intro hcb
          have := hiff.mpr hcb
          rw [hphase] at this
          exact Bool.false_ne_true (hown.symm.trans this)
        refine Or.inr ⟨⟨by rw [hstate]; exact hst, ?_⟩, ?_, ?_⟩
        · intro j wj hj hcbj
          rw [hexcl.holder hw hg hj (Or.inr hcbj)] at hcbj
          exact hcb hcbj
        · intro a b wa wb oa ob ha hb hra hrb
          exact hexcl.alone a b wa wb ha hb (Or.inl (by rw [hra]; rfl))
            (Or.inl (by rw [hrb]; rfl))
        · intro j wj hj hfiberj
          rw [hexcl.holder hw hg hj (Or.inl hfiberj), hphase]
          refine ⟨hown, fun own' => ⟨?_, ?_, ?_⟩⟩
          · rintro ⟨⟩
          · rintro ⟨⟩
          · rintro ⟨⟩
    · rw [hdone.gone.1] at hended
      cases hended
  · exact h.named.update hw hset (Nat.le_refl _) (fun ft' hft' => Or.inl hft')
      (fun f hf => Or.inl hf)

theorem Tidy.look {s : Scheduler} {i g : Nat} {w : Worker} {own : Bool} (h : s.Tidy)
    (hw : s.workers[i]? = some w) (hphase : w.phase = .counted g own) :
    (s.look i w g own).Tidy := by
  have hfiber : w.phase.fiber = some g := by rw [hphase]; rfl
  have hown : w.phase.own = own := by rw [hphase]; rfl
  rw [Scheduler.look]
  split
  next hready =>
    refine h.rephase hw rfl rfl rfl (List.Sublist.refl _) rfl
      (Or.inl ⟨hfiber.symm, hown.symm⟩) (by rintro _ _ ⟨⟩) ?_ (by rintro _ _ ⟨⟩)
      (by rintro _ _ ⟨⟩)
    rintro _ _ ⟨⟩
    exact hready
  next =>
    split
    next hended =>
      cases own with
      | false =>
          exact h.rest hw rfl rfl rfl (List.Sublist.refl _) rfl rfl hown
      | true =>
          have hg : w.Holds g := Or.inl hfiber
          refine h.change hw rfl (g := g) (fun f hf => Function.update_of_ne hf _ _)
            (fun _ _ => Nat.le_refl _) ?_ ?_ ?_ ?_
          · rintro f _ ⟨⟩
          · intro f hne hf
            refine ⟨hf, fun hf' => ?_⟩
            exact hne (Option.some.inj (hf'.symm.trans hfiber))
          · rcases h.fibers g with hexcl | hdone
            · have hidle : s.state g ≠ .RUNING := by
                intro hrunning
                rw [hrunning] at hended
                cases hended
              have hzero := hexcl.unqueued hw hg hidle
              refine Or.inl (exclusive_of_alone rfl (hexcl.others hw hg) hexcl.once ?_ ?_)
              · exact fun _ hpos => absurd hzero (Nat.ne_of_gt hpos)
              · refine ⟨by rintro ⟨⟩, by rintro _ ⟨⟩, by rintro _ ⟨⟩, by rintro _ ⟨⟩, ?_⟩
                intro _ _ hrunning
                cases (setState_same s g .INIT).symm.trans hrunning
            · have := (hdone.calm i w hw hfiber).1
              rw [hown] at this
              cases this
          · refine h.named.update hw rfl (Nat.le_refl _) (fun ft' hft' => Or.inl hft') ?_
            rintro f (hf | hf)
            · cases hf
            · exact Or.inl (Or.inr hf)
    next hended =>
      refine h.rephase hw rfl rfl rfl (List.Sublist.refl _) rfl
        (Or.inl ⟨hfiber.symm, hown.symm⟩) (by rintro _ _ ⟨⟩) (by rintro _ _ ⟨⟩) ?_
        (by rintro _ _ ⟨⟩)
      rintro _ _ ⟨⟩
      exact Bool.eq_false_iff.mpr hended

/-- The worker that leaves a fiber to the queue holds it no more. -/
theorem Settled.release {s : Scheduler} {w : Worker} {g : Nat} {own : Bool}
    (h : s.Settled w g) (hfiber : w.phase.fiber = some g) (hown : w.phase.own = own) :
    ¬(Worker.release w own).Holds g := by
  rintro (hf | hf)
  · cases hf
  · cases own with
    | true => cases hf
    | false =>
        rw [(h.own_iff hfiber).mpr hf] at hown
        cases hown

theorem release_cb {w : Worker} {own : Bool} {f : Nat}
    (h : (Worker.release w own).cb_fiber = some f) : w.cb_fiber = some f := by
  cases own with
  | true => cases h
  | false => exact h

/-- A worker leaves the fiber it was about to the queue. -/
theorem Tidy.released {s t : Scheduler} {i g : Nat} {w : Worker} {own : Bool} (h : s.Tidy)
    (hw : s.workers[i]? = some w) (hfiber : w.phase.fiber = some g)
    (hown : w.phase.own = own) (hcommitted : ¬s.Done g)
    (hset : t.workers = s.workers.set i (Worker.release w own))
    (hstate : ∀ f, f ≠ g → t.state f = s.state f)
    (hentries : ∀ f, f ≠ g → t.entries f ≤ s.entries f)
    (honce : s.entries g ≤ 1 → t.entries g ≤ 1) (hnext : s.nextFiber = t.nextFiber)
    (hqueue : ∀ ft ∈ t.m_fibers, ft ∈ s.m_fibers ∨ ft.fiber = some g) : t.Tidy := by
  have hg : w.Holds g := Or.inl hfiber
  refine h.change hw hset hstate hentries ?_ ?_ ?_ ?_
  · rintro f _ ⟨⟩
  · intro f hne hf
    refine ⟨release_cb hf, fun hf' => ?_⟩
    exact hne (Option.some.inj (hf'.symm.trans hfiber))
  · rcases h.fibers g with hexcl | hdone
    · have hnot := (hexcl.settled i w hw).release hfiber hown
      exact Or.inl (exclusive_of_alone hset (hexcl.others hw hg) (honce hexcl.once)
        (fun hholds => absurd hholds hnot) (settled_of_not_holds hnot))
    · exact absurd hdone hcommitted
  · refine h.named.update hw hset (Nat.le_of_eq hnext) ?_ ?_
    · intro ft hft
      rcases hqueue ft hft with hold | hnew
      · exact Or.inl hold
      · refine Or.inr fun f hf => ?_
        rw [← Option.some.inj (hnew.symm.trans hf), ← hnext]
        exact h.named.workers i w hw g hg
    · rintro f (hf | hf)
      · cases hf
      · exact Or.inl (Or.inr (release_cb hf))

theorem entries_schedule (s : Scheduler) (fts : List FiberAndThread) (f : Nat) :
    (s.schedule fts).entries f =
      s.entries f + fts.countP fun ft => decide (ft.fiber = some f) := by
  rw [entries, schedule, List.countP_append, List.countP_filter, entries]
  congr 2
  funext ft
  cases hfiber : ft.fiber with
  | none => rfl
  | some g => simp

theorem Tidy.requeueFiber {s : Scheduler} {i g : Nat} {w : Worker} {own : Bool} (h : s.Tidy)
    (hw : s.workers[i]? = some w) (hphase : w.phase = .requeue g own) :
    (s.requeueFiber i w g own).Tidy := by
  have hfiber : w.phase.fiber = some g := by rw [hphase]; rfl
  have hcommitted : ¬s.Done g := fun hdone =>
    ((hdone.calm i w hw hfiber).2 own).2.1 hphase
  have hentries : ∀ f, (s.requeueFiber i w g own).entries f =
      s.entries f + [(⟨some g, none, -1⟩ : FiberAndThread)].countP
        fun ft => decide (ft.fiber = some f) :=
    fun f => entries_schedule s _ f
  refine h.released hw hfiber (by rw [hphase]; rfl) hcommitted rfl (fun _ _ => rfl) ?_ ?_ rfl ?_
  · intro f hne
    rw [hentries, List.countP_cons_of_neg (by simpa using Ne.symm hne)]
    exact Nat.le_refl _
  · intro _
    have hzero : s.entries g = 0 := by
      rcases h.fibers g with hexcl | hdone
      · refine hexcl.unqueued hw (Or.inl hfiber) ?_
        rw [(hexcl.settled i w hw).requeue own hphase]
        rintro ⟨⟩
      · exact absurd hdone hcommitted
    rw [hentries, hzero, List.countP_cons_of_pos (by simp)]
    exact Nat.le_refl _
  · intro ft hft
    rcases List.mem_append.mp hft with hold | hnew
    · exact Or.inl hold
    · rw [List.mem_singleton.mp (List.mem_filter.mp hnew).1]
      exact Or.inr rfl

theorem Tidy.hold {s : Scheduler} {i g : Nat} {w : Worker} {own : Bool} (h : s.Tidy)
    (hw : s.workers[i]? = some w) (hphase : w.phase = .holding g own) :
    (s.hold i w g own).Tidy := by
  have hfiber : w.phase.fiber = some g := by rw [hphase]; rfl
  exact h.released hw hfiber (by rw [hphase]; rfl)
    (fun hdone => ((hdone.calm i w hw hfiber).2 own).2.2 hphase) rfl
    (fun f hf => Function.update_of_ne hf _ _) (fun _ _ => Nat.le_refl _)
    (fun honce => honce) rfl (fun _ hft => Or.inl hft)

theorem Tidy.schedule {s : Scheduler} {fts : List FiberAndThread} (h : s.Tidy)
    (hmay : ∀ ft ∈ fts, ∀ f, ft.fiber = some f → s.Schedulable f)
    (htwice : ∀ f, 1 < (fts.countP fun ft => ft.fiber = some f) → s.Over f) :
    (s.schedule fts).Tidy := by
  refine ⟨⟨?_, h.named.workers⟩, fun f => ?_⟩
  · intro ft hft f hf
    rcases List.mem_append.mp hft with hold | hnew
    · exact h.named.queue ft hold f hf
    · exact (hmay ft (List.mem_filter.mp hnew).1 f hf).1
  · rcases h.fibers f with hexcl | hdone
    · have hentries := entries_schedule s fts f
      generalize hcount : (fts.countP fun ft => decide (ft.fiber = some f)) = n at hentries
      cases n with
      | zero =>
          refine Or.inl (hexcl.congr rfl rfl (by rw [hentries]; exact hexcl.once) ?_)
          rw [hentries]
          exact hexcl.quiet
      | succ n =>
          have hpos := Nat.lt_of_lt_of_eq (Nat.succ_pos n) hcount.symm
          obtain ⟨ft, hft, hf⟩ := List.countP_pos_iff.mp hpos
          rcases (hmay ft hft f (of_decide_eq_true hf)).2 with hover | ⟨hzero, hfree⟩
          · exact Or.inr ((hexcl.done hover).congr rfl rfl)
          · rw [hzero, Nat.zero_add] at hentries
            rcases Nat.eq_zero_or_pos n with hn | hn
            · refine Or.inl (hexcl.congr rfl rfl (by omega) ?_)
              intro i w hw hholds _
              rcases hfree with hrunning | hheld
              · exact hrunning
              · exact absurd ⟨i, w, hw, hholds⟩ hheld
            · have hover := htwice f (by rw [hcount]; exact Nat.succ_lt_succ hn)
              exact Or.inr ((hexcl.done hover).congr rfl rfl)
    · exact Or.inr (hdone.congr rfl rfl)

theorem Tidy.advance {s t : Scheduler} {i : Nat} {w : Worker} (h : s.Tidy)
    (hw : s.workers[i]? = some w) (hstep : s.advance i w = some t) : t.Tidy := by
  cases advance_cases hstep with
  | scan hphase => exact h.scan hw hphase
  | begin ft hphase => exact h.begin hw hphase
  | enter f own hphase => exact h.enter hw hphase
  | account f own hphase =>
      exact h.rephase hw rfl rfl rfl (List.Sublist.refl _) rfl
        (Or.inl ⟨by rw [hphase]; rfl, by rw [hphase]; rfl⟩) (by rintro _ _ ⟨⟩)
        (by rintro _ _ ⟨⟩) (by rintro _ _ ⟨⟩) (by rintro _ _ ⟨⟩)
  | look f own hphase => exact h.look hw hphase
  | requeue f own hphase => exact h.requeueFiber hw hphase
  | hold f own hphase => exact h.hold hw hphase
  | idle hphase =>
      have hno : w.phase.own = false := by rw [hphase]; rfl
      rw [goIdle]
      split
      · exact h.rest hw rfl rfl rfl (List.Sublist.refl _) rfl rfl hno
      · exact h.rest hw rfl rfl rfl (List.Sublist.refl _) rfl rfl hno

/-- A careful step keeps the invariant. -/
theorem Tidy.step {s t : Scheduler} {a : Act} (h : s.Tidy) (hcareful : s.Careful a t)
    (hstep : s.step a = some t) : t.Tidy := by
  cases step_cases hstep with
  | schedule fts => exact h.schedule hcareful.1 hcareful.2
  | advance i w hw hadv => exact h.advance hw hadv
  | setState i st w f own hw hphase hended =>
      exact h.setState hw hphase hended (hcareful w f own hw hphase)
  | swapOut i w f own hw hphase =>
      exact h.rephase hw rfl rfl rfl (List.Sublist.refl _) rfl
        (Or.inl ⟨by rw [hphase]; rfl, by rw [hphase]; rfl⟩) (by rintro _ _ ⟨⟩)
        (by rintro _ _ ⟨⟩) (by rintro _ _ ⟨⟩) (by rintro _ _ ⟨⟩)
  | idleOut i st w hw hphase =>
      exact h.rest hw rfl rfl rfl (List.Sublist.refl _) rfl rfl (by rw [hphase]; rfl)
  | stop =>
      refine ⟨⟨h.named.queue, h.named.workers⟩, fun f => ?_⟩
      rcases h.fibers f with hexcl | hdone
      · exact Or.inl (hexcl.congr rfl rfl hexcl.once hexcl.quiet)
      · exact Or.inr (hdone.congr rfl rfl)

/-! ## Careful runs -/

theorem start_not_holds {threads : List Int} {n : Nat} {state : Nat → FiberState} {i f : Nat}
    {w : Worker} (hw : (startWith threads n state).workers[i]? = some w) : ¬w.Holds f := by
  obtain ⟨t, _, rfl⟩ := List.mem_map.mp (List.mem_of_getElem? hw)
  rintro (hf | hf)
  · cases hf
  · cases hf

theorem start_tidy (threads : List Int) (n : Nat) (state : Nat → FiberState) :
    (startWith threads n state).Tidy := by
  refine ⟨⟨by rintro _ ⟨⟩, ?_⟩, fun f => Or.inl ⟨?_, Nat.zero_le 1, ?_, ?_⟩⟩
  · exact fun i w hw f hf => absurd hf (start_not_holds hw)
  · exact fun i _ wi _ hi _ hf _ => absurd hf (start_not_holds hi)
  · exact fun i w hw hf _ => absurd hf (start_not_holds hw)
  · exact fun i w hw => settled_of_not_holds (start_not_holds hw)

/-- In every careful run, from any fibers in any states, no two workers execute or are
committed to one fiber. -/
theorem exclusion_of_careful (threads : List Int) (n : Nat) (state : Nat → FiberState)
    (as : List Act) (h : Along step Careful (startWith threads n state) as) :
    Throughout step Exclusion (startWith threads n state) as :=
  Throughout.mono (fun _ htidy => htidy.exclusion)
    (throughout_of_along (fun _ _ _ htidy hcareful hstep => htidy.step hcareful hstep)
      (start_tidy threads n state) h)

/-- A held fiber is scheduled, schedules itself while it runs, and ends. -/
def scheduledAgain : List Act :=
  [.schedule [⟨some 0, none, -1⟩], .advance 0, .advance 0, .advance 0,
    .schedule [⟨some 0, none, 2⟩], .setState 0 .TERM, .swapOut 0, .advance 1, .advance 1]

theorem exclusion_of_careful_scheduledAgain :
    Throughout step Exclusion (startWith [1, 2] 1 fun _ => .HOLD) scheduledAgain := by
  have hlone : ∀ {t : Int} {s : Scheduler}, s.Schedulable 0 →
      s.Careful (.schedule [⟨some 0, none, t⟩]) s := by
    intro t s hmay
    refine ⟨?_, fun f hmore => ?_⟩
    · intro ft hft f hf
      cases List.mem_singleton.mp hft
      cases hf
      exact hmay
    · exact absurd (List.countP_le_length (l := [(⟨some 0, none, t⟩ : FiberAndThread)]))
        (Nat.not_le_of_gt hmore)
  have hended : ∀ {s t : Scheduler} {w : Worker}, s.workers[0]? = some w →
      w.phase = .running 0 false → s.Careful (.setState 0 .TERM) t := by
    intro s t w hw hphase w' f own hw' hphase'
    cases Option.some.inj (hw.symm.trans hw')
    rw [hphase] at hphase'
    cases hphase'
    exact Or.inr (Or.inr ⟨rfl, rfl⟩)
  have hfirst : (startWith [1, 2] 1 fun _ => .HOLD).Schedulable 0 :=
    ⟨Nat.one_pos, Or.inr ⟨rfl, Or.inr fun ⟨_, _, hw, hholds⟩ => start_not_holds hw hholds⟩⟩
  exact exclusion_of_careful [1, 2] 1 (fun _ => .HOLD) scheduledAgain
    ⟨hlone hfirst, trivial, trivial, trivial, hlone ⟨Nat.one_pos, Or.inr ⟨rfl, Or.inl rfl⟩⟩,
      hended rfl rfl, trivial, trivial, trivial, trivial⟩

/-- A held fiber is scheduled twice. -/
def scheduledTwice : List Act :=
  [.schedule [⟨some 0, none, -1⟩], .schedule [⟨some 0, none, -1⟩], .advance 0, .advance 1,
    .advance 0, .advance 1, .advance 0, .advance 1]

/-- Two workers run it. -/
theorem scheduledTwice_not_exclusive : ¬ ∀ (threads : List Int) (n : Nat)
    (state : Nat → FiberState) (as : List Act),
      Throughout step Exclusion (startWith threads n state) as := by
  intro h
  have hrun : ((exec step (startWith [1, 2] 1 fun _ => .HOLD) scheduledTwice).map
      fun s => s.workers.map (·.phase)) = some [.running 0 false, .running 0 false] := by
    decide
  obtain ⟨s, hs, hphases⟩ := Option.map_eq_some_iff.mp hrun
  have hexcl := (h [1, 2] 1 (fun _ => .HOLD) scheduledTwice).final hs
  have hworker : ∀ i : Nat, [Phase.running 0 false, .running 0 false][i]? =
      some (.running 0 false) → ∃ w, s.workers[i]? = some w ∧ w.phase = .running 0 false := by
    intro i hphase
    rw [← hphases, List.getElem?_map] at hphase
    exact Option.map_eq_some_iff.mp hphase
  obtain ⟨w, hw, hphase⟩ := hworker 0 rfl
  obtain ⟨w', hw', hphase'⟩ := hworker 1 rfl
  have hsame := hexcl 0 0 1 w w' hw hw' (by rw [Uses, hphase]) (by rw [Uses, hphase'])
  cases hsame

end Scheduler

end Muqiu
