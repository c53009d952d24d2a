import Mathlib.Logic.Function.Basic

/-!
# Runs of a step function

A system is a partial step function `step : σ → α → Option σ`.  An action names every
choice its environment makes, so a run is a list of actions from a start state.  An
action whose step is `none` is not enabled, and the run ends there.

`Along P` says that every step a run takes satisfies `P`.  `Throughout I` says that every
state a run visits satisfies `I`.  `throughout_of_along` is the invariant rule between the
two: what one step keeps under `P` holds in every state of a run whose steps satisfy `P`.
`throughout_iff_along` is its exact form, for invariants that a step outside `P` breaks.
-/

namespace Runs

variable {σ α : Type*} {step : σ → α → Option σ}

/-- The state after a list of actions, when every one of them is enabled in turn. -/
def exec (step : σ → α → Option σ) : σ → List α → Option σ
  | s, [] => some s
  | s, a :: as =>
      match step s a with
      | none => none
      | some s' => exec step s' as

/-- Every step the run takes satisfies `P`: state before, action, state after. -/
def Along (step : σ → α → Option σ) (P : σ → α → σ → Prop) : σ → List α → Prop
  | _, [] => True
  | s, a :: as =>
      match step s a with
      | none => True
      | some s' => P s a s' ∧ Along step P s' as

/-- Every state the run visits satisfies `I`, the start state included. -/
def Throughout (step : σ → α → Option σ) (I : σ → Prop) : σ → List α → Prop
  | s, [] => I s
  | s, a :: as =>
      I s ∧ match step s a with
        | none => True
        | some s' => Throughout step I s' as

instance decidableAlong {P : σ → α → σ → Prop} [∀ s a s', Decidable (P s a s')] :
    ∀ (s : σ) (as : List α), Decidable (Along step P s as)
  | _, [] => inferInstanceAs (Decidable True)
  | s, a :: as =>
      match h : step s a with
      | none => decidable_of_iff True (by simp [Along, h])
      | some s' =>
          have := decidableAlong (P := P) s' as
          decidable_of_iff (P s a s' ∧ Along step P s' as) (by simp [Along, h])

instance decidableThroughout {I : σ → Prop} [DecidablePred I] :
    ∀ (s : σ) (as : List α), Decidable (Throughout step I s as)
  | s, [] => inferInstanceAs (Decidable (I s))
  | s, a :: as =>
      match h : step s a with
      | none => decidable_of_iff (I s) (by simp [Throughout, h])
      | some s' =>
          have := decidableThroughout (I := I) s' as
          decidable_of_iff (I s ∧ Throughout step I s' as) (by simp [Throughout, h])

/-! ## One step at a time -/

@[simp] theorem exec_nil (s : σ) : exec step s [] = some s := rfl

theorem exec_cons_some {s s' : σ} {a : α} (as : List α) (h : step s a = some s') :
    exec step s (a :: as) = exec step s' as := by
  simp [exec, h]

theorem along_cons_some {P : σ → α → σ → Prop} {s s' : σ} {a : α} (as : List α)
    (h : step s a = some s') :
    Along step P s (a :: as) ↔ P s a s' ∧ Along step P s' as := by
  simp [Along, h]

theorem throughout_cons_some {I : σ → Prop} {s s' : σ} {a : α} (as : List α)
    (h : step s a = some s') :
    Throughout step I s (a :: as) ↔ I s ∧ Throughout step I s' as := by
  simp [Throughout, h]

theorem Throughout.start {I : σ → Prop} {s : σ} :
    ∀ {as : List α}, Throughout step I s as → I s
  | [], h => h
  | _ :: _, h => h.1

/-- The state a run ends in is one of the states it visits. -/
theorem Throughout.final {I : σ → Prop} :
    ∀ {as : List α} {s s' : σ}, Throughout step I s as → exec step s as = some s' → I s'
  | [], s, s', h, he => by
      cases Option.some.inj he
      exact h
  | a :: as, s, s', h, he => by
      cases hs : step s a with
      | none => simp [exec, hs] at he
      | some s1 =>
          rw [exec_cons_some as hs] at he
          exact Throughout.final ((throughout_cons_some as hs).mp h).2 he

theorem Throughout.mono {I J : σ → Prop} (hIJ : ∀ s, I s → J s) :
    ∀ {as : List α} {s : σ}, Throughout step I s as → Throughout step J s as
  | [], s, h => hIJ s h
  | a :: as, s, h => by
      cases hs : step s a with
      | none => exact ⟨hIJ s h.1, by simp [hs]⟩
      | some s' =>
          have h' := (throughout_cons_some as hs).mp h
          exact (throughout_cons_some as hs).mpr ⟨hIJ s h'.1, Throughout.mono hIJ h'.2⟩

theorem Along.mono {P Q : σ → α → σ → Prop} (hPQ : ∀ s a s', P s a s' → Q s a s') :
    ∀ {as : List α} {s : σ}, Along step P s as → Along step Q s as
  | [], _, _ => trivial
  | a :: as, s, h => by
      cases hs : step s a with
      | none => simp [Along, hs]
      | some s' =>
          have h' := (along_cons_some as hs).mp h
          exact (along_cons_some as hs).mpr ⟨hPQ s a s' h'.1, Along.mono hPQ h'.2⟩

theorem Along.and {P Q : σ → α → σ → Prop} :
    ∀ {as : List α} {s : σ}, Along step P s as → Along step Q s as →
      Along step (fun s a s' => P s a s' ∧ Q s a s') s as
  | [], _, _, _ => trivial
  | a :: as, s, hP, hQ => by
      cases hs : step s a with
      | none => simp [Along, hs]
      | some s' =>
          have hP' := (along_cons_some as hs).mp hP
          have hQ' := (along_cons_some as hs).mp hQ
          exact (along_cons_some as hs).mpr ⟨⟨hP'.1, hQ'.1⟩, hP'.2.and hQ'.2⟩

/-- Two predicates that agree on every step of a run. -/
theorem Along.congr {P Q : σ → α → σ → Prop} {as : List α} {s : σ}
    (h : Along step (fun s a s' => P s a s' ↔ Q s a s') s as) :
    Along step P s as ↔ Along step Q s as :=
  ⟨fun hP => (h.and hP).mono fun _ _ _ hb => hb.1.mp hb.2,
    fun hQ => (h.and hQ).mono fun _ _ _ hb => hb.1.mpr hb.2⟩

/-! ## The invariant rules -/

/-- The invariant rule.  What a step satisfying `P` keeps holds in every state of a run
whose steps satisfy `P`. -/
theorem throughout_of_along {I : σ → Prop} {P : σ → α → σ → Prop}
    (hstep : ∀ s a s', I s → P s a s' → step s a = some s' → I s') :
    ∀ {as : List α} {s : σ}, I s → Along step P s as → Throughout step I s as
  | [], _, hI, _ => hI
  | a :: as, s, hI, h => by
      cases hs : step s a with
      | none => exact ⟨hI, by simp [hs]⟩
      | some s' =>
          have h' := (along_cons_some as hs).mp h
          exact (throughout_cons_some as hs).mpr
            ⟨hI, throughout_of_along hstep (hstep s a s' hI h'.1 hs) h'.2⟩

/-- A run from a state satisfying an invariant of every step. -/
theorem throughout_of_step {I : σ → Prop} (hstep : ∀ s a s', I s → step s a = some s' → I s')
    {s : σ} (hI : I s) : ∀ as : List α, Throughout step I s as
  | [] => hI
  | a :: as => by
      cases hs : step s a with
      | none => exact ⟨hI, by simp [hs]⟩
      | some s' =>
          exact (throughout_cons_some as hs).mpr
            ⟨hI, throughout_of_step hstep (hstep s a s' hI hs) as⟩

/-- What every step gives from a state with the invariant `I` holds along every run. -/
theorem along_of_step {I : σ → Prop} {P Q : σ → α → σ → Prop}
    (hstep : ∀ s a s', I s → P s a s' → step s a = some s' → Q s a s' ∧ I s') :
    ∀ {as : List α} {s : σ}, I s → Along step P s as → Along step Q s as
  | [], _, _, _ => trivial
  | a :: as, s, hI, h => by
      cases hs : step s a with
      | none => simp [Along, hs]
      | some s' =>
          have h' := (along_cons_some as hs).mp h
          obtain ⟨hQ, hI'⟩ := hstep s a s' hI h'.1 hs
          exact (along_cons_some as hs).mpr ⟨hQ, along_of_step hstep hI' h'.2⟩

/-- The exact invariant rule, for runs whose steps satisfy `R`.  `J` is kept by every such step
from a state with `I`.  Under it, a step keeps `I` exactly when it satisfies `P`; then `I`
holds in every state of a run exactly when every step of the run satisfies `P`. -/
theorem throughout_iff_along_under {I J : σ → Prop} {P R : σ → α → σ → Prop}
    (hJ : ∀ s a s', R s a s' → J s → I s → step s a = some s' → J s')
    (hstep : ∀ s a s', R s a s' → J s → I s → step s a = some s' → (I s' ↔ P s a s')) :
    ∀ {as : List α} {s : σ}, Along step R s as → J s → I s →
      (Throughout step I s as ↔ Along step P s as)
  | [], _, _, _, hI => ⟨fun _ => trivial, fun _ => hI⟩
  | a :: as, s, hR, hj, hI => by
      cases hs : step s a with
      | none => exact ⟨fun _ => by simp [Along, hs], fun _ => ⟨hI, by simp [hs]⟩⟩
      | some s' =>
          obtain ⟨ha, has⟩ := (along_cons_some as hs).mp hR
          have hj' : J s' := hJ s a s' ha hj hI hs
          rw [throughout_cons_some as hs, along_cons_some as hs]
          constructor
          · rintro ⟨_, h⟩
            have hI' : I s' := h.start
            have ih : Throughout step I s' as ↔ Along step P s' as :=
              throughout_iff_along_under hJ hstep has hj' hI'
            exact ⟨(hstep s a s' ha hj hI hs).mp hI', ih.mp h⟩
          · rintro ⟨hP, h⟩
            have hI' : I s' := (hstep s a s' ha hj hI hs).mpr hP
            have ih : Throughout step I s' as ↔ Along step P s' as :=
              throughout_iff_along_under hJ hstep has hj' hI'
            exact ⟨hI, ih.mpr h⟩

/-- What holds of every action of a run holds along it. -/
theorem along_of_forall {Q : α → Prop} :
    ∀ {as : List α} {s : σ}, (∀ a ∈ as, Q a) → Along step (fun _ a _ => Q a) s as
  | [], _, _ => trivial
  | a :: as, s, hQ => by
      cases hs : step s a with
      | none => simp [Along, hs]
      | some s' =>
          exact (along_cons_some as hs).mpr ⟨hQ a List.mem_cons_self,
            along_of_forall fun b hb => hQ b (List.mem_cons_of_mem _ hb)⟩

/-- The exact rule for runs over actions in `Q`. -/
theorem throughout_iff_along_beside {I J : σ → Prop} {P : σ → α → σ → Prop} {Q : α → Prop}
    (hJ : ∀ s a s', Q a → J s → I s → step s a = some s' → J s')
    (hstep : ∀ s a s', Q a → J s → I s → step s a = some s' → (I s' ↔ P s a s'))
    {as : List α} {s : σ} (hQ : ∀ a ∈ as, Q a) (hj : J s) (hI : I s) :
    Throughout step I s as ↔ Along step P s as :=
  throughout_iff_along_under hJ hstep (along_of_forall hQ) hj hI

/-- The exact rule with a `J` that every step keeps. -/
theorem throughout_iff_along {I J : σ → Prop} {P : σ → α → σ → Prop} {Q : α → Prop}
    (hJ : ∀ s a s', Q a → J s → step s a = some s' → J s')
    (hstep : ∀ s a s', Q a → J s → I s → step s a = some s' → (I s' ↔ P s a s'))
    {as : List α} {s : σ} (hQ : ∀ a ∈ as, Q a) (hj : J s) (hI : I s) :
    Throughout step I s as ↔ Along step P s as :=
  throughout_iff_along_beside (fun s a s' ha hj _ hs => hJ s a s' ha hj hs) hstep hQ hj hI

/-- What every step over actions in `Q` gives from a state with the invariant `I` holds
along every run over such actions. -/
theorem along_of_invariant {I : σ → Prop} {P : σ → α → σ → Prop} {Q : α → Prop}
    (hI : ∀ s a s', Q a → I s → step s a = some s' → I s')
    (hstep : ∀ s a s', Q a → I s → step s a = some s' → P s a s') :
    ∀ {as : List α} {s : σ}, (∀ a ∈ as, Q a) → I s → Along step P s as
  | [], _, _, _ => trivial
  | a :: as, s, hQ, h => by
      have ha : Q a := hQ a List.mem_cons_self
      cases hs : step s a with
      | none => simp [Along, hs]
      | some s' =>
          exact (along_cons_some as hs).mpr ⟨hstep s a s' ha h hs,
            along_of_invariant hI hstep (fun b hb => hQ b (List.mem_cons_of_mem _ hb))
              (hI s a s' ha h hs)⟩

/-- What every step over actions in `Q` keeps holds in every state of a run over such actions. -/
theorem throughout_of_invariant {I : σ → Prop} {Q : α → Prop}
    (hI : ∀ s a s', Q a → I s → step s a = some s' → I s') {as : List α} {s : σ}
    (hQ : ∀ a ∈ as, Q a) (hs : I s) : Throughout step I s as :=
  throughout_of_along (fun s a s' h ha hstep => hI s a s' ha h hstep) hs
    (along_of_invariant hI (fun _ _ _ ha _ _ => ha) hQ hs)

/-! ## Reachable states -/

/-- The states some run from `s₀` ends in. -/
def Reachable (step : σ → α → Option σ) (s₀ s : σ) : Prop :=
  ∃ as : List α, exec step s₀ as = some s

theorem Reachable.refl (s : σ) : Reachable step s s := ⟨[], rfl⟩

theorem Reachable.snoc {s₀ s s' : σ} {a : α} (h : Reachable step s₀ s)
    (hs : step s a = some s') : Reachable step s₀ s' := by
  obtain ⟨as, has⟩ := h
  refine ⟨as ++ [a], ?_⟩
  induction as generalizing s₀ with
  | nil =>
      cases Option.some.inj has
      rw [List.nil_append, exec_cons_some [] hs, exec_nil]
  | cons b bs ih =>
      cases hb : step s₀ b with
      | none => simp [exec, hb] at has
      | some s₁ =>
          rw [exec_cons_some bs hb] at has
          rw [List.cons_append, exec_cons_some _ hb]
          exact ih has

/-- An invariant of every step holds in every reachable state. -/
theorem Reachable.invariant {I : σ → Prop}
    (hstep : ∀ s a s', I s → step s a = some s' → I s') {s₀ s : σ} (h₀ : I s₀)
    (h : Reachable step s₀ s) : I s := by
  obtain ⟨as, has⟩ := h
  exact (throughout_of_step hstep h₀ as).final has

end Runs
