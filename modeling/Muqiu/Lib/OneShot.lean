import Mathlib.Data.List.Basic

/-!
# One-shot registrations

A registry holds at most one continuation under a key.  Its history is a log, newest entry
first: a continuation was added under a key, the key was dropped, or the key was fired and
some continuation was handed over.  A firing retires the registration, as a drop does.

`live log k` is the continuation added under `k` last and not retired since.  A log is
`Exact` when every firing handed over the live continuation of its key.  `Exact.fire_spec`
spells out what that means for one firing: the continuation is that of the latest addition
under the key, and nothing else happened to the key in between.  So one addition is fired
at most once (`Exact.firesOnce`) and a retired continuation is never fired again.
-/

namespace OneShot

variable {κ χ : Type*}

/-- One event in the life of a registry. -/
inductive Entry (κ χ : Type*) where
  | add (k : κ) (c : χ)
  | drop (k : κ)
  | fire (k : κ) (c : χ)
deriving DecidableEq, Repr

/-- The key an entry is about. -/
def Entry.key : Entry κ χ → κ
  | .add k _ => k
  | .drop k => k
  | .fire k _ => k

variable [DecidableEq κ]

/-- The continuation added last under `k`, if nothing has retired it. -/
def live : List (Entry κ χ) → κ → Option χ
  | [], _ => none
  | .add k' c :: log, k => if k' = k then some c else live log k
  | .drop k' :: log, k => if k' = k then none else live log k
  | .fire k' _ :: log, k => if k' = k then none else live log k

/-- Every firing of the log handed over the live continuation of its key. -/
def Exact : List (Entry κ χ) → Prop
  | [] => True
  | .fire k c :: log => live log k = some c ∧ Exact log
  | _ :: log => Exact log

instance decidableExact [DecidableEq χ] : ∀ log : List (Entry κ χ), Decidable (Exact log)
  | [] => inferInstanceAs (Decidable True)
  | .fire k c :: log =>
      have := decidableExact log
      inferInstanceAs (Decidable (live log k = some c ∧ Exact log))
  | .add _ _ :: log => decidableExact log
  | .drop _ :: log => decidableExact log

@[simp] theorem live_add_self (k : κ) (c : χ) (log : List (Entry κ χ)) :
    live (.add k c :: log) k = some c := by simp [live]

@[simp] theorem live_drop_self (k : κ) (log : List (Entry κ χ)) :
    live (.drop k :: log) k = none := by simp [live]

@[simp] theorem live_fire_self (k : κ) (c : χ) (log : List (Entry κ χ)) :
    live (.fire k c :: log) k = none := by simp [live]

/-- An entry about another key leaves the live continuation of `k` alone. -/
theorem live_cons_of_ne {e : Entry κ χ} {k : κ} (h : e.key ≠ k) (log : List (Entry κ χ)) :
    live (e :: log) k = live log k := by
  cases e with
  | add k' c => simp only [live, Entry.key] at h ⊢; rw [if_neg h]
  | drop k' => simp only [live, Entry.key] at h ⊢; rw [if_neg h]
  | fire k' c => simp only [live, Entry.key] at h ⊢; rw [if_neg h]

/-- A live continuation was added, and nothing has happened to its key since. -/
theorem live_eq_some {k : κ} {c : χ} :
    ∀ {log : List (Entry κ χ)}, live log k = some c →
      ∃ mid old, log = mid ++ .add k c :: old ∧ ∀ e ∈ mid, e.key ≠ k
  | [], h => by simp [live] at h
  | e :: log, h => by
      by_cases hk : e.key = k
      · cases e with
        | add k' c' =>
            simp only [Entry.key] at hk
            subst hk
            rw [live_add_self] at h
            cases Option.some.inj h
            exact ⟨[], log, rfl, by simp⟩
        | drop k' =>
            simp only [Entry.key] at hk
            subst hk
            simp at h
        | fire k' c' =>
            simp only [Entry.key] at hk
            subst hk
            simp at h
      · rw [live_cons_of_ne hk] at h
        obtain ⟨mid, old, hlog, hmid⟩ := live_eq_some h
        refine ⟨e :: mid, old, by rw [hlog]; rfl, ?_⟩
        intro e' he'
        cases List.mem_cons.mp he' with
        | inl heq => exact heq ▸ hk
        | inr hmem => exact hmid e' hmem

theorem Exact.tail : ∀ {e : Entry κ χ} {log : List (Entry κ χ)}, Exact (e :: log) → Exact log
  | .add _ _, _, h => h
  | .drop _, _, h => h
  | .fire _ _, _, h => h.2

theorem Exact.of_append : ∀ {new log : List (Entry κ χ)}, Exact (new ++ log) → Exact log
  | [], _, h => h
  | _ :: _, _, h => Exact.of_append h.tail

/-- What exactness says of one firing. -/
theorem Exact.fire_spec {log new old : List (Entry κ χ)} {k : κ} {c : χ} (h : Exact log)
    (hlog : log = new ++ .fire k c :: old) :
    ∃ mid older, old = mid ++ .add k c :: older ∧ ∀ e ∈ mid, e.key ≠ k := by
  subst hlog
  have hfire : Exact (.fire k c :: old) := Exact.of_append h
  exact live_eq_some hfire.1

/-- Entries about other keys leave the live continuation of `k` alone. -/
theorem live_append_of_ne {k : κ} :
    ∀ {mid : List (Entry κ χ)} (old : List (Entry κ χ)), (∀ e ∈ mid, e.key ≠ k) →
      live (mid ++ old) k = live old k
  | [], _, _ => rfl
  | e :: mid, old, h => by
      rw [List.cons_append, live_cons_of_ne (h e List.mem_cons_self),
        live_append_of_ne old fun e' he' => h e' (List.mem_cons_of_mem _ he')]

/-- Every firing of the log handed over the continuation of the latest addition under its
key, and nothing happened to the key between the two. -/
def FiresLatest (log : List (Entry κ χ)) : Prop :=
  ∀ new old k c, log = new ++ .fire k c :: old →
    ∃ mid older, old = mid ++ .add k c :: older ∧ ∀ e ∈ mid, e.key ≠ k

theorem FiresLatest.exact : ∀ {log : List (Entry κ χ)}, FiresLatest log → Exact log
  | [], _ => trivial
  | e :: log, h => by
      have ih : Exact log := FiresLatest.exact fun new old k c hlog =>
        h (e :: new) old k c (by rw [hlog]; rfl)
      cases e with
      | add k c => exact ih
      | drop k => exact ih
      | fire k c =>
          obtain ⟨mid, older, hold, hmid⟩ := h [] log k c rfl
          refine ⟨?_, ih⟩
          rw [hold, live_append_of_ne _ hmid, live_add_self]

theorem exact_iff_firesLatest {log : List (Entry κ χ)} : Exact log ↔ FiresLatest log :=
  ⟨fun h _ _ _ _ hlog => h.fire_spec hlog, FiresLatest.exact⟩

/-- Between two firings of a key lies an addition of what the later one handed over.  So an
addition is fired at most once. -/
def FiresOnce (log : List (Entry κ χ)) : Prop :=
  ∀ new mid old k c c', log = new ++ .fire k c :: (mid ++ .fire k c' :: old) → .add k c ∈ mid

theorem Exact.firesOnce {log : List (Entry κ χ)} (h : Exact log) : FiresOnce log := by
  intro new mid old k c c' hlog
  obtain ⟨mid', older, hsplit, hkeys⟩ := h.fire_spec hlog
  cases List.append_eq_append_iff.mp hsplit with
  | inl hl =>
      obtain ⟨l, hmid', hrest⟩ := hl
      cases l with
      | nil => simp at hrest
      | cons e l =>
          rw [List.cons_append, List.cons.injEq] at hrest
          have hmem : e ∈ mid' := by rw [hmid']; simp
          exact absurd (hrest.1 ▸ rfl) (hkeys e hmem)
  | inr hr =>
      obtain ⟨l, hmid, hrest⟩ := hr
      cases l with
      | nil => simp at hrest
      | cons e l =>
          rw [List.cons_append, List.cons.injEq] at hrest
          rw [hmid, ← hrest.1]
          simp

end OneShot
