import Mathlib.Data.List.Basic

/-!
# Computations that may fail

Inversion of a bind in `Except`, the induction rule of a fold, and the order of the
computations: `Extends x y` says that `y` gives what `x` gives, when `x` gives anything.
`Ends E Q x` says what holds of the value or the error of `x`.  A map in `Option` gives the
results of its elements, when each has one.
-/

namespace Fallible

universe u v

variable {ε : Type u} {α β σ : Type v}

/-- A bind gives a value when its parts do. -/
theorem bind_ok_iff {x : Except ε α} {f : α → Except ε β} {b : β} :
    (x >>= f) = .ok b ↔ ∃ a, x = .ok a ∧ f a = .ok b := by
  constructor
  · intro h
    cases x with
    | error e => cases h
    | ok a => exact ⟨a, rfl, h⟩
  · rintro ⟨a, rfl, h⟩
    exact h

/-- A map behind a bind is one behind each continuation. -/
theorem bind_eq_map {x : Except ε α} {f f' : α → Except ε β} {g : β → β}
    (h : ∀ a, f' a = (f a).map g) : (x >>= f') = (x >>= f).map g := by
  cases x with
  | error e => rfl
  | ok a => exact h a

/-- What every step of a fold keeps, the fold keeps. -/
theorem foldlM_keeps {f : σ → α → Except ε σ} (P : σ → Prop)
    (h : ∀ {s a s'}, f s a = .ok s' → P s → P s') :
    ∀ {as : List α} {s s' : σ}, as.foldlM f s = .ok s' → P s → P s'
  | [], s, s', hf, hs => by
      cases hf
      exact hs
  | a :: as, s, s', hf, hs => by
      rw [List.foldlM_cons, bind_ok_iff] at hf
      obtain ⟨s₁, h₁, hf⟩ := hf
      exact foldlM_keeps P h hf (h h₁ hs)

/-- `y` gives what `x` gives. -/
def Extends (x y : Except ε α) : Prop := ∀ a, x = .ok a → y = .ok a

namespace Extends

theorem refl (x : Except ε α) : Extends x x := fun _ h => h

theorem of_error (e : ε) (y : Except ε α) : Extends (.error e) y := by
  intro a h
  cases h

theorem bind {x y : Except ε α} {f g : α → Except ε β} (h : Extends x y)
    (hfg : ∀ a, Extends (f a) (g a)) : Extends (x >>= f) (y >>= g) := by
  intro b hb
  obtain ⟨a, hx, hf⟩ := bind_ok_iff.mp hb
  exact bind_ok_iff.mpr ⟨a, h a hx, hfg a b hf⟩

theorem ite {p : Prop} [Decidable p] {x y x' y' : Except ε α} (h : Extends x y)
    (h' : Extends x' y') : Extends (if p then x else x') (if p then y else y') := by
  by_cases hp : p
  · rw [if_pos hp, if_pos hp]; exact h
  · rw [if_neg hp, if_neg hp]; exact h'

theorem foldlM {f g : σ → α → Except ε σ} (h : ∀ s a, Extends (f s a) (g s a)) :
    ∀ (as : List α) (s : σ), Extends (as.foldlM f s) (as.foldlM g s)
  | [], s => refl _
  | a :: as, s => by
      rw [List.foldlM_cons, List.foldlM_cons]
      exact bind (h s a) fun s' => foldlM h as s'

end Extends

/-! ## Postconditions -/

/-- `Q` holds of the value, and `E` of the error. -/
def Ends (E : ε → Prop) (Q : α → Prop) : Except ε α → Prop
  | .ok a => Q a
  | .error e => E e

namespace Ends

variable {E : ε → Prop} {Q : α → Prop} {R : β → Prop}

theorem map {f : α → β} {x : Except ε α} (h : Ends E Q x) (hf : ∀ a, Q a → R (f a)) :
    Ends E R (x.map f) := by
  cases x with
  | error e => exact h
  | ok a => exact hf a h

theorem bind {f : α → Except ε β} {x : Except ε α} (h : Ends E Q x)
    (hf : ∀ a, Q a → Ends E R (f a)) : Ends E R (x >>= f) := by
  cases x with
  | error e => exact h
  | ok a => exact hf a h

/-- What every step of a fold leaves, the fold leaves. -/
theorem foldlM {P : σ → Prop} {f : σ → α → Except ε σ} (h : ∀ s a, P s → Ends E P (f s a)) :
    ∀ (as : List α) {s : σ}, P s → Ends E P (as.foldlM f s)
  | [], _, hs => hs
  | a :: as, s, hs => by
      rw [List.foldlM_cons]
      exact bind (h s a hs) fun s' hs' => foldlM h as hs'

end Ends

/-! ## Maps in `Option` -/

section Maps

variable {α β : Type u} {f : α → Option β}

theorem mapM_cons_eq_some {x : α} {xs : List α} {ys : List β} :
    (x :: xs).mapM f = some ys ↔ ∃ y ys', f x = some y ∧ xs.mapM f = some ys' ∧ ys = y :: ys' := by
  rw [List.mapM_cons]
  constructor
  · intro h
    obtain ⟨y, hy, h⟩ := Option.bind_eq_some_iff.mp h
    obtain ⟨ys', hys', h⟩ := Option.bind_eq_some_iff.mp h
    exact ⟨y, ys', hy, hys', (Option.some.inj h).symm⟩
  · rintro ⟨y, ys', hy, hys', rfl⟩
    rw [hy, hys']
    rfl

/-- Every element has its result. -/
theorem mem_mapM_of_mem : ∀ {xs : List α} {ys : List β}, xs.mapM f = some ys →
    ∀ x ∈ xs, ∃ y ∈ ys, f x = some y
  | [], _, _, x, hx => by cases hx
  | z :: zs, ys, h, x, hx => by
      obtain ⟨y, ys', hy, hys', rfl⟩ := mapM_cons_eq_some.mp h
      rcases List.mem_cons.mp hx with rfl | hmem
      · exact ⟨y, List.mem_cons_self, hy⟩
      · obtain ⟨w, hw, heq⟩ := mem_mapM_of_mem hys' x hmem
        exact ⟨w, List.mem_cons_of_mem y hw, heq⟩

/-- What every result has of its element, the results have of the elements. -/
theorem map_of_mapM {γ : Type*} {g : β → γ} {g' : α → γ} (h : ∀ x y, f x = some y → g y = g' x) :
    ∀ {xs : List α} {ys : List β}, xs.mapM f = some ys → ys.map g = xs.map g'
  | [], ys, hys => by
      cases Option.some.inj hys
      rfl
  | x :: xs, ys, hys => by
      obtain ⟨y, ys', hy, hys', rfl⟩ := mapM_cons_eq_some.mp hys
      rw [List.map_cons, List.map_cons, h x y hy, map_of_mapM h hys']

/-- A relation between the results of two functions at every element gives results of the second
map that are related to those of the first, and equal to them where the relation is equality. -/
theorem mapM_related {g : α → Option β} {P : β → β → Prop} :
    ∀ {xs : List α} {ys : List β},
      (∀ x ∈ xs, ∀ y, f x = some y → ∃ z, g x = some z ∧ P y z) → xs.mapM f = some ys →
      ∃ zs, xs.mapM g = some zs ∧ (∀ y ∈ ys, ∃ z ∈ zs, P y z) ∧
        ((∀ y ∈ ys, ∀ z, P y z → z = y) → zs = ys)
  | [], ys, _, hys => by
      cases Option.some.inj hys
      exact ⟨[], rfl, by simp, fun _ => rfl⟩
  | x :: xs, ys, h, hys => by
      obtain ⟨y, ys', hy, hys', rfl⟩ := mapM_cons_eq_some.mp hys
      obtain ⟨z, hz, hP⟩ := h x List.mem_cons_self y hy
      obtain ⟨zs, hzs, hmem, heq⟩ :=
        mapM_related (fun w hw => h w (List.mem_cons_of_mem x hw)) hys'
      refine ⟨z :: zs, mapM_cons_eq_some.mpr ⟨z, zs, hz, hzs, rfl⟩, ?_, fun hid => ?_⟩
      · intro w hw
        rcases List.mem_cons.mp hw with rfl | hw
        · exact ⟨z, List.mem_cons_self, hP⟩
        · obtain ⟨v, hv, hPv⟩ := hmem w hw
          exact ⟨v, List.mem_cons_of_mem z hv, hPv⟩
      · rw [hid y List.mem_cons_self z hP,
          heq fun w hw => hid w (List.mem_cons_of_mem y hw)]

end Maps

end Fallible
