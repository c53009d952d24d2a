import Muqiu.Lib.Runs
import Muqiu.Config.Model

/-!
# The registry of configuration variables

`Lookup<T>(name)` casts what it finds to `ConfigVar<T>`, and a cast that fails gives null, as does
a name that is not there.  `Lookup<T>(name, default_value)` goes by that null, and puts a new
variable in the place of one with another type.  The value types are any types that can be told
apart; at those of `Ty` the registry is the one of `ConfigVarMap` (`Simulates.lookup`).

`first` is not in the source: it records the object that was first registered under each name.
-/

namespace Muqiu.Config

open Json (Text ascii)
open Runs

variable {τ : Type} {Val : τ → Type}

/-- A `ConfigVar<T>`, with the number of the object. -/
structure Variable (Val : τ → Type) where
  number : Nat
  type : τ
  m_name : Text
  m_description : Text
  m_val : Val type

/-- What `GetDatas` has for each name, and the number of objects made so far. -/
structure Registry (Val : τ → Type) where
  datas : Text → Option (Variable Val)
  created : Nat
  valid : ∀ name v, datas name = some v → onlyOf nameChars name = true
  made : ∀ name v, datas name = some v → v.number < created

namespace Registry

/-- No variable. -/
def empty : Registry Val := ⟨fun _ => none, 0, by simp, by simp⟩

/-- A new variable, and `GetDatas()[name] = v`. -/
def register (r : Registry Val) (t : τ) (name : Text) (default_value : Val t) (description : Text)
    (h : onlyOf nameChars name = true) : Registry Val where
  datas := Function.update r.datas name
    (some ⟨r.created, t, name.map tolower, description, default_value⟩)
  created := r.created + 1
  valid n v hn := by
    by_cases heq : n = name
    · rw [heq]
      exact h
    · rw [Function.update_of_ne heq] at hn
      exact r.valid n v hn
  made n v hn := by
    by_cases heq : n = name
    · rw [heq, Function.update_self] at hn
      cases hn
      exact Nat.lt_succ_self _
    · rw [Function.update_of_ne heq] at hn
      exact Nat.lt_succ_of_lt (r.made n v hn)

variable [DecidableEq τ]

/-- `Lookup<T>(name)`, with the `dynamic_pointer_cast` -/
def find (r : Registry Val) (t : τ) (name : Text) : Option Nat :=
  match r.datas name with
  | none => none
  | some v => if v.type = t then some v.number else none

/-- `Lookup<T>(name, default_value, description)`; `none` when it throws. -/
def lookup (r : Registry Val) (t : τ) (name : Text) (default_value : Val t) (description : Text) :
    Option (Nat × Registry Val) :=
  match r.find t name with
  | some i => some (i, r)
  | none =>
      if h : onlyOf nameChars name = true then
        some (r.created, r.register t name default_value description h)
      else none

theorem find_eq_none_iff {r : Registry Val} {t : τ} {name : Text} :
    r.find t name = none ↔ ∀ v, r.datas name = some v → v.type ≠ t := by
  rw [find]
  cases r.datas name with
  | none => exact iff_of_true rfl (by rintro v ⟨⟩)
  | some v =>
      simp only [Option.some.injEq, forall_eq']
      split
      next heq => exact iff_of_false (by rintro ⟨⟩) (absurd heq)
      next hne => exact iff_of_true rfl hne

theorem lookup_of_find {r : Registry Val} {t : τ} {name : Text} {i : Nat}
    (h : r.find t name = some i) (default_value : Val t) (description : Text) :
    r.lookup t name default_value description = some (i, r) := by
  rw [lookup, h]

theorem lookup_of_not_find {r : Registry Val} {t : τ} {name : Text} (h : r.find t name = none)
    (hname : onlyOf nameChars name = true) (default_value : Val t) (description : Text) :
    r.lookup t name default_value description =
      some (r.created, r.register t name default_value description hname) := by
  rw [lookup, h]
  exact dif_pos hname

theorem lookup_throws {r : Registry Val} {t : τ} {name : Text} (h : r.find t name = none)
    (hname : onlyOf nameChars name ≠ true) (default_value : Val t) (description : Text) :
    r.lookup t name default_value description = none := by
  rw [lookup, h]
  exact dif_neg hname

end Registry

/-! ## The value types with a `LexicalCast` -/

/-- The registry has what the map has. -/
structure Simulates (c : ConfigVarMap) (r : Registry Ty.Val) : Prop where
  created : r.created = c.created
  datas : ∀ name, ((r.datas name).map fun v => (v.number, (⟨v.type, v.m_val⟩ : Sigma Ty.Val))) =
    (c.datas name).map fun o => (o.number, ⟨o.type, o.var.m_val⟩)

theorem Simulates.find {c : ConfigVarMap} {r : Registry Ty.Val} (h : Simulates c r) (t : Ty)
    (name : Text) : r.find t name = c.find t name := by
  have hname := h.datas name
  rw [Registry.find, ConfigVarMap.find]
  cases hr : r.datas name with
  | none =>
      rw [hr, Option.map_none] at hname
      rw [Option.map_eq_none_iff.mp hname.symm]
      rfl
  | some v =>
      rw [hr, Option.map_some] at hname
      obtain ⟨o, ho, heq⟩ := Option.map_eq_some_iff.mp hname.symm
      rw [ho]
      have hnumber : o.number = v.number := congrArg Prod.fst heq
      have htype : o.type = v.type := congrArg (fun x => x.2.1) heq
      simp only [Option.bind_some, hnumber, htype]

/-- A lookup of both has the same result, and what they have afterwards is the same. -/
theorem Simulates.lookup {c : ConfigVarMap} {r : Registry Ty.Val} (h : Simulates c r) (t : Ty)
    (name : Text) (default_value : t.Val) (description : Text) :
    match c.Lookup t name default_value with
    | none => r.lookup t name default_value description = none
    | some (i, c') => ∃ r', r.lookup t name default_value description = some (i, r') ∧
        Simulates c' r' := by
  have hfind := h.find t name
  rw [ConfigVarMap.Lookup]
  cases hc : c.find t name with
  | some i => exact ⟨r, Registry.lookup_of_find (hfind.trans hc) default_value description, h⟩
  | none =>
      by_cases hname : onlyOf nameChars name = true
      · simp only [dif_pos hname]
        refine ⟨r.register t name default_value description hname, ?_,
          congrArg (· + 1) h.created, fun n => ?_⟩
        · rw [← h.created]
          exact Registry.lookup_of_not_find (hfind.trans hc) hname default_value description
        · by_cases hn : n = name
          · subst hn
            simp only [Registry.register, Function.update_self, ConfigVarMap.set, if_true,
              Option.map_some, h.created]
          · simp only [Registry.register, Function.update_of_ne hn, ConfigVarMap.set, if_neg hn]
            exact h.datas n
      · simp only [dif_neg hname]
        exact Registry.lookup_throws (hfind.trans hc) hname default_value description

/-! ## Calls -/

/-- What a lookup gives: a variable, none, or an exception. -/
inductive Answer where
  | object (number : Nat)
  | null
  | throws
deriving DecidableEq, Repr

/-- The registry with what the first lookups of every name have given. -/
structure Lookups (Val : τ → Type) where
  r : Registry Val
  first : Text → Option Nat
  /-- What the last call has given. -/
  answer : Answer

/-- A call of one of the two lookups. -/
inductive LookupAct (Val : τ → Type) where
  | find (t : τ) (name : Text)
  | lookup (t : τ) (name : Text) (default_value : Val t) (description : Text)

namespace Lookups

/-- Before the first call. -/
def start : Lookups Val := ⟨Registry.empty, fun _ => none, .null⟩

/-- A call, after which a name has its first object if it has one. -/
def step [DecidableEq τ] (s : Lookups Val) : LookupAct Val → Option (Lookups Val)
  | .find t name => some { s with answer := ((s.r.find t name).map .object).getD .null }
  | .lookup t name default_value description =>
      match s.r.lookup t name default_value description with
      | none => some { s with answer := .throws }
      | some (i, r) => some
          { r := r
            first := Function.update s.first name ((s.first name).or (some i))
            answer := .object i }

/-- Every name has the object that was first registered under it. -/
def Stable (s : Lookups Val) : Prop :=
  ∀ name i, s.first name = some i → ∃ v, s.r.datas name = some v ∧ v.number = i

/-- A call with another type than that of the object registered gives null or throws, and leaves
the registry as it is. -/
def Refuses (s : Lookups Val) (a : LookupAct Val) (s' : Lookups Val) : Prop :=
  match a with
  | .find t name => ∀ v, s.r.datas name = some v → v.type ≠ t → s'.answer = .null ∧ s'.r = s.r
  | .lookup t name _ _ => ∀ v, s.r.datas name = some v → v.type ≠ t →
      (s'.answer = .null ∨ s'.answer = .throws) ∧ s'.r = s.r

/-- `Lookup` with a default value is only called with the type of the object registered. -/
def SameType (s : Lookups Val) (a : LookupAct Val) (_ : Lookups Val) : Prop :=
  match a with
  | .find _ _ => True
  | .lookup t name _ _ => ∀ v, s.r.datas name = some v → v.type = t

/-- A name has an object from the first on. -/
def Known (s : Lookups Val) : Prop := ∀ name, s.first name = none ↔ s.r.datas name = none

theorem start_known : (start : Lookups Val).Known := fun _ => iff_of_true rfl rfl

theorem start_stable : (start : Lookups Val).Stable := fun _ _ h => by cases h

/-! ## A call -/

variable [DecidableEq τ]

/-- A call that finds its variable. -/
theorem step_found {s : Lookups Val} {t : τ} {name : Text} {i : Nat} (hknown : s.Known)
    (hfind : s.r.find t name = some i) (default_value : Val t) (description : Text) :
    step s (.lookup t name default_value description) = some { s with answer := .object i } := by
  have hfirst : s.first name ≠ none := fun hnone => by
    rw [Registry.find, (hknown name).mp hnone] at hfind
    cases hfind
  obtain ⟨j, hj⟩ := Option.ne_none_iff_exists'.mp hfirst
  rw [step, Registry.lookup_of_find hfind]
  simp only
  rw [hj, Option.some_or, ← hj, Function.update_eq_self]

/-- A call with the type of the object registered, or of a name that has none. -/
theorem step_sameType {s s' : Lookups Val} {t : τ} {name : Text} {default_value : Val t}
    {description : Text} (hknown : s.Known) (hstable : s.Stable)
    (hsame : ∀ v, s.r.datas name = some v → v.type = t)
    (hstep : step s (.lookup t name default_value description) = some s') :
    s'.Known ∧ s'.Stable := by
  cases hdatas : s.r.datas name with
  | some v =>
      have hfind : s.r.find t name = some v.number := by
        rw [Registry.find, hdatas]
        exact if_pos (hsame v hdatas)
      rw [step_found hknown hfind] at hstep
      cases Option.some.inj hstep
      exact ⟨hknown, hstable⟩
  | none =>
      have hfind : s.r.find t name = none := by rw [Registry.find, hdatas]
      by_cases hname : onlyOf nameChars name = true
      · rw [step, Registry.lookup_of_not_find hfind hname] at hstep
        cases Option.some.inj hstep
        refine ⟨fun n => ?_, fun n i hi => ?_⟩
        · by_cases hn : n = name
          · subst hn
            simp only [Registry.register, Function.update_self, (hknown n).mpr hdatas]
            exact iff_of_false (by rintro ⟨⟩) (by rintro ⟨⟩)
          · simp only [Registry.register, Function.update_of_ne hn]
            exact hknown n
        · by_cases hn : n = name
          · subst hn
            simp only [Function.update_self, (hknown n).mpr hdatas] at hi
            exact ⟨_, Function.update_self .., Option.some.inj hi⟩
          · simp only [Function.update_of_ne hn] at hi
            obtain ⟨v, hv, heq⟩ := hstable n i hi
            exact ⟨v, (Function.update_of_ne hn ..).trans hv, heq⟩
      · rw [step, Registry.lookup_throws hfind hname] at hstep
        cases Option.some.inj hstep
        exact ⟨hknown, hstable⟩

/-- A call with another type than that of the object registered replaces the object. -/
theorem step_otherType {s s' : Lookups Val} {t : τ} {name : Text} {default_value : Val t}
    {description : Text} {v : Variable Val} (hknown : s.Known) (hstable : s.Stable)
    (hv : s.r.datas name = some v) (hne : v.type ≠ t)
    (hstep : step s (.lookup t name default_value description) = some s') :
    s'.Known ∧ ¬ s'.Stable := by
  have hfind : s.r.find t name = none := Registry.find_eq_none_iff.mpr fun v' hv' => by
    rw [hv] at hv'
    rwa [← Option.some.inj hv']
  have hfirst : s.first name ≠ none := fun hnone => by
    rw [(hknown name).mp hnone] at hv
    cases hv
  obtain ⟨i, hi⟩ := Option.ne_none_iff_exists'.mp hfirst
  obtain ⟨v', hv', hnumber⟩ := hstable name i hi
  rw [step, Registry.lookup_of_not_find hfind (s.r.valid name v hv)] at hstep
  cases Option.some.inj hstep
  refine ⟨fun n => ?_, fun hstable' => ?_⟩
  · by_cases hn : n = name
    · subst hn
      simp only [Registry.register, Function.update_self, hi]
      exact iff_of_false (by rintro ⟨⟩) (by rintro ⟨⟩)
    · simp only [Registry.register, Function.update_of_ne hn]
      exact hknown n
  · obtain ⟨w, hw, heq⟩ := hstable' name i (by simp only [Function.update_self, hi, Option.some_or])
    simp only [Registry.register, Function.update_self] at hw
    cases Option.some.inj hw
    have hlt := s.r.made name v' hv'
    simp only at heq
    omega

theorem step_spec {s s' : Lookups Val} {a : LookupAct Val} (hknown : s.Known)
    (hstable : s.Stable) (hstep : step s a = some s') :
    s'.Known ∧ (s'.Stable ↔ SameType s a s') := by
  cases a with
  | find t name =>
      cases Option.some.inj hstep
      exact ⟨hknown, iff_of_true hstable trivial⟩
  | lookup t name default_value description =>
      by_cases hsame : ∀ v, s.r.datas name = some v → v.type = t
      · obtain ⟨hknown', hstable'⟩ := step_sameType hknown hstable hsame hstep
        exact ⟨hknown', iff_of_true hstable' hsame⟩
      · rw [not_forall] at hsame
        obtain ⟨v, hv⟩ := hsame
        obtain ⟨hv, hne⟩ := Classical.not_imp.mp hv
        obtain ⟨hknown', hnot⟩ := step_otherType hknown hstable hv hne hstep
        exact ⟨hknown', iff_of_false hnot fun hsame => hne (hsame v hv)⟩

/-- A call with the same type refuses nothing. -/
theorem refuses_of_sameType {s s' : Lookups Val} {a : LookupAct Val} (hsame : SameType s a s')
    (hstep : step s a = some s') : Refuses s a s' := by
  cases a with
  | find t name =>
      cases Option.some.inj hstep
      intro v hv hne
      have hfind : s.r.find t name = none := Registry.find_eq_none_iff.mpr fun v' hv' => by
        rw [hv] at hv'
        rwa [← Option.some.inj hv']
      rw [hfind]
      exact ⟨rfl, rfl⟩
  | lookup t name default_value description =>
      intro v hv hne
      exact absurd (hsame v hv) hne

/-! ## Runs -/

/-- In every run of lookups the names keep their objects, and calls with other types are refused,
exactly when no `Lookup` with a default value has another type than the object registered. -/
theorem never_replaced_iff (as : List (LookupAct Val)) :
    Throughout step Stable start as ∧ Along step Refuses start as ↔
      Along step SameType start as := by
  have hrule : ∀ (s : Lookups Val) (a : LookupAct Val) (s' : Lookups Val), True → Known s →
      Stable s → step s a = some s' → Known s' ∧ (Stable s' ↔ SameType s a s') :=
    fun _ _ _ _ hknown hstable hstep => step_spec hknown hstable hstep
  have hiff : Throughout step Stable start as ↔ Along step SameType start as :=
    throughout_iff_along_beside (fun s a s' hq hk hs hstep => (hrule s a s' hq hk hs hstep).1)
      (fun s a s' hq hk hs hstep => (hrule s a s' hq hk hs hstep).2) (fun _ _ => trivial)
      start_known start_stable
  refine ⟨fun h => hiff.mp h.1, fun h => ⟨hiff.mpr h, ?_⟩⟩
  have hrefuses : ∀ (s : Lookups Val) (a : LookupAct Val) (s' : Lookups Val), True →
      SameType s a s' → step s a = some s' → Refuses s a s' ∧ True :=
    fun _ _ _ _ hsame hstep => ⟨refuses_of_sameType hsame hstep, trivial⟩
  exact along_of_step hrefuses trivial h

/-- The second `Lookup` of a name has another type. -/
def otherType : List (LookupAct Ty.Val) :=
  [.lookup .int (ascii "a") ⟨1, by decide⟩ [], .lookup .string (ascii "a") [] []]

/-- The first object is replaced. -/
theorem otherType_replaces :
    ∃ s : Lookups Ty.Val, exec step start otherType = some s ∧
      s.first (ascii "a") = some 0 ∧ s.r.find .int (ascii "a") = none ∧
      s.r.find .string (ascii "a") = some 1 ∧ s.answer = .object 1 ∧ ¬ s.Stable := by
  refine ⟨_, rfl, rfl, rfl, rfl, rfl, fun h => ?_⟩
  obtain ⟨v, hv, hnumber⟩ := h (ascii "a") 0 rfl
  cases Option.some.inj hv
  cases hnumber

end Lookups

end Muqiu.Config
