import Muqiu.Log.Define

/-!
# Which changes of the `logs` variable arrive

A definition that differs in its name, its level or its formatter is a change, and one that
differs in its appenders only is none (`noChangeDropped_iff`): `setValue` calls nobody when there
are no other changes, and the listener leaves such a definition out.
-/

namespace Muqiu.Log

open Json (ascii)
open Config (ConfigVar)

/-! ## Finding a definition -/

theorem find_eq_some {ds : LogDefines} {d it : LogDefine} :
    ds.find d = some it ↔ it ∈ ds.val ∧ it.name = d.name :=
  SortedSet.find?_key LogDefine.lt_iff ds.property

/-- There is one definition of a name. -/
theorem eq_of_name {ds : LogDefines} {d e : LogDefine} (hd : d ∈ ds.val) (he : e ∈ ds.val)
    (h : d.name = e.name) : d = e :=
  ds.property.eq_of_key LogDefine.lt_iff d hd e he h

theorem find_eq_none {ds : LogDefines} {d : LogDefine} :
    ds.find d = none ↔ ∀ k ∈ ds.val, k.name ≠ d.name := by
  rw [Option.eq_none_iff_forall_ne_some]
  exact ⟨fun h k hk hname => h k (find_eq_some.mpr ⟨hk, hname⟩),
    fun h k hk => h k (find_eq_some.mp hk).1 (find_eq_some.mp hk).2⟩

theorem mem_configured {old_value new_value : LogDefines} {i : LogDefine} :
    i ∈ configured old_value new_value ↔
      i ∈ new_value.val ∧ ∀ it ∈ old_value.val, it.name = i.name → i.eq it = false := by
  rw [configured, List.mem_filter]
  refine and_congr_right fun _ => ?_
  cases hfind : old_value.find i with
  | none => exact iff_of_true rfl fun it hit hname => absurd hname (find_eq_none.mp hfind it hit)
  | some it =>
      obtain ⟨hit, hname⟩ := find_eq_some.mp hfind
      simp only [Bool.not_eq_true']
      constructor
      · intro heq it' hit' hname'
        rw [eq_of_name hit' hit (hname'.trans hname.symm)]
        exact heq
      · exact fun h => h it hit hname

theorem mem_removed {old_value new_value : LogDefines} {i : LogDefine} :
    i ∈ removed old_value new_value ↔
      i ∈ old_value.val ∧ ∀ k ∈ new_value.val, k.name ≠ i.name := by
  rw [removed, List.mem_filter, Option.isNone_iff_eq_none, find_eq_none]

/-! ## Comparing sets -/

/-- Definitions with one name, one level and one formatter have the same appenders. -/
def SameAppenders (old_value new_value : LogDefines) : Prop :=
  ∀ i ∈ old_value.val, ∀ k ∈ new_value.val, i.name = k.name → i.level = k.level →
    i.formatter = k.formatter → i.appenders = k.appenders

theorem eq_of_zip {f : LogDefine → LogDefine → Bool} :
    ∀ {ds es : List LogDefine}, (∀ d ∈ ds, ∀ e ∈ es, f d e = true → d = e) →
      ds.length = es.length → ((ds.zip es).all fun p => f p.1 p.2) = true → ds = es
  | [], [], _, _, _ => rfl
  | d :: ds, e :: es, h, hlen, hall => by
      rw [List.zip_cons_cons, List.all_cons, Bool.and_eq_true] at hall
      rw [h d List.mem_cons_self e List.mem_cons_self hall.1,
        eq_of_zip (fun x hx y hy => h x (List.mem_cons_of_mem d hx) y (List.mem_cons_of_mem e hy))
          (Nat.succ.inj hlen) hall.2]

theorem LogDefines.eq_self (ds : LogDefines) : ds.eq ds = true := by
  rw [LogDefines.eq, beq_self_eq_true, Bool.true_and, List.all_eq_true]
  intro p hp
  have heq : ∀ {xs : List LogDefine}, p ∈ xs.zip xs → p.1 = p.2 := by
    intro xs
    induction xs with
    | nil => intro h; cases h
    | cons x xs ih =>
        intro h
        rcases List.mem_cons.mp h with rfl | hmem
        · rfl
        · exact ih hmem
  exact LogDefine.eq_iff.mpr ⟨by rw [heq hp], by rw [heq hp], by rw [heq hp]⟩

theorem LogDefines.eq_iff {old_value new_value : LogDefines}
    (h : SameAppenders old_value new_value) :
    new_value.eq old_value = true ↔ new_value = old_value := by
  constructor
  · intro heq
    rw [LogDefines.eq, Bool.and_eq_true, beq_iff_eq] at heq
    refine Subtype.ext (eq_of_zip (fun d hd e he hde => ?_) heq.1 heq.2)
    obtain ⟨hname, hlevel, hformatter⟩ := LogDefine.eq_iff.mp hde
    have happenders := h e he d hd hname.symm hlevel.symm hformatter.symm
    exact LogDefine.ext hname hlevel hformatter happenders.symm
  · rintro rfl
    exact LogDefines.eq_self new_value

/-! ## Changes -/

/-- A change calls every listener once with both values and is there afterwards, no change calls
nobody, and the listener configures the definitions that are not as they were and removes those
without a successor. -/
structure NoChangeDropped (var : ConfigVar LogDefines) (v : LogDefines) : Prop where
  called : v ≠ var.m_val →
    (var.setValue LogDefines.eq v).1 = var.m_cbs.map fun i => ⟨i, var.m_val, v⟩
  value : (var.setValue LogDefines.eq v).2.m_val = v
  quiet : v = var.m_val → (var.setValue LogDefines.eq v).1 = []
  changed : ∀ i ∈ v.val, i ∈ configured var.m_val v ↔ i ∉ var.m_val.val
  deleted : ∀ i ∈ var.m_val.val, i ∈ removed var.m_val v ↔ ∀ k ∈ v.val, k.name ≠ i.name

/-- No change is dropped exactly when no definition differs in its appenders only. -/
theorem noChangeDropped_iff (var : ConfigVar LogDefines) (v : LogDefines) :
    NoChangeDropped var v ↔ SameAppenders var.m_val v := by
  constructor
  · intro h i hi k hk hname hlevel hformatter
    by_contra hne
    have hnew : k ∉ var.m_val.val := fun hold => hne (by
      rw [eq_of_name hi hold hname])
    have hchanged := (mem_configured.mp ((h.changed k hk).mpr hnew)).2 i hi hname
    rw [LogDefine.eq_iff.mpr ⟨hname.symm, hlevel.symm, hformatter.symm⟩] at hchanged
    cases hchanged
  · intro h
    refine ⟨fun hne => ?_, ?_, ?_, fun i hi => ?_, fun i hi => ?_⟩
    · rw [ConfigVar.setValue, if_neg (fun heq => hne ((LogDefines.eq_iff h).mp heq))]
    · rw [ConfigVar.setValue]
      split
      next heq => exact ((LogDefines.eq_iff h).mp heq).symm
      next => rfl
    · intro heq
      rw [ConfigVar.setValue, if_pos ((LogDefines.eq_iff h).mpr heq)]
    · rw [mem_configured]
      constructor
      · rintro ⟨_, hdiffer⟩ hold
        have hself := hdiffer i hold rfl
        rw [LogDefine.eq_iff.mpr ⟨rfl, rfl, rfl⟩] at hself
        cases hself
      · refine fun hnew => ⟨hi, fun it hit hname => Bool.eq_false_iff.mpr fun heq => hnew ?_⟩
        obtain ⟨_, hlevel, hformatter⟩ := LogDefine.eq_iff.mp heq
        have happenders := h it hit i hi hname hlevel.symm hformatter.symm
        have hsame : it = i := LogDefine.ext hname hlevel.symm hformatter.symm happenders
        rw [← hsame]
        exact hit
    · rw [mem_removed]
      exact and_iff_right hi

/-- An appender added to a definition is no change. -/
theorem addedAppender_dropped :
    ¬ NoChangeDropped
      ⟨⟨[⟨ascii "a", .info, [], []⟩], List.pairwise_singleton _ _⟩, [1],
        List.pairwise_singleton _ _⟩
      ⟨[⟨ascii "a", .info, [], [⟨2, .unknow, [], []⟩]⟩], List.pairwise_singleton _ _⟩ := by
  intro h
  have hcalled := h.called (by decide)
  revert hcalled
  decide

end Muqiu.Log
