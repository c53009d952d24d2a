import Muqiu.Config.Model

/-!
# The members `ListAllMember` lists

A member is listed under its keys with dots between them, where empty keys at the top are left
out.  For a name without a leading dot these are the members its components lead to: from the
value itself, and before that from each value under a chain of empty keys, the deepest first
(`values_ListAllMember`).  A name with a leading dot is not listed, nor is one with a character
that is not in `memberChars`, as `9` is not.
-/

namespace Muqiu.Config

open Json (Text follow)

/-! ## Names -/

/-- The components of a name. -/
def components (name : Text) : List Text := name.splitOn 46

mutual

/-- No key has a dot. -/
def Undotted : Json → Prop
  | .obj ms => UndottedItems ms
  | _ => True

/-- The same of the members of an object. -/
def UndottedItems : List (Text × Json) → Prop
  | [] => True
  | (k, v) :: ms => 46 ∉ k ∧ Undotted v ∧ UndottedItems ms

end

/-- What is left of a path behind a first key. -/
def next (key : Text) : List Text → Option (List Text)
  | [] => none
  | c :: cs => if c = key then some cs else none

/-- The components of a name behind a name before it. -/
def remaining (pre name : Text) : Option (List Text) :=
  if name = pre then some []
  else if (pre ++ [46]).isPrefixOf name then some (components (name.drop (pre.length + 1)))
  else none

theorem remaining_eq_some {pre name : Text} {cs : List Text} :
    remaining pre name = some cs ↔
      (name = pre ∧ cs = []) ∨ ∃ rest, name = pre ++ 46 :: rest ∧ cs = components rest := by
  rw [remaining]
  split
  next heq =>
    constructor
    · intro h
      exact Or.inl ⟨heq, (Option.some.inj h).symm⟩
    · rintro (⟨_, rfl⟩ | ⟨rest, hrest, _⟩)
      · rfl
      · have hlen := congrArg List.length (heq.symm.trans hrest)
        rw [List.length_append, List.length_cons] at hlen
        omega
  next hne =>
    split
    next hpre =>
      obtain ⟨rest, rfl⟩ := List.isPrefixOf_iff_prefix.mp hpre
      have hdrop : (pre ++ [46] ++ rest).drop (pre.length + 1) = rest := by
        rw [List.drop_append_of_le_length (by simp), List.drop_eq_nil_of_le (by simp),
          List.nil_append]
      rw [hdrop]
      constructor
      · intro h
        exact Or.inr ⟨rest, by simp, (Option.some.inj h).symm⟩
      · rintro (⟨heq, _⟩ | ⟨rest', heq, rfl⟩)
        · exact absurd heq hne
        · rw [List.append_assoc] at heq
          cases List.append_cancel_left heq
          rfl
    next hpre =>
      refine iff_of_false (fun h => by cases h) ?_
      rintro (⟨heq, _⟩ | ⟨rest, rfl, _⟩)
      · exact hne heq
      · exact hpre (List.isPrefixOf_iff_prefix.mpr ⟨rest, by simp⟩)

/-- A first key without dots is the first component. -/
theorem remaining_key {key : Text} (hkey : 46 ∉ key) (name : Text) :
    remaining key name = next key (components name) := by
  refine Option.ext fun cs => ?_
  rw [remaining_eq_some]
  constructor
  · rintro (⟨rfl, rfl⟩ | ⟨rest, rfl, rfl⟩)
    · rw [components, List.splitOn_eq_singleton hkey, next, if_pos rfl]
    · rw [components, List.splitOn_append_cons_self_of_not_mem hkey, next, if_pos rfl]
      rfl
  · intro h
    cases hsplit : components name with
    | nil =>
        rw [hsplit] at h
        cases h
    | cons c cs' =>
        rw [hsplit, next, Option.ite_none_right_eq_some] at h
        obtain ⟨rfl, h⟩ := h
        cases Option.some.inj h
        have hname : [46].intercalate (c :: cs) = name := by
          rw [← hsplit]
          exact List.intercalate_splitOn 46
        cases cs with
        | nil =>
            rw [List.intercalate_singleton] at hname
            exact Or.inl ⟨hname.symm, rfl⟩
        | cons c' cs =>
            rw [List.intercalate_cons_cons, List.append_assoc, List.singleton_append] at hname
            refine Or.inr ⟨_, hname.symm, ?_⟩
            rw [← hname, components, List.splitOn_append_cons_self_of_not_mem hkey] at hsplit
            exact (List.cons.inj hsplit).2.symm

/-- Behind one more key. -/
theorem remaining_append {pre key : Text} (hkey : 46 ∉ key) (name : Text) :
    remaining (pre ++ 46 :: key) name = (remaining pre name).bind (next key) := by
  refine Option.ext fun cs => ?_
  rw [remaining_eq_some, Option.bind_eq_some_iff]
  constructor
  · rintro (⟨rfl, rfl⟩ | ⟨rest, rfl, rfl⟩)
    · refine ⟨components key, remaining_eq_some.mpr (Or.inr ⟨key, rfl, rfl⟩), ?_⟩
      rw [← remaining_key hkey]
      exact remaining_eq_some.mpr (Or.inl ⟨rfl, rfl⟩)
    · refine ⟨components (key ++ 46 :: rest),
        remaining_eq_some.mpr (Or.inr ⟨_, by rw [List.append_assoc]; rfl, rfl⟩), ?_⟩
      rw [← remaining_key hkey]
      exact remaining_eq_some.mpr (Or.inr ⟨rest, rfl, rfl⟩)
  · rintro ⟨cs', hcs', hnext⟩
    rcases remaining_eq_some.mp hcs' with ⟨_, rfl⟩ | ⟨rest, rfl, rfl⟩
    · cases hnext
    · rw [← remaining_key hkey, remaining_eq_some] at hnext
      rcases hnext with ⟨rfl, rfl⟩ | ⟨rest', rfl, rfl⟩
      · exact Or.inl ⟨rfl, rfl⟩
      · exact Or.inr ⟨rest', by rw [List.append_assoc]; rfl, rfl⟩

/-! ## What is listed -/

/-- The values listed under a name. -/
def values (name : Text) (out : List (Text × Json)) : List Json :=
  (out.filter fun m => m.1 = name).map Prod.snd

theorem values_cons (name : Text) (m : Text × Json) (out : List (Text × Json)) :
    values name (m :: out) = (if m.1 = name then [m.2] else []) ++ values name out := by
  rw [values, List.filter_cons]
  by_cases h : m.1 = name
  · rw [if_pos h, if_pos (decide_eq_true h)]
    rfl
  · rw [if_neg h, if_neg (fun hd => h (of_decide_eq_true hd))]
    rfl

theorem values_append (name : Text) (out out' : List (Text × Json)) :
    values name (out ++ out') = values name out ++ values name out' := by
  rw [values, List.filter_append, List.map_append, values, values]

/-- The value a name leads to below a value that is listed under a name. -/
def hits (pre name : Text) (j : Json) : List Json :=
  ((remaining pre name).bind j.follow).toList

theorem head?_memberName {pre key : Text} (hpre : pre.head? ≠ some 46) (hkey : 46 ∉ key) :
    (memberName pre key).head? ≠ some 46 := by
  cases pre with
  | nil =>
      intro h
      exact hkey (List.mem_of_mem_head? h)
  | cons b pre => exact hpre

/-- The members of an object. -/
def membersOf : Json → List (Text × Json)
  | .obj ms => ms
  | _ => []

theorem ListAllMember_eq (pre : Text) (j : Json) :
    ListAllMember pre j =
      if onlyOf memberChars pre then
        (listItems pre (membersOf j)).map fun rest => (pre, j) :: rest
      else (Json.dump none j).map fun _ => [] := by
  cases j <;> rfl

variable {literal : Json.FloatText → Prop}

mutual

/-- What is listed is proper, its names have the characters of members only, and they have no
leading dot where the first one has none. -/
theorem ListAllMember_spec (pre : Text) : ∀ j : Json, j.Proper literal → Undotted j →
    ∃ out, ListAllMember pre j = some out ∧ ∀ m ∈ out, m.2.Proper literal ∧
      onlyOf memberChars m.1 = true ∧ (pre.head? ≠ some 46 → m.1.head? ≠ some 46) := by
  intro j hj hdots
  obtain ⟨rest, hrest, hspec⟩ : ∃ out, listItems pre (membersOf j) = some out ∧
      ∀ m ∈ out, m.2.Proper literal ∧ onlyOf memberChars m.1 = true ∧
        (pre.head? ≠ some 46 → m.1.head? ≠ some 46) := by
    cases j with
    | obj ms => exact listItems_spec pre ms hj.2 hdots
    | null | bool | int | float | str | arr => exact ⟨[], rfl, by simp⟩
  rw [ListAllMember_eq]
  by_cases honly : onlyOf memberChars pre = true
  · rw [if_pos honly, hrest]
    refine ⟨_, rfl, fun m hm => ?_⟩
    rcases List.mem_cons.mp hm with rfl | hmem
    · exact ⟨hj, honly, id⟩
    · exact hspec m hmem
  · obtain ⟨t, ht⟩ := Json.dumpAt_of_proper none 0 j hj
    rw [if_neg honly, Json.dump, ht]
    exact ⟨[], rfl, by simp⟩

theorem listItems_spec (pre : Text) : ∀ ms : List (Text × Json), Json.ProperMembers literal ms →
    UndottedItems ms → ∃ out, listItems pre ms = some out ∧ ∀ m ∈ out, m.2.Proper literal ∧
      onlyOf memberChars m.1 = true ∧ (pre.head? ≠ some 46 → m.1.head? ≠ some 46)
  | [], _, _ => ⟨[], rfl, by simp⟩
  | (key, value) :: ms, h, hdots => by
      obtain ⟨out, hout, hspec⟩ := ListAllMember_spec (memberName pre key) value h.2.1 hdots.2.1
      obtain ⟨rest, hrest, hspec'⟩ := listItems_spec pre ms h.2.2 hdots.2.2
      refine ⟨out ++ rest, by rw [listItems, hout, Option.bind_some, hrest, Option.map_some],
        fun m hm => ?_⟩
      rcases List.mem_append.mp hm with hm | hm
      · obtain ⟨hproper, honly, hhead⟩ := hspec m hm
        exact ⟨hproper, honly, fun hpre => hhead (head?_memberName hpre hdots.1)⟩
      · exact hspec' m hm

end

/-! ## Below a name -/

/-- Of distinct keys one at most is the first of a path. -/
theorem flatMap_follow {c : Text} {cs : List Text} :
    ∀ {ms : List (Text × Json)}, (ms.map Prod.fst).Pairwise (· < ·) →
      ms.flatMap (fun m => ((next m.1 (c :: cs)).bind m.2.follow).toList) =
        (Json.follow (.obj ms) (c :: cs)).toList
  | [], _ => rfl
  | (k, v) :: ms, h => by
      rw [List.map_cons, List.pairwise_cons] at h
      rw [List.flatMap_cons, Json.follow, List.lookup_cons, next]
      by_cases heq : c = k
      · have hrest : ms.flatMap (fun m => ((next m.1 (c :: cs)).bind m.2.follow).toList) = [] := by
          refine List.flatMap_eq_nil_iff.mpr fun m hm => ?_
          have hlt := h.1 m.1 (List.mem_map_of_mem hm)
          rw [next, if_neg (fun hc => absurd hlt (by rw [← hc, heq]; exact lt_irrefl k))]
          rfl
        rw [hrest, if_pos heq, List.append_nil, heq, beq_self_eq_true]
        rfl
      · rw [if_neg heq, beq_false_of_ne heq, flatMap_follow h.2]
        rfl

theorem flatMap_hits {pre name : Text} (hpre : pre ≠ []) {ms : List (Text × Json)}
    (hms : (ms.map Prod.fst).Pairwise (· < ·)) (hdots : ∀ m ∈ ms, 46 ∉ m.1) :
    ms.flatMap (fun m => hits (memberName pre m.1) name m.2) =
      if name = pre then [] else hits pre name (.obj ms) := by
  have hstep : ms.flatMap (fun m => hits (memberName pre m.1) name m.2) =
      ms.flatMap fun m => (((remaining pre name).bind (next m.1)).bind m.2.follow).toList := by
    refine List.flatMap_congr fun m hm => ?_
    have hne : pre.isEmpty = false := List.isEmpty_eq_false_iff.mpr hpre
    rw [hits, memberName, hne, if_neg Bool.false_ne_true, remaining_append (hdots m hm)]
  rw [hstep]
  by_cases heq : name = pre
  · have hhere : remaining pre name = some [] := remaining_eq_some.mpr (Or.inl ⟨heq, rfl⟩)
    rw [if_pos heq, hhere]
    exact List.flatMap_eq_nil_iff.mpr fun m _ => rfl
  · rw [if_neg heq, hits]
    cases hleft : remaining pre name with
    | none => exact List.flatMap_eq_nil_iff.mpr fun m _ => rfl
    | some cs =>
        rcases remaining_eq_some.mp hleft with ⟨hname, _⟩ | ⟨rest, _, rfl⟩
        · exact absurd hname heq
        · obtain ⟨c, cs, hcs⟩ := List.exists_cons_of_ne_nil (List.splitOn_ne_nil 46 rest)
          rw [components, hcs]
          exact flatMap_follow hms

theorem memberName_ne_nil {pre : Text} (hpre : pre ≠ []) (key : Text) :
    memberName pre key ≠ [] := by
  rw [memberName, List.isEmpty_eq_false_iff.mpr hpre, if_neg Bool.false_ne_true]
  exact List.append_ne_nil_of_left_ne_nil hpre _

theorem undotted_of_items : ∀ {ms : List (Text × Json)}, UndottedItems ms →
    ∀ m ∈ ms, 46 ∉ m.1 ∧ Undotted m.2
  | (k, v) :: ms, h, m, hm => by
      rcases List.mem_cons.mp hm with rfl | hmem
      · exact ⟨h.1, h.2.1⟩
      · exact undotted_of_items h.2.2 m hmem

/-- A name with a prefix that has other characters than a member's has them too. -/
theorem remaining_of_invalid {pre name : Text} (hname : onlyOf memberChars name = true)
    (hpre : ¬ onlyOf memberChars pre = true) : remaining pre name = none := by
  refine Option.eq_none_iff_forall_ne_some.mpr fun cs hcs => ?_
  rcases remaining_eq_some.mp hcs with ⟨rfl, _⟩ | ⟨rest, rfl, _⟩
  · exact hpre hname
  · rw [onlyOf, List.all_append, Bool.and_eq_true] at hname
    exact hpre hname.1

mutual

/-- Below a name a value is listed under the names that lead to it. -/
theorem values_below {name : Text} (hname : onlyOf memberChars name = true) {pre : Text}
    (hpre : pre ≠ []) : ∀ {j : Json} {out : List (Text × Json)}, j.Proper literal →
      Undotted j → ListAllMember pre j = some out → values name out = hits pre name j := by
  intro j out hj hdots hout
  rw [ListAllMember_eq] at hout
  by_cases honly : onlyOf memberChars pre = true
  · rw [if_pos honly] at hout
    obtain ⟨rest, hrest, rfl⟩ := Option.map_eq_some_iff.mp hout
    have hbelow : values name rest =
        if name = pre then [] else hits pre name j := by
      cases j with
      | obj ms =>
          rw [values_items hname (fun m _ => memberName_ne_nil hpre m.1) hj.2 hdots hrest]
          exact flatMap_hits hpre hj.1 fun m hm => (undotted_of_items hdots m hm).1
      | null | bool | int | float | str | arr =>
          cases Option.some.inj hrest
          rw [hits]
          split
          next => rfl
          next hne =>
            cases hleft : remaining pre name with
            | none => rfl
            | some cs =>
                rcases remaining_eq_some.mp hleft with ⟨heq, _⟩ | ⟨rest, _, rfl⟩
                · exact absurd heq hne
                · obtain ⟨c, cs, hcs⟩ := List.exists_cons_of_ne_nil (List.splitOn_ne_nil 46 rest)
                  rw [components, hcs]
                  rfl
    rw [values_cons, hbelow]
    by_cases heq : name = pre
    · have hhere : remaining pre name = some [] := remaining_eq_some.mpr (Or.inl ⟨heq, rfl⟩)
      rw [if_pos heq.symm, if_pos heq, hits, hhere]
      cases j <;> rfl
    · rw [if_neg (Ne.symm heq), if_neg heq, List.nil_append]
  · rw [if_neg honly] at hout
    obtain ⟨t, _, rfl⟩ := Option.map_eq_some_iff.mp hout
    rw [hits, remaining_of_invalid hname honly]
    rfl

theorem values_items {name : Text} (hname : onlyOf memberChars name = true) {pre : Text} :
    ∀ {ms : List (Text × Json)} {out : List (Text × Json)},
      (∀ m ∈ ms, memberName pre m.1 ≠ []) → Json.ProperMembers literal ms → UndottedItems ms →
      listItems pre ms = some out →
      values name out = ms.flatMap fun m => hits (memberName pre m.1) name m.2
  | [], out, _, _, _, hout => by
      cases Option.some.inj hout
      rfl
  | (key, value) :: ms, out, hne, hms, hdots, hout => by
      obtain ⟨out', hout', hmap⟩ := Option.bind_eq_some_iff.mp hout
      obtain ⟨rest, hrest, rfl⟩ := Option.map_eq_some_iff.mp hmap
      rw [values_append, values_below hname (hne _ List.mem_cons_self) hms.2.1 hdots.2.1 hout',
        values_items hname (fun m hm => hne m (List.mem_cons_of_mem _ hm)) hms.2.2 hdots.2.2 hrest,
        List.flatMap_cons]

end

/-! ## From the top -/

/-- A name that can be listed: it is not empty, has no leading dot and has the characters of
members only. -/
def Loadable (name : Text) : Prop :=
  name ≠ [] ∧ name.head? ≠ some 46 ∧ onlyOf memberChars name = true

instance (name : Text) : Decidable (Loadable name) :=
  inferInstanceAs (Decidable (_ ∧ _))

/-- The values under chains of empty keys, the deepest first. -/
def below : Json → List Json
  | .obj (([], v) :: _) => below v ++ [v]
  | _ => []

theorem Loadable.components {name : Text} (h : Loadable name) :
    ∃ c cs, components name = c :: cs ∧ c ≠ [] := by
  obtain ⟨c, cs, hcs⟩ := List.exists_cons_of_ne_nil (List.splitOn_ne_nil 46 name)
  refine ⟨c, cs, hcs, ?_⟩
  rintro rfl
  have hname : [46].intercalate ([] :: cs) = name := by
    rw [← hcs]
    exact List.intercalate_splitOn 46
  cases cs with
  | nil =>
      rw [List.intercalate_singleton] at hname
      exact h.1 hname.symm
  | cons c' cs =>
      rw [List.intercalate_cons_cons] at hname
      rw [← hname] at h
      exact h.2.1 rfl

/-- Members with keys at the top are listed under the names that lead to them. -/
theorem values_keys {name : Text} (h : Loadable name) {ms : List (Text × Json)}
    {out : List (Text × Json)} (hkeys : ∀ m ∈ ms, m.1 ≠ [])
    (hsorted : (ms.map Prod.fst).Pairwise (· < ·)) (hms : Json.ProperMembers literal ms)
    (hdots : UndottedItems ms) (hout : listItems [] ms = some out) :
    values name out = (Json.follow (.obj ms) (components name)).toList := by
  obtain ⟨c, cs, hcs, _⟩ := h.components
  rw [values_items h.2.2 hkeys hms hdots hout, hcs, ← flatMap_follow hsorted]
  refine List.flatMap_congr fun m hm => ?_
  have hpre : memberName [] m.1 = m.1 := rfl
  rw [hits, hpre, remaining_key (undotted_of_items hdots m hm).1, hcs]

/-- The values listed under a name, in their order. -/
theorem values_ListAllMember {name : Text} (h : Loadable name) :
    ∀ {j : Json} {out : List (Text × Json)}, j.Proper literal → Undotted j →
      ListAllMember [] j = some out →
      values name out = (below j).flatMap (fun r => (r.follow (components name)).toList) ++
        (j.follow (components name)).toList := by
  intro j out hj hdots hout
  obtain ⟨c, cs, hcs, hc⟩ := h.components
  rw [ListAllMember_eq, if_pos (by rfl)] at hout
  obtain ⟨rest, hrest, rfl⟩ := Option.map_eq_some_iff.mp hout
  rw [values_cons, if_neg (Ne.symm h.1), List.nil_append]
  cases j with
  | null | bool | int | float | str | arr =>
      cases Option.some.inj hrest
      rw [hcs]
      rfl
  | obj ms =>
      cases ms with
      | nil =>
          cases Option.some.inj hrest
          rw [hcs]
          rfl
      | cons m ms =>
          cases m with
          | mk k v =>
              have hsorted : ((k, v) :: ms).map Prod.fst = k :: ms.map Prod.fst := rfl
              have hfirst := hj.1
              rw [hsorted, List.pairwise_cons] at hfirst
              cases k with
              | nil =>
                  -- the empty key comes first, and its value is listed as the top is
                  obtain ⟨outv, hv, hmap⟩ := Option.bind_eq_some_iff.mp hrest
                  obtain ⟨rest', hrest', rfl⟩ := Option.map_eq_some_iff.mp hmap
                  have hkeys : ∀ m ∈ ms, m.1 ≠ [] := fun m hm hnil =>
                    absurd (hfirst.1 m.1 (List.mem_map_of_mem hm)) (by rw [hnil]; decide)
                  have hfollow : Json.follow (.obj (([], v) :: ms)) (c :: cs) =
                      Json.follow (.obj ms) (c :: cs) := by
                    rw [Json.follow, List.lookup_cons, beq_false_of_ne hc, Json.follow]
                  rw [values_append, values_keys h hkeys hfirst.2 hj.2.2.2 hdots.2.2 hrest',
                    values_ListAllMember h hj.2.2.1 hdots.2.1 hv, hcs, hfollow, below,
                    List.flatMap_append, List.flatMap_singleton]
              | cons b k =>
                  have hkeys : ∀ m ∈ (b :: k, v) :: ms, m.1 ≠ [] := by
                    intro m hm
                    rcases List.mem_cons.mp hm with rfl | hmem
                    · exact List.cons_ne_nil b k
                    · intro hnil
                      have hlt := hfirst.1 m.1 (List.mem_map_of_mem hmem)
                      rw [hnil] at hlt
                      cases hlt
                  rw [values_keys h hkeys hj.1 hj.2 hdots hrest]
                  rfl
termination_by j => sizeOf j

end Muqiu.Config
