import Muqiu.Config.RoundTrip

/-!
# The value of a type in a JSON value

`valueOf` is the value of a type a JSON value holds: a number, the content of a string, the
elements of an array, the members of an object.  `ofText` gets another one from the text of the
JSON value, with every string inside it in quotes (`ofText_valueOf`), so it gets this one exactly
when there is no string inside (`readAs_valueOf`).
-/

namespace Muqiu.Config

open Json (Text quote dump)

/-- The number, when it is an `int`. -/
def intVal (i : Int) : Option IntVal := if h : -2 ^ 31 ≤ i ∧ i < 2 ^ 31 then some ⟨i, h⟩ else none

/-- The value of the type a JSON value holds. -/
def valueOf : (t : Ty) → Json → Option t.Val
  | .int, j => j.int?.bind intVal
  | .string, j => j.str?
  | .vector t, j => j.arr?.bind fun vs => vs.mapM (valueOf t)
  | .list t, j => j.arr?.bind fun vs => vs.mapM (valueOf t)
  | .set t, j => j.arr?.bind fun vs => (vs.mapM (valueOf t)).map setOf
  | .map t, j =>
      j.obj?.bind fun ms => (ms.mapM fun m => (valueOf t m.2).map fun x => (m.1, x)).map mapOf

/-- The strings inside the second value are those inside the first in quotes. -/
structure Quoted (t : Ty) (y y' : t.Val) : Prop where
  eq : leaves t y = [] → y' = y
  mem : ∀ l ∈ leaves t y, ∃ q, quote l = some q ∧ q ∈ leaves t y'

/-- A value with strings inside is not the one with the strings in quotes. -/
theorem Quoted.eq_iff {t : Ty} {y y' : t.Val} (h : Quoted t y y') :
    y' = y ↔ leaves t y = [] := by
  refine ⟨?_, h.eq⟩
  rintro rfl
  cases hmax : (leaves t y').argmax List.length with
  | none => exact List.argmax_eq_none.mp hmax
  | some l =>
      obtain ⟨q, hq, hmem⟩ := h.mem l (List.argmax_mem hmax)
      have hle := List.le_of_mem_argmax hmem hmax
      exact absurd (Json.length_quote hq) (not_lt.mpr hle)

theorem intVal_eq_some {n : Int} {i : IntVal} (h : intVal n = some i) : n = i.val := by
  rw [intVal] at h
  split at h
  next =>
    cases Option.some.inj h
    rfl
  next => cases h

/-! ## Reading -/

variable {literal : Json.FloatText → Prop} {R : Readers} (hR : R.Lawful literal)

omit literal in
/-- The value is read with its strings in quotes. -/
def ReadsQuoted (R : Readers) (t : Ty) (j : Json) : Prop :=
  ∀ y step e, valueOf t j = some y → dump step j = some e →
    ∃ y', ofText R t e = some y' ∧ Quoted t y y'

theorem mapM_quoted {t : Ty} (ih : ∀ j : Json, j.Proper literal → ReadsQuoted R t j)
    {vs : List Json} {ys : List t.Val} (hvs : Json.ProperElements literal vs)
    (hys : vs.mapM (valueOf t) = some ys) :
    ∃ zs, (vs.mapM fun e => (dump (some 4) e).bind (ofText R t)) = some zs ∧
      (∀ y ∈ ys, ∃ z ∈ zs, Quoted t y z) ∧ ((∀ y ∈ ys, leaves t y = []) → zs = ys) := by
  obtain ⟨zs, hzs, hmem, heq⟩ := Fallible.mapM_related (P := Quoted t)
    (g := fun e => (dump (some 4) e).bind (ofText R t)) (fun v hv y hy => by
      have hproper := Json.properElements_iff.mp hvs v hv
      obtain ⟨e, he⟩ := Json.dumpAt_of_proper (some 4) 0 v hproper
      obtain ⟨z, hz, hquoted⟩ := ih v hproper y (some 4) e hy he
      exact ⟨z, Option.bind_eq_some_iff.mpr ⟨e, he, hz⟩, hquoted⟩) hys
  exact ⟨zs, hzs, hmem, fun hnil => heq fun y hy z hz => hz.eq (hnil y hy)⟩

theorem sequence_quoted {t : Ty} {ys zs : List t.Val}
    (hmem : ∀ y ∈ ys, ∃ z ∈ zs, Quoted t y z) :
    ∀ l ∈ ys.flatMap (leaves t), ∃ q, quote l = some q ∧ q ∈ zs.flatMap (leaves t) := by
  intro l hl
  obtain ⟨y, hy, hly⟩ := List.mem_flatMap.mp hl
  obtain ⟨z, hz, hquoted⟩ := hmem y hy
  obtain ⟨q, hq, hqz⟩ := hquoted.mem l hly
  exact ⟨q, hq, List.mem_flatMap.mpr ⟨z, hz, hqz⟩⟩

include hR

section Containers

variable {t : Ty} (ih : ∀ j : Json, j.Proper literal → ReadsQuoted R t j) {j : Json}
  (hj : j.Proper literal)
include ih hj

/-- Elements that are read so are the elements of the set. -/
theorem readsQuoted_set : ReadsQuoted R (.set t) j := by
  intro xs step e hy he
  obtain ⟨vs, hvs, hmap⟩ := Option.bind_eq_some_iff.mp hy
  obtain rfl := Json.arr?_eq_some hvs
  obtain ⟨ys, hys, rfl⟩ := Option.map_eq_some_iff.mp hmap
  obtain ⟨zs, hzs, hmem, heq⟩ := mapM_quoted ih hj hys
  refine ⟨setOf zs, Option.bind_eq_some_iff.mpr ⟨_, hR.inverts.dump step _ e hj he,
    Option.map_eq_some_iff.mpr ⟨zs, hzs, rfl⟩⟩, ?_, ?_⟩
  · intro hnil
    rw [heq fun y hy => List.flatMap_eq_nil_iff.mp hnil y (mem_setOf.mpr hy)]
  · intro l hl
    obtain ⟨y, hy, hly⟩ := List.mem_flatMap.mp hl
    obtain ⟨z, hz, hquoted⟩ := hmem y (mem_setOf.mp hy)
    obtain ⟨q, hq, hqz⟩ := hquoted.mem l hly
    exact ⟨q, hq, List.mem_flatMap.mpr ⟨z, mem_setOf.mpr hz, hqz⟩⟩

/-- The members keep their keys, which are different. -/
theorem readsQuoted_map : ReadsQuoted R (.map t) j := by
  intro ms step e hy he
  obtain ⟨vs, hvs, hmap⟩ := Option.bind_eq_some_iff.mp hy
  obtain rfl := Json.obj?_eq_some hvs
  obtain ⟨ys, hys, rfl⟩ := Option.map_eq_some_iff.mp hmap
  obtain ⟨zs, hzs, hmem, heq⟩ := Fallible.mapM_related
    (P := fun y z : Text × t.Val => y.1 = z.1 ∧ Quoted t y.2 z.2)
    (g := fun m => ((dump none m.2).bind (ofText R t)).map fun x => (m.1, x))
    (fun m hm y hy => by
      obtain ⟨x, hx, rfl⟩ := Option.map_eq_some_iff.mp hy
      have hproper := (Json.properMembers_iff.mp hj.2 m hm).2
      obtain ⟨e, he⟩ := Json.dumpAt_of_proper none 0 m.2 hproper
      obtain ⟨z, hz, hquoted⟩ := ih m.2 hproper x none e hx he
      exact ⟨(m.1, z), Option.map_eq_some_iff.mpr
        ⟨z, Option.bind_eq_some_iff.mpr ⟨e, he, hz⟩, rfl⟩, rfl, hquoted⟩) hys
  have hdistinct : ∀ {ws : List (Text × t.Val)}, ws.map Prod.fst = vs.map Prod.fst →
      ws.Pairwise fun a b => a.1 ≠ b.1 := by
    intro ws hkeys
    have hne := hj.1.imp fun h => ne_of_lt h
    rw [← hkeys] at hne
    exact List.pairwise_map.mp hne
  have hysd := hdistinct (Fallible.map_of_mapM (fun m r hr => by
    obtain ⟨x, _, rfl⟩ := Option.map_eq_some_iff.mp hr
    rfl) hys)
  have hzsd := hdistinct (Fallible.map_of_mapM (fun m r hr => by
    obtain ⟨x, _, rfl⟩ := Option.map_eq_some_iff.mp hr
    rfl) hzs)
  refine ⟨mapOf zs, Option.bind_eq_some_iff.mpr ⟨_, hR.inverts.dump step _ e hj he,
    Option.map_eq_some_iff.mpr ⟨zs, hzs, rfl⟩⟩, ?_, ?_⟩
  · intro hnil
    rw [heq fun y hy z hz => Prod.ext hz.1.symm
      (hz.2.eq (List.flatMap_eq_nil_iff.mp hnil _ (mem_mapOf hysd hy)))]
  · intro l hl
    obtain ⟨y, hy, hly⟩ := List.mem_flatMap.mp hl
    obtain ⟨z, hz, _, hquoted⟩ := hmem _ (mem_of_mem_mapOf hy)
    obtain ⟨q, hq, hqz⟩ := hquoted.mem l hly
    exact ⟨q, hq, List.mem_flatMap.mpr ⟨_, mem_mapOf hzsd hz, hqz⟩⟩

end Containers

/-- From the text of a JSON value the value it holds is read with its strings in quotes. -/
theorem ofText_valueOf (t : Ty) : ∀ j : Json, j.Proper literal → ReadsQuoted R t j := by
  induction t with
  | int =>
      intro j hj i step e hi he
      obtain ⟨n, hn, hval⟩ := Option.bind_eq_some_iff.mp hi
      obtain rfl := Json.int?_eq_some hn
      obtain rfl := intVal_eq_some hval
      cases Option.some.inj he
      exact ⟨i, ofText_intDigits hR i, fun _ => rfl, fun l hl => by cases hl⟩
  | string =>
      intro j hj s step e hs he
      obtain rfl := Json.str?_eq_some hs
      refine ⟨e, rfl, ⟨fun hnil => (by cases hnil), fun l hl => ?_⟩⟩
      rw [List.mem_singleton.mp hl]
      exact ⟨e, he, List.mem_singleton.mpr rfl⟩
  | vector t ih =>
      intro j hj ys step e hy he
      obtain ⟨vs, hvs, hys⟩ := Option.bind_eq_some_iff.mp hy
      obtain rfl := Json.arr?_eq_some hvs
      obtain ⟨zs, hzs, hmem, heq⟩ := mapM_quoted ih hj hys
      exact ⟨zs, Option.bind_eq_some_iff.mpr ⟨_, hR.inverts.dump step _ e hj he, hzs⟩,
        fun hnil => heq (List.flatMap_eq_nil_iff.mp hnil), sequence_quoted hmem⟩
  | list t ih =>
      intro j hj ys step e hy he
      obtain ⟨vs, hvs, hys⟩ := Option.bind_eq_some_iff.mp hy
      obtain rfl := Json.arr?_eq_some hvs
      obtain ⟨zs, hzs, hmem, heq⟩ := mapM_quoted ih hj hys
      exact ⟨zs, Option.bind_eq_some_iff.mpr ⟨_, hR.inverts.dump step _ e hj he, hzs⟩,
        fun hnil => heq (List.flatMap_eq_nil_iff.mp hnil), sequence_quoted hmem⟩
  | set t ih => exact fun j hj => readsQuoted_set hR ih hj
  | map t ih => exact fun j hj => readsQuoted_map hR ih hj

/-- What `fromString` reads from the text of a JSON value. -/
def readAs (R : Readers) (t : Ty) (j : Json) : Option t.Val := (dump none j).bind (ofText R t)

/-- The value a JSON value holds is read exactly when there is no string inside. -/
theorem readAs_valueOf {t : Ty} {j : Json} {y : t.Val} (hj : j.Proper literal)
    (hy : valueOf t j = some y) :
    ∃ y', readAs R t j = some y' ∧ (y' = y ↔ leaves t y = []) := by
  obtain ⟨e, he⟩ := Json.dumpAt_of_proper none 0 j hj
  obtain ⟨y', hy', hquoted⟩ := ofText_valueOf hR t j hj y none e hy he
  exact ⟨y', Option.bind_eq_some_iff.mpr ⟨e, he, hy'⟩, hquoted.eq_iff⟩

end Muqiu.Config
