import Muqiu.Lib.JsonReader
import Muqiu.Log.Define

/-!
# A definition read back from its text

The appenders are written under `appenders` and looked for under `appender`, so a definition that
is read back has none.  The other fields come back, where they have a text.
-/

namespace Muqiu.Log

open Json (Text ascii isUtf8 dump)

/-! ## Members -/

theorem mem_member {cond : Bool} {key : String} {value : Json} {m : Text × Json}
    (h : m ∈ member cond key value) : cond = true ∧ m = (ascii key, value) := by
  rw [member] at h
  split at h
  next hcond => exact ⟨hcond, List.mem_singleton.mp h⟩
  next => cases h

theorem member_keys (cond : Bool) (key : String) (value : Json) :
    ((member cond key value).map Prod.fst).Sublist [ascii key] := by
  rw [member]
  split
  next => exact List.Sublist.refl _
  next => exact List.nil_sublist _

theorem typeMember_keys (type : Int) : ((typeMember type).map Prod.fst).Sublist [ascii "type"] := by
  rw [typeMember]
  split
  next => exact List.Sublist.refl _
  next =>
    split
    next => exact List.Sublist.refl _
    next => exact List.nil_sublist _

theorem mem_typeMember {type : Int} {m : Text × Json} (h : m ∈ typeMember type) :
    ∃ s, m.2 = .str s := by
  rw [typeMember] at h
  split at h
  next => exact ⟨_, by rw [List.mem_singleton.mp h]⟩
  next =>
    split at h
    next => exact ⟨_, by rw [List.mem_singleton.mp h]⟩
    next => cases h

variable {literal : Json.FloatText → Prop}

/-- A string with a text is proper. -/
theorem proper_str {step : Option Nat} {column : Nat} {s t : Text}
    (h : Json.dumpAt step column (.str s) = some t) : (Json.str s).Proper literal := by
  have hsome : (Json.quote s).isSome = true := Option.isSome_iff_exists.mpr ⟨t, h⟩
  rw [Json.quote_isSome] at hsome
  exact hsome

/-- An object with sorted ASCII keys is proper when its values are. -/
theorem proper_obj {ms : List (Text × Json)} {keys : List Text}
    (hkeys : (ms.map Prod.fst).Sublist keys) (hsorted : keys.Pairwise (· < ·))
    (hutf8 : ∀ k ∈ keys, isUtf8 k = true) (hms : ∀ m ∈ ms, m.2.Proper literal) :
    (Json.obj ms).Proper literal :=
  ⟨hsorted.sublist hkeys, Json.properMembers_iff.mpr fun m hm =>
    ⟨hutf8 m.1 (hkeys.subset (List.mem_map_of_mem hm)), hms m hm⟩⟩

theorem utf8_level (level : Level) : isUtf8 level.toText = true := by
  cases level <;> rfl

theorem appender_keys : [ascii "file", ascii "formatter", ascii "level", ascii "type"].Pairwise
    (· < ·) := by decide

theorem define_keys :
    [ascii "appenders", ascii "formatter", ascii "level", ascii "name"].Pairwise (· < ·) := by
  decide

theorem toJson_keys (d : LogDefine) {ms : List (Text × Json)} (h : d.toJson = .obj ms) :
    (ms.map Prod.fst).Sublist
      [ascii "appenders", ascii "formatter", ascii "level", ascii "name"] := by
  cases h
  simp only [List.map_append]
  exact (((member_keys _ _ _).append (member_keys _ _ _)).append (member_keys _ _ _)).append
    (member_keys _ _ _)

/-- An appender whose `json` has a text has a proper one. -/
theorem proper_appender {a : LogAppenderDefine} {step : Option Nat} {column : Nat} {t : Text}
    (h : Json.dumpAt step column a.toJson = some t) : a.toJson.Proper literal := by
  rw [LogAppenderDefine.toJson] at h ⊢
  split at h
  next hempty =>
    rw [if_pos hempty]
    trivial
  next hempty =>
    rw [if_neg hempty]
    refine proper_obj ?_ appender_keys (by decide) fun m hm => ?_
    · simp only [List.map_append]
      exact (((member_keys _ _ _).append (member_keys _ _ _)).append (member_keys _ _ _)).append
        (typeMember_keys _)
    · obtain ⟨tv, htv⟩ := Json.dumpAt_obj_mem h m hm
      obtain ⟨s, hs⟩ : ∃ s, m.2 = .str s := by
        simp only [List.mem_append] at hm
        rcases hm with ((hm | hm) | hm) | hm
        · exact ⟨_, by rw [(mem_member hm).2]⟩
        · exact ⟨_, by rw [(mem_member hm).2]⟩
        · exact ⟨_, by rw [(mem_member hm).2]⟩
        · exact mem_typeMember hm
      rw [hs] at htv ⊢
      exact proper_str htv

/-- A definition whose `json` has a text has a proper one. -/
theorem proper_define {d : LogDefine} {t : Text} (h : d.toText = some t) :
    d.toJson.Proper literal := by
  refine proper_obj (toJson_keys d rfl) define_keys (by decide) fun m hm => ?_
  obtain ⟨tv, htv⟩ := Json.dumpAt_obj_mem h m hm
  simp only [List.mem_append] at hm
  rcases hm with ((hm | hm) | hm) | hm
  · rw [(mem_member hm).2] at htv ⊢
    refine Json.properElements_iff.mpr fun v hv => ?_
    obtain ⟨a, _, rfl⟩ := List.mem_map.mp hv
    obtain ⟨ta, hta⟩ := Json.dumpAt_arr_mem htv _ hv
    exact proper_appender hta
  · rw [(mem_member hm).2] at htv ⊢
    exact proper_str htv
  · rw [(mem_member hm).2] at htv ⊢
    exact proper_str htv
  · rw [(mem_member hm).2] at htv ⊢
    exact proper_str htv

/-! ## Reading back -/

theorem lookup_member_ne {cond : Bool} {key : String} {value : Json} {k : Text}
    (h : (k == ascii key) = false) : (member cond key value).lookup k = none := by
  rw [member]
  split
  next => rw [List.lookup_cons, h, List.lookup_nil]
  next => rfl

theorem lookup_member (cond : Bool) (key : String) (value : Json) :
    (member cond key value).lookup (ascii key) = if cond then some value else none := by
  rw [member]
  split
  next => rw [List.lookup_cons, beq_self_eq_true]
  next => rfl

theorem touch_name (d : LogDefine) : d.toJson.touch (ascii "name") = some d.toJson := by
  rw [LogDefine.toJson, Json.touch]
  refine congrArg (fun ms => some (Json.obj ms)) (Json.insertNull_of_mem
    (define_keys.sublist (toJson_keys d rfl)) ?_)
  rw [List.map_append]
  exact List.mem_append_right _ List.mem_cons_self

theorem get?_name (d : LogDefine) : d.toJson.get? (ascii "name") = some (.str d.name) := by
  rw [LogDefine.toJson, Json.get?, List.lookup_append, List.lookup_append, List.lookup_append,
    lookup_member_ne (by decide), lookup_member_ne (by decide), lookup_member_ne (by decide),
    lookup_member]
  rfl

theorem get?_appender (d : LogDefine) : d.toJson.get? (ascii "appender") = none := by
  rw [LogDefine.toJson, Json.get?, List.lookup_append, List.lookup_append, List.lookup_append,
    lookup_member_ne (by decide), lookup_member_ne (by decide), lookup_member_ne (by decide),
    lookup_member_ne (by decide)]
  rfl

theorem stringMember_level (d : LogDefine) :
    (stringMember "level" d.toJson).map Level.ofText = some d.level := by
  rw [stringMember, LogDefine.toJson, Json.get?, List.lookup_append, List.lookup_append,
    List.lookup_append, lookup_member_ne (by decide), lookup_member_ne (by decide),
    lookup_member, lookup_member_ne (by decide)]
  by_cases hlevel : d.level = .unknow
  · rw [hlevel]
    rfl
  · rw [if_pos (bne_iff_ne.mpr hlevel)]
    exact congrArg some (Level.ofText_toText d.level)

theorem stringMember_formatter (d : LogDefine) :
    stringMember "formatter" d.toJson = some d.formatter := by
  rw [stringMember, LogDefine.toJson, Json.get?, List.lookup_append, List.lookup_append,
    List.lookup_append, lookup_member_ne (by decide), lookup_member, lookup_member_ne (by decide),
    lookup_member_ne (by decide)]
  cases d.formatter with
  | nil => rfl
  | cons b formatter => rfl

/-- What is read from the `json` of a definition: everything but its appenders. -/
theorem ofText_json {parse : Text → Option Json} {d : LogDefine} {t : Text}
    (h : parse t = some d.toJson) :
    LogDefine.ofText parse t = some { d with appenders := [] } := by
  obtain ⟨level, hlevel, htext⟩ := Option.map_eq_some_iff.mp (stringMember_level d)
  rw [LogDefine.ofText, h, Option.bind_some, touch_name, Option.bind_some, get?_name,
    Option.bind_some, Json.str?, Option.bind_some, hlevel, Option.bind_some,
    stringMember_formatter, Option.bind_some, appendersOf, get?_appender, htext]
  rfl

theorem mem_name (d : LogDefine) {ms : List (Text × Json)} (h : d.toJson = .obj ms) :
    (ascii "name", .str d.name) ∈ ms := by
  cases h
  exact List.mem_append_right _ List.mem_cons_self

theorem mem_formatter (d : LogDefine) (hne : d.formatter ≠ []) {ms : List (Text × Json)}
    (h : d.toJson = .obj ms) : (ascii "formatter", .str d.formatter) ∈ ms := by
  cases h
  refine List.mem_append_left _ (List.mem_append_left _ (List.mem_append_right _ ?_))
  rw [member, List.isEmpty_eq_false_iff.mpr hne]
  exact List.mem_cons_self

/-- A definition comes back from its text exactly when it has no appenders and its name and its
formatter are UTF-8. -/
theorem define_roundTrip_iff {parse : Text → Option Json} (hparse : Json.Inverts literal parse)
    (d : LogDefine) :
    d.toText.bind (LogDefine.ofText parse) = some d ↔
      d.appenders = [] ∧ isUtf8 d.name = true ∧ isUtf8 d.formatter = true := by
  constructor
  · intro h
    obtain ⟨t, ht, hback⟩ := Option.bind_eq_some_iff.mp h
    have hproper : d.toJson.Proper literal := proper_define ht
    rw [ofText_json (hparse.dump none _ t hproper ht)] at hback
    have hmem := Json.properMembers_iff.mp hproper.2
    refine ⟨(congrArg LogDefine.appenders (Option.some.inj hback)).symm,
      (hmem _ (mem_name d rfl)).2, ?_⟩
    by_cases hne : d.formatter = []
    · rw [hne]
      rfl
    · exact (hmem _ (mem_formatter d hne rfl)).2
  · rintro ⟨happenders, hname, hformatter⟩
    have hproper : d.toJson.Proper literal := by
      refine proper_obj (toJson_keys d rfl) define_keys (by decide) fun m hm => ?_
      simp only [List.mem_append] at hm
      rcases hm with ((hm | hm) | hm) | hm
      · rw [happenders] at hm
        cases hm
      · rw [(mem_member hm).2]
        exact hformatter
      · rw [(mem_member hm).2]
        exact utf8_level d.level
      · rw [(mem_member hm).2]
        exact hname
    obtain ⟨t, ht⟩ := Json.dumpAt_of_proper none 0 _ hproper
    have htext : d.toText = some t := ht
    rw [htext, Option.bind_some, ofText_json (hparse.dump none _ t hproper ht), ← happenders]

/-- A definition with a level and a formatter comes back. -/
theorem plainDefine_back :
    (LogDefine.mk (ascii "a") .warn (ascii "%m") []).toText.bind (LogDefine.ofText Json.read) =
      some ⟨ascii "a", .warn, ascii "%m", []⟩ :=
  (define_roundTrip_iff (Json.read_inverts fun _ => True) _).mpr ⟨rfl, rfl, rfl⟩

/-- A definition with an appender comes back without it. -/
theorem appender_notBack :
    Json.Inverts (fun _ => True) Json.read ∧
      (LogDefine.mk (ascii "a") .warn [] [⟨2, .info, [], []⟩]).toText.bind
        (LogDefine.ofText Json.read) ≠ some ⟨ascii "a", .warn, [], [⟨2, .info, [], []⟩]⟩ := by
  obtain ⟨t, ht⟩ : ∃ t, (LogDefine.mk (ascii "a") .warn [] [⟨2, .info, [], []⟩]).toText = some t :=
    ⟨_, rfl⟩
  refine ⟨Json.read_inverts _, ?_⟩
  have hparse := (Json.read_inverts fun _ => True).dump none _ t (proper_define ht) ht
  rw [ht, Option.bind_some, ofText_json hparse]
  decide

end Muqiu.Log
