import Muqiu.Config.Members
import Muqiu.Config.Values

/-!
# What `LoadFromJson` sets

A variable takes one after the other the values listed under its name, as far as its type reads
them (`LoadFromJson_spec`).  So a variable whose name is a path of the JSON value has the value
found there when its name can be listed and no string is inside, and a variable whose name is no
path may get a value found below empty keys at the top (`follows_iff`).
-/

namespace Muqiu.Config

open Json (Text ascii)

/-! ## One variable after the other -/

/-- The variable with another value. -/
def Object.withVal (o : Object) (v : o.type.Val) : Object :=
  { o with var := { o.var with m_val := v } }

/-- The value after reading one JSON value after the other. -/
def readAll (R : Readers) (t : Ty) (v : t.Val) (js : List Json) : t.Val :=
  js.foldl (fun x j => (readAs R t j).getD x) v

/-- The last of the JSON values the type reads, read. -/
def lastRead (R : Readers) (t : Ty) (js : List Json) : Option t.Val :=
  js.reverse.findSome? (readAs R t)

theorem readAll_append (R : Readers) (t : Ty) (v : t.Val) (js js' : List Json) :
    readAll R t v (js ++ js') = readAll R t (readAll R t v js) js' := List.foldl_append

theorem readAll_eq (R : Readers) (t : Ty) (v : t.Val) (js : List Json) :
    readAll R t v js = (lastRead R t js).getD v := by
  rw [readAll, lastRead, ← List.foldr_reverse]
  induction js.reverse with
  | nil => rfl
  | cons j js ih =>
      rw [List.foldr_cons, ih, List.findSome?_cons]
      cases readAs R t j with
      | none => rfl
      | some x => rfl

theorem readAll_eq_iff {R : Readers} {t : Ty} {v : t.Val} {js : List Json} :
    readAll R t v js = v ↔ ∀ y, lastRead R t js = some y → y = v := by
  rw [readAll_eq]
  cases lastRead R t js with
  | none => exact iff_of_true rfl fun y hy => by cases hy
  | some x =>
      rw [Option.getD_some]
      exact ⟨fun hx y hy => (Option.some.inj hy).symm.trans hx, fun h => h x rfl⟩

theorem fromString_getD {R : Readers} {o : Object} {val : Text} :
    ({ o with var := (o.var.fromString R val).2.2 } : Object) =
      o.withVal ((ofText R o.type val).getD o.var.m_val) := by
  cases hread : ofText R o.type val with
  | none =>
      rw [ConfigVar.fromString_of_none hread]
      rfl
  | some v =>
      rw [ConfigVar.fromString_of_some hread, Option.getD_some, Object.withVal]
      congr 1
      rw [ConfigVar.setValue]
      split
      next heq => rw [of_decide_eq_true heq]
      next => rfl

theorem tolower_name {name : Text} (h : onlyOf memberChars name = true) :
    name.map tolower = name := by
  have hall : memberChars.all (fun b => tolower b == b) = true := rfl
  have hchars : ∀ b ∈ memberChars, tolower b = b := fun b hb =>
    beq_iff_eq.mp (List.all_eq_true.mp hall b hb)
  have hmem : ∀ b ∈ name, tolower b = b := fun b hb =>
    hchars b (List.contains_iff_mem.mp (List.all_eq_true.mp h b hb))
  exact (List.map_congr_left hmem).trans (List.map_id name)

variable {literal : Json.FloatText → Prop}

/-- The values a variable reads from a list of members: those under its name, if it has one. -/
def valuesFor (name : Text) (out : List (Text × Json)) : List Json :=
  if name = [] then [] else values name out

/-- The variables after reading the values for their names. -/
def Reads (R : Readers) (c c' : ConfigVarMap) (out : List (Text × Json)) : Prop :=
  ∀ name, c'.datas name = (c.datas name).map fun o =>
    o.withVal (readAll R o.type o.var.m_val (valuesFor name out))

theorem valuesFor_nil (name : Text) : valuesFor name [] = [] := by
  rw [valuesFor]
  split <;> rfl

theorem valuesFor_cons (name : Text) (m : Text × Json) (out : List (Text × Json)) :
    valuesFor name (m :: out) =
      (if m.1 ≠ [] ∧ m.1 = name then [m.2] else []) ++ valuesFor name out := by
  rw [valuesFor, valuesFor, values_cons]
  by_cases hname : name = []
  · rw [if_pos hname, if_pos hname, if_neg (fun h => h.1 (h.2.trans hname)), List.append_nil]
  · rw [if_neg hname, if_neg hname]
    by_cases hm : m.1 = name
    · rw [if_pos hm, if_pos ⟨fun hnil => hname (hm.symm.trans hnil), hm⟩]
    · rw [if_neg hm, if_neg (fun h => hm h.2)]

theorem valuesFor_singleton (name : Text) (m : Text × Json) :
    valuesFor name [m] = if m.1 ≠ [] ∧ m.1 = name then [m.2] else [] := by
  rw [valuesFor_cons, valuesFor_nil, List.append_nil]

theorem Reads.nil (R : Readers) (c : ConfigVarMap) : Reads R c c [] := by
  intro name
  rw [valuesFor_nil]
  cases c.datas name <;> rfl

theorem Reads.cons {R : Readers} {c c₁ c₂ : ConfigVarMap} {m : Text × Json}
    {out : List (Text × Json)} (h₁ : Reads R c c₁ [m]) (h₂ : Reads R c₁ c₂ out) :
    Reads R c c₂ (m :: out) := by
  intro name
  have hsplit : valuesFor name (m :: out) = valuesFor name [m] ++ valuesFor name out := by
    rw [valuesFor_cons, valuesFor_singleton]
  rw [h₂ name, h₁ name, Option.map_map, hsplit]
  refine congrFun (congrArg _ (funext fun o => ?_)) _
  exact congrArg o.withVal (readAll_append R o.type o.var.m_val _ _).symm

/-- A member sets the variable of its name. -/
theorem loadMember_reads (R : Readers) (c : ConfigVarMap) {m : Text × Json}
    (hproper : m.2.Proper literal) (hname : onlyOf memberChars m.1 = true) :
    ∃ c', loadMember R c m = some c' ∧ Reads R c c' [m] := by
  have hkeep : ∀ name, ¬ (m.1 ≠ [] ∧ m.1 = name) → c.datas name =
      (c.datas name).map fun o =>
        o.withVal (readAll R o.type o.var.m_val (valuesFor name [m])) := by
    intro name hne
    rw [valuesFor_singleton, if_neg hne]
    cases c.datas name <;> rfl
  rw [loadMember]
  split
  next hempty =>
    exact ⟨c, rfl, fun name => hkeep name fun h => h.1 (List.isEmpty_iff.mp hempty)⟩
  next hempty =>
    split
    next hnone =>
      refine ⟨c, rfl, fun name => ?_⟩
      by_cases hm : m.1 = name
      · have hn : c.datas name = none := by
          rw [← hm, ← tolower_name hname]
          exact hnone
        rw [hn]
        rfl
      · exact hkeep name fun h => hm h.2
    next o ho =>
      obtain ⟨val, hval⟩ := Json.dumpAt_of_proper none 0 m.2 hproper
      refine ⟨_, Option.map_eq_some_iff.mpr ⟨val, hval, rfl⟩, fun name => ?_⟩
      have hread : readAs R o.type m.2 = ofText R o.type val := by
        rw [readAs, Json.dump, hval, Option.bind_some]
      by_cases hm : m.1 = name
      · have hkey : name = m.1.map tolower := by rw [tolower_name hname, hm]
        have hn : c.datas name = some o := by
          rw [hkey]
          exact ho
        have hset : valuesFor name [m] = [m.2] := by
          rw [valuesFor_singleton, if_pos ⟨fun hnil => hempty (List.isEmpty_iff.mpr hnil), hm⟩]
        rw [hn, Option.map_some, hset, ConfigVarMap.set]
        simp only [if_pos hkey]
        rw [fromString_getD, ← hread]
        rfl
      · have hkey : name ≠ m.1.map tolower := by
          rw [tolower_name hname]
          exact Ne.symm hm
        rw [ConfigVarMap.set]
        simp only [if_neg hkey]
        exact hkeep name fun h => hm h.2

/-- The members listed set the variables of their names one after the other. -/
theorem loadMembers_reads (R : Readers) : ∀ (out : List (Text × Json)) (c : ConfigVarMap),
    (∀ m ∈ out, m.2.Proper literal ∧ onlyOf memberChars m.1 = true) →
    ∃ c', out.foldlM (loadMember R) c = some c' ∧ Reads R c c' out
  | [], c, _ => ⟨c, rfl, Reads.nil R c⟩
  | m :: out, c, h => by
      obtain ⟨hproper, hname⟩ := h m List.mem_cons_self
      obtain ⟨c₁, hc₁, hreads₁⟩ := loadMember_reads R c hproper hname
      obtain ⟨c₂, hc₂, hreads₂⟩ :=
        loadMembers_reads R out c₁ fun m' hm' => h m' (List.mem_cons_of_mem m hm')
      refine ⟨c₂, ?_, hreads₁.cons hreads₂⟩
      rw [List.foldlM_cons, hc₁]
      exact hc₂

/-- The values a variable reads: those its name leads to, if it can be listed. -/
def valuesAt (name : Text) (j : Json) : List Json :=
  if Loadable name then
    (below j).flatMap (fun r => (r.follow (components name)).toList) ++
      (j.follow (components name)).toList
  else []

/-- `LoadFromJson` returns, and every variable has read the values its name leads to. -/
theorem LoadFromJson_spec (R : Readers) (c : ConfigVarMap) {root : Json}
    (hroot : root.Proper literal) (hdots : Undotted root) :
    ∃ c', LoadFromJson R root c = some c' ∧ ∀ name, c'.datas name = (c.datas name).map fun o =>
      o.withVal (readAll R o.type o.var.m_val (valuesAt name root)) := by
  obtain ⟨out, hout, hspec⟩ := ListAllMember_spec [] root hroot hdots
  obtain ⟨c', hc', hreads⟩ := loadMembers_reads R out c fun m hm =>
    ⟨(hspec m hm).1, (hspec m hm).2.1⟩
  refine ⟨c', by rw [LoadFromJson, hout]; exact hc', fun name => ?_⟩
  have hvalues : valuesFor name out = valuesAt name root := by
    rw [valuesFor, valuesAt]
    split
    next hnil => rw [if_neg (fun h => h.1 hnil)]
    next hne =>
      split
      next h => exact values_ListAllMember h hroot hdots hout
      next h =>
        rw [values, List.map_eq_nil_iff, List.filter_eq_nil_iff]
        intro m hm hname
        have heq : m.1 = name := of_decide_eq_true hname
        obtain ⟨_, honly, hhead⟩ := hspec m hm
        refine h ⟨hne, ?_, ?_⟩
        · rw [← heq]
          exact hhead (by simp)
        · rw [← heq]
          exact honly
  rw [hreads name, hvalues]

/-! ## The variables afterwards -/

/-- A variable whose name is a path has the value found there, if there is one of its type.  Any
other variable has its old value. -/
def Follows (name : Text) (root : Json) {t : Ty} (old v : t.Val) : Prop :=
  match root.follow (components name) with
  | some j => ∀ y, valueOf t j = some y → v = y
  | none => v = old

/-- The values a name leads to below empty keys at the top, the deepest first. -/
def strays (name : Text) (root : Json) : List Json :=
  (below root).flatMap fun r => (r.follow (components name)).toList

/-- At a path the name can be listed and the value has no string inside, or the variable has the
value already.  Elsewhere the type reads no stray value, or the last one it reads is the old
value. -/
def Follows.Condition (R : Readers) (name : Text) (root : Json) {t : Ty} (old : t.Val) : Prop :=
  match root.follow (components name) with
  | some j => ∀ y, valueOf t j = some y → if Loadable name then leaves t y = [] else old = y
  | none => Loadable name → ∀ y, lastRead R t (strays name root) = some y → y = old

theorem follows_iff {R : Readers} (hR : R.Lawful literal) {name : Text} {root : Json}
    (hroot : root.Proper literal) {t : Ty} (old : t.Val) :
    Follows name root old (readAll R t old (valuesAt name root)) ↔
      Follows.Condition R name root old := by
  rw [Follows, Follows.Condition, valuesAt]
  cases hpath : root.follow (components name) with
  | none =>
      by_cases hload : Loadable name
      · rw [if_pos hload, Option.toList_none, List.append_nil]
        exact readAll_eq_iff.trans ⟨fun h _ => h, fun h => h hload⟩
      · rw [if_neg hload]
        exact iff_of_true rfl fun h => absurd h hload
  | some j =>
      refine forall_congr' fun y => imp_congr_right fun hy => ?_
      by_cases hload : Loadable name
      · obtain ⟨y', hy', heq⟩ := readAs_valueOf hR (hroot.follow hpath) hy
        rw [if_pos hload, if_pos hload, readAll_append, ← heq]
        have hlast : ∀ x : t.Val, readAll R t x (some j).toList = y' := by
          intro x
          rw [Option.toList_some, readAll, List.foldl_cons, List.foldl_nil, hy', Option.getD_some]
        rw [hlast]
      · rw [if_neg hload, if_neg hload]
        exact Iff.rfl

/-- After `LoadFromJson` a variable follows the JSON value exactly under the condition. -/
theorem LoadFromJson_follows_iff {R : Readers} (hR : R.Lawful literal) (c : ConfigVarMap)
    {root : Json} (hroot : root.Proper literal) (hdots : Undotted root) :
    ∃ c', LoadFromJson R root c = some c' ∧ ∀ name o, c.datas name = some o →
      ∃ v, c'.datas name = some (o.withVal v) ∧
        (Follows name root o.var.m_val v ↔ Follows.Condition R name root o.var.m_val) := by
  obtain ⟨c', hc', hdatas⟩ := LoadFromJson_spec R c hroot hdots
  refine ⟨c', hc', fun name o ho => ⟨_, ?_, follows_iff hR hroot o.var.m_val⟩⟩
  rw [hdatas name, ho, Option.map_some]

theorem no_listeners : ([] : List Nat).Pairwise (· < ·) := List.Pairwise.nil

/-- A registry with one variable. -/
def oneVariable (t : Ty) (v : t.Val) : ConfigVarMap :=
  { ConfigVarMap.empty.set (ascii "a") ⟨0, t, ⟨v, [], no_listeners⟩⟩ rfl with
    created := 1 }

/-- A number is loaded. -/
theorem number_loaded :
    ∃ c' o, LoadFromJson readers (.obj [(ascii "a", .int 5)]) (oneVariable .int ⟨0, by decide⟩) =
        some c' ∧ (oneVariable .int ⟨0, by decide⟩).datas (ascii "a") = some o ∧
      ∃ v, c'.datas (ascii "a") = some (o.withVal v) ∧
        Follows (ascii "a") (.obj [(ascii "a", .int 5)]) o.var.m_val v := by
  have hroot : (Json.obj [(ascii "a", .int 5)]).Proper fun _ => True :=
    ⟨by decide, by decide, ⟨by decide, by decide⟩, trivial⟩
  obtain ⟨c', hc', h⟩ := LoadFromJson_follows_iff (lawful_readers fun _ => True)
    (oneVariable .int ⟨0, by decide⟩) hroot ⟨by decide, trivial, trivial⟩
  obtain ⟨v, hv, hiff⟩ := h (ascii "a") _ rfl
  exact ⟨c', _, hc', rfl, v, hv, hiff.mpr fun y hy => by cases hy; rfl⟩

/-- A string is loaded with its quotes. -/
theorem string_loaded_quoted :
    readers.Lawful (fun _ => True) ∧
      (Json.obj [(ascii "a", .str (ascii "x"))]).Proper (fun _ => True) ∧
      Undotted (.obj [(ascii "a", .str (ascii "x"))]) ∧
      ConfigVarMap.empty.Lookup .string (ascii "a") [] = some (0, oneVariable .string []) ∧
      ∃ c', LoadFromJson readers (.obj [(ascii "a", .str (ascii "x"))])
          (oneVariable .string []) = some c' ∧
        c'.datas (ascii "a") =
          some ⟨0, .string, ⟨ascii "\"x\"", [], List.Pairwise.nil⟩⟩ ∧
        ¬ Follows (t := .string) (ascii "a") (.obj [(ascii "a", .str (ascii "x"))]) []
          (ascii "\"x\"") := by
  refine ⟨lawful_readers _, ⟨by decide, by decide, rfl, trivial⟩,
    ⟨by decide, trivial, trivial⟩, rfl, _, rfl, rfl, fun h => ?_⟩
  have hv : ascii "\"x\"" = ascii "x" := h (ascii "x") rfl
  revert hv
  decide

end Muqiu.Config
