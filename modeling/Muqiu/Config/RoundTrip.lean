import Mathlib.Data.List.MinMax
import Muqiu.Config.Model

/-!
# A variable read back from its own text

`toText` writes every element of a container as a JSON string, and `ofText` reads it from the
text of that string, quotes included.  An `int` inside a container is then no numeral, and a
`std::string` has its quotes with it.  Only an `int`, a `std::string` and an empty container get
their values back.

The strings inside a value are its `leaves`.  A text in quotes is read as a value with that text
for a leaf (`mem_leaves_of_quote`), and no leaf is longer than the text of the value
(`length_le_toText`).  So the longest element of a container gives one that was not in it.
-/

namespace Muqiu.Config

open Json (Text ascii quote dump)

/-- The strings inside a value. -/
def leaves : (t : Ty) → t.Val → List Text
  | .int, _ => []
  | .string, s => [s]
  | .vector t, xs => List.flatMap (leaves t) xs
  | .list t, xs => List.flatMap (leaves t) xs
  | .set t, xs => List.flatMap (leaves t) (Subtype.val xs)
  | .map t, ms => List.flatMap (fun m => leaves t m.2) (Subtype.val ms)

/-! ## Leaves and texts -/

theorem quote_of_dumpElements {step : Option Nat} :
    ∀ {column : Nat} {ss : List Text} {t : Text},
      Json.dumpElements step column (ss.map Json.str) = some t →
        ∀ s ∈ ss, ∃ q, quote s = some q ∧ q.length ≤ t.length
  | column, s :: ss, t, h, s', hs' => by
      obtain ⟨q, tr, hq, htr, rfl⟩ := Json.dumpElements_cons h
      have hlen : q.length + tr.length ≤ (Json.newline step column ++
          (q ++ (Json.comma (ss.map Json.str) ++ tr))).length := by
        simp only [List.length_append]
        omega
      rcases List.mem_cons.mp hs' with rfl | hmem
      · exact ⟨q, hq, by omega⟩
      · obtain ⟨q', hq', hle⟩ := quote_of_dumpElements htr s' hmem
        exact ⟨q', hq', by omega⟩

theorem quote_of_dumpMembers {step : Option Nat} :
    ∀ {column : Nat} {ss : List (Text × Text)} {t : Text},
      Json.dumpMembers step column (ss.map fun m => (m.1, Json.str m.2)) = some t →
        ∀ m ∈ ss, (∃ k, quote m.1 = some k) ∧ ∃ q, quote m.2 = some q ∧ q.length ≤ t.length
  | column, s :: ss, t, h, m, hm => by
      obtain ⟨k, q, tr, hk, hq, htr, rfl⟩ := Json.dumpMembers_cons h
      have hlen : q.length + tr.length ≤ (Json.newline step column ++ (k ++ (Json.colon step ++
          (q ++ (Json.comma (ss.map fun m => (m.1, Json.str m.2)) ++ tr))))).length := by
        simp only [List.length_append]
        omega
      rcases List.mem_cons.mp hm with rfl | hmem
      · exact ⟨⟨k, hk⟩, q, hq, by omega⟩
      · obtain ⟨hk', q', hq', hle⟩ := quote_of_dumpMembers htr m hmem
        exact ⟨hk', q', hq', by omega⟩

theorem quote_of_pushAll {step : Option Nat} {ss : List Text} {t : Text}
    (h : dump step (pushAll ss) = some t) :
    ∀ s ∈ ss, ∃ q, quote s = some q ∧ q.length ≤ t.length := by
  intro s hs
  cases ss with
  | nil => cases hs
  | cons s' ss =>
      obtain ⟨te, hte, rfl⟩ := Option.map_eq_some_iff.mp h
      obtain ⟨q, hq, hle⟩ := quote_of_dumpElements hte s hs
      refine ⟨q, hq, hle.trans ?_⟩
      simp only [List.length_append, List.length_cons]
      omega

theorem quote_of_setAll {step : Option Nat} {ss : List (Text × Text)} {t : Text}
    (h : dump step (setAll ss) = some t) :
    ∀ m ∈ ss, (∃ k, quote m.1 = some k) ∧ ∃ q, quote m.2 = some q ∧ q.length ≤ t.length := by
  intro m hm
  cases ss with
  | nil => cases hm
  | cons m' ss =>
      obtain ⟨te, hte, rfl⟩ := Option.map_eq_some_iff.mp h
      obtain ⟨hk, q, hq, hle⟩ := quote_of_dumpMembers hte m hm
      refine ⟨hk, q, hq, hle.trans ?_⟩
      simp only [List.length_append, List.length_cons]
      omega

theorem isUtf8_of_quote {s q : Text} (h : quote s = some q) : Json.isUtf8 s = true := by
  rw [← Json.quote_isSome, h]
  rfl

/-- What was written is a proper value. -/
theorem proper_pushAll {literal : Json.FloatText → Prop} {step : Option Nat} {ss : List Text}
    {t : Text} (h : dump step (pushAll ss) = some t) : (pushAll ss).Proper literal := by
  have hquote := quote_of_pushAll h
  cases ss with
  | nil => trivial
  | cons s ss =>
      refine Json.properElements_iff.mpr fun v hv => ?_
      obtain ⟨s', hs', rfl⟩ := List.mem_map.mp hv
      obtain ⟨q, hq, _⟩ := hquote s' hs'
      exact isUtf8_of_quote hq

theorem proper_setAll {literal : Json.FloatText → Prop} {step : Option Nat}
    {ss : List (Text × Text)} {t : Text} (h : dump step (setAll ss) = some t)
    (hkeys : ss.Pairwise fun a b => a.1 < b.1) : (setAll ss).Proper literal := by
  have hquote := quote_of_setAll h
  cases ss with
  | nil => trivial
  | cons s ss =>
      refine ⟨?_, Json.properMembers_iff.mpr fun m hm => ?_⟩
      · rw [List.map_map, List.pairwise_map]
        exact hkeys
      · obtain ⟨s', hs', rfl⟩ := List.mem_map.mp hm
        obtain ⟨⟨k, hk⟩, q, hq, _⟩ := hquote s' hs'
        exact ⟨isUtf8_of_quote hk, isUtf8_of_quote hq⟩

/-- No leaf is longer than the text of its value. -/
theorem length_le_toText : ∀ {t : Ty} {x : t.Val} {l e : Text}, l ∈ leaves t x →
    toText t x = some e → l.length ≤ e.length
  | .int, _, _, _, hl, _ => by cases hl
  | .string, s, l, e, hl, he => by
      rw [List.mem_singleton.mp hl, Option.some.inj he]
  | .vector t, xs, l, e, hl, he => by
      obtain ⟨x, hx, hlx⟩ := List.mem_flatMap.mp hl
      obtain ⟨ss, hss, hdump⟩ := Option.bind_eq_some_iff.mp he
      obtain ⟨s, hs, htext⟩ := Fallible.mem_mapM_of_mem hss x hx
      obtain ⟨q, hq, hle⟩ := quote_of_pushAll hdump s hs
      exact (length_le_toText hlx htext).trans ((Json.length_quote hq).le.trans hle)
  | .list t, xs, l, e, hl, he => by
      obtain ⟨x, hx, hlx⟩ := List.mem_flatMap.mp hl
      obtain ⟨ss, hss, hdump⟩ := Option.bind_eq_some_iff.mp he
      obtain ⟨s, hs, htext⟩ := Fallible.mem_mapM_of_mem hss x hx
      obtain ⟨q, hq, hle⟩ := quote_of_pushAll hdump s hs
      exact (length_le_toText hlx htext).trans ((Json.length_quote hq).le.trans hle)
  | .set t, xs, l, e, hl, he => by
      obtain ⟨x, hx, hlx⟩ := List.mem_flatMap.mp hl
      obtain ⟨ss, hss, hdump⟩ := Option.bind_eq_some_iff.mp he
      obtain ⟨s, hs, htext⟩ := Fallible.mem_mapM_of_mem hss x hx
      obtain ⟨q, hq, hle⟩ := quote_of_pushAll hdump s hs
      exact (length_le_toText hlx htext).trans ((Json.length_quote hq).le.trans hle)
  | .map t, ms, l, e, hl, he => by
      obtain ⟨m, hm, hlm⟩ := List.mem_flatMap.mp hl
      obtain ⟨ss, hss, hdump⟩ := Option.bind_eq_some_iff.mp he
      obtain ⟨s, hs, hpair⟩ := Fallible.mem_mapM_of_mem hss m hm
      obtain ⟨e', htext, rfl⟩ := Option.map_eq_some_iff.mp hpair
      obtain ⟨_, q, hq, hle⟩ := quote_of_setAll hdump _ hs
      exact (length_le_toText hlm htext).trans ((Json.length_quote hq).le.trans hle)

/-! ## Texts in quotes -/

theorem items_setAll (ss : List (Text × Text)) :
    (setAll ss).items = ss.map fun m => (m.1, Json.str m.2) := by
  cases ss with
  | nil => rfl
  | cons m ss => rfl

section Reading

variable {literal : Json.FloatText → Prop} {R : Readers} (hR : R.Lawful literal)
include hR

theorem parse_quote {s q : Text} (h : quote s = some q) : R.parse q = some (.str s) :=
  hR.inverts.dump none (.str s) q (isUtf8_of_quote h) h

theorem lexicalInt_quote {s q : Text} (h : quote s = some q) : R.lexicalInt q = none := by
  refine Option.eq_none_iff_forall_ne_some.mpr fun i hi => ?_
  obtain ⟨t, _, rfl⟩ := Option.map_eq_some_iff.mp h
  have hnumeral := ((hR.decimal _ i).mp hi).1
  rw [isNumeral, Bool.and_eq_true] at hnumeral
  exact absurd (List.all_eq_true.mp hnumeral.2 34 List.mem_cons_self) (by decide)

/-- The element read from a text in quotes. -/
theorem mem_of_quote {t : Ty} {s q : Text} {xs : List t.Val} (hq : quote s = some q)
    (h : ((R.parse q).bind fun j => j.elements.mapM fun e =>
      (dump (some 4) e).bind (ofText R t)) = some xs) : ∃ x ∈ xs, ofText R t q = some x := by
  rw [parse_quote hR hq, Option.bind_some] at h
  obtain ⟨x, hmem, hx⟩ := Fallible.mem_mapM_of_mem h (.str s) List.mem_cons_self
  rw [Json.dump_str, hq, Option.bind_some] at hx
  exact ⟨x, hmem, hx⟩

/-- A text in quotes is read as a value with the text itself as a leaf. -/
theorem mem_leaves_of_quote : ∀ {t : Ty} {s q : Text} {y : t.Val}, quote s = some q →
    ofText R t q = some y → q ∈ leaves t y
  | .int, s, q, y, hq, hy => by
      rw [ofText, lexicalInt_quote hR hq] at hy
      cases hy
  | .string, s, q, y, hq, hy => by
      cases Option.some.inj hy
      exact List.mem_singleton.mpr rfl
  | .vector t, s, q, y, hq, hy => by
      obtain ⟨x, hmem, hx⟩ := mem_of_quote hR hq hy
      exact List.mem_flatMap.mpr ⟨x, hmem, mem_leaves_of_quote hq hx⟩
  | .list t, s, q, y, hq, hy => by
      obtain ⟨x, hmem, hx⟩ := mem_of_quote hR hq hy
      exact List.mem_flatMap.mpr ⟨x, hmem, mem_leaves_of_quote hq hx⟩
  | .set t, s, q, y, hq, hy => by
      obtain ⟨j, hj, hmap⟩ := Option.bind_eq_some_iff.mp hy
      obtain ⟨xs, hxs, rfl⟩ := Option.map_eq_some_iff.mp hmap
      obtain ⟨x, hmem, hx⟩ := mem_of_quote hR hq (Option.bind_eq_some_iff.mpr ⟨j, hj, hxs⟩)
      exact List.mem_flatMap.mpr
        ⟨x, mem_setOf.mpr hmem, mem_leaves_of_quote hq hx⟩
  | .map t, s, q, y, hq, hy => by
      obtain ⟨j, hj, hmap⟩ := Option.bind_eq_some_iff.mp hy
      rw [parse_quote hR hq] at hj
      cases Option.some.inj hj
      obtain ⟨ms, hms, rfl⟩ := Option.map_eq_some_iff.mp hmap
      obtain ⟨m, rest, hm, hrest, rfl⟩ := Fallible.mapM_cons_eq_some.mp hms
      cases Option.some.inj hrest
      obtain ⟨x, hx, rfl⟩ := Option.map_eq_some_iff.mp hm
      rw [Json.dump_str, hq, Option.bind_some] at hx
      exact List.mem_flatMap.mpr ⟨_, List.mem_singleton.mpr rfl, mem_leaves_of_quote hq hx⟩

/-! ## Containers -/

/-- What the longest text of elements is read as is no element. -/
theorem not_mem_of_longest {t : Ty} {xs : List t.Val} {s q : Text} {y : t.Val}
    (hxs : ∀ x ∈ xs, ∃ e, toText t x = some e ∧ e.length ≤ s.length) (hq : quote s = some q)
    (hy : ofText R t q = some y) : y ∉ xs := by
  intro hmem
  obtain ⟨e, he, hle⟩ := hxs y hmem
  have hleaf := length_le_toText (mem_leaves_of_quote hR hq hy) he
  have hquote := Json.length_quote hq
  omega

/-- Of the elements read back from the texts of some elements one is new. -/
theorem exists_new {t : Ty} {xs : List t.Val} (hne : xs ≠ []) {ss : List Text}
    (hss : xs.mapM (toText t) = some ss) {e : Text} (he : dump (some 4) (pushAll ss) = some e)
    {ys : List t.Val}
    (hys : ((R.parse e).bind fun j => j.elements.mapM fun e =>
      (dump (some 4) e).bind (ofText R t)) = some ys) : ∃ y ∈ ys, y ∉ xs := by
  have hparse : R.parse e = some (pushAll ss) :=
    hR.inverts.dump (some 4) _ e (proper_pushAll he) he
  rw [hparse, Option.bind_some] at hys
  obtain ⟨x₀, xs', rfl⟩ := List.exists_cons_of_ne_nil hne
  obtain ⟨s₀, ss', _, _, rfl⟩ := Fallible.mapM_cons_eq_some.mp hss
  cases hmax : (s₀ :: ss').argmax List.length with
  | none => cases List.argmax_eq_none.mp hmax
  | some s =>
      have hs := List.argmax_mem hmax
      obtain ⟨y, hy, hread⟩ :=
        Fallible.mem_mapM_of_mem hys (.str s) (List.mem_map_of_mem hs)
      obtain ⟨q, hq, _⟩ := quote_of_pushAll he s hs
      rw [Json.dump_str, hq, Option.bind_some] at hread
      refine ⟨y, hy, not_mem_of_longest hR (fun x hx => ?_) hq hread⟩
      obtain ⟨e', he', htext⟩ := Fallible.mem_mapM_of_mem hss x hx
      exact ⟨e', htext, List.le_of_mem_argmax he' hmax⟩

/-- The members read back from the texts of a map do not make up the map, when it has any. -/
theorem map_ne {t : Ty} {ms : (Ty.map t).Val} (hne : ms.val ≠ []) {e : Text}
    (he : toText (.map t) ms = some e) : ofText R (.map t) e ≠ some ms := by
  intro hback
  obtain ⟨ss, hss, hdump⟩ := Option.bind_eq_some_iff.mp he
  obtain ⟨j, hj, hmap⟩ := Option.bind_eq_some_iff.mp hback
  obtain ⟨ys, hys, hms⟩ := Option.map_eq_some_iff.mp hmap
  have hkeys : ss.map Prod.fst = ms.val.map Prod.fst := by
    refine Fallible.map_of_mapM (fun m r hr => ?_) hss
    obtain ⟨s, _, rfl⟩ := Option.map_eq_some_iff.mp hr
    rfl
  have hsorted : ss.Pairwise fun a b => a.1 < b.1 := by
    have hordered : (ms.val.map Prod.fst).Pairwise (· < ·) :=
      List.pairwise_map.mpr (ms.property.imp fun h => keyLess_iff.mp h)
    rw [← hkeys] at hordered
    exact List.pairwise_map.mp hordered
  have hparse := hR.inverts.dump (some 4) _ e (proper_setAll hdump hsorted) hdump
  cases Option.some.inj (hparse.symm.trans hj)
  rw [items_setAll] at hys
  have hdistinct : ys.Pairwise fun a b => a.1 ≠ b.1 := by
    have hfst : ys.map Prod.fst = (ss.map fun m => (m.1, Json.str m.2)).map Prod.fst := by
      refine Fallible.map_of_mapM (fun m r hr => ?_) hys
      obtain ⟨s, _, rfl⟩ := Option.map_eq_some_iff.mp hr
      rfl
    have hne : ((ss.map fun m => (m.1, Json.str m.2)).map Prod.fst).Pairwise (· ≠ ·) := by
      rw [List.map_map]
      exact List.pairwise_map.mpr (hsorted.imp fun h => ne_of_lt h)
    rw [← hfst] at hne
    exact List.pairwise_map.mp hne
  obtain ⟨m₀, ms', hcons⟩ := List.exists_cons_of_ne_nil hne
  cases hmax : ss.argmax (fun m => m.2.length) with
  | none =>
      have hnil := List.argmax_eq_none.mp hmax
      rw [hnil, hcons] at hkeys
      cases hkeys
  | some s =>
      have hs := List.argmax_mem hmax
      obtain ⟨y, hy, hread⟩ := Fallible.mem_mapM_of_mem hys _ (List.mem_map_of_mem hs)
      obtain ⟨x, hx, rfl⟩ := Option.map_eq_some_iff.mp hread
      obtain ⟨_, q, hq, _⟩ := quote_of_setAll hdump s hs
      rw [Json.dump_str, hq, Option.bind_some] at hx
      have hmem : toLex (s.1, x) ∈ ms.val := by
        rw [← hms]
        exact mem_mapOf hdistinct hy
      have hvalue : x ∈ ms.val.map fun m => m.2 := List.mem_map.mpr ⟨_, hmem, rfl⟩
      refine not_mem_of_longest hR (fun x hx => ?_) hq hx hvalue
      obtain ⟨m, hm, rfl⟩ := List.mem_map.mp hx
      obtain ⟨r, hr, hpair⟩ := Fallible.mem_mapM_of_mem hss m hm
      obtain ⟨e', htext, rfl⟩ := Option.map_eq_some_iff.mp hpair
      have hle := List.le_of_mem_argmax hr hmax
      exact ⟨e', htext, hle⟩

/-! ## The round trip -/

/-- An `int`, a `std::string` or an empty container. -/
def Plain : (t : Ty) → t.Val → Prop
  | .int, _ => True
  | .string, _ => True
  | .vector _, xs => xs = []
  | .list _, xs => xs = []
  | .set _, xs => Subtype.val xs = []
  | .map _, ms => Subtype.val ms = []

omit hR in
/-- The text of an `int` is an optional sign and digits. -/
theorem numeral_intDigits (i : Int) :
    isNumeral (Json.intDigits i) = true ∧ numeralValue (Json.intDigits i) = i := by
  obtain ⟨b, t, hcons, hdigits⟩ := Json.natDigits_eq_cons i.natAbs
  have hvalue := Json.digitsValue_natDigits i.natAbs
  have hall : (Json.natDigits i.natAbs).all isDigit = true :=
    List.all_eq_true.mpr fun c hc => by
      rw [isDigit, Bool.and_eq_true]
      exact ⟨decide_eq_true (hdigits c hc).1, decide_eq_true (hdigits c hc).2⟩
  have hsign : ∀ c : UInt8, c < 48 → b ≠ c := by
    rintro c hc rfl
    have hb := (hdigits b (by rw [hcons]; exact List.mem_cons_self)).1
    exact absurd hc (not_lt.mpr hb)
  have hunsigned : unsigned (b :: t) = b :: t := by
    rw [unsigned, if_neg (not_or.mpr ⟨hsign 43 (by decide), hsign 45 (by decide)⟩)]
  rw [hcons] at hvalue hall
  rw [Json.intDigits, hcons]
  split
  next hneg =>
    have htail : unsigned (45 :: b :: t) = b :: t := rfl
    refine ⟨?_, ?_⟩
    · rw [isNumeral, htail, hall]
      rfl
    · rw [numeralValue, List.head?_cons, if_pos rfl, htail, hvalue]
      omega
  next hpos =>
    refine ⟨?_, ?_⟩
    · rw [isNumeral, hunsigned, hall]
      rfl
    · rw [numeralValue, List.head?_cons,
        if_neg (fun h => hsign 45 (by decide) (Option.some.inj h)), hunsigned, hvalue]
      omega

theorem ofText_intDigits (i : IntVal) : ofText R .int (Json.intDigits i.val) = some i :=
  (hR.decimal _ i).mpr (numeral_intDigits i.val)

theorem parse_null {e : Text} (he : dump (some 4) .null = some e) : R.parse e = some .null :=
  hR.inverts.dump (some 4) .null e trivial he

/-- The elements of a sequence that has any are not read back from its text. -/
theorem elements_ne {t : Ty} {xs ys : List t.Val} (hne : xs ≠ [])
    (hys : ((R.parse
        (((xs.mapM (toText t)).bind fun ss => dump (some 4) (pushAll ss)).getD [])).bind
      fun j => j.elements.mapM fun e => (dump (some 4) e).bind (ofText R t)) = some ys) :
    ∃ y ∈ ys, y ∉ xs := by
  cases htext : (xs.mapM (toText t)).bind fun ss => dump (some 4) (pushAll ss) with
  | none =>
      rw [htext, Option.getD_none, hR.inverts.empty] at hys
      cases hys
  | some e =>
      rw [htext, Option.getD_some] at hys
      obtain ⟨ss, hss, he⟩ := Option.bind_eq_some_iff.mp htext
      exact exists_new hR hne hss he hys

/-- A value gets back from its text exactly when it is plain. -/
theorem ofText_toText : ∀ (t : Ty) (x : t.Val),
    ofText R t ((toText t x).getD []) = some x ↔ Plain t x
  | .int, i => iff_of_true (ofText_intDigits hR i) trivial
  | .string, s => iff_of_true rfl trivial
  | .vector t, xs => by
      constructor
      · intro hback
        by_contra hne
        obtain ⟨y, hy, hnew⟩ := elements_ne hR hne hback
        exact hnew hy
      · rintro rfl
        exact Option.bind_eq_some_iff.mpr ⟨.null, parse_null hR rfl, rfl⟩
  | .list t, xs => by
      constructor
      · intro hback
        by_contra hne
        obtain ⟨y, hy, hnew⟩ := elements_ne hR hne hback
        exact hnew hy
      · rintro rfl
        exact Option.bind_eq_some_iff.mpr ⟨.null, parse_null hR rfl, rfl⟩
  | .set t, xs => by
      constructor
      · intro hback
        by_contra hne
        obtain ⟨j, hj, hmap⟩ := Option.bind_eq_some_iff.mp hback
        obtain ⟨ys, hys, hset⟩ := Option.map_eq_some_iff.mp hmap
        obtain ⟨y, hy, hnew⟩ :=
          elements_ne hR hne (Option.bind_eq_some_iff.mpr ⟨j, hj, hys⟩)
        refine hnew ?_
        rw [← hset]
        exact mem_setOf.mpr hy
      · intro hnil
        obtain rfl : xs = ⟨[], List.Pairwise.nil⟩ := Subtype.ext hnil
        exact Option.bind_eq_some_iff.mpr ⟨.null, parse_null hR rfl, rfl⟩
  | .map t, ms => by
      constructor
      · intro hback
        by_contra hne
        cases htext : toText (.map t) ms with
        | none =>
            rw [htext, Option.getD_none, ofText, hR.inverts.empty] at hback
            cases hback
        | some e =>
            rw [htext, Option.getD_some] at hback
            exact map_ne hR hne htext hback
      · intro hnil
        obtain rfl : ms = ⟨[], List.Pairwise.nil⟩ := Subtype.ext hnil
        exact Option.bind_eq_some_iff.mpr ⟨.null, parse_null hR rfl, rfl⟩

omit hR in
/-- `fromString(toString())` succeeds and leaves the value as it is. -/
def RoundTrips (R : Readers) {t : Ty} (var : ConfigVar t.Val) : Prop :=
  (var.fromString R var.toString).1 = true ∧
    (var.fromString R var.toString).2.2.m_val = var.m_val

omit hR in
theorem roundTrips_iff {t : Ty} (var : ConfigVar t.Val) :
    RoundTrips R var ↔ ofText R t var.toString = some var.m_val := by
  cases hread : ofText R t var.toString with
  | none =>
      rw [RoundTrips, ConfigVar.fromString_of_none hread]
      exact iff_of_false (fun h => Bool.false_ne_true h.1) (fun h => by cases h)
  | some v =>
      rw [RoundTrips, ConfigVar.fromString_of_some hread, Option.some.injEq,
        ConfigVar.setValue_m_val]
      exact and_iff_right rfl

/-- A variable is read back from its own text exactly when it holds an `int`, a `std::string` or
an empty container. -/
theorem roundTrips_iff_plain {t : Ty} (var : ConfigVar t.Val) :
    RoundTrips R var ↔ Plain t var.m_val := by
  rw [roundTrips_iff]
  exact ofText_toText hR t var.m_val

end Reading

/-! ## Readers -/

/-- `lexical_cast<int>` of the decimal numerals in range. -/
def readInt (s : Text) : Option IntVal :=
  if h : isNumeral s = true ∧ -2 ^ 31 ≤ numeralValue s ∧ numeralValue s < 2 ^ 31 then
    some ⟨numeralValue s, h.2⟩
  else none

/-- The reader of JSON and the one of numerals. -/
def readers : Readers := ⟨Json.read, readInt⟩

theorem lawful_readers (literal : Json.FloatText → Prop) : readers.Lawful literal where
  inverts := Json.read_inverts literal
  decimal s i := by
    change readInt s = some i ↔ _
    rw [readInt]
    split
    next h =>
      rw [Option.some.injEq]
      constructor
      · rintro rfl
        exact ⟨h.1, rfl⟩
      · exact fun hi => Subtype.ext hi.2
    next h =>
      refine iff_of_false (fun hn => by cases hn) fun hi => h ⟨hi.1, ?_⟩
      rw [hi.2]
      exact i.property

/-- A number, a string with a quote and an empty set are read back, and a vector with a number is
not. -/
theorem plain_roundTrips :
    RoundTrips readers (t := .int) ⟨⟨-42, by decide⟩, [], List.Pairwise.nil⟩ ∧
      RoundTrips readers (t := .string) ⟨ascii "a\"b", [], List.Pairwise.nil⟩ ∧
      RoundTrips readers (t := .set .string) ⟨⟨[], List.Pairwise.nil⟩, [], List.Pairwise.nil⟩ ∧
      ¬ RoundTrips readers (t := .vector .int) ⟨[⟨1, by decide⟩], [], List.Pairwise.nil⟩ := by
  have hR := lawful_readers fun _ => True
  refine ⟨(roundTrips_iff_plain hR _).mpr trivial, (roundTrips_iff_plain hR _).mpr trivial,
    (roundTrips_iff_plain hR _).mpr rfl, fun hback => ?_⟩
  exact absurd ((roundTrips_iff_plain hR _).mp hback) (List.cons_ne_nil _ _)

/-- A vector of a string is read as a vector of the string with quotes. -/
theorem quotedElement_not_back :
    readers.Lawful (fun _ => True) ∧
      ¬ RoundTrips readers (t := .vector .string) ⟨[ascii "a"], [], List.Pairwise.nil⟩ := by
  refine ⟨lawful_readers _, ?_⟩
  rw [roundTrips_iff]
  decide

end Muqiu.Config
