import Mathlib.Data.Prod.Lex
import Muqiu.Lib.Fallible
import Muqiu.Lib.JsonReader
import Muqiu.Lib.SortedSet

/-!
# Configuration variables

The value types of configuration variables, the two families of `LexicalCast` between their
values and texts, `ConfigVar` and the registry of `Config`.  A failure is an exception.  The
readers of `nlohmann::json` and of `boost::lexical_cast` are parameters, with what is used of
them in `Readers.Lawful`.

A set or a map is the list of its elements in their order, and the listeners of a variable are
the keys they have in `m_cbs`.
-/

namespace Muqiu.Config

open Json (Text ascii)

/-! ## Value types -/

/-- The types of the variables that are read from a configuration. -/
inductive Ty where
  | int
  | string
  | vector (t : Ty)
  | list (t : Ty)
  | set (t : Ty)
  | map (t : Ty)
deriving DecidableEq, Repr

/-- The values of an `int`. -/
abbrev IntVal := { i : Int // -2 ^ 31 ≤ i ∧ i < 2 ^ 31 }

/-- The values of a type, with their `operator<`. -/
structure Carrier where
  Val : Type
  order : LinearOrder Val

/-- `operator<` as the comparator of a set. -/
def less {α : Type} [LinearOrder α] (a b : α) : Bool := decide (a < b)

/-- `operator<` on the keys as the comparator of a map. -/
def keyLess {α : Type} (a b : Text ×ₗ α) : Bool := decide (a.1 < b.1)

theorem less_iff {α : Type} [LinearOrder α] {a b : α} : less a b = true ↔ a < b :=
  decide_eq_true_iff

theorem strictTotal_less (α : Type) [LinearOrder α] : SortedSet.StrictTotal (less (α := α)) where
  irrefl a := decide_eq_false (lt_irrefl a)
  trans _ _ _ hab hbc := less_iff.mpr ((less_iff.mp hab).trans (less_iff.mp hbc))
  tri _ _ hab hba :=
    le_antisymm (not_lt.mp (of_decide_eq_false hba)) (not_lt.mp (of_decide_eq_false hab))

theorem keyLess_iff {α : Type} {a b : Text ×ₗ α} : keyLess a b = true ↔ a.1 < b.1 :=
  decide_eq_true_iff

theorem keyLess_trans {α : Type} (a b c : Text ×ₗ α) (hab : keyLess a b = true)
    (hbc : keyLess b c = true) : keyLess a c = true :=
  keyLess_iff.mpr ((keyLess_iff.mp hab).trans (keyLess_iff.mp hbc))

namespace Carrier

/-- `std::vector` and `std::list`. -/
def sequence (c : Carrier) : Carrier :=
  letI := c.order
  ⟨List c.Val, inferInstance⟩

/-- `std::set`. -/
def set (c : Carrier) : Carrier :=
  letI := c.order
  ⟨{ xs : List c.Val // SortedSet.Sorted less xs }, inferInstance⟩

/-- `std::map` with strings as keys. -/
def map (c : Carrier) : Carrier :=
  letI := c.order
  ⟨{ ms : List (Text ×ₗ c.Val) // SortedSet.Sorted keyLess ms }, inferInstance⟩

end Carrier

namespace Ty

/-- The values of a type: sequences for `vector` and `list`, ordered without repetition for `set`
and `map`. -/
def carrier : Ty → Carrier
  | int => ⟨IntVal, inferInstance⟩
  | string => ⟨Text, inferInstance⟩
  | vector t => t.carrier.sequence
  | list t => t.carrier.sequence
  | set t => t.carrier.set
  | map t => t.carrier.map

/-- The values of a type. -/
abbrev Val (t : Ty) : Type := t.carrier.Val

instance (t : Ty) : LinearOrder t.Val := t.carrier.order

end Ty

/-- `std::set::insert`. -/
def insertSet {t : Ty} (xs : (Ty.set t).Val) (x : t.Val) : (Ty.set t).Val :=
  ⟨SortedSet.insert less x xs.val,
    SortedSet.sorted_insert (strictTotal_less t.Val) xs.property⟩

/-- `std::map::insert`, which keeps the value a key has. -/
def insertMap {t : Ty} (ms : (Ty.map t).Val) (m : Text × t.Val) : (Ty.map t).Val :=
  ⟨SortedSet.insert keyLess (toLex m) ms.val,
    SortedSet.sorted_insert_of_trans keyLess_trans ms.property⟩

theorem mem_foldl_insertSet {t : Ty} {y : t.Val} :
    ∀ {xs : List t.Val} {acc : (Ty.set t).Val},
      y ∈ (xs.foldl insertSet acc).val ↔ y ∈ acc.val ∨ y ∈ xs
  | [], acc => by simp
  | x :: xs, acc => by
      rw [List.foldl_cons, mem_foldl_insertSet, insertSet,
        SortedSet.mem_insert (strictTotal_less t.Val), List.mem_cons, or_assoc, or_left_comm]

/-- A set of some elements. -/
def setOf {t : Ty} (xs : List t.Val) : (Ty.set t).Val := xs.foldl insertSet ⟨[], List.Pairwise.nil⟩

theorem mem_setOf {t : Ty} {y : t.Val} {xs : List t.Val} : y ∈ (setOf xs).val ↔ y ∈ xs :=
  mem_foldl_insertSet.trans (or_iff_right List.not_mem_nil)

theorem mem_of_mem_foldl_insertMap {t : Ty} {y : Text ×ₗ t.Val} :
    ∀ {ms : List (Text × t.Val)} {acc : (Ty.map t).Val},
      y ∈ (ms.foldl insertMap acc).val → y ∈ acc.val ∨ ofLex y ∈ ms
  | [], _, h => Or.inl h
  | m :: ms, acc, h => by
      rw [List.foldl_cons] at h
      rcases mem_of_mem_foldl_insertMap h with hacc | hms
      · rcases SortedSet.mem_of_mem_insert hacc with rfl | hold
        · exact Or.inr List.mem_cons_self
        · exact Or.inl hold
      · exact Or.inr (List.mem_cons_of_mem m hms)

/-- A member is in the map when no other with its key comes before it. -/
theorem mem_foldl_insertMap {t : Ty} {y : Text ×ₗ t.Val} :
    ∀ {ms : List (Text × t.Val)} {acc : (Ty.map t).Val},
      (ms.Pairwise fun a b => a.1 ≠ b.1) → (∀ a ∈ acc.val, ∀ b ∈ ms, a.1 ≠ b.1) →
      y ∈ acc.val ∨ ofLex y ∈ ms → y ∈ (ms.foldl insertMap acc).val
  | [], _, _, _, hy => hy.resolve_right (by simp)
  | m :: ms, acc, hms, hacc, hy => by
      have hnew : toLex m ∈ (insertMap acc m).val :=
        SortedSet.mem_insert_self fun a ha => by
          rw [keyLess_iff, keyLess_iff]
          exact lt_or_gt_of_ne (hacc a ha m List.mem_cons_self)
      rw [List.foldl_cons]
      refine mem_foldl_insertMap (List.pairwise_cons.mp hms).2 ?_ ?_
      · intro a ha b hb
        rcases SortedSet.mem_of_mem_insert ha with rfl | hold
        · exact (List.pairwise_cons.mp hms).1 b hb
        · exact hacc a hold b (List.mem_cons_of_mem m hb)
      · rcases hy with hold | hmem
        · exact Or.inl (SortedSet.mem_insert_of_mem hold)
        · rcases List.mem_cons.mp hmem with heq | htail
          · subst heq
            exact Or.inl hnew
          · exact Or.inr htail

/-- A map of some members. -/
def mapOf {t : Ty} (ms : List (Text × t.Val)) : (Ty.map t).Val :=
  ms.foldl insertMap ⟨[], List.Pairwise.nil⟩

theorem mem_of_mem_mapOf {t : Ty} {y : Text ×ₗ t.Val} {ms : List (Text × t.Val)}
    (h : y ∈ (mapOf ms).val) : ofLex y ∈ ms :=
  (mem_of_mem_foldl_insertMap h).resolve_left List.not_mem_nil

theorem mem_mapOf {t : Ty} {m : Text × t.Val} {ms : List (Text × t.Val)}
    (hms : ms.Pairwise fun a b => a.1 ≠ b.1) (h : m ∈ ms) : toLex m ∈ (mapOf ms).val :=
  mem_foldl_insertMap hms (fun _ ha => absurd ha List.not_mem_nil) (Or.inr h)

/-! ## `LexicalCast` -/

/-- `json::parse` and `boost::lexical_cast<int>`. -/
structure Readers where
  parse : Text → Option Json
  lexicalInt : Text → Option IntVal

/-- A decimal digit. -/
def isDigit (b : UInt8) : Bool := 48 ≤ b && b ≤ 57

/-- The text without its sign. -/
def unsigned : Text → Text
  | [] => []
  | b :: t => if b = 43 ∨ b = 45 then t else b :: t

/-- An optional sign and digits. -/
def isNumeral (t : Text) : Bool := !(unsigned t).isEmpty && (unsigned t).all isDigit

/-- The value of a numeral, with its sign. -/
def numeralValue (t : Text) : Int :=
  if t.head? = some 45 then -(Json.digitsValue (unsigned t) : Int)
  else Json.digitsValue (unsigned t)

/-- `json::parse` gets back what `dump` wrote, and `lexical_cast<int>` takes an optional sign and
digits. -/
structure Readers.Lawful (literal : Json.FloatText → Prop) (R : Readers) : Prop where
  inverts : Json.Inverts literal R.parse
  decimal : ∀ t i, R.lexicalInt t = some i ↔ isNumeral t = true ∧ numeralValue t = i.val

/-- What pushing strings back onto a `json` makes of it. -/
def pushAll : List Text → Json
  | [] => .null
  | s :: ss => .arr ((s :: ss).map Json.str)

/-- What setting members of a `json` makes of it. -/
def setAll : List (Text × Text) → Json
  | [] => .null
  | m :: ms => .obj ((m :: ms).map fun m => (m.1, Json.str m.2))

/-- `LexicalCast<T, std::string>` -/
def toText : (t : Ty) → t.Val → Option Text
  | .int, i => some (Json.intDigits i.val)
  | .string, s => some s
  | .vector t, xs => (List.mapM (toText t) xs).bind fun ss => Json.dump (some 4) (pushAll ss)
  | .list t, xs => (List.mapM (toText t) xs).bind fun ss => Json.dump (some 4) (pushAll ss)
  | .set t, xs =>
      (List.mapM (toText t) (Subtype.val xs)).bind fun ss => Json.dump (some 4) (pushAll ss)
  | .map t, ms =>
      (List.mapM (fun m => (toText t m.2).map fun s => (m.1, s)) (Subtype.val ms)).bind
        fun ss => Json.dump (some 4) (setAll ss)

/-- `LexicalCast<std::string, T>` -/
def ofText (R : Readers) : (t : Ty) → Text → Option t.Val
  | .int, s => R.lexicalInt s
  | .string, s => some s
  | .vector t, s =>
      (R.parse s).bind fun j =>
        j.elements.mapM fun e => (Json.dump (some 4) e).bind (ofText R t)
  | .list t, s =>
      (R.parse s).bind fun j =>
        j.elements.mapM fun e => (Json.dump (some 4) e).bind (ofText R t)
  | .set t, s =>
      (R.parse s).bind fun j =>
        (j.elements.mapM fun e => (Json.dump (some 4) e).bind (ofText R t)).map setOf
  | .map t, s =>
      (R.parse s).bind fun j =>
        (j.items.mapM fun m =>
          ((Json.dump none m.2).bind (ofText R t)).map fun x => (m.1, x)).map mapOf

/-! ## `ConfigVar` -/

/-- A variable, with the keys of its listeners. -/
structure ConfigVar (α : Type) where
  m_val : α
  m_cbs : List Nat
  ordered : m_cbs.Pairwise (· < ·)

/-- A call of a listener with the old and the new value. -/
structure Change (α : Type) where
  listener : Nat
  old_value : α
  new_value : α
deriving DecidableEq, Repr

namespace ConfigVar

variable {α : Type}

/-- `setValue`, with the `operator==` of the type. -/
def setValue (eq : α → α → Bool) (var : ConfigVar α) (v : α) : List (Change α) × ConfigVar α :=
  if eq v var.m_val then ([], var)
  else (var.m_cbs.map fun i => ⟨i, var.m_val, v⟩, { var with m_val := v })

/-- `toString`, which is empty after an exception. -/
def toString {t : Ty} (var : ConfigVar t.Val) : Text := (toText t var.m_val).getD []

/-- `fromString`: whether there was no exception, the calls of listeners and the variable. -/
def fromString (R : Readers) {t : Ty} (var : ConfigVar t.Val) (val : Text) :
    Bool × List (Change t.Val) × ConfigVar t.Val :=
  match ofText R t val with
  | none => (false, [], var)
  | some v => (true, var.setValue (fun a b => decide (a = b)) v)

theorem fromString_of_none {R : Readers} {t : Ty} {var : ConfigVar t.Val} {val : Text}
    (h : ofText R t val = none) : var.fromString R val = (false, [], var) := by
  rw [fromString, h]

theorem fromString_of_some {R : Readers} {t : Ty} {var : ConfigVar t.Val} {val : Text}
    {v : t.Val} (h : ofText R t val = some v) :
    var.fromString R val = (true, var.setValue (fun a b => decide (a = b)) v) := by
  rw [fromString, h]

/-- Where `operator==` is equality, the variable has the new value afterwards. -/
@[simp] theorem setValue_m_val [DecidableEq α] (var : ConfigVar α) (v : α) :
    (var.setValue (fun a b => decide (a = b)) v).2.m_val = v := by
  rw [setValue]
  split
  next heq => exact (of_decide_eq_true heq).symm
  next => rfl

end ConfigVar

/-! ## `Config` -/

/-- A variable of some type, with the number of the object. -/
structure Object where
  number : Nat
  type : Ty
  var : ConfigVar type.Val

/-- `find_first_not_of` finds nothing. -/
def onlyOf (chars s : Text) : Bool := s.all fun b => chars.contains b

/-- The characters of a name `Lookup` takes. -/
def nameChars : Text := ascii "abcdefghikjlmnopqrstuvwxyz._0123456789"

/-- The characters of a name `ListAllMember` goes on with. -/
def memberChars : Text := ascii "abcdefghikjlmnopqrstuvwxyz._012345678"

/-- What `GetDatas` has for each name, and the number of objects made so far. -/
structure ConfigVarMap where
  datas : Text → Option Object
  created : Nat
  valid : ∀ name o, datas name = some o → onlyOf nameChars name = true

namespace ConfigVarMap

/-- No variable. -/
def empty : ConfigVarMap := ⟨fun _ => none, 0, by simp⟩

/-- `GetDatas()[name] = o` -/
def set (c : ConfigVarMap) (name : Text) (o : Object) (h : onlyOf nameChars name = true) :
    ConfigVarMap where
  datas n := if n = name then some o else c.datas n
  created := c.created
  valid n o' hn := by
    by_cases heq : n = name
    · rw [heq]
      exact h
    · rw [if_neg heq] at hn
      exact c.valid n o' hn

/-- `LookupBase` -/
def LookupBase (c : ConfigVarMap) (name : Text) : Option Object := c.datas name

/-- `Lookup` of a name, which finds a variable of the type only. -/
def find (c : ConfigVarMap) (t : Ty) (name : Text) : Option Nat :=
  (c.datas name).bind fun o => if o.type = t then some o.number else none

/-- `Lookup` of a name with a default value; `none` when it throws. -/
def Lookup (c : ConfigVarMap) (t : Ty) (name : Text) (default_value : t.Val) :
    Option (Nat × ConfigVarMap) :=
  match c.find t name with
  | some i => some (i, c)
  | none =>
      if h : onlyOf nameChars name = true then
        let o : Object := ⟨c.created, t, ⟨default_value, [], List.Pairwise.nil⟩⟩
        some (c.created, { c.set name o h with created := c.created + 1 })
      else none

end ConfigVarMap

/-- `tolower` of the C locale -/
def tolower (b : UInt8) : UInt8 := if 65 ≤ b ∧ b ≤ 90 then b + 32 else b

/-- The name of a member. -/
def memberName (pre key : Text) : Text := if pre.isEmpty then key else pre ++ 46 :: key

mutual

/-- `ListAllMember`, what it adds to `output`.  The log line of an invalid name writes the
value. -/
def ListAllMember (pre : Text) : Json → Option (List (Text × Json))
  | .obj ms =>
      if onlyOf memberChars pre then (listItems pre ms).map fun rest => (pre, .obj ms) :: rest
      else (Json.dump none (.obj ms)).map fun _ => []
  | j =>
      if onlyOf memberChars pre then some [(pre, j)]
      else (Json.dump none j).map fun _ => []

/-- The loop over the members of an object. -/
def listItems (pre : Text) : List (Text × Json) → Option (List (Text × Json))
  | [] => some []
  | (key, value) :: ms =>
      (ListAllMember (memberName pre key) value).bind fun out =>
        (listItems pre ms).map fun rest => out ++ rest

end

/-- A value listed under a name is set. -/
def loadMember (R : Readers) (c : ConfigVarMap) (m : Text × Json) : Option ConfigVarMap :=
  if m.1.isEmpty then some c
  else
    match h : c.LookupBase (m.1.map tolower) with
    | none => some c
    | some o =>
        (Json.dump none m.2).map fun val =>
          c.set (m.1.map tolower) { o with var := (o.var.fromString R val).2.2 }
            (c.valid _ o h)

/-- `LoadFromJson`; `none` when it throws. -/
def LoadFromJson (R : Readers) (root : Json) (c : ConfigVarMap) : Option ConfigVarMap :=
  (ListAllMember [] root).bind fun all_jsons => all_jsons.foldlM (loadMember R) c

end Muqiu.Config
