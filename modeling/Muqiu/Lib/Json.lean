import Mathlib.Data.List.Lex
import Mathlib.Data.Nat.Digits.Defs

/-!
# JSON values and their texts

A text is a list of bytes, and texts are in lexicographic order.  An object is the list of its
members in the order of its keys, and a number that is no integer is the literal it is written as.
`dump` writes a value on one line, or with an indentation.  It fails on a string that is not
UTF-8, which `utf8` decides byte by byte.

`elements` and `items` are what an iteration over a value goes through.  A value that is neither
an array nor an object counts as its own only element, with the empty key, and `null` has none.
`get?` and `follow` go down a key and a path of keys.
-/

namespace Json

/-- The bytes of a text. -/
abbrev Text := List UInt8

instance byteOrder : LinearOrder UInt8 where
  le_refl _ := UInt8.le_refl _
  le_trans _ _ _ := UInt8.le_trans
  le_antisymm _ _ := UInt8.le_antisymm
  le_total := UInt8.le_total
  lt_iff_le_not_ge a b := by
    rw [UInt8.lt_iff_toNat_lt, UInt8.le_iff_toNat_le, UInt8.le_iff_toNat_le]
    exact Nat.lt_iff_le_and_not_ge
  toDecidableLE := inferInstance
  toDecidableEq := inferInstance
  toDecidableLT := inferInstance

/-- The bytes of a literal. -/
def ascii (s : String) : Text := s.toList.map fun c => UInt8.ofNat c.toNat

/-- The characters of a number. -/
def isNumeric (b : UInt8) : Bool :=
  (48 ≤ b && b ≤ 57) || b == 43 || b == 45 || b == 46 || b == 69 || b == 101

/-- The characters that make a number a floating-point one. -/
def isFloating (b : UInt8) : Bool := b == 46 || b == 69 || b == 101

/-- The literal of a number that is no integer. -/
structure FloatText where
  text : Text
  numeric : text.all isNumeric = true
  floating : text.any isFloating = true
deriving DecidableEq, Repr

end Json

/-- A JSON value.  The members of an object are in the order of their keys. -/
inductive Json where
  | null
  | bool (b : Bool)
  | int (i : Int)
  | float (x : Json.FloatText)
  | str (s : Json.Text)
  | arr (vs : List Json)
  | obj (ms : List (Json.Text × Json))

namespace Json

/-! ## UTF-8 -/

/-- Where in a character a string is: between two characters, or with a number of bytes to
come, the first of them in a range. -/
inductive Utf8 where
  | accept
  | more (n : Nat) (low high : UInt8)
deriving DecidableEq, Repr

/-- The next byte of a string; `none` when it is not UTF-8. -/
def utf8 : Utf8 → UInt8 → Option Utf8
  | .accept, b =>
      if b < 0x80 then some .accept
      else if 0xC2 ≤ b ∧ b ≤ 0xDF then some (.more 0 0x80 0xBF)
      else if b = 0xE0 then some (.more 1 0xA0 0xBF)
      else if b = 0xED then some (.more 1 0x80 0x9F)
      else if 0xE1 ≤ b ∧ b ≤ 0xEF then some (.more 1 0x80 0xBF)
      else if b = 0xF0 then some (.more 2 0x90 0xBF)
      else if 0xF1 ≤ b ∧ b ≤ 0xF3 then some (.more 2 0x80 0xBF)
      else if b = 0xF4 then some (.more 2 0x80 0x8F)
      else none
  | .more n low high, b =>
      if low ≤ b ∧ b ≤ high then
        match n with
        | 0 => some .accept
        | n + 1 => some (.more n 0x80 0xBF)
      else none

/-- The string ends between two characters. -/
def utf8From : Utf8 → Text → Bool
  | u, [] => decide (u = .accept)
  | u, b :: bs =>
      match utf8 u b with
      | none => false
      | some u' => utf8From u' bs

/-- The string is UTF-8. -/
def isUtf8 (s : Text) : Bool := utf8From .accept s

/-! ## The values there are -/

mutual

/-- An integer has 64 bits, strings are UTF-8, the keys of an object are in their order, and the
literals are the ones that floating-point numbers are written as. -/
def Proper (literal : FloatText → Prop) : Json → Prop
  | .null => True
  | .bool _ => True
  | .int i => -2 ^ 63 ≤ i ∧ i < 2 ^ 64
  | .float x => literal x
  | .str s => isUtf8 s = true
  | .arr vs => ProperElements literal vs
  | .obj ms => (ms.map Prod.fst).Pairwise (· < ·) ∧ ProperMembers literal ms

/-- The same of the elements of an array. -/
def ProperElements (literal : FloatText → Prop) : List Json → Prop
  | [] => True
  | v :: vs => v.Proper literal ∧ ProperElements literal vs

/-- The same of the members of an object. -/
def ProperMembers (literal : FloatText → Prop) : List (Text × Json) → Prop
  | [] => True
  | (k, v) :: ms => isUtf8 k = true ∧ v.Proper literal ∧ ProperMembers literal ms

end

theorem utf8_ascii {b : UInt8} (h : b < 0x80) : utf8 .accept b = some .accept := by
  rw [utf8, if_pos h]

/-! ## Writing -/

/-- A hexadecimal digit. -/
def hexDigit (n : Nat) : UInt8 := UInt8.ofNat (if n < 10 then 48 + n else 87 + n)

/-- What is written for a character of one byte. -/
def escape (b : UInt8) : Text :=
  if b = 0x08 then ascii "\\b"
  else if b = 0x09 then ascii "\\t"
  else if b = 0x0A then ascii "\\n"
  else if b = 0x0C then ascii "\\f"
  else if b = 0x0D then ascii "\\r"
  else if b = 0x22 then ascii "\\\""
  else if b = 0x5C then ascii "\\\\"
  else if b ≤ 0x1F then ascii "\\u00" ++ [hexDigit (b.toNat / 16), hexDigit (b.toNat % 16)]
  else [b]

/-- The characters of a string, those of more than one byte as they are. -/
def escaped : Utf8 → Text → Option Text
  | u, [] => if u = .accept then some [] else none
  | u, b :: bs =>
      (utf8 u b).bind fun u' =>
        (escaped u' bs).map fun t =>
          (if u = .accept ∧ u' = .accept then escape b else [b]) ++ t

/-- A string in quotes. -/
def quote (s : Text) : Option Text := (escaped .accept s).map fun t => 34 :: t ++ [34]

/-- The decimal digits of a number. -/
def natDigits (n : Nat) : Text :=
  if n = 0 then [48] else ((Nat.digits 10 n).map fun d => UInt8.ofNat (48 + d)).reverse

/-- The decimal numeral of a number, with its sign. -/
def intDigits (i : Int) : Text :=
  if i < 0 then 45 :: natDigits i.natAbs else natDigits i.natAbs

/-- A new line, when there is an indentation, at a column. -/
def newline : Option Nat → Nat → Text
  | none, _ => []
  | some _, column => 10 :: List.replicate column 32

/-- What is between a key and its value. -/
def colon : Option Nat → Text
  | none => [58]
  | some _ => [58, 32]

/-- Between an element and the ones that follow. -/
def comma {α : Type} (rest : List α) : Text := if rest.isEmpty then [] else [44]

/-- The column of what is inside. -/
def inner (step : Option Nat) (column : Nat) : Nat := column + step.getD 0

mutual

/-- The text of a value, with an indentation or on one line. -/
def dumpAt (step : Option Nat) (column : Nat) : Json → Option Text
  | .null => some (ascii "null")
  | .bool true => some (ascii "true")
  | .bool false => some (ascii "false")
  | .int i => some (intDigits i)
  | .float x => some x.text
  | .str s => quote s
  | .arr [] => some (ascii "[]")
  | .arr (v :: vs) =>
      (dumpElements step (inner step column) (v :: vs)).map fun t =>
        91 :: t ++ newline step column ++ [93]
  | .obj [] => some (ascii "\x7b\x7d")
  | .obj (m :: ms) =>
      (dumpMembers step (inner step column) (m :: ms)).map fun t =>
        123 :: t ++ newline step column ++ [125]

/-- The elements of an array, each behind its comma and new line. -/
def dumpElements (step : Option Nat) (column : Nat) : List Json → Option Text
  | [] => some []
  | v :: vs =>
      (dumpAt step column v).bind fun t =>
        (dumpElements step column vs).map fun rest =>
          newline step column ++ t ++ comma vs ++ rest

/-- The members of an object, each behind its comma and new line. -/
def dumpMembers (step : Option Nat) (column : Nat) : List (Text × Json) → Option Text
  | [] => some []
  | (k, v) :: ms =>
      (quote k).bind fun q =>
        (dumpAt step column v).bind fun t =>
          (dumpMembers step column ms).map fun rest =>
            newline step column ++ q ++ colon step ++ t ++ comma ms ++ rest

end

/-- `dump`, on one line without a step. -/
def dump (step : Option Nat) (j : Json) : Option Text := dumpAt step 0 j

/-! ## Going through a value -/

/-- The elements an iteration gives. -/
def elements : Json → List Json
  | .null => []
  | .arr vs => vs
  | .obj ms => ms.map Prod.snd
  | j => [j]

/-- The keys and values an iteration over `items` gives. -/
def items : Json → List (Text × Json)
  | .null => []
  | .arr vs => vs.mapIdx fun i v => (natDigits i, v)
  | .obj ms => ms
  | j => [([], j)]

/-- The number of a value that is one. -/
def int? : Json → Option Int
  | .int i => some i
  | _ => none

/-- The string of a value that is one. -/
def str? : Json → Option Text
  | .str s => some s
  | _ => none

/-- The elements of a value that is an array. -/
def arr? : Json → Option (List Json)
  | .arr vs => some vs
  | _ => none

/-- The members of a value that is an object. -/
def obj? : Json → Option (List (Text × Json))
  | .obj ms => some ms
  | _ => none

/-- `find` of a key -/
def get? (k : Text) : Json → Option Json
  | .obj ms => ms.lookup k
  | _ => none

/-- A key with null, at its place, unless it is there. -/
def insertNull (k : Text) : List (Text × Json) → List (Text × Json)
  | [] => [(k, .null)]
  | (k', v) :: ms =>
      if k' < k then (k', v) :: insertNull k ms
      else if k' = k then (k', v) :: ms
      else (k, .null) :: (k', v) :: ms

/-- `operator[]` on a value, which sets a key that is not there to `null`. -/
def touch (k : Text) : Json → Option Json
  | .null => some (.obj [(k, .null)])
  | .obj ms => some (.obj (insertNull k ms))
  | _ => none

/-- The value at the end of a path of keys. -/
def follow : Json → List Text → Option Json
  | j, [] => some j
  | .obj ms, k :: ks => (ms.lookup k).bind fun v => v.follow ks
  | _, _ :: _ => none

/-- A key that is there is not set. -/
theorem insertNull_of_mem {k : Text} : ∀ {ms : List (Text × Json)},
    (ms.map Prod.fst).Pairwise (· < ·) → k ∈ ms.map Prod.fst → insertNull k ms = ms
  | (k', v) :: ms, hs, hk => by
      rw [List.map_cons, List.pairwise_cons] at hs
      rw [insertNull]
      rcases List.mem_cons.mp hk with rfl | hmem
      · rw [if_neg (lt_irrefl _), if_pos rfl]
      · rw [if_pos (hs.1 k hmem), insertNull_of_mem hs.2 hmem]

theorem int?_eq_some {j : Json} {i : Int} (h : j.int? = some i) : j = .int i := by
  cases j with
  | int n => rw [Option.some.inj h]
  | null | bool | float | str | arr | obj => cases h

theorem str?_eq_some {j : Json} {s : Text} (h : j.str? = some s) : j = .str s := by
  cases j with
  | str s' => rw [Option.some.inj h]
  | null | bool | float | int | arr | obj => cases h

theorem arr?_eq_some {j : Json} {vs : List Json} (h : j.arr? = some vs) : j = .arr vs := by
  cases j with
  | arr vs' => rw [Option.some.inj h]
  | null | bool | float | int | str | obj => cases h

theorem obj?_eq_some {j : Json} {ms : List (Text × Json)} (h : j.obj? = some ms) :
    j = .obj ms := by
  cases j with
  | obj ms' => rw [Option.some.inj h]
  | null | bool | float | int | str | arr => cases h

/-! ## Strings -/

theorem length_escape (b : UInt8) : 1 ≤ (escape b).length := by
  unfold escape
  repeat' split
  all_goals simp [ascii]

theorem length_escaped : ∀ {u : Utf8} {s t : Text}, escaped u s = some t → s.length ≤ t.length
  | u, [], t, _ => Nat.zero_le _
  | u, b :: bs, t, h => by
      obtain ⟨u', _, hmap⟩ := Option.bind_eq_some_iff.mp h
      obtain ⟨t', ht', rfl⟩ := Option.map_eq_some_iff.mp hmap
      have ih := length_escaped ht'
      have hone : 1 ≤ (if u = .accept ∧ u' = .accept then escape b else [b]).length := by
        split
        · exact length_escape b
        · exact Nat.le_refl 1
      rw [List.length_append, List.length_cons]
      omega

/-- A text in quotes is longer than without. -/
theorem length_quote {s q : Text} (h : quote s = some q) : s.length < q.length := by
  obtain ⟨t, ht, rfl⟩ := Option.map_eq_some_iff.mp h
  have hle := length_escaped ht
  rw [List.length_append, List.length_cons, List.length_singleton]
  omega

theorem escaped_isSome : ∀ (u : Utf8) (s : Text), (escaped u s).isSome = utf8From u s
  | u, [] => by
      rw [escaped, utf8From]
      by_cases h : u = .accept
      · rw [if_pos h, decide_eq_true h]
        rfl
      · rw [if_neg h, decide_eq_false h]
        rfl
  | u, b :: bs => by
      rw [escaped, utf8From]
      cases utf8 u b with
      | none => rfl
      | some u' =>
          rw [Option.bind_some, Option.isSome_map]
          exact escaped_isSome u' bs

theorem quote_isSome (s : Text) : (quote s).isSome = isUtf8 s := by
  rw [quote, Option.isSome_map]
  exact escaped_isSome .accept s

theorem dump_str (step : Option Nat) (s : Text) : dump step (.str s) = quote s := rfl

/-! ## Proper values -/

theorem properElements_iff {literal : FloatText → Prop} :
    ∀ {vs : List Json}, ProperElements literal vs ↔ ∀ v ∈ vs, v.Proper literal
  | [] => by simp [ProperElements]
  | v :: vs => by rw [ProperElements, properElements_iff, List.forall_mem_cons]

theorem properMembers_iff {literal : FloatText → Prop} :
    ∀ {ms : List (Text × Json)},
      ProperMembers literal ms ↔ ∀ m ∈ ms, isUtf8 m.1 = true ∧ m.2.Proper literal
  | [] => by simp [ProperMembers]
  | (k, v) :: ms => by
      rw [ProperMembers, properMembers_iff, List.forall_mem_cons, and_assoc]

theorem mem_of_lookup {k : Text} {v : Json} :
    ∀ {ms : List (Text × Json)}, ms.lookup k = some v → (k, v) ∈ ms
  | (k', w) :: ms, h => by
      rw [List.lookup_cons] at h
      cases heq : k == k' with
      | true =>
          rw [heq] at h
          cases Option.some.inj h
          rw [beq_iff_eq.mp heq]
          exact List.mem_cons_self
      | false =>
          rw [heq] at h
          exact List.mem_cons_of_mem _ (mem_of_lookup h)

theorem Proper.follow {literal : FloatText → Prop} :
    ∀ {ks : List Text} {j v : Json}, j.Proper literal → j.follow ks = some v → v.Proper literal
  | [], j, v, hj, h => by
      have hv : some j = some v := by rw [← h]; cases j <;> rfl
      cases Option.some.inj hv
      exact hj
  | k :: ks, .obj ms, v, hj, h => by
      obtain ⟨w, hw, hv⟩ := Option.bind_eq_some_iff.mp h
      exact Proper.follow (properMembers_iff.mp hj.2 _ (mem_of_lookup hw)).2 hv
  | _ :: _, .null, _, _, h => by cases h
  | _ :: _, .bool _, _, _, h => by cases h
  | _ :: _, .int _, _, _, h => by cases h
  | _ :: _, .float _, _, _, h => by cases h
  | _ :: _, .str _, _, _, h => by cases h
  | _ :: _, .arr _, _, _, h => by cases h

mutual

/-- A proper value has a text. -/
theorem dumpAt_of_proper {literal : FloatText → Prop} (step : Option Nat) (column : Nat) :
    ∀ j : Json, j.Proper literal → ∃ t, dumpAt step column j = some t
  | .null, _ => ⟨_, rfl⟩
  | .bool true, _ => ⟨_, rfl⟩
  | .bool false, _ => ⟨_, rfl⟩
  | .int _, _ => ⟨_, rfl⟩
  | .float _, _ => ⟨_, rfl⟩
  | .str s, h => Option.isSome_iff_exists.mp ((quote_isSome s).trans h)
  | .arr [], _ => ⟨_, rfl⟩
  | .arr (v :: vs), h => by
      obtain ⟨t, ht⟩ := dumpElements_of_proper step (inner step column) (v :: vs) h
      exact ⟨_, by rw [dumpAt, ht, Option.map_some]⟩
  | .obj [], _ => ⟨_, rfl⟩
  | .obj (m :: ms), h => by
      obtain ⟨t, ht⟩ := dumpMembers_of_proper step (inner step column) (m :: ms) h.2
      exact ⟨_, by rw [dumpAt, ht, Option.map_some]⟩

theorem dumpElements_of_proper {literal : FloatText → Prop} (step : Option Nat) (column : Nat) :
    ∀ vs : List Json, ProperElements literal vs → ∃ t, dumpElements step column vs = some t
  | [], _ => ⟨_, rfl⟩
  | v :: vs, h => by
      obtain ⟨t, ht⟩ := dumpAt_of_proper step column v h.1
      obtain ⟨t', ht'⟩ := dumpElements_of_proper step column vs h.2
      exact ⟨_, by rw [dumpElements, ht, Option.bind_some, ht', Option.map_some]⟩

theorem dumpMembers_of_proper {literal : FloatText → Prop} (step : Option Nat) (column : Nat) :
    ∀ ms : List (Text × Json), ProperMembers literal ms →
      ∃ t, dumpMembers step column ms = some t
  | [], _ => ⟨_, rfl⟩
  | (k, v) :: ms, h => by
      obtain ⟨q, hq⟩ := Option.isSome_iff_exists.mp ((quote_isSome k).trans h.1)
      obtain ⟨t, ht⟩ := dumpAt_of_proper step column v h.2.1
      obtain ⟨t', ht'⟩ := dumpMembers_of_proper step column ms h.2.2
      exact ⟨_, by rw [dumpMembers, hq, Option.bind_some, ht, Option.bind_some, ht',
        Option.map_some]⟩

end

end Json
