import Muqiu.Lib.Json

/-!
# Reading what was written

`read` is a reader of JSON texts, with blanks between the tokens and without the escapes of
characters of more than one byte, which `dump` does not write.  It gets every value back from its
text (`read_dump`), so `dump` has an inverse.  `Inverts` says of any reader that it is one.

The length of the text is fuel enough: a value inside another has a shorter text.
-/

namespace Json

/-- A reader gets every value there is back from its text, and nothing from the empty text. -/
structure Inverts (literal : FloatText → Prop) (parse : Text → Option Json) : Prop where
  dump : ∀ step j t, j.Proper literal → dump step j = some t → parse t = some j
  empty : parse [] = none

/-- The blanks between tokens. -/
def isBlank (b : UInt8) : Bool := b == 32 || b == 10 || b == 13 || b == 9

/-- The text behind blanks. -/
def skip (t : Text) : Text := t.dropWhile isBlank

/-! ## Numbers and strings -/

/-- The value of some decimal digits. -/
def digitsValue (t : Text) : Nat := t.foldl (fun v b => 10 * v + (b.toNat - 48)) 0

/-- The value of a numeral, with its sign. -/
def intValue : Text → Int
  | [] => 0
  | b :: t => if b = 45 then -(digitsValue t : Int) else digitsValue (b :: t)

/-- A number, which is floating when its token has a point or an exponent. -/
def readNumber (t : Text) : Json × Text :=
  let token := t.takeWhile isNumeric
  let rest := t.dropWhile isNumeric
  if h : token.all isNumeric = true ∧ token.any isFloating = true then
    (.float ⟨token, h.1, h.2⟩, rest)
  else (.int (intValue token), rest)

/-- The value of a hexadecimal digit in lower case. -/
def hexValue (b : UInt8) : Option Nat :=
  if 48 ≤ b ∧ b ≤ 57 then some (b.toNat - 48)
  else if 97 ≤ b ∧ b ≤ 102 then some (b.toNat - 87)
  else none

/-- The character behind a backslash. -/
def unescape (b : UInt8) : Option UInt8 :=
  if b = 98 then some 0x08
  else if b = 116 then some 0x09
  else if b = 110 then some 0x0A
  else if b = 102 then some 0x0C
  else if b = 114 then some 0x0D
  else if b = 34 ∨ b = 92 ∨ b = 47 then some b
  else none

/-- Where in a string the reader is: in its characters, behind a backslash or with `n + 1`
hexadecimal digits to come. -/
inductive Mode where
  | plain (u : Utf8)
  | backslash
  | hex (n : Nat) (v : Nat)

/-- A string up to its closing quote, and what follows. -/
def readString : Mode → Text → Option (Text × Text)
  | _, [] => none
  | .plain u, b :: bs =>
      if u = .accept ∧ b = 34 then some ([], bs)
      else if u = .accept ∧ b = 92 then readString .backslash bs
      else if u = .accept ∧ b < 0x20 then none
      else (utf8 u b).bind fun u' => (readString (.plain u') bs).map fun r => (b :: r.1, r.2)
  | .backslash, b :: bs =>
      if b = 117 then readString (.hex 3 0) bs
      else (unescape b).bind fun x =>
        (readString (.plain .accept) bs).map fun r => (x :: r.1, r.2)
  | .hex n v, b :: bs =>
      (hexValue b).bind fun d =>
        match n with
        | n + 1 => readString (.hex n (16 * v + d)) bs
        | 0 =>
            if 16 * v + d < 0x80 then
              (readString (.plain .accept) bs).map fun r => (UInt8.ofNat (16 * v + d) :: r.1, r.2)
            else none

/-! ## Values -/

/-- A word that stands for a value. -/
def readWord (t : Text) : Option (Json × Text) :=
  if (ascii "null").isPrefixOf t then some (.null, t.drop 4)
  else if (ascii "true").isPrefixOf t then some (.bool true, t.drop 4)
  else if (ascii "false").isPrefixOf t then some (.bool false, t.drop 5)
  else none

mutual

/-- A value and the rest of the text. -/
def readValue : Nat → Text → Option (Json × Text)
  | 0, _ => none
  | fuel + 1, t =>
      match skip t with
      | [] => none
      | b :: rest =>
          if b = 34 then (readString (.plain .accept) rest).map fun r => (.str r.1, r.2)
          else if b = 91 then
            if (skip rest).head? = some 93 then some (.arr [], (skip rest).tail)
            else (readElements fuel rest).map fun r => (.arr r.1, r.2)
          else if b = 123 then
            if (skip rest).head? = some 125 then some (.obj [], (skip rest).tail)
            else (readMembers fuel rest).map fun r => (.obj r.1, r.2)
          else if isNumeric b then some (readNumber (b :: rest))
          else readWord (b :: rest)

/-- The elements of an array, behind its bracket. -/
def readElements : Nat → Text → Option (List Json × Text)
  | 0, _ => none
  | fuel + 1, t =>
      (readValue fuel t).bind fun r =>
        match skip r.2 with
        | 44 :: rest => (readElements fuel rest).map fun r' => (r.1 :: r'.1, r'.2)
        | 93 :: rest => some ([r.1], rest)
        | _ => none

/-- The members of an object, behind its brace. -/
def readMembers : Nat → Text → Option (List (Text × Json) × Text)
  | 0, _ => none
  | fuel + 1, t =>
      match skip t with
      | 34 :: rest =>
          (readString (.plain .accept) rest).bind fun k =>
            match skip k.2 with
            | 58 :: rest =>
                (readValue fuel rest).bind fun r =>
                  match skip r.2 with
                  | 44 :: rest =>
                      (readMembers fuel rest).map fun r' => ((k.1, r.1) :: r'.1, r'.2)
                  | 125 :: rest => some ([(k.1, r.1)], rest)
                  | _ => none
            | _ => none
      | _ => none

end

/-- The value of a text. -/
def read (t : Text) : Option Json :=
  (readValue t.length t).bind fun r => if (skip r.2).isEmpty then some r.1 else none

/-! ## Numbers -/

theorem digitsValue_natDigits (n : Nat) : digitsValue (natDigits n) = n := by
  rw [natDigits]
  split
  next hzero => rw [hzero]; rfl
  next =>
    rw [digitsValue, List.foldl_reverse, List.foldr_map]
    have hdigit : ∀ d ∈ Nat.digits 10 n, (UInt8.ofNat (48 + d)).toNat - 48 = d := by
      intro d hd
      have hlt : d < 10 := Nat.digits_lt_base (by omega) hd
      rw [UInt8.toNat_ofNat_of_lt' (by rw [UInt8.size]; omega)]
      omega
    have hfold : ∀ ds : List Nat, (∀ d ∈ ds, (UInt8.ofNat (48 + d)).toNat - 48 = d) →
        ds.foldr (fun d v => 10 * v + ((UInt8.ofNat (48 + d)).toNat - 48)) 0 =
          Nat.ofDigits 10 ds := by
      intro ds
      induction ds with
      | nil => intro _; rfl
      | cons d ds ih =>
          intro hds
          rw [List.foldr_cons, ih fun x hx => hds x (List.mem_cons_of_mem d hx),
            hds d List.mem_cons_self, Nat.ofDigits_cons]
          omega
    rw [hfold _ hdigit, Nat.ofDigits_digits]

theorem natDigits_eq_cons (n : Nat) :
    ∃ b t, natDigits n = b :: t ∧ ∀ c ∈ natDigits n, 48 ≤ c ∧ c ≤ 57 := by
  have hdigits : ∀ c ∈ natDigits n, 48 ≤ c ∧ c ≤ 57 := by
    intro c hc
    rw [natDigits] at hc
    split at hc
    next =>
      rw [List.mem_singleton.mp hc]
      decide
    next =>
      obtain ⟨d, hd, rfl⟩ := List.mem_map.mp (List.mem_reverse.mp hc)
      have hlt : d < 10 := Nat.digits_lt_base (by omega) hd
      have hnat : (UInt8.ofNat (48 + d)).toNat = 48 + d :=
        UInt8.toNat_ofNat_of_lt' (by rw [UInt8.size]; omega)
      rw [UInt8.le_iff_toNat_le, UInt8.le_iff_toNat_le, hnat]
      exact ⟨Nat.le_add_right 48 d, by change 48 + d ≤ 57; omega⟩
  cases hn : natDigits n with
  | nil =>
      rw [natDigits] at hn
      split at hn
      next => cases hn
      next hne =>
        rw [List.reverse_eq_nil_iff, List.map_eq_nil_iff, Nat.digits_eq_nil_iff_eq_zero] at hn
        exact absurd hn hne
  | cons b t => exact ⟨b, t, rfl, by rw [← hn]; exact hdigits⟩

theorem isNumeric_of_digit {b : UInt8} (h : 48 ≤ b ∧ b ≤ 57) :
    isNumeric b = true ∧ isFloating b = false := by
  refine ⟨by simp [isNumeric, h], ?_⟩
  rw [UInt8.le_iff_toNat_le, UInt8.le_iff_toNat_le] at h
  have hne : ∀ c : UInt8, c.toNat < 48 ∨ 57 < c.toNat → (b == c) = false := by
    intro c hc
    refine beq_eq_false_iff_ne.mpr fun heq => ?_
    rw [heq] at h
    have h48 : (48 : UInt8).toNat = 48 := rfl
    have h57 : (57 : UInt8).toNat = 57 := rfl
    omega
  rw [isFloating, hne 46 (by decide), hne 69 (by decide), hne 101 (by decide)]
  rfl

/-- What follows a number. -/
def Stops (rest : Text) : Prop := ∀ b ∈ rest.head?, isNumeric b = false

/-- The characters up to what follows. -/
theorem span_numeric {t rest : Text} (ht : t.all isNumeric = true) (hrest : Stops rest) :
    (t ++ rest).takeWhile isNumeric = t ∧ (t ++ rest).dropWhile isNumeric = rest := by
  have hall := List.all_eq_true.mp ht
  constructor
  · rw [List.takeWhile_append_of_pos hall]
    cases rest with
    | nil => rw [List.takeWhile_nil, List.append_nil]
    | cons b bs => rw [List.takeWhile_cons, hrest b rfl, if_neg Bool.false_ne_true, List.append_nil]
  · rw [List.dropWhile_append_of_pos hall]
    cases rest with
    | nil => rfl
    | cons b bs => rw [List.dropWhile_cons, hrest b rfl, if_neg Bool.false_ne_true]

theorem readNumber_float (x : FloatText) {rest : Text} (hrest : Stops rest) :
    readNumber (x.text ++ rest) = (.float x, rest) := by
  obtain ⟨htake, hdrop⟩ := span_numeric x.numeric hrest
  unfold readNumber
  simp only [htake, hdrop]
  rw [dif_pos ⟨x.numeric, x.floating⟩]

theorem intDigits_spec (i : Int) :
    (intDigits i).all isNumeric = true ∧ (intDigits i).any isFloating = false ∧
      intValue (intDigits i) = i := by
  obtain ⟨b, t, hcons, hdigits⟩ := natDigits_eq_cons i.natAbs
  have hnumeric : (natDigits i.natAbs).all isNumeric = true :=
    List.all_eq_true.mpr fun c hc => (isNumeric_of_digit (hdigits c hc)).1
  have hfloating : (natDigits i.natAbs).any isFloating = false :=
    List.any_eq_false.mpr fun c hc => by rw [(isNumeric_of_digit (hdigits c hc)).2]; simp
  have hvalue := digitsValue_natDigits i.natAbs
  rw [intDigits]
  split
  next hneg =>
    refine ⟨?_, ?_, ?_⟩
    · rw [List.all_cons, hnumeric]
      rfl
    · rw [List.any_cons, hfloating]
      rfl
    · rw [intValue, if_pos rfl, hvalue]
      omega
  next hpos =>
    refine ⟨hnumeric, hfloating, ?_⟩
    have hb : b ≠ 45 := by
      rintro rfl
      have hle := (hdigits 45 (by rw [hcons]; exact List.mem_cons_self)).1
      exact absurd hle (by decide)
    rw [hcons] at hvalue ⊢
    rw [intValue, if_neg hb, hvalue]
    omega

theorem readNumber_int (i : Int) {rest : Text} (hrest : Stops rest) :
    readNumber (intDigits i ++ rest) = (.int i, rest) := by
  obtain ⟨hnumeric, hfloating, hvalue⟩ := intDigits_spec i
  obtain ⟨htake, hdrop⟩ := span_numeric hnumeric hrest
  unfold readNumber
  simp only [htake, hdrop]
  rw [dif_neg (by rw [hfloating]; simp), hvalue]

/-! ## Strings -/

theorem hexValue_hexDigit : ∀ n < 16, hexValue (hexDigit n) = some n := by decide

theorem readString_hex {n : Nat} (hn : n < 0x80) (t : Text) :
    readString (.plain .accept) (ascii "\\u00" ++ [hexDigit (n / 16), hexDigit (n % 16)] ++ t) =
      (readString (.plain .accept) t).map fun r => (UInt8.ofNat n :: r.1, r.2) := by
  have hhigh := hexValue_hexDigit (n / 16) (by omega)
  have hlow := hexValue_hexDigit (n % 16) (Nat.mod_lt n (by omega))
  have hzeros : readString (.plain .accept)
      (ascii "\\u00" ++ [hexDigit (n / 16), hexDigit (n % 16)] ++ t) =
      readString (.hex 1 0) (hexDigit (n / 16) :: hexDigit (n % 16) :: t) := rfl
  have hsum : 16 * (n / 16) + n % 16 = n := Nat.div_add_mod n 16
  rw [hzeros, readString, hhigh, Option.bind_some]
  simp only [Nat.mul_zero, Nat.zero_add]
  rw [readString, hlow, Option.bind_some]
  simp only [hsum, if_pos hn]

/-- The reader gets a character back from what is written for it. -/
theorem readString_escape (b : UInt8) (hb : b < 0x80) (t : Text) :
    readString (.plain .accept) (escape b ++ t) =
      (readString (.plain .accept) t).map fun r => (b :: r.1, r.2) := by
  rw [escape]
  split
  next h => rw [h]; rfl
  next =>
  split
  next h => rw [h]; rfl
  next =>
  split
  next h => rw [h]; rfl
  next =>
  split
  next h => rw [h]; rfl
  next =>
  split
  next h => rw [h]; rfl
  next =>
  split
  next h => rw [h]; rfl
  next hquote =>
  split
  next h => rw [h]; rfl
  next hslash =>
  split
  next =>
    rw [readString_hex (UInt8.lt_iff_toNat_lt.mp hb), UInt8.ofNat_toNat]
  next hcontrol =>
    have hlow : ¬ b < 0x20 := by
      rw [UInt8.le_iff_toNat_le] at hcontrol
      rw [UInt8.lt_iff_toNat_lt]
      change ¬ b.toNat ≤ 31 at hcontrol
      change ¬ b.toNat < 32
      omega
    rw [List.singleton_append, readString, if_neg (fun h => hquote h.2),
      if_neg (fun h => hslash h.2), if_neg (fun h => hlow h.2), utf8_ascii hb, Option.bind_some]

/-- Inside or at the start of a character of more than one byte the reader takes the byte. -/
theorem readString_raw {u u' : Utf8} {b : UInt8} (hu : utf8 u b = some u')
    (hraw : ¬ (u = .accept ∧ b < 0x80)) (t : Text) :
    readString (.plain u) (b :: t) =
      (readString (.plain u') t).map fun r => (b :: r.1, r.2) := by
  have hne : ∀ c : UInt8, c < 0x80 → ¬ (u = .accept ∧ b = c) := by
    rintro c hc ⟨hacc, rfl⟩
    exact hraw ⟨hacc, hc⟩
  have hlow : ¬ (u = .accept ∧ b < 0x20) := by
    rintro ⟨hacc, hlt⟩
    refine hraw ⟨hacc, ?_⟩
    rw [UInt8.lt_iff_toNat_lt] at hlt ⊢
    change b.toNat < 32 at hlt
    change b.toNat < 128
    omega
  rw [readString, if_neg (hne 34 (by decide)), if_neg (hne 92 (by decide)), if_neg hlow, hu,
    Option.bind_some]

/-- A byte from 0x80 on is written as it is. -/
theorem escape_high {b : UInt8} (hb : ¬ b < 0x80) : escape b = [b] := by
  have hne : ∀ c : UInt8, c < 0x80 → b ≠ c := by
    rintro c hc rfl
    exact hb hc
  have hcontrol : ¬ b ≤ 0x1F := by
    rw [UInt8.lt_iff_toNat_lt] at hb
    rw [UInt8.le_iff_toNat_le]
    change ¬ b.toNat < 128 at hb
    change ¬ b.toNat ≤ 31
    omega
  rw [escape, if_neg (hne _ (by decide)), if_neg (hne _ (by decide)), if_neg (hne _ (by decide)),
    if_neg (hne _ (by decide)), if_neg (hne _ (by decide)), if_neg (hne _ (by decide)),
    if_neg (hne _ (by decide)), if_neg hcontrol]

/-- The reader gets a string back from its characters up to the closing quote. -/
theorem readString_escaped (rest : Text) :
    ∀ {u : Utf8} {s t : Text}, escaped u s = some t →
      readString (.plain u) (t ++ 34 :: rest) = some (s, rest)
  | u, [], t, h => by
      rw [escaped, Option.ite_none_right_eq_some] at h
      obtain ⟨rfl, ht⟩ := h
      cases Option.some.inj ht
      rfl
  | u, b :: bs, t, h => by
      obtain ⟨u', hu, hmap⟩ := Option.bind_eq_some_iff.mp h
      obtain ⟨t', ht', rfl⟩ := Option.map_eq_some_iff.mp hmap
      have ih := readString_escaped rest ht'
      rw [List.append_assoc]
      by_cases hascii : u = .accept ∧ b < 0x80
      · obtain ⟨rfl, hb⟩ := hascii
        rw [utf8_ascii hb] at hu
        cases Option.some.inj hu
        rw [if_pos ⟨rfl, rfl⟩, readString_escape b hb, ih]
        rfl
      · have hbyte : (if u = .accept ∧ u' = .accept then escape b else [b]) = [b] := by
          split
          next hstart => exact escape_high fun hb => hascii ⟨hstart.1, hb⟩
          next => rfl
        rw [hbyte, List.singleton_append, readString_raw hu hascii, ih]
        rfl

theorem readString_quote {s q : Text} (h : quote s = some q) (rest : Text) :
    ∃ t, q = 34 :: t ∧ readString (.plain .accept) (t ++ rest) = some (s, rest) := by
  obtain ⟨t, ht, rfl⟩ := Option.map_eq_some_iff.mp h
  refine ⟨t ++ [34], rfl, ?_⟩
  rw [List.append_assoc]
  exact readString_escaped rest ht

/-! ## Values -/

theorem skip_newline (step : Option Nat) (column : Nat) (t : Text) :
    skip (newline step column ++ t) = skip t := by
  have hblank : ∀ b ∈ newline step column, isBlank b = true := by
    intro b hb
    cases step with
    | none => cases hb
    | some _ =>
        rcases List.mem_cons.mp hb with rfl | hb
        · rfl
        · rw [(List.mem_replicate.mp hb).2]
          rfl
  rw [skip, List.dropWhile_append_of_pos hblank, skip]

theorem skip_cons {b : UInt8} (h : isBlank b = false) (t : Text) : skip (b :: t) = b :: t := by
  rw [skip, List.dropWhile_cons, h]
  rfl

theorem readValue_newline (fuel : Nat) (step : Option Nat) (column : Nat) (t : Text) :
    readValue fuel (newline step column ++ t) = readValue fuel t := by
  cases fuel with
  | zero => rfl
  | succ fuel => rw [readValue, readValue, skip_newline]

/-- A byte that starts the text of a value. -/
def Starts (b : UInt8) : Prop := isBlank b = false ∧ b ≠ 93 ∧ b ≠ 125

theorem starts_of_numeric {b : UInt8} (h : isNumeric b = true) : Starts b := by
  have hne : ∀ c : UInt8, isNumeric c = false → b ≠ c := by
    rintro c hc rfl
    rw [hc] at h
    cases h
  refine ⟨?_, hne 93 (by decide), hne 125 (by decide)⟩
  rw [isBlank, beq_eq_false_iff_ne.mpr (hne 32 (by decide)),
    beq_eq_false_iff_ne.mpr (hne 10 (by decide)), beq_eq_false_iff_ne.mpr (hne 13 (by decide)),
    beq_eq_false_iff_ne.mpr (hne 9 (by decide))]
  rfl

theorem float_eq_cons (x : FloatText) : ∃ b t, x.text = b :: t ∧ isNumeric b = true := by
  cases htext : x.text with
  | nil =>
      have hfloating := x.floating
      rw [htext] at hfloating
      cases hfloating
  | cons b t =>
      refine ⟨b, t, rfl, ?_⟩
      have hall := x.numeric
      rw [htext, List.all_cons, Bool.and_eq_true] at hall
      exact hall.1

theorem intDigits_eq_cons (i : Int) : ∃ b t, intDigits i = b :: t ∧ isNumeric b = true := by
  obtain ⟨hnumeric, _, _⟩ := intDigits_spec i
  obtain ⟨b, t, hcons⟩ : ∃ b t, intDigits i = b :: t := by
    obtain ⟨b, t, hcons, _⟩ := natDigits_eq_cons i.natAbs
    rw [intDigits, hcons]
    split
    · exact ⟨45, b :: t, rfl⟩
    · exact ⟨b, t, rfl⟩
  refine ⟨b, t, hcons, ?_⟩
  rw [hcons, List.all_cons, Bool.and_eq_true] at hnumeric
  exact hnumeric.1

theorem dumpAt_eq_cons {step : Option Nat} {column : Nat} {j : Json} {t : Text}
    (h : dumpAt step column j = some t) : ∃ b t', t = b :: t' ∧ Starts b := by
  have hword : ∀ s : String, some (ascii s) = some t →
      (∃ b t', ascii s = b :: t' ∧ Starts b) → ∃ b t', t = b :: t' ∧ Starts b := by
    intro s hs hstarts
    cases Option.some.inj hs
    exact hstarts
  cases j with
  | null => exact hword "null" h ⟨_, _, rfl, by decide, by decide, by decide⟩
  | bool b =>
      cases b with
      | true => exact hword "true" h ⟨_, _, rfl, by decide, by decide, by decide⟩
      | false => exact hword "false" h ⟨_, _, rfl, by decide, by decide, by decide⟩
  | int i =>
      cases Option.some.inj h
      obtain ⟨b, t', hcons, hnumeric⟩ := intDigits_eq_cons i
      exact ⟨b, t', hcons, starts_of_numeric hnumeric⟩
  | float x =>
      cases Option.some.inj h
      obtain ⟨b, t', hcons, hnumeric⟩ := float_eq_cons x
      exact ⟨b, t', hcons, starts_of_numeric hnumeric⟩
  | str s =>
      obtain ⟨t', rfl, _⟩ := readString_quote h []
      exact ⟨34, t', rfl, by decide, by decide, by decide⟩
  | arr vs =>
      cases vs with
      | nil => exact hword "[]" h ⟨_, _, rfl, by decide, by decide, by decide⟩
      | cons v vs =>
          obtain ⟨t', _, rfl⟩ := Option.map_eq_some_iff.mp h
          exact ⟨91, _, rfl, by decide, by decide, by decide⟩
  | obj ms =>
      cases ms with
      | nil =>
          exact hword "\x7b\x7d" h ⟨_, _, rfl, by decide, by decide, by decide⟩
      | cons m ms =>
          obtain ⟨t', _, rfl⟩ := Option.map_eq_some_iff.mp h
          exact ⟨123, _, rfl, by decide, by decide, by decide⟩

theorem stops_cons {b : UInt8} (h : isNumeric b = false) (t : Text) : Stops (b :: t) := by
  intro c hc
  cases Option.some.inj hc
  exact h

/-- A closing bracket, on a line of its own or not, ends a number. -/
theorem stops_newline {b : UInt8} (h : isNumeric b = false) (step : Option Nat) (column : Nat)
    (t : Text) : Stops (newline step column ++ b :: t) := by
  cases step with
  | none => exact stops_cons h t
  | some _ => exact stops_cons rfl _

theorem dumpElements_cons {step : Option Nat} {column : Nat} {v : Json} {vs : List Json}
    {t : Text} (h : dumpElements step column (v :: vs) = some t) :
    ∃ tv tr, dumpAt step column v = some tv ∧ dumpElements step column vs = some tr ∧
      t = newline step column ++ (tv ++ (comma vs ++ tr)) := by
  obtain ⟨tv, htv, hmap⟩ := Option.bind_eq_some_iff.mp h
  obtain ⟨tr, htr, rfl⟩ := Option.map_eq_some_iff.mp hmap
  exact ⟨tv, tr, htv, htr, by simp only [List.append_assoc]⟩

theorem dumpMembers_cons {step : Option Nat} {column : Nat} {k : Text} {v : Json}
    {ms : List (Text × Json)} {t : Text} (h : dumpMembers step column ((k, v) :: ms) = some t) :
    ∃ q tv tr, quote k = some q ∧ dumpAt step column v = some tv ∧
      dumpMembers step column ms = some tr ∧
      t = newline step column ++ (q ++ (colon step ++ (tv ++ (comma ms ++ tr)))) := by
  obtain ⟨q, hq, hbind⟩ := Option.bind_eq_some_iff.mp h
  obtain ⟨tv, htv, hmap⟩ := Option.bind_eq_some_iff.mp hbind
  obtain ⟨tr, htr, rfl⟩ := Option.map_eq_some_iff.mp hmap
  exact ⟨q, tv, tr, hq, htv, htr, by simp only [List.append_assoc]⟩

/-- What is inside a value with a text has a text. -/
theorem dumpElements_mem {step : Option Nat} {column : Nat} :
    ∀ {vs : List Json} {t : Text}, dumpElements step column vs = some t →
      ∀ v ∈ vs, ∃ tv, dumpAt step column v = some tv
  | w :: vs, t, h, v, hv => by
      obtain ⟨tv, tr, htv, htr, _⟩ := dumpElements_cons h
      rcases List.mem_cons.mp hv with rfl | hmem
      · exact ⟨tv, htv⟩
      · exact dumpElements_mem htr v hmem

theorem dumpMembers_mem {step : Option Nat} {column : Nat} :
    ∀ {ms : List (Text × Json)} {t : Text}, dumpMembers step column ms = some t →
      ∀ m ∈ ms, ∃ tv, dumpAt step column m.2 = some tv
  | (k, w) :: ms, t, h, m, hm => by
      obtain ⟨_, tv, tr, _, htv, htr, _⟩ := dumpMembers_cons h
      rcases List.mem_cons.mp hm with rfl | hmem
      · exact ⟨tv, htv⟩
      · exact dumpMembers_mem htr m hmem

theorem dumpAt_arr_mem {step : Option Nat} {column : Nat} {vs : List Json} {t : Text}
    (h : dumpAt step column (.arr vs) = some t) :
    ∀ v ∈ vs, ∃ tv, dumpAt step (inner step column) v = some tv := by
  intro v hv
  cases vs with
  | nil => cases hv
  | cons w vs =>
      obtain ⟨te, hte, _⟩ := Option.map_eq_some_iff.mp h
      exact dumpElements_mem hte v hv

theorem dumpAt_obj_mem {step : Option Nat} {column : Nat} {ms : List (Text × Json)} {t : Text}
    (h : dumpAt step column (.obj ms) = some t) :
    ∀ m ∈ ms, ∃ tv, dumpAt step (inner step column) m.2 = some tv := by
  intro m hm
  cases ms with
  | nil => cases hm
  | cons w ms =>
      obtain ⟨te, hte, _⟩ := Option.map_eq_some_iff.mp h
      exact dumpMembers_mem hte m hm

theorem length_comma {α : Type} (a : α) (as : List α) : (comma (a :: as)).length = 1 := rfl

theorem readValue_number {fuel : Nat} {b : UInt8} (hb : isNumeric b = true) (t : Text) :
    readValue (fuel + 1) (b :: t) = some (readNumber (b :: t)) := by
  have hne : ∀ c : UInt8, isNumeric c = false → b ≠ c := by
    rintro c hc rfl
    rw [hc] at hb
    cases hb
  rw [readValue, skip_cons (starts_of_numeric hb).1]
  simp only [if_neg (hne 34 (by decide)), if_neg (hne 91 (by decide)),
    if_neg (hne 123 (by decide)), if_pos hb]

theorem readValue_arr {fuel : Nat} {step : Option Nat} {column : Nat} {b : UInt8} {t : Text}
    (hb : Starts b) :
    readValue (fuel + 1) (91 :: (newline step column ++ b :: t)) =
      (readElements fuel (newline step column ++ b :: t)).map fun r => (.arr r.1, r.2) := by
  rw [readValue, skip_cons (b := 91) rfl]
  simp only [skip_newline, skip_cons hb.1, List.head?_cons, Option.some.injEq, if_neg hb.2.1]
  rfl

theorem readValue_obj (fuel : Nat) (step : Option Nat) (column : Nat) (t : Text) :
    readValue (fuel + 1) (123 :: (newline step column ++ 34 :: t)) =
      (readMembers fuel (newline step column ++ 34 :: t)).map fun r => (.obj r.1, r.2) := by
  rw [readValue, skip_cons (b := 123) rfl]
  simp only [skip_newline, skip_cons (b := 34) rfl, List.head?_cons, Option.some.injEq]
  rfl

/-- A value behind a colon. -/
theorem readValue_colon (fuel : Nat) (step : Option Nat) (t : Text) :
    ∃ t', skip (colon step ++ t) = 58 :: t' ∧ readValue fuel t' = readValue fuel t := by
  cases step with
  | none => exact ⟨t, rfl, rfl⟩
  | some _ =>
      refine ⟨32 :: t, rfl, ?_⟩
      cases fuel with
      | zero => rfl
      | succ fuel =>
          have hskip : skip (32 :: t) = skip t := rfl
          rw [readValue, readValue, hskip]

mutual

/-- The reader gets a value back from its text, when the fuel is not less than its length. -/
theorem readValue_dumpAt {step : Option Nat} {column fuel : Nat} {t rest : Text} :
    ∀ {j : Json}, dumpAt step column j = some t → t.length ≤ fuel → Stops rest →
      readValue fuel (t ++ rest) = some (j, rest) := by
  intro j h hfuel hrest
  obtain ⟨fuel, rfl⟩ : ∃ f, fuel = f + 1 := by
    obtain ⟨b, t', rfl, _⟩ := dumpAt_eq_cons h
    rw [List.length_cons] at hfuel
    exact ⟨fuel - 1, by omega⟩
  cases j with
  | null => cases Option.some.inj h; rfl
  | bool b =>
      cases b with
      | true => cases Option.some.inj h; rfl
      | false => cases Option.some.inj h; rfl
  | int i =>
      cases Option.some.inj h
      obtain ⟨b, t', hcons, hnumeric⟩ := intDigits_eq_cons i
      have hread := readNumber_int i hrest
      rw [hcons] at hread ⊢
      rw [List.cons_append] at hread ⊢
      rw [readValue_number hnumeric, hread]
  | float x =>
      cases Option.some.inj h
      obtain ⟨b, t', hcons, hnumeric⟩ := float_eq_cons x
      have hread := readNumber_float x hrest
      rw [hcons] at hread ⊢
      rw [List.cons_append] at hread ⊢
      rw [readValue_number hnumeric, hread]
  | str s =>
      obtain ⟨t', rfl, hread⟩ := readString_quote h rest
      rw [List.cons_append, readValue, skip_cons (b := 34) rfl]
      simp only [if_pos, hread]
      rfl
  | arr vs =>
      cases vs with
      | nil => cases Option.some.inj h; rfl
      | cons v vs =>
          obtain ⟨te, hte, rfl⟩ := Option.map_eq_some_iff.mp h
          have hlen : te.length < fuel := by
            simp only [List.length_append, List.length_cons, List.length_nil] at hfuel
            omega
          have hread : readElements fuel (te ++ newline step column ++ 93 :: rest) =
              some (v :: vs, rest) := readElements_dump hte hlen
          obtain ⟨tv, tr, htv, _, rfl⟩ := dumpElements_cons hte
          obtain ⟨b, t', rfl, hb⟩ := dumpAt_eq_cons htv
          simp only [List.append_assoc, List.cons_append, List.nil_append] at hread ⊢
          rw [readValue_arr hb, hread]
          rfl
  | obj ms =>
      cases ms with
      | nil => cases Option.some.inj h; rfl
      | cons m ms =>
          cases m with
          | mk k v =>
              obtain ⟨te, hte, rfl⟩ := Option.map_eq_some_iff.mp h
              have hlen : te.length < fuel := by
                simp only [List.length_append, List.length_cons, List.length_nil] at hfuel
                omega
              have hread : readMembers fuel (te ++ newline step column ++ 125 :: rest) =
                  some ((k, v) :: ms, rest) := readMembers_dump hte hlen
              obtain ⟨q, tv, tr, hq, _, _, rfl⟩ := dumpMembers_cons hte
              obtain ⟨t', rfl, _⟩ := readString_quote hq []
              simp only [List.append_assoc, List.cons_append, List.nil_append] at hread ⊢
              rw [readValue_obj, hread]
              rfl
termination_by j => sizeOf j

theorem readElements_dump {step : Option Nat} {column c fuel : Nat} {t rest : Text} :
    ∀ {v : Json} {vs : List Json}, dumpElements step column (v :: vs) = some t → t.length < fuel →
      readElements fuel (t ++ newline step c ++ 93 :: rest) = some (v :: vs, rest) := by
  intro v vs h hfuel
  obtain ⟨tv, tr, htv, htr, rfl⟩ := dumpElements_cons h
  obtain ⟨fuel, rfl⟩ : ∃ f, fuel = f + 1 := ⟨fuel - 1, by omega⟩
  simp only [List.length_append] at hfuel
  have hread : ∀ rest', Stops rest' →
      readValue fuel (newline step column ++ (tv ++ rest')) = some (v, rest') := by
    intro rest' hrest'
    rw [readValue_newline]
    exact readValue_dumpAt htv (by omega) hrest'
  cases vs with
  | nil =>
      cases Option.some.inj htr
      have hclose := hread (newline step c ++ 93 :: rest) (stops_newline rfl step c rest)
      simp only [comma, List.isEmpty_nil, if_true, List.append_nil, List.append_assoc]
      rw [readElements, hclose, Option.bind_some]
      simp only [skip_newline, skip_cons (b := 93) rfl]
  | cons w ws =>
      have hcomma := hread (44 :: (tr ++ newline step c ++ 93 :: rest)) (stops_cons rfl _)
      rw [length_comma] at hfuel
      have ih : readElements fuel (tr ++ newline step c ++ 93 :: rest) = some (w :: ws, rest) :=
        readElements_dump htr (by omega)
      have htext : newline step column ++ (tv ++ (comma (w :: ws) ++ tr)) ++ newline step c ++
          93 :: rest =
          newline step column ++ (tv ++ 44 :: (tr ++ newline step c ++ 93 :: rest)) := by
        simp [comma]
      rw [htext, readElements, hcomma, Option.bind_some]
      simp only [skip_cons (b := 44) rfl, ih, Option.map_some]
termination_by v vs => sizeOf (v :: vs)

theorem readMembers_dump {step : Option Nat} {column c fuel : Nat} {t rest : Text} :
    ∀ {k : Text} {v : Json} {ms : List (Text × Json)},
      dumpMembers step column ((k, v) :: ms) = some t → t.length < fuel →
      readMembers fuel (t ++ newline step c ++ 125 :: rest) = some ((k, v) :: ms, rest) := by
  intro k v ms h hfuel
  obtain ⟨q, tv, tr, hq, htv, htr, rfl⟩ := dumpMembers_cons h
  obtain ⟨fuel, rfl⟩ : ∃ f, fuel = f + 1 := ⟨fuel - 1, by omega⟩
  simp only [List.length_append] at hfuel
  have hread : ∀ rest', Stops rest' → ∃ q' value,
      skip (newline step column ++ (q ++ (colon step ++ (tv ++ rest')))) = 34 :: q' ∧
      ∃ behind, readString (.plain .accept) q' = some (k, behind) ∧ skip behind = 58 :: value ∧
        readValue fuel value = some (v, rest') := by
    intro rest' hrest'
    obtain ⟨q', rfl, hstring⟩ := readString_quote hq (colon step ++ (tv ++ rest'))
    obtain ⟨value, hskip, hvalue⟩ := readValue_colon fuel step (tv ++ rest')
    refine ⟨_, value, ?_, _, hstring, hskip, ?_⟩
    · rw [skip_newline, List.cons_append, skip_cons (b := 34) rfl]
    · rw [hvalue]
      exact readValue_dumpAt htv (by omega) hrest'
  cases ms with
  | nil =>
      cases Option.some.inj htr
      obtain ⟨q', value, hkey, behind, hstring, hcolon, hvalue⟩ :=
        hread (newline step c ++ 125 :: rest) (stops_newline rfl step c rest)
      simp only [comma, List.isEmpty_nil, if_true, List.append_nil, List.append_assoc]
      rw [readMembers]
      simp only [hkey, hstring, Option.bind_some, hcolon, hvalue, skip_newline,
        skip_cons (b := 125) rfl]
  | cons w ws =>
      obtain ⟨q', value, hkey, behind, hstring, hcolon, hvalue⟩ :=
        hread (44 :: (tr ++ newline step c ++ 125 :: rest)) (stops_cons rfl _)
      rw [length_comma] at hfuel
      have ih : readMembers fuel (tr ++ newline step c ++ 125 :: rest) = some (w :: ws, rest) :=
        readMembers_dump htr (by omega)
      have htext : newline step column ++
          (q ++ (colon step ++ (tv ++ (comma (w :: ws) ++ tr)))) ++ newline step c ++
          125 :: rest =
          newline step column ++
            (q ++ (colon step ++ (tv ++ 44 :: (tr ++ newline step c ++ 125 :: rest)))) := by
        simp [comma]
      rw [htext, readMembers]
      simp only [hkey, hstring, Option.bind_some, hcolon, hvalue, skip_cons (b := 44) rfl, ih,
        Option.map_some]
termination_by k v ms => sizeOf ((k, v) :: ms)

end

/-- `read` gets every value back. -/
theorem read_dump {step : Option Nat} {j : Json} {t : Text} (h : dump step j = some t) :
    read t = some j := by
  have hread : readValue t.length (t ++ []) = some (j, []) :=
    readValue_dumpAt h (Nat.le_refl t.length) (by intro b hb; cases hb)
  rw [List.append_nil] at hread
  rw [read, hread]
  rfl

theorem read_inverts (literal : FloatText → Prop) : Inverts literal read where
  dump _ _ _ _ h := read_dump h
  empty := rfl

end Json
