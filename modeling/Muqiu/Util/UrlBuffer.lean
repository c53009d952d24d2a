import Muqiu.Util.Url

/-!
# URL coding with the buffer of the source

`UrlEncode` and `UrlDecode` walk over the string and make a new one only when they come to a byte
that has to change: the new string starts as a copy of what is behind the walk, and from then on
every byte is appended.  Without such a byte the argument is returned.  `Util/Url.lean` says what
comes out; here it is computed as in the source, with its two tables.
-/

namespace Muqiu

namespace StringUtil

/-! ## The tables -/

/-- The characters that stay as they are. -/
def uri_chars : List UInt8 :=
  [0, 0, 0, 0, 0, 0, 0, 0,   0, 0, 0, 0, 0, 0, 0, 0,
   0, 0, 0, 0, 0, 0, 0, 0,   0, 0, 0, 0, 0, 0, 0, 0,
   0, 0, 0, 0, 0, 0, 0, 0,   0, 0, 0, 0, 0, 1, 1, 0,
   1, 1, 1, 1, 1, 1, 1, 1,   1, 1, 0, 0, 0, 1, 0, 0,
   0, 1, 1, 1, 1, 1, 1, 1,   1, 1, 1, 1, 1, 1, 1, 1,
   1, 1, 1, 1, 1, 1, 1, 1,   1, 1, 1, 0, 0, 0, 0, 1,
   0, 1, 1, 1, 1, 1, 1, 1,   1, 1, 1, 1, 1, 1, 1, 1,
   1, 1, 1, 1, 1, 1, 1, 1,   1, 1, 1, 0, 0, 0, 1, 0] ++ List.replicate 128 0

/-- The values of the hexadecimal digits. -/
def xdigit_chars : List UInt8 :=
  List.replicate 48 0 ++
  [0, 1, 2, 3, 4, 5, 6, 7, 8, 9, 0, 0, 0, 0, 0, 0,
   0, 10, 11, 12, 13, 14, 15, 0, 0, 0, 0, 0, 0, 0, 0, 0,
   0, 0, 0, 0, 0, 0, 0, 0, 0, 0, 0, 0, 0, 0, 0, 0,
   0, 10, 11, 12, 13, 14, 15, 0, 0, 0, 0, 0, 0, 0, 0, 0] ++ List.replicate 144 0

/-- The digits of an encoded character. -/
def hexdigits : List UInt8 := Http.bytes "0123456789ABCDEF"

/-- A table with an entry for every byte. -/
def table (f : UInt8 → UInt8) : List UInt8 := (List.range 256).map fun n => f (UInt8.ofNat n)

theorem getElem?_table (f : UInt8 → UInt8) (c : UInt8) : (table f)[c.toNat]? = some (f c) := by
  rw [table, List.getElem?_map, List.getElem?_range c.toNat_lt, Option.map_some,
    UInt8.ofNat_toNat]

theorem uri_chars_eq : uri_chars = table fun c => if CHAR_IS_UNRESERVED c then 1 else 0 := by
  decide +kernel

theorem xdigit_chars_eq : xdigit_chars = table xdigit := by
  decide +kernel

theorem hexdigits_eq : ∀ d : Fin 16, hexdigits[d.val]? = some (hexdigit (UInt8.ofNat d.val)) := by
  decide

theorem halves_lt (c : UInt8) : (c >>> 4).toNat < 16 ∧ (c &&& 15).toNat < 16 := by
  have hlt := c.toNat_lt
  rw [UInt8.toNat_shiftRight, UInt8.toNat_and]
  refine ⟨?_, Nat.lt_succ_of_le Nat.and_le_right⟩
  show c.toNat >>> 4 < 16
  rw [Nat.shiftRight_eq_div_pow]
  omega

/-- They say what `Util/Url.lean` says. -/
theorem tables_spec (c : UInt8) :
    uri_chars[c.toNat]? = some (if CHAR_IS_UNRESERVED c then 1 else 0) ∧
      xdigit_chars[c.toNat]? = some (xdigit c) ∧
      hexdigits[(c >>> 4).toNat]? = some (hexdigit (c >>> 4)) ∧
      hexdigits[(c &&& 15).toNat]? = some (hexdigit (c &&& 15)) := by
  obtain ⟨hhigh, hlow⟩ := halves_lt c
  have hdigit := hexdigits_eq ⟨_, hhigh⟩
  have hdigit' := hexdigits_eq ⟨_, hlow⟩
  rw [UInt8.ofNat_toNat] at hdigit hdigit'
  rw [uri_chars_eq, xdigit_chars_eq]
  exact ⟨getElem?_table _ c, getElem?_table _ c, hdigit, hdigit'⟩

/-! ## The loops -/

/-- `CHAR_IS_UNRESERVED(c)` by the table. -/
def isUnreserved (c : UInt8) : Bool := uri_chars.getD c.toNat 0 ≠ 0

/-- The loop of `UrlEncode` with `before` behind it: the new string, if there is one yet. -/
def encodeLoop (space_as_plus : Bool) : Bytes → Option Bytes → Bytes → Option Bytes
  | _, ss, [] => ss
  | before, ss, c :: cs =>
      if !isUnreserved c then
        let ss : Bytes := ss.getD before
        let ss : Bytes :=
          if c = 32 && space_as_plus then ss ++ [43]
          else
            ss ++ [37, hexdigits.getD (c >>> 4).toNat 0, hexdigits.getD (c &&& 15).toNat 0]
        encodeLoop space_as_plus (before ++ [c]) (some ss) cs
      else encodeLoop space_as_plus (before ++ [c]) (ss.map (· ++ [c])) cs

/-- `UrlEncode(str, space_as_plus)` as it is computed. -/
def encodeString (str : Bytes) (space_as_plus : Bool) : Bytes :=
  (encodeLoop space_as_plus [] none str).getD str

/-- The loop of `UrlDecode` with `before` behind it. -/
def decodeLoop (space_as_plus : Bool) : Bytes → Option Bytes → Bytes → Option Bytes
  | before, ss, c :: a :: b :: cs =>
      if c = 43 && space_as_plus then
        decodeLoop space_as_plus (before ++ [c]) (some (ss.getD before ++ [32])) (a :: b :: cs)
      else if c = 37 && isxdigit a && isxdigit b then
        decodeLoop space_as_plus (before ++ [c, a, b])
          (some (ss.getD before ++
            [xdigit_chars.getD a.toNat 0 <<< 4 ||| xdigit_chars.getD b.toNat 0])) cs
      else decodeLoop space_as_plus (before ++ [c]) (ss.map (· ++ [c])) (a :: b :: cs)
  | before, ss, c :: cs =>
      if c = 43 && space_as_plus then
        decodeLoop space_as_plus (before ++ [c]) (some (ss.getD before ++ [32])) cs
      else decodeLoop space_as_plus (before ++ [c]) (ss.map (· ++ [c])) cs
  | _, ss, [] => ss

/-- `UrlDecode(str, space_as_plus)` as it is computed. -/
def decodeString (str : Bytes) (space_as_plus : Bool) : Bytes :=
  (decodeLoop space_as_plus [] none str).getD str

/-! ## They compute the coding -/

theorem isUnreserved_eq (c : UInt8) : isUnreserved c = CHAR_IS_UNRESERVED c := by
  rw [isUnreserved, List.getD_eq_getElem?_getD, (tables_spec c).1]
  cases CHAR_IS_UNRESERVED c <;> rfl

/-- A byte that stays is appended to the new string, or to what is behind the walk. -/
theorem getD_append (before : Bytes) (ss : Option Bytes) (c : UInt8) :
    (ss.map (· ++ [c])).getD (before ++ [c]) = ss.getD before ++ [c] := by
  cases ss <;> rfl

/-- Whether or not there is a new string yet, it ends as what is behind the walk, in the new form,
and the coding of what is before it. -/
theorem encodeLoop_spec (plus : Bool) (cs : Bytes) (before : Bytes) (ss : Option Bytes) :
    (encodeLoop plus before ss cs).getD (before ++ cs) = ss.getD before ++ UrlEncode cs plus := by
  induction cs generalizing before ss with
  | nil =>
      rw [encodeLoop, List.append_nil]
      exact (List.append_nil _).symm
  | cons c cs ih =>
      obtain ⟨-, -, hhigh, hlow⟩ := tables_spec c
      rw [encodeLoop, isUnreserved_eq, UrlEncode_cons, List.append_cons before c cs]
      rcases encodeChar_cases plus c with ⟨hc, heq⟩ | ⟨hc, rfl, rfl, heq⟩ | ⟨hc, heq⟩
      · rw [hc, if_neg (by decide), ih, getD_append, heq, List.append_assoc]
      · rw [hc, if_pos (show (!false) = true from rfl), heq]
        dsimp only
        rw [if_pos (show (decide ((32 : UInt8) = 32) && true) = true from rfl), ih,
          Option.getD_some, List.append_assoc]
      · have hplus : (decide (c = 32) && plus) = false := by
          rw [encodeChar, hc] at heq
          cases hspace : decide (c = 32) && plus with
          | false => rfl
          | true =>
              rw [hspace] at heq
              cases heq
        rw [hc, if_pos (show (!false) = true from rfl), heq, List.getD_eq_getElem?_getD,
          List.getD_eq_getElem?_getD, hhigh, hlow, hplus]
        dsimp only
        rw [if_neg (by decide), ih, Option.getD_some, Option.getD_some, Option.getD_some,
          List.append_assoc]

theorem encodeString_eq (str : Bytes) (plus : Bool) : encodeString str plus = UrlEncode str plus :=
  encodeLoop_spec plus str [] none

/-- A byte that starts no digits. -/
theorem UrlDecode_short {c : UInt8} {cs : Bytes} (h : ∀ a b ds, cs = a :: b :: ds → False)
    (plus : Bool) : UrlDecode (c :: cs) plus = decodeChar plus c :: UrlDecode cs plus := by
  rcases cs with - | ⟨a, - | ⟨b, cs⟩⟩
  · rfl
  · rfl
  · exact (h a b cs rfl).elim

theorem decodeChar_of_ne {plus : Bool} {c : UInt8} (h : ¬(decide (c = 43) && plus) = true) :
    decodeChar plus c = c := by
  rw [decodeChar, if_neg h]

/-- The same of the new string of `UrlDecode`. -/
theorem decodeLoop_spec (plus : Bool) (cs : Bytes) (before : Bytes) (ss : Option Bytes) :
    (decodeLoop plus before ss cs).getD (before ++ cs) = ss.getD before ++ UrlDecode cs plus := by
  fun_induction decodeLoop plus before ss cs with
  | case1 before ss c a b cs hspace ih =>
      have hc : c ≠ 37 := by
        rintro rfl
        cases hspace
      rw [List.append_cons before c (a :: b :: cs), ih, Option.getD_some, UrlDecode_cons hc,
        decodeChar, if_pos hspace, List.append_assoc]
      rfl
  | case2 before ss c a b cs hspace hdigits ih =>
      have hall : before ++ c :: a :: b :: cs = before ++ [c, a, b] ++ cs := by
        rw [List.append_assoc]
        rfl
      rw [hall, ih, Option.getD_some, UrlDecode, if_pos hdigits, List.getD_eq_getElem?_getD,
        List.getD_eq_getElem?_getD, (tables_spec a).2.1, (tables_spec b).2.1, List.append_assoc]
      rfl
  | case3 before ss c a b cs hspace hdigits ih =>
      rw [List.append_cons before c (a :: b :: cs), ih, getD_append, UrlDecode, if_neg hdigits,
        decodeChar_of_ne hspace, List.append_assoc]
      rfl
  | case4 before ss c cs hshort hspace ih =>
      rw [List.append_cons before c cs, ih, Option.getD_some, UrlDecode_short hshort, decodeChar,
        if_pos hspace, List.append_assoc]
      rfl
  | case5 before ss c cs hshort hspace ih =>
      rw [List.append_cons before c cs, ih, getD_append, UrlDecode_short hshort,
        decodeChar_of_ne hspace, List.append_assoc]
      rfl
  | case6 before ss =>
      rw [UrlDecode, List.append_nil, List.append_nil]

theorem decodeString_eq (str : Bytes) (plus : Bool) : decodeString str plus = UrlDecode str plus :=
  decodeLoop_spec plus str [] none

/-! ## The coding -/

/-- `0` to `9` and `A` to `F`. -/
def isUpperXdigit (c : UInt8) : Bool := (48 ≤ c && c ≤ 57) || (65 ≤ c && c ≤ 70)

/-- What a coded string consists of. -/
inductive Coded (space_as_plus : Bool) : Bytes → Prop where
  | nil : Coded space_as_plus []
  | unreserved {c : UInt8} {cs : Bytes} : isUnreserved c = true → Coded space_as_plus cs →
      Coded space_as_plus (c :: cs)
  | digits {a b : UInt8} {cs : Bytes} : isUpperXdigit a = true → isUpperXdigit b = true →
      Coded space_as_plus cs → Coded space_as_plus (37 :: a :: b :: cs)
  | plus {cs : Bytes} : space_as_plus = true → Coded space_as_plus cs →
      Coded space_as_plus (43 :: cs)

theorem isUpperXdigit_hexdigits (c : UInt8) :
    isUpperXdigit (hexdigit (c >>> 4)) = true ∧ isUpperXdigit (hexdigit (c &&& 15)) = true := by
  revert c
  exact Words.forall_uint8 (by decide +kernel)

theorem coded_UrlEncode (str : Bytes) (plus : Bool) : Coded plus (UrlEncode str plus) := by
  induction str with
  | nil => exact .nil
  | cons c str ih =>
      rw [UrlEncode_cons]
      rcases encodeChar_cases plus c with ⟨hc, heq⟩ | ⟨-, -, hplus, heq⟩ | ⟨-, heq⟩
      · rw [heq]
        exact .unreserved ((isUnreserved_eq c).trans hc) ih
      · rw [heq]
        exact .plus hplus ih
      · obtain ⟨hhigh, hlow⟩ := isUpperXdigit_hexdigits c
        rw [heq]
        exact .digits hhigh hlow ih

/-- Only what needs no coding is its own. -/
theorem UrlEncode_eq_self_iff (str : Bytes) (plus : Bool) :
    UrlEncode str plus = str ↔ ∀ c ∈ str, CHAR_IS_UNRESERVED c = true := by
  induction str with
  | nil => exact iff_of_true rfl (List.forall_mem_nil _)
  | cons c str ih =>
      rw [UrlEncode_cons, List.forall_mem_cons]
      rcases encodeChar_cases plus c with ⟨hc, heq⟩ | ⟨hc, rfl, -, heq⟩ | ⟨hc, heq⟩
      · rw [heq, List.singleton_append, List.cons_inj_right, ih, hc]
        exact (and_iff_right rfl).symm
      · rw [heq, hc]
        refine iff_of_false (fun hsame => ?_) fun hall => Bool.false_ne_true hall.1
        exact absurd (List.cons.inj hsame).1 (by decide)
      · rw [heq, hc]
        refine iff_of_false (fun hsame => ?_) fun hall => Bool.false_ne_true hall.1
        -- two more bytes than there were
        have hlen := congrArg List.length hsame
        have hle := length_le_UrlEncode str plus
        simp only [List.length_append, List.length_cons, List.length_nil] at hlen
        omega

/-- What is coded is read back, in every form of the coding, and only unreserved bytes are left
as they are. -/
theorem url_coding (str : Bytes) (plus : Bool) :
    decodeString (encodeString str plus) plus = str ∧ Coded plus (encodeString str plus) ∧
      (encodeString str plus = str ↔ ∀ c ∈ str, isUnreserved c = true) := by
  simp only [encodeString_eq, decodeString_eq, isUnreserved_eq]
  exact ⟨UrlDecode_UrlEncode plus str, coded_UrlEncode str plus, UrlEncode_eq_self_iff str plus⟩

end StringUtil

end Muqiu
