import Mathlib.Data.List.DropRight
import Muqiu.Http.Params

/-!
# The trimming functions

A text with a byte to keep is a front and a back of delimiters around a middle that begins and ends
with a byte to keep.  `TrimLeft` gives the middle and the back, and `Trim` the middle.  `TrimRight`
takes the position of the last byte to keep for a length: it gives the front and the middle without
its last byte.  So it, and what the three have to do with each other, is right on no text but those
of delimiters only, where all three give nothing.
-/

namespace Muqiu

namespace StringUtil

/-- The text from its first character that is not in the set. -/
def TrimLeft (str delimit : Bytes) : Bytes :=
  match find_first_not_of str delimit with
  | none => []
  | some first => str.drop first

/-- `substr(0, end)` with `end` the position of the last byte to keep. -/
def TrimRight (str delimit : Bytes) : Bytes :=
  match find_last_not_of str delimit with
  | none => []
  | some last => str.take last

/-! ## What trimming is for -/

/-- Of the parts of a kind that consist of delimiters, the longest. -/
structure Longest (part : Bytes → Prop) (delimit p : Bytes) : Prop where
  isPart : part p
  delimiters : ∀ c ∈ p, c ∈ delimit
  longest : ∀ q, part q → (∀ c ∈ q, c ∈ delimit) → q.length ≤ p.length

/-- `r` is `str` without its longest prefix of delimiters. -/
def WithoutPrefix (str delimit r : Bytes) : Prop :=
  ∃ p, Longest (· <+: str) delimit p ∧ str = p ++ r

/-- `r` is `str` without its longest suffix of delimiters. -/
def WithoutSuffix (str delimit r : Bytes) : Prop :=
  ∃ q, Longest (· <:+ str) delimit q ∧ str = r ++ q

/-- `r` is `str` without a prefix and a suffix of delimiters, and cannot be trimmed further. -/
def WithoutBoth (str delimit r : Bytes) : Prop :=
  ∃ p q, (∀ c ∈ p ++ q, c ∈ delimit) ∧ str = p ++ r ++ q ∧
    WithoutPrefix r delimit r ∧ WithoutSuffix r delimit r

/-- The laws of the three functions on `str`. -/
structure TrimLaws (str delimit : Bytes) : Prop where
  left : WithoutPrefix str delimit (TrimLeft str delimit)
  right : WithoutSuffix str delimit (TrimRight str delimit)
  both : WithoutBoth str delimit (Trim str delimit)
  right_left : Trim str delimit = TrimRight (TrimLeft str delimit) delimit
  left_right : Trim str delimit = TrimLeft (TrimRight str delimit) delimit
  left_idem : TrimLeft (TrimLeft str delimit) delimit = TrimLeft str delimit
  right_idem : TrimRight (TrimRight str delimit) delimit = TrimRight str delimit
  both_idem : Trim (Trim str delimit) delimit = Trim str delimit

/-! ## The two positions -/

section Positions

variable {delimit p : Bytes} (hp : ∀ c ∈ p, c ∈ delimit)

include hp

theorem find_first_not_of_eq_none : find_first_not_of p delimit = none := by
  rw [find_first_not_of, List.findIdx?_eq_none_iff]
  intro c hc
  rw [List.contains_iff_mem.mpr (hp c hc)]
  rfl

theorem find_last_not_of_eq_none : find_last_not_of p delimit = none := by
  have h := find_first_not_of_eq_none (p := p.reverse) fun c hc => hp c (List.mem_reverse.mp hc)
  rw [find_first_not_of] at h
  rw [find_last_not_of, h]
  rfl

/-- Behind delimiters, a byte to keep is the first. -/
theorem find_first_not_of_append {a : UInt8} (ha : a ∉ delimit) (r : Bytes) :
    find_first_not_of (p ++ a :: r) delimit = some p.length := by
  have hkeep : (!delimit.contains a) = true := by
    rw [Bool.not_eq_true', List.contains_eq_mem, decide_eq_false_iff_not]
    exact ha
  have hnone := find_first_not_of_eq_none hp
  rw [find_first_not_of] at hnone ⊢
  rw [List.findIdx?_append, hnone, List.findIdx?_cons, if_pos hkeep]
  exact congrArg some (Nat.zero_add _)

/-- In front of delimiters, a byte to keep is the last. -/
theorem find_last_not_of_append {b : UInt8} (hb : b ∉ delimit) (r : Bytes) :
    find_last_not_of (r ++ b :: p) delimit = some r.length := by
  have h := find_first_not_of_append (p := p.reverse)
    (fun c hc => hp c (List.mem_reverse.mp hc)) hb r.reverse
  have hreverse : (r ++ b :: p).reverse = p.reverse ++ b :: r.reverse := by
    rw [List.reverse_append, List.reverse_cons, List.append_assoc]
    rfl
  rw [find_first_not_of, ← hreverse, List.length_reverse] at h
  rw [find_last_not_of, h, Option.map_some, List.length_append, List.length_cons]
  congr 1
  omega

end Positions

/-! ## The shape of a text -/

/-- Nothing to trim: the first and the last byte are to be kept. -/
structure Bare (delimit m : Bytes) : Prop where
  first : ∃ a r, m = a :: r ∧ a ∉ delimit
  last : ∃ r b, m = r ++ [b] ∧ b ∉ delimit

/-- The first byte to keep, behind delimiters. -/
theorem exists_first {str delimit : Bytes} (h : ¬∀ c ∈ str, c ∈ delimit) :
    ∃ p a r, str = p ++ a :: r ∧ (∀ c ∈ p, c ∈ delimit) ∧ a ∉ delimit := by
  induction str with
  | nil => exact absurd (fun c hc => absurd hc List.not_mem_nil) h
  | cons c str ih =>
      by_cases hc : c ∈ delimit
      · have hrest : ¬∀ c ∈ str, c ∈ delimit := fun hall => h (List.forall_mem_cons.mpr ⟨hc, hall⟩)
        obtain ⟨p, a, r, rfl, hp, ha⟩ := ih hrest
        exact ⟨c :: p, a, r, rfl, List.forall_mem_cons.mpr ⟨hc, hp⟩, ha⟩
      · exact ⟨[], c, str, rfl, fun _ hmem => absurd hmem List.not_mem_nil, hc⟩

/-- The last byte to keep, in front of delimiters. -/
theorem exists_last {str delimit : Bytes} (h : ¬∀ c ∈ str, c ∈ delimit) :
    ∃ r b q, str = r ++ b :: q ∧ (∀ c ∈ q, c ∈ delimit) ∧ b ∉ delimit := by
  have hreverse : ¬∀ c ∈ str.reverse, c ∈ delimit :=
    fun hall => h fun c hc => hall c (List.mem_reverse.mpr hc)
  obtain ⟨p, a, r, heq, hp, ha⟩ := exists_first hreverse
  refine ⟨r.reverse, a, p.reverse, ?_, fun c hc => hp c (List.mem_reverse.mp hc), ha⟩
  rw [← List.reverse_reverse str, heq, List.reverse_append, List.reverse_cons, List.append_assoc]
  rfl

/-- A text consists of delimiters, or it has a middle with delimiters on both sides. -/
theorem delimiters_or_middle (str delimit : Bytes) :
    (∀ c ∈ str, c ∈ delimit) ∨
      ∃ p m q, str = p ++ m ++ q ∧ (∀ c ∈ p, c ∈ delimit) ∧ (∀ c ∈ q, c ∈ delimit) ∧
        Bare delimit m := by
  by_cases h : ∀ c ∈ str, c ∈ delimit
  · exact .inl h
  · right
    obtain ⟨p, a, r, rfl, hp, ha⟩ := exists_first h
    have hrest : ¬∀ c ∈ a :: r, c ∈ delimit := fun hall => ha (hall a List.mem_cons_self)
    obtain ⟨l, b, q, heq, hq, hb⟩ := exists_last hrest
    refine ⟨p, l ++ [b], q, ?_, hp, hq, ?_, l, b, rfl, hb⟩
    · rw [heq, List.append_assoc, List.append_assoc]
      rfl
    · cases l with
      | nil => exact ⟨b, [], rfl, hb⟩
      | cons c l =>
          obtain ⟨rfl, -⟩ := List.cons.inj heq
          exact ⟨a, l ++ [b], rfl, ha⟩

/-! ## What the functions give -/

section Delimiters

variable {str delimit : Bytes} (h : ∀ c ∈ str, c ∈ delimit)

include h

theorem TrimLeft_delimiters : TrimLeft str delimit = [] := by
  rw [TrimLeft, find_first_not_of_eq_none h]

theorem TrimRight_delimiters : TrimRight str delimit = [] := by
  rw [TrimRight, find_last_not_of_eq_none h]

theorem Trim_delimiters : Trim str delimit = [] := by
  rw [Trim, find_first_not_of_eq_none h]

end Delimiters

section Middle

variable {delimit p m q : Bytes} (hp : ∀ c ∈ p, c ∈ delimit) (hq : ∀ c ∈ q, c ∈ delimit)
  (hm : Bare delimit m)

include hp hm in
theorem TrimLeft_middle (q : Bytes) : TrimLeft (p ++ m ++ q) delimit = m ++ q := by
  obtain ⟨a, r, rfl, ha⟩ := hm.first
  have hfirst : find_first_not_of (p ++ a :: r ++ q) delimit = some p.length := by
    rw [List.append_assoc]
    exact find_first_not_of_append hp ha (r ++ q)
  rw [TrimLeft, hfirst]
  show (p ++ a :: r ++ q).drop p.length = _
  rw [List.append_assoc, List.drop_left]

include hq hm in
/-- The last byte to keep goes with the back. -/
theorem TrimRight_middle (p : Bytes) : TrimRight (p ++ m ++ q) delimit = p ++ m.dropLast := by
  obtain ⟨r, b, rfl, hb⟩ := hm.last
  have hsplit : p ++ (r ++ [b]) ++ q = (p ++ r) ++ b :: q := by
    rw [← List.append_assoc, List.append_assoc (p ++ r)]
    rfl
  rw [TrimRight, hsplit, find_last_not_of_append hq hb]
  show ((p ++ r) ++ b :: q).take (p ++ r).length = _
  rw [List.take_left, List.dropLast_concat]

include hp hq hm in
theorem Trim_middle : Trim (p ++ m ++ q) delimit = m := by
  obtain ⟨a, r, hfront, ha⟩ := hm.first
  obtain ⟨l, b, hback, hb⟩ := hm.last
  have hfirst : find_first_not_of (p ++ m ++ q) delimit = some p.length := by
    rw [hfront, List.append_assoc]
    exact find_first_not_of_append hp ha (r ++ q)
  have hlast : find_last_not_of (p ++ m ++ q) delimit = some (p ++ l).length := by
    rw [hback, ← List.append_assoc, List.append_assoc (p ++ l)]
    exact find_last_not_of_append hq hb (p ++ l)
  have hcount : (p ++ l).length - p.length + 1 = m.length := by
    rw [hback, List.length_append, List.length_append, List.length_singleton]
    omega
  rw [Trim, hfirst, hlast]
  show ((p ++ m ++ q).drop p.length).take ((p ++ l).length - p.length + 1) = m
  rw [hcount, List.append_assoc, List.drop_left, List.take_left]

end Middle

/-! ## The laws -/

/-- A byte to keep ends the longest prefix of delimiters. -/
theorem longest_prefix {delimit p : Bytes} {a : UInt8} (hp : ∀ c ∈ p, c ∈ delimit)
    (ha : a ∉ delimit) (r : Bytes) : Longest (· <+: p ++ a :: r) delimit p where
  isPart := List.prefix_append p (a :: r)
  delimiters := hp
  longest := by
    intro q hq hall
    refine Nat.le_of_not_lt fun hlt => ?_
    have hfront : p ++ [a] <+: p ++ a :: r := ⟨r, List.append_assoc p [a] r⟩
    have hwithin : p ++ [a] <+: q := by
      refine List.prefix_of_prefix_length_le hfront hq ?_
      rw [List.length_append, List.length_singleton]
      exact hlt
    exact ha (hall a (hwithin.mem (List.mem_append_right p (List.mem_singleton_self a))))

theorem longest_suffix {delimit q : Bytes} {b : UInt8} (hq : ∀ c ∈ q, c ∈ delimit)
    (hb : b ∉ delimit) (r : Bytes) : Longest (· <:+ r ++ b :: q) delimit q where
  isPart := ⟨r ++ [b], List.append_assoc r [b] q⟩
  delimiters := hq
  longest := by
    intro p hp hall
    refine Nat.le_of_not_lt fun hlt => ?_
    have hback : b :: q <:+ r ++ b :: q := List.suffix_append r (b :: q)
    have hwithin : b :: q <:+ p := List.suffix_of_suffix_length_le hback hp hlt
    exact hb (hall b (hwithin.mem List.mem_cons_self))

theorem longest_self {part : Bytes → Prop} {delimit str : Bytes} (h : ∀ c ∈ str, c ∈ delimit)
    (hpart : part str) (hle : ∀ q, part q → q.length ≤ str.length) :
    Longest part delimit str :=
  ⟨hpart, h, fun q hq _ => hle q hq⟩

theorem Bare.withoutPrefix {delimit m : Bytes} (h : Bare delimit m) :
    WithoutPrefix m delimit m := by
  obtain ⟨a, r, rfl, ha⟩ := h.first
  exact ⟨[], longest_prefix (fun _ hc => absurd hc List.not_mem_nil) ha r, rfl⟩

theorem Bare.withoutSuffix {delimit m : Bytes} (h : Bare delimit m) :
    WithoutSuffix m delimit m := by
  obtain ⟨r, b, rfl, hb⟩ := h.last
  exact ⟨[], longest_suffix (fun _ hc => absurd hc List.not_mem_nil) hb r,
    (List.append_nil _).symm⟩

/-- On delimiters only the three functions give nothing, which is right. -/
theorem trimLaws_delimiters {str delimit : Bytes} (h : ∀ c ∈ str, c ∈ delimit) :
    TrimLaws str delimit := by
  have hnil : ∀ c ∈ ([] : Bytes), c ∈ delimit := fun _ hc => absurd hc List.not_mem_nil
  have hprefix : ∀ {s : Bytes}, (∀ c ∈ s, c ∈ delimit) → WithoutPrefix s delimit [] :=
    fun {s} hs => ⟨s, longest_self hs (List.prefix_refl s) fun q => List.IsPrefix.length_le,
      (List.append_nil s).symm⟩
  have hsuffix : ∀ {s : Bytes}, (∀ c ∈ s, c ∈ delimit) → WithoutSuffix s delimit [] :=
    fun {s} hs => ⟨s, longest_self hs (List.suffix_refl s) fun q => List.IsSuffix.length_le, rfl⟩
  have hboth : WithoutBoth str delimit [] :=
    ⟨str, [], by rwa [List.append_nil], by rw [List.append_nil, List.append_nil],
      hprefix hnil, hsuffix hnil⟩
  constructor
  · rw [TrimLeft_delimiters h]
    exact hprefix h
  · rw [TrimRight_delimiters h]
    exact hsuffix h
  · rw [Trim_delimiters h]
    exact hboth
  · rw [Trim_delimiters h, TrimLeft_delimiters h, TrimRight_delimiters hnil]
  · rw [Trim_delimiters h, TrimRight_delimiters h, TrimLeft_delimiters hnil]
  · rw [TrimLeft_delimiters h, TrimLeft_delimiters hnil]
  · rw [TrimRight_delimiters h, TrimRight_delimiters hnil]
  · rw [Trim_delimiters h, Trim_delimiters hnil]

/-- With a byte to keep, `TrimRight` takes the last one away. -/
theorem not_withoutSuffix_TrimRight {delimit p m q : Bytes} (hq : ∀ c ∈ q, c ∈ delimit)
    (hm : Bare delimit m) :
    ¬WithoutSuffix (p ++ m ++ q) delimit (TrimRight (p ++ m ++ q) delimit) := by
  rintro ⟨back, hlongest, heq⟩
  rw [TrimRight_middle hq hm p] at heq
  obtain ⟨r, b, rfl, hb⟩ := hm.last
  have hback : back = b :: q := by
    rw [List.dropLast_concat, List.append_assoc, List.append_assoc] at heq
    rw [List.append_assoc] at heq
    have hrest := List.append_cancel_left (List.append_cancel_left heq)
    exact hrest.symm
  exact hb (hlongest.delimiters b (hback ▸ List.mem_cons_self))

/-- `TrimLeft` and `Trim` are right on every text. -/
theorem TrimLeft_and_Trim (str delimit : Bytes) :
    WithoutPrefix str delimit (TrimLeft str delimit) ∧
    WithoutBoth str delimit (Trim str delimit) ∧
    TrimLeft (TrimLeft str delimit) delimit = TrimLeft str delimit ∧
    Trim (Trim str delimit) delimit = Trim str delimit := by
  cases delimiters_or_middle str delimit with
  | inl h =>
      have laws := trimLaws_delimiters h
      exact ⟨laws.left, laws.both, laws.left_idem, laws.both_idem⟩
  | inr h =>
      obtain ⟨p, m, q, rfl, hp, hq, hm⟩ := h
      have hnil : ∀ c ∈ ([] : Bytes), c ∈ delimit := fun _ hc => absurd hc List.not_mem_nil
      have hmm := Trim_middle hnil hnil hm
      rw [List.nil_append, List.append_nil] at hmm
      rw [TrimLeft_middle hp hm q, Trim_middle hp hq hm]
      refine ⟨?_, ⟨p, q, List.forall_mem_append.mpr ⟨hp, hq⟩, rfl, hm.withoutPrefix,
        hm.withoutSuffix⟩, TrimLeft_middle hnil hm q, hmm⟩
      obtain ⟨a, r, rfl, ha⟩ := hm.first
      refine ⟨p, ?_, List.append_assoc p (a :: r) q⟩
      rw [List.append_assoc]
      exact longest_prefix hp ha (r ++ q)

theorem trimLaws_iff (str delimit : Bytes) :
    TrimLaws str delimit ↔ ∀ c ∈ str, c ∈ delimit := by
  refine ⟨fun laws => ?_, trimLaws_delimiters⟩
  cases delimiters_or_middle str delimit with
  | inl h => exact h
  | inr h =>
      obtain ⟨p, m, q, rfl, -, hq, hm⟩ := h
      exact absurd laws.right (not_withoutSuffix_TrimRight hq hm)

/-- The three functions agree on a text exactly when it consists of delimiters.  On the others
`TrimLeft` and `Trim` are right, and `TrimRight` is not. -/
theorem trimming_agrees_iff (str delimit : Bytes) :
    (TrimLaws str delimit ↔ ∀ c ∈ str, c ∈ delimit) ∧
    WithoutPrefix str delimit (TrimLeft str delimit) ∧
    WithoutBoth str delimit (Trim str delimit) ∧
    (WithoutSuffix str delimit (TrimRight str delimit) → ∀ c ∈ str, c ∈ delimit) := by
  obtain ⟨hleft, hboth, -, -⟩ := TrimLeft_and_Trim str delimit
  refine ⟨trimLaws_iff str delimit, hleft, hboth, fun hright => ?_⟩
  cases delimiters_or_middle str delimit with
  | inl h => exact h
  | inr h =>
      obtain ⟨p, m, q, rfl, -, hq, hm⟩ := h
      exact absurd hright (not_withoutSuffix_TrimRight hq hm)

/-- A letter and blanks: nothing is left. -/
theorem TrimRight_loses :
    TrimRight (Http.bytes "a  ") blanks = [] ∧ Trim (Http.bytes "a  ") blanks = Http.bytes "a" ∧
    ¬TrimLaws (Http.bytes "a  ") blanks := by
  refine ⟨by decide, by decide, ?_⟩
  rw [trimLaws_iff]
  decide

end StringUtil

end Muqiu
