import Mathlib.Algebra.Group.Nat.Defs
import Muqiu.Http.Form

/-!
# Parameters and cookies

The grammar of a query, a form body and a `cookie` header: the text is split at a separator, and a
segment with a `=` is a pair.  `PARSE_PARAM` looks for the next `=` first and for the separator
behind it, so a segment without a `=` is no segment to it: it becomes the start of the next key.
`followsGrammar_iff` says that what is parsed follows the grammar exactly when such segments are
behind all the others.
-/

namespace Muqiu

open OrderedMap (Ops)
open StringUtil (UrlDecode)

/-! ## Trimming -/

namespace StringUtil

/-- The first position with another character. -/
def find_first_not_of (str delimit : Bytes) : Option Nat :=
  str.findIdx? fun c => !delimit.contains c

/-- The last position with another character. -/
def find_last_not_of (str delimit : Bytes) : Option Nat :=
  (str.reverse.findIdx? fun c => !delimit.contains c).map fun n => str.length - 1 - n

/-- `Trim(str, delimit)`; behind a first byte to keep there is a last one. -/
def Trim (str delimit : Bytes) : Bytes :=
  match find_first_not_of str delimit with
  | none => []
  | some first =>
      match find_last_not_of str delimit with
      | none => str.drop first
      | some last => (str.drop first).take (last - first + 1)

/-- The default for `delimit`. -/
def blanks : Bytes := Http.bytes " \t\r\n"

/-- A byte to keep is in what is kept. -/
theorem mem_Trim_iff {str delimit : Bytes} {c : UInt8} (hc : c ∉ delimit) :
    c ∈ Trim str delimit ↔ c ∈ str := by
  have hkeep : (!delimit.contains c) = true := by
    rw [Bool.not_eq_true', List.contains_eq_mem, decide_eq_false_iff_not]
    exact hc
  constructor
  · intro h
    rw [Trim] at h
    split at h
    next => cases h
    next =>
      split at h
      next => exact List.mem_of_mem_drop h
      next => exact List.mem_of_mem_drop (List.mem_of_mem_take h)
  · intro h
    obtain ⟨i, hi, hget⟩ := List.getElem_of_mem h
    rw [Trim]
    split
    next hfirst =>
      have hnone := List.findIdx?_eq_none_iff.mp hfirst c h
      rw [hkeep] at hnone
      cases hnone
    next first hfirst =>
      obtain ⟨_, -, hbefore⟩ := List.findIdx?_eq_some_iff_getElem.mp hfirst
      have hle : first ≤ i := by
        refine Nat.le_of_not_lt fun hlt => ?_
        have hno := hbefore i hlt
        rw [hget, hkeep] at hno
        exact hno rfl
      have hdrop : i - first < (str.drop first).length := by
        rw [List.length_drop]
        omega
      have hat : (str.drop first)[i - first] = c := by
        rw [List.getElem_drop, ← hget]
        congr 1
        omega
      split
      next => exact hat ▸ List.getElem_mem hdrop
      next last hlast =>
        obtain ⟨n, hn, rfl⟩ := Option.map_eq_some_iff.mp hlast
        obtain ⟨_, -, hbehind⟩ := List.findIdx?_eq_some_iff_getElem.mp hn
        have hge : n ≤ str.length - 1 - i := by
          refine Nat.le_of_not_lt fun hlt => ?_
          have hno := hbehind (str.length - 1 - i) hlt
          rw [List.getElem_reverse] at hno
          have hsame : str.length - 1 - (str.length - 1 - i) = i := by omega
          simp only [hsame, hget, hkeep] at hno
          exact hno trivial
        refine List.mem_take_iff_getElem.mpr ⟨i - first, ?_, hat⟩
        rw [List.length_drop]
        omega

end StringUtil

namespace Http

/-! ## The grammar -/

/-- The pair of a segment: the text before the first `=` and the rest. -/
def segmentPair (trim : Bytes → Bytes) (segment : Bytes) : Option (Bytes × Bytes) :=
  (Delimited.cut [61] segment).map fun p => (trim p.1, UrlDecode p.2 true)

/-- The pairs of a text, of which the segments without a `=` are no part. -/
def grammarPairs (flag : UInt8) (trim : Bytes → Bytes) (str : Bytes) : List (Bytes × Bytes) :=
  (str.splitOn flag).filterMap (segmentPair trim)

/-- No segment with a `=` is behind one without. -/
def PairsFirst (flag : UInt8) (str : Bytes) : Prop :=
  (str.splitOn flag).Pairwise fun a b => 61 ∈ b → 61 ∈ a

instance (flag : UInt8) (str : Bytes) : Decidable (PairsFirst flag str) :=
  inferInstanceAs (Decidable (List.Pairwise _ _))

/-- A separator that is neither `=` nor a letter, and that trimming keeps. -/
structure Separates (flag : UInt8) (trim : Bytes → Bytes) : Prop where
  ne_equals : flag ≠ 61
  kept : ∀ s, flag ∈ trim s ↔ flag ∈ s
  fold : ∀ c, tolower c = flag ↔ c = flag

theorem segmentPair_none {trim : Bytes → Bytes} {segment : Bytes} (h : 61 ∉ segment) :
    segmentPair trim segment = none := by
  rw [segmentPair, Delimited.cut_singleton_eq_none_iff.mpr h]
  rfl

/-- A segment with a `=`. -/
theorem exists_cut {segment : Bytes} (h : 61 ∈ segment) :
    ∃ key val, segment = key ++ 61 :: val ∧ 61 ∉ key ∧
      ∀ trim, segmentPair trim segment = some (trim key, UrlDecode val true) := by
  cases hcut : Delimited.cut [61] segment with
  | none => exact absurd h (Delimited.cut_singleton_eq_none_iff.mp hcut)
  | some c =>
      obtain ⟨heq, hclean⟩ := Delimited.cut_some (List.cons_ne_nil 61 []) hcut
      refine ⟨c.1, c.2, ?_, fun hmem => hclean ((List.singleton_infix_iff 61 c.1).mpr hmem), ?_⟩
      · rw [heq, List.append_assoc]
        rfl
      · intro trim
        rw [segmentPair, hcut]
        rfl

/-! ## What is parsed -/

/-- What `PARSE_PARAM` makes of segments with `before` in front of them. -/
def parsedPairs (flag : UInt8) (trim : Bytes → Bytes) : Bytes → List Bytes → List (Bytes × Bytes)
  | _, [] => []
  | before, segment :: segments =>
      match Delimited.cut [61] segment with
      | none => parsedPairs flag trim (before ++ segment ++ [flag]) segments
      | some (key, val) =>
          (trim (before ++ key), UrlDecode val true) :: parsedPairs flag trim [] segments

section

variable {flag : UInt8} {trim : Bytes → Bytes}

theorem parsedPairs_none {segment : Bytes} (h : 61 ∉ segment) (before : Bytes)
    (segments : List Bytes) : parsedPairs flag trim before (segment :: segments) =
      parsedPairs flag trim (before ++ segment ++ [flag]) segments := by
  rw [parsedPairs, Delimited.cut_singleton_eq_none_iff.mpr h]

theorem parsedPairs_cut {key : Bytes} (h : 61 ∉ key) (val before : Bytes)
    (segments : List Bytes) : parsedPairs flag trim before ((key ++ 61 :: val) :: segments) =
      (trim (before ++ key), UrlDecode val true) :: parsedPairs flag trim [] segments := by
  rw [parsedPairs, Delimited.cut_cons val h]

/-- A round takes the segments up to the first one with a `=`. -/
theorem PARSE_PARAM_segments (hflag : flag ≠ 61) :
    ∀ (segments : List Bytes) (n : Nat) (before : Bytes) (m : CaseMap), segments ≠ [] →
      (∀ s ∈ segments, flag ∉ s) → 61 ∉ before →
      (before ++ [flag].intercalate segments).length < n →
      PARSE_PARAM flag trim n (before ++ [flag].intercalate segments) m =
        m.insertAll (parsedPairs flag trim before segments) := by
  intro segments
  induction segments with
  | nil => exact fun _ _ _ hne => absurd rfl hne
  | cons segment segments ih =>
      intro n before m _ hclean hbefore hlen
      obtain ⟨hsegment, hsegments⟩ := List.forall_mem_cons.mp hclean
      by_cases hequals : 61 ∈ segment
      · obtain ⟨key, val, rfl, hkey, -⟩ := exists_cut hequals
        have hval : flag ∉ val := fun h =>
          hsegment (List.mem_append_right _ (List.mem_cons_of_mem _ h))
        have hclear : 61 ∉ before ++ key := fun h => (List.mem_append.mp h).elim hbefore hkey
        rw [parsedPairs_cut hkey]
        cases n with
        | zero => exact absurd hlen (Nat.not_lt_zero _)
        | succ n =>
            cases segments with
            | nil =>
                rw [List.intercalate_singleton, ← List.append_assoc, PARSE_PARAM_last hclear hval]
                rfl
            | cons next segments =>
                have hrest := ih n [] (m.insert (trim (before ++ key)) (UrlDecode val true))
                  (List.cons_ne_nil _ _) hsegments List.not_mem_nil
                rw [List.nil_append] at hrest
                have htext :
                    before ++ [flag].intercalate ((key ++ 61 :: val) :: next :: segments) =
                      before ++ key ++ 61 ::
                        (val ++ flag :: [flag].intercalate (next :: segments)) := by
                  rw [List.intercalate_cons_cons]
                  simp only [List.append_assoc, List.cons_append, List.nil_append]
                rw [htext] at hlen ⊢
                rw [PARSE_PARAM_next hclear hval]
                refine hrest ?_
                simp only [List.length_append, List.length_cons] at hlen
                omega
      · rw [parsedPairs_none hequals]
        have hclear : 61 ∉ before ++ segment := fun h =>
          (List.mem_append.mp h).elim hbefore hequals
        cases segments with
        | nil => rw [List.intercalate_singleton, PARSE_PARAM_none flag trim hclear]; rfl
        | cons next segments =>
            have htext : before ++ [flag].intercalate (segment :: next :: segments) =
                before ++ segment ++ [flag] ++ [flag].intercalate (next :: segments) := by
              rw [List.intercalate_cons_cons]
              simp only [List.append_assoc]
            rw [htext] at hlen ⊢
            refine ih n _ m (List.cons_ne_nil _ _) hsegments ?_ hlen
            intro h
            rcases List.mem_append.mp h with h | h
            · exact hclear h
            · exact hflag (List.mem_singleton.mp h).symm

theorem PARSE_PARAM_eq (hflag : flag ≠ 61) (str : Bytes) (m : CaseMap) :
    PARSE_PARAM flag trim (str.length + 1) str m =
      m.insertAll (parsedPairs flag trim [] (str.splitOn flag)) := by
  have hstr : [] ++ [flag].intercalate (str.splitOn flag) = str := List.intercalate_splitOn flag
  calc PARSE_PARAM flag trim (str.length + 1) str m =
        PARSE_PARAM flag trim (str.length + 1) ([] ++ [flag].intercalate (str.splitOn flag)) m := by
          rw [hstr]
    _ = m.insertAll (parsedPairs flag trim [] (str.splitOn flag)) :=
        PARSE_PARAM_segments hflag _ _ [] m (List.splitOn_ne_nil flag str)
          (fun _ => Delimited.not_mem_of_mem_splitOn) List.not_mem_nil
          (by rw [hstr]; exact Nat.lt_succ_self _)

/-! ## Which texts are parsed by the grammar -/

theorem parsedPairs_of_none : ∀ {segments : List Bytes} (before : Bytes),
    (∀ s ∈ segments, 61 ∉ s) → parsedPairs flag trim before segments = [] := by
  intro segments
  induction segments with
  | nil => exact fun _ _ => rfl
  | cons segment segments ih =>
      intro before h
      obtain ⟨hsegment, hsegments⟩ := List.forall_mem_cons.mp h
      rw [parsedPairs_none hsegment, ih _ hsegments]

theorem filterMap_of_none {segments : List Bytes} (h : ∀ s ∈ segments, 61 ∉ s) :
    segments.filterMap (segmentPair trim) = [] :=
  List.filterMap_eq_nil_iff.mpr fun s hs => segmentPair_none (h s hs)

/-- Segments without a `=` do no harm behind the others. -/
theorem parsedPairs_of_pairsFirst {segments : List Bytes}
    (h : segments.Pairwise fun a b => 61 ∈ b → 61 ∈ a) :
    parsedPairs flag trim [] segments = segments.filterMap (segmentPair trim) := by
  induction segments with
  | nil => rfl
  | cons segment segments ih =>
      obtain ⟨hsegment, hsegments⟩ := List.pairwise_cons.mp h
      by_cases hequals : 61 ∈ segment
      · obtain ⟨key, val, rfl, hkey, hpair⟩ := exists_cut hequals
        rw [parsedPairs_cut hkey, ih hsegments, List.filterMap_cons_some (hpair trim),
          List.nil_append]
      · have hnone : ∀ s ∈ segments, 61 ∉ s := fun s hs hmem => hequals (hsegment s hs hmem)
        rw [parsedPairs_none hequals, parsedPairs_of_none _ hnone,
          List.filterMap_cons_none (segmentPair_none hequals), filterMap_of_none hnone]

/-- With a separator in front, the next key has one. -/
theorem exists_joined_of_before (S : Separates flag trim) {segments : List Bytes}
    (h : ∃ s ∈ segments, 61 ∈ s) {before : Bytes} (hbefore : flag ∈ before) :
    ∃ p ∈ parsedPairs flag trim before segments, flag ∈ p.1 := by
  induction segments generalizing before with
  | nil =>
      obtain ⟨s, hs, -⟩ := h
      cases hs
  | cons segment segments ih =>
      by_cases hequals : 61 ∈ segment
      · obtain ⟨key, val, rfl, hkey, -⟩ := exists_cut hequals
        rw [parsedPairs_cut hkey]
        exact ⟨_, List.mem_cons_self, (S.kept _).mpr (List.mem_append_left _ hbefore)⟩
      · rw [parsedPairs_none hequals]
        obtain ⟨s, hs, hmem⟩ := h
        refine ih ⟨s, ?_, hmem⟩ (List.mem_append_right _ (List.mem_singleton_self flag))
        rcases List.mem_cons.mp hs with rfl | hs
        · exact absurd hmem hequals
        · exact hs

/-- A segment without a `=` in front of one with a `=` gets into its key. -/
theorem exists_joined (S : Separates flag trim) {segments : List Bytes}
    (h : ¬ segments.Pairwise fun a b => 61 ∈ b → 61 ∈ a) :
    ∃ p ∈ parsedPairs flag trim [] segments, flag ∈ p.1 := by
  induction segments with
  | nil => exact absurd List.Pairwise.nil h
  | cons segment segments ih =>
      by_cases hequals : 61 ∈ segment
      · have hrest : ¬ segments.Pairwise fun a b => 61 ∈ b → 61 ∈ a := fun hall =>
          h (List.pairwise_cons.mpr ⟨fun _ _ _ => hequals, hall⟩)
        obtain ⟨p, hp, hmem⟩ := ih hrest
        obtain ⟨key, val, rfl, hkey, -⟩ := exists_cut hequals
        rw [parsedPairs_cut hkey]
        exact ⟨p, List.mem_cons_of_mem _ hp, hmem⟩
      · rw [parsedPairs_none hequals]
        have hbefore : flag ∈ [] ++ segment ++ [flag] :=
          List.mem_append_right _ (List.mem_singleton_self flag)
        by_cases hlater : ∃ s ∈ segments, 61 ∈ s
        · exact exists_joined_of_before S hlater hbefore
        · have hnone : ∀ s ∈ segments, 61 ∉ s := fun s hs hmem => hlater ⟨s, hs, hmem⟩
          refine absurd (List.pairwise_cons.mpr ⟨?_, ?_⟩) h
          · exact fun s hs hmem => absurd hmem (hnone s hs)
          · exact List.pairwise_of_forall_mem_list fun a _ b hb hmem => absurd hmem (hnone b hb)

theorem not_mem_key (S : Separates flag trim) {str : Bytes} {p : Bytes × Bytes}
    (h : p ∈ grammarPairs flag trim str) : flag ∉ p.1 := by
  obtain ⟨segment, hsegment, hpair⟩ := List.mem_filterMap.mp h
  by_cases hequals : 61 ∈ segment
  · obtain ⟨key, val, rfl, -, heq⟩ := exists_cut hequals
    rw [heq trim] at hpair
    cases hpair
    exact fun hmem => Delimited.not_mem_of_mem_splitOn hsegment
      (List.mem_append_left _ ((S.kept key).mp hmem))
  · rw [segmentPair_none hequals] at hpair
    cases hpair

end

/-! ## The positions of the source -/

/-- `std::string::npos` -/
def npos : Nat := 2 ^ 64 - 1

/-- `str.find(c, pos)` -/
def findFrom (str : Bytes) (c : UInt8) (pos : Nat) : Nat :=
  if (str.drop pos).contains c then pos + (str.drop pos).idxOf c else npos

/-- `str.substr(pos, n)`, which throws for a position behind the end. -/
def substr (str : Bytes) (pos n : Nat) : Option Bytes :=
  if str.length < pos then none else some ((str.drop pos).take n)

/-- The loop of `PARSE_PARAM` as it is written, with `last` where a round starts.  A `find` that
finds nothing gives a length that wraps around. -/
def PARSE_PARAM_from (flag : UInt8) (trim : Bytes → Bytes) (str : Bytes) :
    Nat → Nat → CaseMap → Option CaseMap
  | 0, _, _ => none
  | n + 1, last, m =>
      let key := findFrom str 61 last
      if key = npos then some m
      else
        let pos := findFrom str flag key
        let len := (pos + 2 ^ 64 - key - 1) % 2 ^ 64
        match substr str last (key - last), substr str (key + 1) len with
        | some k, some v =>
            let m := m.insert (trim k) (UrlDecode v true)
            if pos = npos then some m else PARSE_PARAM_from flag trim str n (pos + 1) m
        | _, _ => none

theorem findFrom_of_not_mem {str : Bytes} {c : UInt8} {pos : Nat} (h : c ∉ str.drop pos) :
    findFrom str c pos = npos := if_neg fun hmem => h (List.contains_iff_mem.mp hmem)

theorem findFrom_of_drop {str a b : Bytes} {c : UInt8} {pos : Nat} (h : str.drop pos = a ++ c :: b)
    (hc : c ∉ a) : findFrom str c pos = pos + a.length := by
  have hmem : c ∈ a ++ c :: b := List.mem_append_right _ List.mem_cons_self
  rw [findFrom, h, if_pos (List.contains_iff_mem.mpr hmem),
    List.idxOf_append_of_notMem hc, List.idxOf_cons_self, Nat.add_zero]

/-- Where a part of the text starts, the part behind it starts by its length later. -/
theorem drop_add_of_drop {str a b : Bytes} {pos : Nat} (h : str.drop pos = a ++ b) :
    str.drop (pos + a.length) = b := by
  rw [← List.drop_drop, h, List.drop_left]

theorem add_length_le {str a b : Bytes} {pos : Nat} (h : str.drop pos = a ++ b)
    (hpos : pos ≤ str.length) : pos + a.length + b.length = str.length := by
  have hlen := congrArg List.length h
  rw [List.length_drop, List.length_append] at hlen
  omega

theorem substr_of_drop {str a b : Bytes} {pos : Nat} (h : str.drop pos = a ++ b)
    (hpos : pos ≤ str.length) : substr str pos a.length = some a := by
  rw [substr, if_neg (Nat.not_lt.mpr hpos), h, List.take_left]

/-- A length that wrapped around takes what is left of a text that fits into memory. -/
theorem substr_to_end {str : Bytes} {pos n : Nat} (hpos : pos ≤ str.length)
    (hn : str.length ≤ pos + n) : substr str pos n = some (str.drop pos) := by
  rw [substr, if_neg (Nat.not_lt.mpr hpos), List.take_of_length_le]
  rw [List.length_drop]
  omega

/-- Over positions the same is parsed, and `substr` does not throw. -/
theorem PARSE_PARAM_from_eq {flag : UInt8} (hflag : flag ≠ 61) (trim : Bytes → Bytes) {str : Bytes}
    (hstr : str.length < npos) : ∀ (n last : Nat) (m : CaseMap), last ≤ str.length →
      str.length - last < n → PARSE_PARAM_from flag trim str n last m =
        some (PARSE_PARAM flag trim n (str.drop last) m) := by
  have hnpos : npos = 2 ^ 64 - 1 := rfl
  intro n
  induction n with
  | zero => exact fun _ _ _ hlen => absurd hlen (Nat.not_lt_zero _)
  | succ n ih =>
      intro last m hlast hlen
      rw [PARSE_PARAM_from, PARSE_PARAM]
      by_cases hequals : 61 ∈ str.drop last
      · obtain ⟨key, rest, hdrop, hkey, -⟩ := exists_cut hequals
        have hat := findFrom_of_drop hdrop hkey
        have hlength := add_length_le hdrop hlast
        have hbehind := drop_add_of_drop hdrop
        have hvalue : str.drop (last + key.length + 1) = rest :=
          drop_add_of_drop (a := [61]) hbehind
        rw [List.length_cons] at hlength
        have hsub : substr str last (last + key.length - last) = some key := by
          rw [Nat.add_sub_cancel_left]
          exact substr_of_drop hdrop hlast
        rw [hat, hdrop, Delimited.cut_cons rest hkey]
        dsimp only
        rw [if_neg (by omega), hsub]
        by_cases hsep : flag ∈ rest
        · obtain ⟨val, tail, rfl, hval⟩ := List.eq_append_cons_of_mem hsep
          have hclear : flag ∉ 61 :: val := fun h =>
            (List.mem_cons.mp h).elim hflag hval
          have hpos : findFrom str flag (last + key.length) =
              last + key.length + (val.length + 1) :=
            findFrom_of_drop (a := 61 :: val) hbehind hclear
          have hrest := add_length_le (a := val) hvalue (by omega)
          have hnext : str.drop (last + key.length + (val.length + 1) + 1) = tail := by
            have h := drop_add_of_drop (a := 61 :: val ++ [flag]) (b := tail)
              (hbehind.trans (by rw [List.append_assoc]; rfl))
            rw [List.length_append] at h
            exact h
          have hwrap : (last + key.length + (val.length + 1) + 2 ^ 64 - (last + key.length) - 1) %
              2 ^ 64 = val.length := by
            rw [List.length_cons] at hrest
            omega
          rw [hpos, hwrap, substr_of_drop (a := val) hvalue (by omega),
            Delimited.cut_cons tail hval]
          dsimp only
          rw [List.length_cons] at hrest
          rw [if_neg (by omega), ih _ _ (by omega) (by omega), hnext]
        · have hclear : flag ∉ str.drop (last + key.length) := by
            rw [hbehind]
            exact fun h => (List.mem_cons.mp h).elim hflag hsep
          have hwrap : (npos + 2 ^ 64 - (last + key.length) - 1) % 2 ^ 64 =
              npos - (last + key.length) - 1 := by omega
          rw [findFrom_of_not_mem hclear, hwrap, substr_to_end (by omega) (by omega), hvalue,
            Delimited.cut_singleton_eq_none_iff.mpr hsep]
          dsimp only
          rw [if_pos rfl]
      · rw [findFrom_of_not_mem hequals, if_pos rfl,
          Delimited.cut_singleton_eq_none_iff.mpr hequals]

/-! ## The maps -/

/-- The same entries, whatever their order. -/
def SameMap (a b : CaseMap) : Prop := ∀ e, e ∈ a.entries ↔ e ∈ b.entries

/-- A text is added to a map by the grammar, of pairs with one key the first. -/
def ParsedByGrammar (flag : UInt8) (trim : Bytes → Bytes) (str : Bytes) (m : CaseMap) : Prop :=
  SameMap (PARSE_PARAM flag trim (str.length + 1) str m) (m.insertAll (grammarPairs flag trim str))

theorem parsedByGrammar_of_pairsFirst {flag : UInt8} {trim : Bytes → Bytes}
    (S : Separates flag trim) {str : Bytes} (h : PairsFirst flag str) (m : CaseMap) :
    ParsedByGrammar flag trim str m := by
  intro e
  rw [PARSE_PARAM_eq S.ne_equals, parsedPairs_of_pairsFirst h]
  rfl

/-- In a map whose keys have no separator, a key with one was parsed. -/
theorem parsedByGrammar_iff {flag : UInt8} {trim : Bytes → Bytes} (S : Separates flag trim)
    {str : Bytes} {m : CaseMap} (hm : ∀ e ∈ m.entries, flag ∉ e.1) :
    ParsedByGrammar flag trim str m ↔ PairsFirst flag str := by
  refine ⟨fun hsame => ?_, fun h => parsedByGrammar_of_pairsFirst S h m⟩
  by_contra hnot
  obtain ⟨p, hp, hmem⟩ := exists_joined S hnot
  have hfound : (PARSE_PARAM flag trim (str.length + 1) str m).find p.1 ≠ none := by
    rw [PARSE_PARAM_eq S.ne_equals, KeyedMap.find_insertAll]
    intro hnone
    exact KeyedMap.first_eq_none_iff.mp (Option.or_eq_none_iff.mp hnone).2 p hp rfl
  obtain ⟨v, hv⟩ := Option.ne_none_iff_exists'.mp hfound
  obtain ⟨e, he, hfold, -⟩ := KeyedMap.exists_of_first hv
  have hkey : flag ∈ e.1 := by
    rw [← mem_foldCase S.fold, hfold, mem_foldCase S.fold]
    exact hmem
  rcases KeyedMap.mem_insertAll ((hsame e).mp he) with hold | hnew
  · exact hm e hold hkey
  · exact not_mem_key S hnew hkey

/-! ## Requests -/

/-- An `HttpRequest` with its parameters and cookies. -/
structure CookieRequest (μ : Type) extends FormRequest μ where
  m_cookies : CaseMap

variable {μ : Type} (M : Ops Bytes Bytes μ)

/-- `Sylar::StringUtil::Trim` with its default. -/
def trimBlanks (str : Bytes) : Bytes := StringUtil.Trim str StringUtil.blanks

namespace CookieRequest

/-- The query is read into the parameters. -/
def initQueryParam (req : CookieRequest μ) : CookieRequest μ :=
  { req with toFormRequest := req.toFormRequest.initQueryParam }

/-- The body is read into the parameters. -/
def initBodyParam (req : CookieRequest μ) : CookieRequest μ :=
  { req with toFormRequest := req.toFormRequest.initBodyParam M }

/-- The `cookie` header. -/
def cookie (req : CookieRequest μ) : Bytes := req.getHeader M (bytes "cookie") []

/-- The cookies are read once, from the header. -/
def initCookies (req : CookieRequest μ) : CookieRequest μ :=
  if req.m_parserParamFlag &&& 4 ≠ 0 then req
  else if (req.cookie M).isEmpty then { req with m_parserParamFlag := req.m_parserParamFlag ||| 4 }
  else
    { req with
      m_cookies := PARSE_PARAM 59 trimBlanks ((req.cookie M).length + 1) (req.cookie M)
        req.m_cookies
      m_parserParamFlag := req.m_parserParamFlag ||| 4 }

/-- Everything is read. -/
def initParam (req : CookieRequest μ) : CookieRequest μ :=
  (req.initQueryParam.initBodyParam M).initCookies M

end CookieRequest

/-- What has not been parsed yet is added to the maps by the grammar, and what has been parsed is
not parsed again. -/
structure FollowsGrammar (req : CookieRequest μ) : Prop where
  query : req.m_parserParamFlag &&& 1 = 0 →
    SameMap req.initQueryParam.m_params (req.m_params.insertAll (grammarPairs 38 id req.m_query))
  body : req.m_parserParamFlag &&& 2 = 0 →
    SameMap (req.initBodyParam M).m_params
      (req.m_params.insertAll (if req.isForm M then grammarPairs 38 id req.m_body else []))
  cookies : req.m_parserParamFlag &&& 4 = 0 →
    SameMap (req.initCookies M).m_cookies
      (req.m_cookies.insertAll (grammarPairs 59 trimBlanks (req.cookie M)))
  query_twice : req.initQueryParam.initQueryParam = req.initQueryParam
  body_twice : (req.initBodyParam M).initBodyParam M = req.initBodyParam M
  cookies_twice : (req.initCookies M).initCookies M = req.initCookies M
  all_twice : (req.initParam M).initParam M = req.initParam M

/-- In what has not been parsed yet, the segments without a `=` are behind the others. -/
structure Unmixed (req : CookieRequest μ) : Prop where
  query : req.m_parserParamFlag &&& 1 = 0 → PairsFirst 38 req.m_query
  body : req.m_parserParamFlag &&& 2 = 0 → req.isForm M = true → PairsFirst 38 req.m_body
  cookies : req.m_parserParamFlag &&& 4 = 0 → PairsFirst 59 (req.cookie M)

theorem separates_ampersand : Separates 38 id where
  ne_equals := by decide
  kept _ := Iff.rfl
  fold := Words.forall_uint8 (by decide +kernel)

theorem separates_semicolon : Separates 59 trimBlanks where
  ne_equals := by decide
  kept _ := StringUtil.mem_Trim_iff (by decide)
  fold := Words.forall_uint8 (by decide +kernel)

/-! ## Parsing twice -/

/-- A flag that is set stays set. -/
theorem flags_or (flag : UInt8) :
    (flag ||| 1) &&& 1 ≠ 0 ∧ (flag ||| 2) &&& 2 ≠ 0 ∧ (flag ||| 4) &&& 4 ≠ 0 ∧
      (flag &&& 1 ≠ 0 → flag ||| 1 = flag) ∧ (flag &&& 2 ≠ 0 → flag ||| 2 = flag) ∧
      (flag &&& 4 ≠ 0 → flag ||| 4 = flag) ∧
      (flag ||| 1 ||| 2 ||| 4) &&& 1 ≠ 0 ∧ (flag ||| 1 ||| 2 ||| 4) &&& 2 ≠ 0 := by
  revert flag
  exact Words.forall_uint8 (by decide +kernel)

namespace CookieRequest

variable {M}

theorem initQueryParam_flag (req : CookieRequest μ) :
    req.initQueryParam.m_parserParamFlag = req.m_parserParamFlag ||| 1 := by
  rw [initQueryParam, FormRequest.initQueryParam]
  split
  next h => exact ((flags_or _).2.2.2.1 h).symm
  next => rfl

theorem initBodyParam_flag (req : CookieRequest μ) :
    (req.initBodyParam M).m_parserParamFlag = req.m_parserParamFlag ||| 2 := by
  rw [initBodyParam, FormRequest.initBodyParam]
  split
  next h => exact ((flags_or _).2.2.2.2.1 h).symm
  next =>
    split
    next => rfl
    next => rfl

theorem initCookies_flag (req : CookieRequest μ) :
    (req.initCookies M).m_parserParamFlag = req.m_parserParamFlag ||| 4 := by
  rw [initCookies]
  split
  next h => exact ((flags_or _).2.2.2.2.2.1 h).symm
  next =>
    split
    next => rfl
    next => rfl

theorem initQueryParam_parsed {req : CookieRequest μ} (h : req.m_parserParamFlag &&& 1 ≠ 0) :
    req.initQueryParam = req := by
  rw [initQueryParam, FormRequest.initQueryParam, if_pos h]

theorem initBodyParam_parsed {req : CookieRequest μ} (h : req.m_parserParamFlag &&& 2 ≠ 0) :
    req.initBodyParam M = req := by
  rw [initBodyParam, FormRequest.initBodyParam, if_pos h]

theorem initCookies_parsed {req : CookieRequest μ} (h : req.m_parserParamFlag &&& 4 ≠ 0) :
    req.initCookies M = req := by
  rw [initCookies, if_pos h]

theorem initParam_twice (req : CookieRequest μ) :
    (req.initParam M).initParam M = req.initParam M := by
  have hflag : (req.initParam M).m_parserParamFlag = req.m_parserParamFlag ||| 1 ||| 2 ||| 4 := by
    rw [initParam, initCookies_flag, initBodyParam_flag, initQueryParam_flag]
  obtain ⟨-, -, hcookies, -, -, -, hquery, hbody⟩ := flags_or req.m_parserParamFlag
  have hcookies' := (flags_or (req.m_parserParamFlag ||| 1 ||| 2)).2.2.1
  rw [← hflag] at hquery hbody hcookies'
  calc (req.initParam M).initParam M =
        ((req.initParam M).initQueryParam.initBodyParam M).initCookies M := rfl
    _ = req.initParam M := by
        rw [initQueryParam_parsed hquery, initBodyParam_parsed hbody, initCookies_parsed hcookies']

/-! ## Parsing once -/

theorem initQueryParam_params {req : CookieRequest μ} (h : req.m_parserParamFlag &&& 1 = 0) :
    req.initQueryParam.m_params =
      PARSE_PARAM 38 id (req.m_query.length + 1) req.m_query req.m_params := by
  rw [initQueryParam, FormRequest.initQueryParam_unparsed h]

theorem initBodyParam_params {req : CookieRequest μ} (h : req.m_parserParamFlag &&& 2 = 0) :
    (req.initBodyParam M).m_params = if req.isForm M = true then
      PARSE_PARAM 38 id (req.m_body.length + 1) req.m_body req.m_params else req.m_params := by
  rw [initBodyParam, FormRequest.initBodyParam_unparsed h]

/-- Of a request without the header no cookie is parsed. -/
theorem initCookies_cookies {req : CookieRequest μ} (h : req.m_parserParamFlag &&& 4 = 0) :
    (req.initCookies M).m_cookies =
      PARSE_PARAM 59 trimBlanks ((req.cookie M).length + 1) (req.cookie M) req.m_cookies := by
  rw [initCookies, if_neg (not_not_intro h)]
  split
  next hempty => rw [List.isEmpty_iff.mp hempty, PARSE_PARAM_none 59 trimBlanks List.not_mem_nil]
  next => rfl

end CookieRequest

/-! ## Following the grammar -/

theorem followsGrammar_of_unmixed {M : Ops Bytes Bytes μ} {req : CookieRequest μ}
    (h : Unmixed M req) : FollowsGrammar M req where
  query hflag := by
    rw [CookieRequest.initQueryParam_params hflag]
    exact parsedByGrammar_of_pairsFirst separates_ampersand (h.query hflag) _
  body hflag := by
    rw [CookieRequest.initBodyParam_params hflag]
    split
    next hform =>
      exact parsedByGrammar_of_pairsFirst separates_ampersand (h.body hflag hform) _
    next => exact fun _ => Iff.rfl
  cookies hflag := by
    rw [CookieRequest.initCookies_cookies hflag]
    exact parsedByGrammar_of_pairsFirst separates_semicolon (h.cookies hflag) _
  query_twice := CookieRequest.initQueryParam_parsed <| by
    rw [CookieRequest.initQueryParam_flag]
    exact (flags_or _).1
  body_twice := CookieRequest.initBodyParam_parsed <| by
    rw [CookieRequest.initBodyParam_flag]
    exact (flags_or _).2.1
  cookies_twice := CookieRequest.initCookies_parsed <| by
    rw [CookieRequest.initCookies_flag]
    exact (flags_or _).2.2.1
  all_twice := CookieRequest.initParam_twice req

theorem unmixed_of_followsGrammar {M : Ops Bytes Bytes μ} {req : CookieRequest μ}
    (hparams : ∀ e ∈ req.m_params.entries, 38 ∉ e.1)
    (hcookies : ∀ e ∈ req.m_cookies.entries, 59 ∉ e.1) (h : FollowsGrammar M req) :
    Unmixed M req where
  query hflag := by
    have hquery := h.query hflag
    rw [CookieRequest.initQueryParam_params hflag] at hquery
    exact (parsedByGrammar_iff separates_ampersand hparams).mp hquery
  body hflag hform := by
    have hbody := h.body hflag
    rw [CookieRequest.initBodyParam_params hflag, if_pos hform, if_pos hform] at hbody
    exact (parsedByGrammar_iff separates_ampersand hparams).mp hbody
  cookies hflag := by
    have hcookie := h.cookies hflag
    rw [CookieRequest.initCookies_cookies hflag] at hcookie
    exact (parsedByGrammar_iff separates_semicolon hcookies).mp hcookie

/-- A request with other maps to add to. -/
def CookieRequest.withMaps (req : CookieRequest μ) (params cookies : CaseMap) : CookieRequest μ :=
  { req with m_params := params, m_cookies := cookies }

/-- Parameters and cookies follow the grammar, whatever the maps hold before, exactly when the
segments without a `=` are behind the others.  The same goes for maps that hold no key with a
separator, such as the empty ones. -/
theorem followsGrammar_iff (req : CookieRequest μ) :
    ((∀ params cookies, FollowsGrammar M (req.withMaps params cookies)) ↔ Unmixed M req) ∧
      ∀ params cookies : CaseMap, (∀ e ∈ params.entries, 38 ∉ e.1) →
        (∀ e ∈ cookies.entries, 59 ∉ e.1) →
        (FollowsGrammar M (req.withMaps params cookies) ↔ Unmixed M req) := by
  have hto : ∀ params cookies : CaseMap, Unmixed M req → Unmixed M (req.withMaps params cookies) :=
    fun _ _ h => ⟨h.query, h.body, h.cookies⟩
  have hfrom : ∀ params cookies : CaseMap, (∀ e ∈ params.entries, 38 ∉ e.1) →
      (∀ e ∈ cookies.entries, 59 ∉ e.1) → FollowsGrammar M (req.withMaps params cookies) →
      Unmixed M req := by
    intro params cookies hparams hcookies h
    have hunmixed := unmixed_of_followsGrammar hparams hcookies h
    exact ⟨hunmixed.query, hunmixed.body, hunmixed.cookies⟩
  refine ⟨⟨fun h => ?_, fun h params cookies => followsGrammar_of_unmixed (hto params cookies h)⟩,
    fun params cookies hparams hcookies => ⟨hfrom params cookies hparams hcookies,
      fun h => followsGrammar_of_unmixed (hto params cookies h)⟩⟩
  exact hfrom KeyedMap.empty KeyedMap.empty (List.forall_mem_nil _) (List.forall_mem_nil _)
    (h KeyedMap.empty KeyedMap.empty)

/-- `a&b=1` has the one pair `b=1`; what is parsed is a value of `a&b`. -/
def strayQuery : CookieRequest (List (Bytes × Bytes)) :=
  { HttpRequest.new (OrderedMap.assoc Bytes Bytes CaseInsensitiveLess) 0x11 true with
    m_query := bytes "a&b=1", m_params := KeyedMap.empty, m_parserParamFlag := 0
    m_cookies := KeyedMap.empty }

theorem strayQuery_not_followsGrammar :
    ¬ FollowsGrammar (OrderedMap.assoc Bytes Bytes CaseInsensitiveLess) strayQuery := by
  intro h
  have hsame := h.query rfl (bytes "b", bytes "1")
  revert hsame
  decide

end Http

end Muqiu
