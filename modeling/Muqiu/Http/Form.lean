import Muqiu.Lib.Delimited
import Muqiu.Lib.KeyedMap
import Muqiu.Util.Url

/-!
# Form parameters

`initQueryParam` and `initBodyParam` split a query or a form body at `=` and `&`.  A value goes
through `UrlDecode`; a key does not.  So of a form that `UrlEncode` wrote, the values come back
whatever they hold, and a key comes back only if `UrlEncode` leaves every byte of it alone and
none is `=`, which `UrlEncode` leaves alone too.
-/

namespace Muqiu

open OrderedMap (Ops)
open StringUtil (CHAR_IS_UNRESERVED encodeChar UrlEncode UrlDecode)

namespace Http

/-- `m_params`, as a map that tells keys apart without their case. -/
abbrev CaseMap := KeyedMap foldCase Bytes

/-- An `HttpRequest` with its parameters. -/
structure FormRequest (μ : Type) extends HttpRequest μ where
  m_params : CaseMap
  m_parserParamFlag : UInt8

/-- `strcasestr(haystack, needle) != nullptr` -/
def strcasestr (haystack needle : Bytes) : Bool :=
  foldCase (c_str needle) <:+: foldCase (c_str haystack)

/-- `PARSE_PARAM(str, m, flag, trim)` from a position on, for no more than so many rounds.  The
search for `flag` starts at the `=`. -/
def PARSE_PARAM (flag : UInt8) (trim : Bytes → Bytes) : Nat → Bytes → CaseMap → CaseMap
  | 0, _, m => m
  | n + 1, str, m =>
      match Delimited.cut [61] str with
      | none => m
      | some (key, rest) =>
          match Delimited.cut [flag] rest with
          | none => m.insert (trim key) (UrlDecode rest true)
          | some (val, rest) =>
              PARSE_PARAM flag trim n rest (m.insert (trim key) (UrlDecode val true))

variable {μ : Type} (M : Ops Bytes Bytes μ)

namespace FormRequest

/-- The query is read once. -/
def initQueryParam (req : FormRequest μ) : FormRequest μ :=
  if req.m_parserParamFlag &&& 1 ≠ 0 then req
  else
    { req with
      m_params := PARSE_PARAM 38 id (req.m_query.length + 1) req.m_query req.m_params
      m_parserParamFlag := req.m_parserParamFlag ||| 1 }

/-- The content type is that of a form. -/
def isForm (req : FormRequest μ) : Bool :=
  strcasestr (req.getHeader M (bytes "content-type") [])
    (bytes "application/x-www-form-urlencoded")

/-- The body is read once, when it is a form. -/
def initBodyParam (req : FormRequest μ) : FormRequest μ :=
  if req.m_parserParamFlag &&& 2 ≠ 0 then req
  else if !req.isForm M then { req with m_parserParamFlag := req.m_parserParamFlag ||| 2 }
  else
    { req with
      m_params := PARSE_PARAM 38 id (req.m_body.length + 1) req.m_body req.m_params
      m_parserParamFlag := req.m_parserParamFlag ||| 2 }

/-- The value, and the request after the call. -/
def getParam (req : FormRequest μ) (key dflt : Bytes) : Bytes × FormRequest μ :=
  let req := req.initQueryParam.initBodyParam M
  match req.m_params.find key with
  | none => (dflt, req)
  | some val => (val, req)

end FormRequest

/-! ## Forms -/

/-- The pairs joined with `&`, each as `UrlEncode(k) + '=' + UrlEncode(v)`. -/
def form (pairs : List (Bytes × Bytes)) : Bytes :=
  [38].intercalate (pairs.map fun p => UrlEncode p.1 true ++ 61 :: UrlEncode p.2 true)

/-- A request that has parsed nothing yet and has the form as its query or as its body, the
other one having no parameter. -/
structure Carries (req : FormRequest μ) (pairs : List (Bytes × Bytes)) : Prop where
  unparsed : req.m_parserParamFlag &&& 3 = 0
  no_params : req.m_params = KeyedMap.empty
  written : req.m_query = form pairs ∧ (req.isForm M = true → 61 ∉ req.m_body) ∨
    61 ∉ req.m_query ∧ req.isForm M = true ∧ req.m_body = form pairs

/-- Every pair is returned, and no other key is there. -/
structure RoundTrips (req : FormRequest μ) (pairs : List (Bytes × Bytes)) : Prop where
  returned : ∀ p ∈ pairs, ∀ dflt, req.getParam M p.1 dflt = (p.2, req)
  no_other : ∀ e ∈ req.m_params.entries, ∃ p ∈ pairs, foldCase e.1 = foldCase p.1

/-- `UrlEncode` leaves the key alone, and it has no `=`. -/
def Plain (key : Bytes) : Prop := ∀ c ∈ key, CHAR_IS_UNRESERVED c = true ∧ c ≠ 61

instance (key : Bytes) : Decidable (Plain key) := List.decidableBAll _ key

/-! ## What is parsed of a form -/

/-- No byte is encoded as `&`, and only `=` as `=`. -/
theorem encodeChar_delimiters (c : UInt8) :
    38 ∉ encodeChar true c ∧ (c ≠ 61 → 61 ∉ encodeChar true c) := by
  revert c
  exact Words.forall_uint8 (by decide +kernel)

theorem ampersand_not_mem (s : Bytes) : 38 ∉ UrlEncode s true := by
  intro h
  obtain ⟨c, -, hc⟩ := List.mem_flatMap.mp h
  exact (encodeChar_delimiters c).1 hc

theorem equals_not_mem {s : Bytes} (hs : 61 ∉ s) : 61 ∉ UrlEncode s true := by
  intro h
  obtain ⟨c, hmem, hc⟩ := List.mem_flatMap.mp h
  exact (encodeChar_delimiters c).2 (fun heq => hs (heq ▸ hmem)) hc

/-- A pair as one text. -/
def pairText (p : Bytes × Bytes) : Bytes := p.1 ++ 61 :: p.2

/-- What is parsed of a pair: it is cut at its first `=`, and the part before that stays encoded. -/
def received (p : Bytes × Bytes) : Bytes × Bytes :=
  match Delimited.cut [61] (pairText p) with
  | none => p
  | some (key, val) => (UrlEncode key true, val)

/-- The `=` of a pair is the one byte that the coding writes as it is. -/
theorem UrlEncode_pairText (p : Bytes × Bytes) :
    UrlEncode p.1 true ++ 61 :: UrlEncode p.2 true = UrlEncode (pairText p) true := by
  rw [pairText, StringUtil.UrlEncode_append, StringUtil.UrlEncode_cons]
  rfl

theorem cut_pairText (p : Bytes × Bytes) : ∃ key val, pairText p = key ++ 61 :: val ∧ 61 ∉ key ∧
    received p = (UrlEncode key true, val) := by
  rw [received]
  cases hcut : Delimited.cut [61] (pairText p) with
  | none =>
      refine absurd ?_ (Delimited.cut_singleton_eq_none_iff.mp hcut)
      exact List.mem_append_right _ List.mem_cons_self
  | some c =>
      obtain ⟨heq, hclean⟩ := Delimited.cut_some (List.cons_ne_nil 61 []) hcut
      refine ⟨c.1, c.2, ?_, fun hmem => hclean ((List.singleton_infix_iff 61 c.1).mpr hmem), rfl⟩
      rw [heq, List.append_assoc]
      rfl

/-- What is written for a pair is cut where the pair is. -/
theorem UrlEncode_received (p : Bytes × Bytes) : 61 ∉ (received p).1 ∧
    UrlEncode (pairText p) true = (received p).1 ++ 61 :: UrlEncode (received p).2 true := by
  obtain ⟨key, val, htext, hkey, hreceived⟩ := cut_pairText p
  rw [htext, hreceived, StringUtil.UrlEncode_append, StringUtil.UrlEncode_cons]
  exact ⟨equals_not_mem hkey, rfl⟩

theorem form_singleton (p : Bytes × Bytes) : form [p] = UrlEncode (pairText p) true := by
  rw [← UrlEncode_pairText, form, List.map_singleton, List.intercalate_singleton]

theorem form_cons_cons (p q : Bytes × Bytes) (ps : List (Bytes × Bytes)) :
    form (p :: q :: ps) = UrlEncode (pairText p) true ++ 38 :: form (q :: ps) := by
  rw [← UrlEncode_pairText, form, List.map_cons, List.map_cons, List.intercalate_cons_cons,
    List.append_assoc]
  rfl

theorem decode_received (p : Bytes × Bytes) :
    UrlDecode (UrlEncode (received p).2 true) true = (received p).2 :=
  StringUtil.UrlDecode_UrlEncode true _

section

variable {flag : UInt8} {trim : Bytes → Bytes} {key val : Bytes}

/-- A round without a separator behind the value is the last one. -/
theorem PARSE_PARAM_last (hkey : 61 ∉ key) (hval : flag ∉ val) (n : Nat) (m : CaseMap) :
    PARSE_PARAM flag trim (n + 1) (key ++ 61 :: val) m =
      m.insert (trim key) (UrlDecode val true) := by
  rw [PARSE_PARAM, Delimited.cut_cons val hkey]
  simp only [Delimited.cut_singleton_eq_none_iff.mpr hval]

/-- With one, the next round starts behind it. -/
theorem PARSE_PARAM_next (hkey : 61 ∉ key) (hval : flag ∉ val) (rest : Bytes) (n : Nat)
    (m : CaseMap) : PARSE_PARAM flag trim (n + 1) (key ++ 61 :: (val ++ flag :: rest)) m =
      PARSE_PARAM flag trim n rest (m.insert (trim key) (UrlDecode val true)) := by
  rw [PARSE_PARAM, Delimited.cut_cons _ hkey]
  simp only [Delimited.cut_cons rest hval]

end

/-- A form is parsed pair by pair. -/
theorem PARSE_PARAM_form : ∀ (pairs : List (Bytes × Bytes)) (n : Nat) (m : CaseMap),
    (form pairs).length < n →
      PARSE_PARAM 38 id n (form pairs) m = m.insertAll (pairs.map received)
  | _, 0, _, hlen => by omega
  | [], n + 1, m, _ => rfl
  | [p], n + 1, m, _ => by
      obtain ⟨hkey, htext⟩ := UrlEncode_received p
      rw [form_singleton, htext, PARSE_PARAM_last hkey (ampersand_not_mem _), decode_received]
      rfl
  | p :: q :: ps, n + 1, m, hlen => by
      obtain ⟨hkey, htext⟩ := UrlEncode_received p
      rw [form_cons_cons, htext, List.append_assoc, List.cons_append] at hlen ⊢
      rw [List.length_append, List.length_cons, List.length_append, List.length_cons] at hlen
      rw [PARSE_PARAM_next hkey (ampersand_not_mem _), decode_received,
        PARSE_PARAM_form (q :: ps) n _ (by omega)]
      rfl

theorem PARSE_PARAM_none (flag : UInt8) (trim : Bytes → Bytes) {str : Bytes} (h : 61 ∉ str)
    (n : Nat) (m : CaseMap) : PARSE_PARAM flag trim n str m = m := by
  cases n with
  | zero => rfl
  | succ n => rw [PARSE_PARAM, Delimited.cut_singleton_eq_none_iff.mpr h]

/-! ## The keys that come back -/

/-- A plain key is encoded as itself. -/
theorem UrlEncode_plain : ∀ {key : Bytes}, Plain key → UrlEncode key true = key := by
  intro key
  induction key with
  | nil => exact fun _ => rfl
  | cons c key ih =>
      intro h
      obtain ⟨hc, hkey⟩ := List.forall_mem_cons.mp h
      rw [StringUtil.UrlEncode_cons, ih hkey, encodeChar, if_pos hc.1]
      rfl

theorem received_plain {p : Bytes × Bytes} (h : Plain p.1) : received p = p := by
  rw [received, pairText, Delimited.cut_cons p.2 fun hmem => (h 61 hmem).2 rfl]
  exact congrArg (·, p.2) (UrlEncode_plain h)

theorem length_encodeChar_eq {c : UInt8} (hc : CHAR_IS_UNRESERVED c = false) (hspace : c ≠ 32) :
    (encodeChar true c).length = 3 := by
  rcases StringUtil.encodeChar_cases true c with ⟨hc', -⟩ | ⟨-, hspace', -⟩ | ⟨-, heq⟩
  · rw [hc] at hc'
    cases hc'
  · exact absurd hspace' hspace
  · rw [heq]
    rfl

/-- A key of other bytes is encoded as a longer text. -/
theorem length_lt_UrlEncode {key : Bytes} (hequals : 61 ∉ key) (hspace : 32 ∉ key)
    (h : ¬ Plain key) : key.length < (UrlEncode key true).length := by
  obtain ⟨c, hmem, hc⟩ : ∃ c ∈ key, CHAR_IS_UNRESERVED c = false := by
    rw [Plain] at h
    push Not at h
    obtain ⟨c, hmem, hc⟩ := h
    refine ⟨c, hmem, Bool.eq_false_iff.mpr fun hres => hequals ?_⟩
    exact hc hres ▸ hmem
  obtain ⟨a, b, rfl⟩ := List.append_of_mem hmem
  have hthree := length_encodeChar_eq hc fun heq => hspace (heq ▸ hmem)
  have ha := StringUtil.length_le_UrlEncode a true
  have hb := StringUtil.length_le_UrlEncode b true
  rw [StringUtil.UrlEncode_append, StringUtil.UrlEncode_cons]
  simp only [List.length_append, List.length_cons, hthree]
  omega

/-- Case does not matter to what is a delimiter, a space or left alone. -/
theorem tolower_class (c : UInt8) : (tolower c = 61 ↔ c = 61) ∧ (tolower c = 32 ↔ c = 32) ∧
    CHAR_IS_UNRESERVED (tolower c) = CHAR_IS_UNRESERVED c := by
  revert c
  exact Words.forall_uint8 (by decide +kernel)

theorem mem_foldCase {d : UInt8} (h : ∀ c, tolower c = d ↔ c = d) {s : Bytes} :
    d ∈ foldCase s ↔ d ∈ s := by
  rw [foldCase, List.mem_map]
  constructor
  · rintro ⟨c, hmem, hc⟩
    exact (h c).mp hc ▸ hmem
  · exact fun hmem => ⟨d, hmem, (h d).mpr rfl⟩

theorem equals_mem_foldCase {s : Bytes} : 61 ∈ foldCase s ↔ 61 ∈ s :=
  mem_foldCase fun c => (tolower_class c).1

theorem space_mem_foldCase {s : Bytes} : 32 ∈ foldCase s ↔ 32 ∈ s :=
  mem_foldCase fun c => (tolower_class c).2.1

theorem plain_foldCase {s : Bytes} : Plain (foldCase s) ↔ Plain s := by
  rw [Plain, foldCase, List.forall_mem_map]
  refine forall₂_congr fun c _ => ?_
  rw [(tolower_class c).2.2, ne_eq, (tolower_class c).1]

theorem space_not_mem (s : Bytes) : 32 ∉ UrlEncode s true := by
  intro h
  obtain ⟨c, -, hc⟩ := List.mem_flatMap.mp h
  revert c
  exact Words.forall_uint8 (by decide +kernel)

/-- What is parsed as a key has no delimiter and no space. -/
theorem received_key (p : Bytes × Bytes) : 61 ∉ (received p).1 ∧ 32 ∉ (received p).1 ∧
    (61 ∉ p.1 → (received p).1 = UrlEncode p.1 true) := by
  obtain ⟨key, val, htext, hkey, hreceived⟩ := cut_pairText p
  rw [hreceived]
  refine ⟨equals_not_mem hkey, space_not_mem key, fun hp => ?_⟩
  have hcut := Delimited.cut_cons p.2 hp
  rw [← pairText, htext, Delimited.cut_cons val hkey] at hcut
  cases hcut
  rfl

/-- The shortest key that is not plain would have to be the encoding of a shorter one. -/
theorem plain_of_found {pairs : List (Bytes × Bytes)}
    (h : ∀ p ∈ pairs, ∃ q ∈ pairs, foldCase (received q).1 = foldCase p.1) :
    ∀ (n : Nat), ∀ p ∈ pairs, p.1.length ≤ n → Plain p.1 := by
  have hclean : ∀ p ∈ pairs, 61 ∉ p.1 ∧ 32 ∉ p.1 := by
    intro p hp
    obtain ⟨q, -, hq⟩ := h p hp
    obtain ⟨hequals, hspace, -⟩ := received_key q
    rw [← equals_mem_foldCase, ← space_mem_foldCase, ← hq, equals_mem_foldCase,
      space_mem_foldCase]
    exact ⟨hequals, hspace⟩
  intro n
  induction n with
  | zero =>
      intro p _ hlen
      rw [List.eq_nil_of_length_eq_zero (Nat.le_zero.mp hlen)]
      exact fun c hc => by cases hc
  | succ n ih =>
      intro p hp hlen
      obtain ⟨q, hqmem, hq⟩ := h p hp
      obtain ⟨hequals, hspace⟩ := hclean q hqmem
      rw [(received_key q).2.2 hequals] at hq
      have hlength := congrArg List.length hq
      rw [foldCase, foldCase, List.length_map, List.length_map] at hlength
      by_cases hplain : Plain q.1
      · rw [UrlEncode_plain hplain] at hq
        exact plain_foldCase.mp (hq ▸ plain_foldCase.mpr hplain)
      · have hlonger := length_lt_UrlEncode hequals hspace hplain
        exact absurd (ih q hqmem (by omega)) hplain

/-! ## The request after the parse -/

/-- The flags of the query and the body do not touch each other. -/
theorem flags_spec (flag : UInt8) (h : flag &&& 3 = 0) :
    flag &&& 1 = 0 ∧ (flag ||| 1) &&& 2 = 0 ∧
      (flag ||| 1 ||| 2) &&& 1 ≠ 0 ∧ (flag ||| 1 ||| 2) &&& 2 ≠ 0 := by
  revert flag
  exact Words.forall_uint8 (by decide +kernel)

variable {M}

namespace FormRequest

theorem initQueryParam_unparsed {req : FormRequest μ} (h : req.m_parserParamFlag &&& 1 = 0) :
    req.initQueryParam = { req with
      m_params := PARSE_PARAM 38 id (req.m_query.length + 1) req.m_query req.m_params
      m_parserParamFlag := req.m_parserParamFlag ||| 1 } := by
  rw [initQueryParam, if_neg (not_not_intro h)]

/-- Of a body that is no form nothing is parsed. -/
theorem initBodyParam_unparsed {req : FormRequest μ} (h : req.m_parserParamFlag &&& 2 = 0) :
    req.initBodyParam M = { req with
      m_params := if req.isForm M = true then
        PARSE_PARAM 38 id (req.m_body.length + 1) req.m_body req.m_params else req.m_params
      m_parserParamFlag := req.m_parserParamFlag ||| 2 } := by
  rw [initBodyParam, if_neg (not_not_intro h)]
  cases req.isForm M with
  | false => rfl
  | true => rfl

/-- A parsed request is not parsed again. -/
theorem getParam_parsed {req : FormRequest μ} (hquery : req.m_parserParamFlag &&& 1 ≠ 0)
    (hbody : req.m_parserParamFlag &&& 2 ≠ 0) (key dflt : Bytes) :
    req.getParam M key dflt = ((req.m_params.find key).getD dflt, req) := by
  rw [getParam, initQueryParam, if_pos hquery, initBodyParam, if_pos hbody]
  cases req.m_params.find key with
  | none => rfl
  | some val => rfl

end FormRequest

/-- The parameters of a form are what is parsed of its pairs, and both flags are set. -/
theorem Carries.parsed {req : FormRequest μ} {pairs : List (Bytes × Bytes)}
    (h : Carries M req pairs) :
    (req.initQueryParam.initBodyParam M).m_params =
        (KeyedMap.empty : CaseMap).insertAll (pairs.map received) ∧
      (req.initQueryParam.initBodyParam M).m_parserParamFlag &&& 1 ≠ 0 ∧
      (req.initQueryParam.initBodyParam M).m_parserParamFlag &&& 2 ≠ 0 := by
  obtain ⟨hquery, hbody, hset⟩ := flags_spec _ h.unparsed
  rw [FormRequest.initQueryParam_unparsed hquery, FormRequest.initBodyParam_unparsed hbody]
  refine ⟨?_, hset⟩
  simp only [h.no_params]
  rcases h.written with ⟨hform, hbody⟩ | ⟨hnone, hisForm, hform⟩
  · rw [hform, PARSE_PARAM_form pairs _ _ (Nat.lt_succ_self _)]
    split
    next hisForm => exact PARSE_PARAM_none 38 id (hbody hisForm) _ _
    next => rfl
  · rw [PARSE_PARAM_none 38 id hnone, hform, PARSE_PARAM_form pairs _ _ (Nat.lt_succ_self _)]
    exact if_pos hisForm

/-- Every pair is returned when the first of what is parsed under its key is its value. -/
theorem Carries.returned_iff {req : FormRequest μ} {pairs : List (Bytes × Bytes)}
    (h : Carries M req pairs) (p : Bytes × Bytes) :
    (∀ dflt, (req.initQueryParam.initBodyParam M).getParam M p.1 dflt =
        (p.2, req.initQueryParam.initBodyParam M)) ↔
      KeyedMap.first foldCase p.1 (pairs.map received) = some p.2 := by
  obtain ⟨hparams, hquery, hbody⟩ := h.parsed
  have hfind : (req.initQueryParam.initBodyParam M).m_params.find p.1 =
      KeyedMap.first foldCase p.1 (pairs.map received) := by
    rw [hparams, KeyedMap.find_insertAll]
    rfl
  simp only [FormRequest.getParam_parsed hquery hbody, hfind, Prod.mk.injEq, and_true]
  cases KeyedMap.first foldCase p.1 (pairs.map received) with
  | some v => exact ⟨fun hv => congrArg some (hv []), fun hv _ => Option.some.inj hv⟩
  | none =>
      refine iff_of_false (fun hv => ?_) (by rintro ⟨⟩)
      exact List.cons_ne_self 0 p.2 (hv (0 :: p.2))

/-- A form comes back exactly when `UrlEncode` leaves every key alone and no key has a `=`. -/
theorem form_roundTrips_iff {req : FormRequest μ} {pairs : List (Bytes × Bytes)}
    (hcarries : Carries M req pairs)
    (hdistinct : pairs.Pairwise fun p q => foldCase p.1 ≠ foldCase q.1) :
    RoundTrips M (req.initQueryParam.initBodyParam M) pairs ↔ ∀ p ∈ pairs, Plain p.1 := by
  constructor
  · intro h
    refine fun p hp => plain_of_found ?_ p.1.length p hp (Nat.le_refl _)
    intro p hp
    have hfirst := (hcarries.returned_iff p).mp (h.returned p hp)
    obtain ⟨r, hr, hkey, -⟩ := KeyedMap.exists_of_first hfirst
    obtain ⟨q, hq, rfl⟩ := List.mem_map.mp hr
    exact ⟨q, hq, hkey⟩
  · intro h
    have hsame : pairs.map received = pairs :=
      (List.map_congr_left fun p hp => received_plain (h p hp)).trans (List.map_id pairs)
    refine ⟨fun p hp => (hcarries.returned_iff p).mpr ?_, fun e he => ?_⟩
    · rw [hsame]
      exact KeyedMap.first_of_mem hdistinct hp
    · rw [hcarries.parsed.1, hsame] at he
      rcases KeyedMap.mem_insertAll he with hnone | hmem
      · cases hnone
      · exact ⟨e, hmem, rfl⟩

/-! ## Two forms -/

/-- A request with the header of a form. -/
def formHeader : HttpRequest (List (Bytes × Bytes)) :=
  (HttpRequest.new (OrderedMap.assoc Bytes Bytes CaseInsensitiveLess) 0x11 true).setHeader
    (OrderedMap.assoc Bytes Bytes CaseInsensitiveLess) (bytes "content-type")
    (bytes "application/x-www-form-urlencoded")

/-- A request whose body is a form. -/
def postForm (pairs : List (Bytes × Bytes)) : FormRequest (List (Bytes × Bytes)) :=
  { formHeader with m_body := form pairs, m_params := KeyedMap.empty, m_parserParamFlag := 0 }

theorem isForm_formHeader : strcasestr
    (formHeader.getHeader (OrderedMap.assoc Bytes Bytes CaseInsensitiveLess)
      (bytes "content-type") [])
    (bytes "application/x-www-form-urlencoded") = true := by decide

theorem postForm_carries (pairs : List (Bytes × Bytes)) :
    Carries (OrderedMap.assoc Bytes Bytes CaseInsensitiveLess) (postForm pairs) pairs where
  unparsed := (by decide : (0 : UInt8) &&& 3 = 0)
  no_params := rfl
  written := Or.inr ⟨List.not_mem_nil, isForm_formHeader, rfl⟩

/-- Values may hold anything. -/
def plainKeys : List (Bytes × Bytes) :=
  [(bytes "name", bytes "A & B=c"), (bytes "rate", bytes "100%+")]

theorem plainKeys_roundTrip :
    RoundTrips (OrderedMap.assoc Bytes Bytes CaseInsensitiveLess)
      ((postForm plainKeys).initQueryParam.initBodyParam
        (OrderedMap.assoc Bytes Bytes CaseInsensitiveLess)) plainKeys :=
  (form_roundTrips_iff (postForm_carries plainKeys) (by decide)).mpr (by decide)

/-- A key with a space is kept as `first+name`, under which nobody looks. -/
def spacedKey : List (Bytes × Bytes) := [(bytes "first name", bytes "Ann")]

theorem spacedKey_lost :
    (∀ p ∈ spacedKey, p.1 ≠ []) ∧
      (spacedKey.Pairwise fun p q => foldCase p.1 ≠ foldCase q.1) ∧
      Carries (OrderedMap.assoc Bytes Bytes CaseInsensitiveLess) (postForm spacedKey) spacedKey ∧
      ¬ RoundTrips (OrderedMap.assoc Bytes Bytes CaseInsensitiveLess)
        ((postForm spacedKey).initQueryParam.initBodyParam
          (OrderedMap.assoc Bytes Bytes CaseInsensitiveLess)) spacedKey := by
  refine ⟨by decide, by decide, postForm_carries spacedKey, fun h => ?_⟩
  have hreturned := h.returned (bytes "first name", bytes "Ann") List.mem_cons_self []
  exact absurd (congrArg Prod.fst hreturned) (by decide)

end Http

end Muqiu
