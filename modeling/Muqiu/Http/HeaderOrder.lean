import Mathlib.Data.Set.Insert
import Muqiu.Http.Message

/-!
# The order of the header maps

`HeaderMapOn K` is what a header map is for, over the keys of `K`: the comparator is a strict
weak order that takes two keys for one when they are equal ignoring case, and any correct
ordered map then makes a finite map of the headers of a request and of a response.

`CaseInsensitiveLess` hands the result of `strcasecmp` on as a truth value, so of two
different keys each is below the other.  `headerMapOn_iff` says that the comparator serves
only keys that are all equal ignoring case.
-/

namespace Muqiu.Http

open OrderedMap (Ops Update StrictWeakOrderOn Correct Lawful Over lastSet)

/-! ## Keys ignoring case -/

theorem tolower_ne_zero {b : UInt8} (h : b ≠ 0) : tolower b ≠ 0 := by
  rw [tolower]
  by_cases hup : 65 ≤ b ∧ b ≤ 90
  · rw [if_pos hup]
    intro hzero
    obtain ⟨hlo, hhi⟩ := hup
    rw [UInt8.le_iff_toNat_le] at hlo hhi
    have hsum := congrArg UInt8.toNat hzero
    rw [UInt8.toNat_add] at hsum
    simp at hlo hhi hsum
    omega
  · rw [if_neg hup]; exact h

theorem c_str_ne_zero {s : Bytes} {b : UInt8} (h : b ∈ c_str s) : b ≠ 0 := by
  have hall := List.all_eq_true.mp (List.all_takeWhile ) b h
  simpa using hall

theorem strcasecmp_eq_zero :
    ∀ {a b : Bytes}, (∀ x ∈ a, x ≠ 0) → (∀ x ∈ b, x ≠ 0) →
      (strcasecmp a b = 0 ↔ a.map tolower = b.map tolower)
  | [], [], _, _ => by simp [strcasecmp]
  | [], y :: ys, _, hb => by
      have hy := tolower_ne_zero (hb y List.mem_cons_self)
      simp [strcasecmp, ← UInt8.toNat_inj] at hy ⊢
      exact hy
  | x :: xs, [], ha, _ => by
      have hx := tolower_ne_zero (ha x List.mem_cons_self)
      simp [strcasecmp, ← UInt8.toNat_inj] at hx ⊢
      exact hx
  | x :: xs, y :: ys, ha, hb => by
      have ih := strcasecmp_eq_zero (fun z hz => ha z (List.mem_cons_of_mem _ hz))
        (fun z hz => hb z (List.mem_cons_of_mem _ hz))
      by_cases hxy : tolower x = tolower y
      · simp [strcasecmp, hxy, ih]
      · have hne : (tolower x).toNat ≠ (tolower y).toNat := fun h => hxy (UInt8.toNat_inj.mp h)
        simp only [strcasecmp, List.map_cons, List.cons.injEq, hxy, false_and, iff_false]
        rw [if_neg not_false]
        omega

/-- Two keys are one when their lower case strings are. -/
theorem sameKey_iff {a b : Bytes} :
    sameKey a b = true ↔ (c_str a).map tolower = (c_str b).map tolower := by
  rw [sameKey, decide_eq_true_eq]
  exact strcasecmp_eq_zero (fun _ => c_str_ne_zero) (fun _ => c_str_ne_zero)

theorem sameKey_refl (a : Bytes) : sameKey a a = true := sameKey_iff.mpr rfl

/-- A key that is the same as another is so ignoring case in every comparison. -/
theorem sameKey_congr {a b : Bytes} (h : sameKey a b = true) (c : Bytes) :
    sameKey a c = sameKey b c := by
  have heq := sameKey_iff.mp h
  rw [Bool.eq_iff_iff, sameKey_iff, sameKey_iff, heq]

/-- The comparator tells whether two keys differ ignoring case. -/
theorem CaseInsensitiveLess_eq (a b : Bytes) : CaseInsensitiveLess a b = !sameKey a b := by
  rw [CaseInsensitiveLess, sameKey, decide_not]

/-! ## Header maps -/

/-- What a header map holds of a key after calls, in the order of the calls. -/
def heldAfter (us : List (Update Bytes Bytes)) (k : Bytes) : Option Bytes :=
  lastSet sameKey us.reverse k

/-- How often a key is among the entries. -/
def occurrences (k : Bytes) (entries : List (Bytes × Bytes)) : Nat :=
  entries.countP fun e => sameKey k e.1

/-- Over the keys of `K` the headers are a finite map that ignores case. -/
structure HeaderMapOn (K : Set Bytes) : Prop where
  order : StrictWeakOrderOn CaseInsensitiveLess K
  equiv : ∀ a ∈ K, ∀ b ∈ K, OrderedMap.equiv CaseInsensitiveLess a b = sameKey a b
  request : ∀ {μ : Type} (M : Ops Bytes Bytes μ), Correct M CaseInsensitiveLess →
    ∀ version close us, Over K us → ∀ k ∈ K,
      let req := us.foldl (HttpRequest.call M) (HttpRequest.new M version close)
      (∀ dflt, req.getHeader M k dflt = (heldAfter us k).getD dflt) ∧
      req.hasHeader M k = ((heldAfter us k).isSome, heldAfter us k) ∧
      occurrences k (M.toList req.m_headers) = (heldAfter us k).toList.length ∧
      (sameKey k (bytes "connection") = false →
        occurrences k (dumpHeaders M req.m_websocket req.m_headers) =
          (heldAfter us k).toList.length)
  response : ∀ {μ : Type} (M : Ops Bytes Bytes μ), Correct M CaseInsensitiveLess →
    ∀ version close us, Over K us → ∀ k ∈ K,
      let rsp := us.foldl (HttpResponse.call M) (HttpResponse.new M version close)
      (∀ dflt, rsp.getHeader M k dflt = (heldAfter us k).getD dflt) ∧
      occurrences k (M.toList rsp.m_headers) = (heldAfter us k).toList.length ∧
      (sameKey k (bytes "connection") = false →
        occurrences k (dumpHeaders M rsp.m_websocket rsp.m_headers) =
          (heldAfter us k).toList.length)

/-! ## Keys that are all equal -/

section

variable {K : Set Bytes} (hK : ∀ a ∈ K, ∀ b ∈ K, sameKey a b = true)
include hK

theorem less_eq_false {a b : Bytes} (ha : a ∈ K) (hb : b ∈ K) :
    CaseInsensitiveLess a b = false := by
  rw [CaseInsensitiveLess_eq, hK a ha b hb, Bool.not_true]

theorem order_of_same : StrictWeakOrderOn CaseInsensitiveLess K where
  irrefl a ha := less_eq_false hK ha ha
  asymm a ha b hb _ := less_eq_false hK hb ha
  trans a ha b hb c hc hab _ := by
    rw [less_eq_false hK ha hb] at hab
    exact absurd hab Bool.false_ne_true
  incomp_trans a ha b _ c hc _ _ _ _ := ⟨less_eq_false hK ha hc, less_eq_false hK hc ha⟩

theorem equiv_of_same {a b : Bytes} (ha : a ∈ K) (hb : b ∈ K) :
    OrderedMap.equiv CaseInsensitiveLess a b = sameKey a b := by
  rw [OrderedMap.equiv, less_eq_false hK ha hb, less_eq_false hK hb ha, hK a ha b hb]
  rfl

end

theorem over_reverse {K : Set Bytes} {us : List (Update Bytes Bytes)} (h : Over K us) :
    Over K us.reverse :=
  fun u hu => h u (List.mem_reverse.mp hu)

/-- The loop of `dump` leaves out `connection` only. -/
theorem occurrences_dumpHeaders {μ : Type} (M : Ops Bytes Bytes μ) (websocket : Bool) (headers : μ)
    {k : Bytes} (hk : sameKey k (bytes "connection") = false) :
    occurrences k (dumpHeaders M websocket headers) = occurrences k (M.toList headers) := by
  rw [occurrences, occurrences, dumpHeaders, List.countP_filter]
  refine List.countP_congr fun e _ => ?_
  rw [Bool.and_eq_true]
  constructor
  · exact And.left
  · intro hke
    rw [← sameKey_congr hke, hk]
    exact ⟨hke, by simp⟩

/-! ## Where the headers are a finite map -/

/-- A correct map over keys that are all equal holds what the calls leave. -/
theorem find_replay_of_same {K : Set Bytes} (hK : ∀ a ∈ K, ∀ b ∈ K, sameKey a b = true)
    {μ : Type} {M : Ops Bytes Bytes μ} (hM : Correct M CaseInsensitiveLess)
    {us : List (Update Bytes Bytes)} (hus : Over K us) {k : Bytes} (hk : k ∈ K) :
    M.find k (M.replay us.reverse) = heldAfter us k := by
  have hrev := over_reverse hus
  rw [(hM K (order_of_same hK)).find_replay hk hrev]
  exact OrderedMap.lastSet_congr (fun a ha b hb => equiv_of_same hK ha hb) hk hrev

/-- And it gives each of them once. -/
theorem occurrences_of_same {K : Set Bytes} (hK : ∀ a ∈ K, ∀ b ∈ K, sameKey a b = true)
    {μ : Type} {M : Ops Bytes Bytes μ} (hM : Correct M CaseInsensitiveLess)
    {us : List (Update Bytes Bytes)} (hus : Over K us) {k : Bytes} (hk : k ∈ K) :
    occurrences k (M.toList (M.replay us.reverse)) = (heldAfter us k).toList.length := by
  have hrev := over_reverse hus
  have hord := order_of_same hK
  have hcount := (hM K hord).countP_toList hord hrev hk
  rw [find_replay_of_same hK hM hus hk] at hcount
  have hsame : occurrences k (M.toList (M.replay us.reverse)) =
      (M.toList (M.replay us.reverse)).countP
        fun e => OrderedMap.equiv CaseInsensitiveLess k e.1 := by
    refine List.countP_congr fun e he => ?_
    rw [equiv_of_same hK hk ((hM K hord).keys _ hrev e he)]
  rw [hsame, hcount]
  cases heldAfter us k <;> rfl

/-- The headers are a finite map that ignores case exactly over keys that are all equal
ignoring case. -/
theorem headerMapOn_iff (K : Set Bytes) :
    HeaderMapOn K ↔ ∀ a ∈ K, ∀ b ∈ K, strcasecmp (c_str a) (c_str b) = 0 := by
  constructor
  · intro h a ha b hb
    by_contra hne
    have hab : CaseInsensitiveLess a b = true := decide_eq_true hne
    have hba := h.order.asymm a ha b hb hab
    rw [CaseInsensitiveLess_eq, Bool.not_eq_false'] at hba
    rw [CaseInsensitiveLess_eq, ← sameKey_congr hba b, sameKey_refl] at hab
    exact absurd hab Bool.false_ne_true
  · intro hK
    have hsame : ∀ a ∈ K, ∀ b ∈ K, sameKey a b = true :=
      fun a ha b hb => decide_eq_true (hK a ha b hb)
    refine ⟨order_of_same hsame, fun a ha b hb => equiv_of_same hsame ha hb, ?_, ?_⟩
    · intro μ M hM version close us hus k hk
      have hfind := find_replay_of_same hsame hM hus hk
      have hocc := occurrences_of_same hsame hM hus hk
      simp only [HttpRequest.getHeader, HttpRequest.hasHeader, HttpRequest.headers_calls, hfind]
      refine ⟨?_, ?_, hocc, fun hconn => ?_⟩
      · intro dflt
        cases heldAfter us k <;> rfl
      · cases heldAfter us k <;> rfl
      · rw [occurrences_dumpHeaders M _ _ hconn, hocc]
    · intro μ M hM version close us hus k hk
      have hfind := find_replay_of_same hsame hM hus hk
      have hocc := occurrences_of_same hsame hM hus hk
      simp only [HttpResponse.getHeader, HttpResponse.headers_calls, hfind]
      refine ⟨?_, hocc, fun hconn => ?_⟩
      · intro dflt
        cases heldAfter us k <;> rfl
      · rw [occurrences_dumpHeaders M _ _ hconn, hocc]

/-- There are correct maps with this comparator. -/
theorem exists_correct : ∃ (μ : Type) (M : Ops Bytes Bytes μ), Correct M CaseInsensitiveLess :=
  ⟨_, OrderedMap.assoc Bytes Bytes CaseInsensitiveLess, OrderedMap.assoc_correct _⟩

/-- Each of `Host` and `Accept` is below the other. -/
theorem not_headerMapOn_host_accept : ¬ HeaderMapOn {bytes "Host", bytes "Accept"} := by
  intro h
  have := h.order.asymm (bytes "Host") (by simp) (bytes "Accept") (by simp) (by decide)
  revert this
  decide

end Muqiu.Http
