import Muqiu.Lib.Fallible
import Muqiu.Net.Stream
import Muqiu.Http.ResponseParser

/-!
# What the response parser returns

`execute` subtracts the result of the parser from the length of the buffer without a look at it.
The loop stops behind the final newline of a header (`Scanned`), but the code behind the loop adds
one to `nread` there, as it does where a `body_start` was kept from an earlier header.  So the
byte behind every header is lost, or the length for `memmove` wraps around.
-/

namespace Muqiu

open Fallible (bind_ok_iff)
open StringUtil (isxdigit)
open Window (window overwrite)

namespace Http

variable {μ : Type}

/-! ## The end of a header -/

namespace ResponseMachine

/-- The length of the text up to its final newline, the byte on which `done` comes. -/
def headEnd (M : ResponseMachine) : Nat → Bytes → Option Nat
  | _, [] => none
  | cs, b :: bs =>
      match M.step cs b with
      | none => none
      | some (acts, cs') =>
          if .done ∈ acts then some 1 else (headEnd M cs' bs).map (· + 1)

theorem headEnd_cons {M : ResponseMachine} {cs cs' : Nat} {b : UInt8} {acts : List ResponseAction}
    (h : M.step cs b = some (acts, cs')) (bs : Bytes) :
    M.headEnd cs (b :: bs) =
      if .done ∈ acts then some 1 else (M.headEnd cs' bs).map (· + 1) := by
  rw [headEnd, h]

/-- What ends a header is a newline. -/
theorem headEnd_newline {M : ResponseMachine} : ∀ {text : Bytes} {cs n : Nat},
    M.headEnd cs text = some n → ∃ a b, text = a ++ 10 :: b ∧ n = a.length + 1 := by
  intro text
  induction text with
  | nil => rintro cs n ⟨⟩
  | cons b text ih =>
      intro cs n h
      cases hstep : M.step cs b with
      | none =>
          rw [headEnd, hstep] at h
          cases h
      | some next =>
          obtain ⟨acts, cs'⟩ := next
          rw [headEnd_cons hstep] at h
          split at h
          next hdone =>
            cases h
            exact ⟨[], text, congrArg (· :: text) (M.done_newline hstep hdone), rfl⟩
          next =>
            obtain ⟨m, hm, rfl⟩ := Option.map_eq_some_iff.mp h
            obtain ⟨x, y, rfl, rfl⟩ := ih hm
            exact ⟨b :: x, y, rfl, rfl⟩

theorem headEnd_le {M : ResponseMachine} {text : Bytes} {cs n : Nat}
    (h : M.headEnd cs text = some n) : 0 < n ∧ n ≤ text.length := by
  obtain ⟨a, b, rfl, rfl⟩ := headEnd_newline h
  rw [List.length_append, List.length_cons]
  omega

end ResponseMachine

/-! ## What the loop does -/

/-- No action but `done` moves the start of the body, and none counts the bytes. -/
structure Responds (p : Nat) (a : ResponseAction) (parser parser' : HttpResponseParser μ) :
    Prop where
  nread : parser'.mParser.nread = parser.mParser.nread
  body_start : parser'.mParser.body_start =
    if a = .done then UInt64.ofNat (p + 1) else parser.mParser.body_start

variable {E : ResponseEnv μ}

theorem on_response_version_keeps {buffer : Bytes} {pos length : Nat}
    {parser parser' : HttpResponseParser μ}
    (h : on_response_version buffer pos length parser = .ok parser') :
    parser'.mParser = parser.mParser := by
  rw [on_response_version, bind_ok_iff] at h
  obtain ⟨v11, -, h⟩ := h
  split at h
  next =>
    cases h
    rfl
  next =>
    rw [bind_ok_iff] at h
    obtain ⟨v10, -, h⟩ := h
    split at h
    next =>
      cases h
      rfl
    next =>
      rw [bind_ok_iff] at h
      obtain ⟨_, -, ⟨⟩⟩ := h
      rfl

theorem on_response_http_field_keeps {buffer : Bytes} {field flen value vlen : Nat}
    {parser parser' : HttpResponseParser μ}
    (h : on_response_http_field E buffer field flen value vlen parser = .ok parser') :
    parser'.mParser = parser.mParser := by
  rw [on_response_http_field] at h
  split at h
  next =>
    cases h
    rfl
  next =>
    rw [bind_ok_iff] at h
    obtain ⟨key, -, h⟩ := h
    rw [bind_ok_iff] at h
    obtain ⟨val, -, ⟨⟩⟩ := h
    rfl

theorem respond_spec {buffer : Bytes} {p : Nat} {parser parser' : HttpResponseParser μ}
    {a : ResponseAction} (h : respond E buffer p parser a = .ok parser') :
    Responds p a parser parser' := by
  cases a with
  | mark | start_field | write_field | start_value | write_connection_close | trans_chunked
  | done =>
      cases h
      exact ⟨rfl, rfl⟩
  | write_content_len | reason_phrase | chunk_size =>
      obtain ⟨v, -, ⟨⟩⟩ := bind_ok_iff.mp h
      exact ⟨rfl, rfl⟩
  | status_code =>
      obtain ⟨v, -, h⟩ := bind_ok_iff.mp h
      obtain ⟨w, -, ⟨⟩⟩ := bind_ok_iff.mp h
      exact ⟨rfl, rfl⟩
  | write_value =>
      have heq := on_response_http_field_keeps h
      exact ⟨congrArg _ heq, congrArg _ heq⟩
  | http_version =>
      have heq := on_response_version_keeps h
      exact ⟨congrArg _ heq, congrArg _ heq⟩

/-- The same of the actions of a transition. -/
theorem respond_all {buffer : Bytes} {p : Nat} {acts : List ResponseAction}
    {parser parser' : HttpResponseParser μ}
    (h : acts.foldlM (respond E buffer p) parser = .ok parser') :
    parser'.mParser.nread = parser.mParser.nread ∧ parser'.mParser.body_start =
      if .done ∈ acts then UInt64.ofNat (p + 1) else parser.mParser.body_start := by
  induction acts generalizing parser with
  | nil =>
      cases h
      exact ⟨rfl, rfl⟩
  | cons a acts ih =>
      rw [List.foldlM_cons, bind_ok_iff] at h
      obtain ⟨parser₁, hfirst, hrest⟩ := h
      obtain ⟨hnread, hbody⟩ := respond_spec hfirst
      obtain ⟨hnread', hbody'⟩ := ih hrest
      refine ⟨hnread'.trans hnread, ?_⟩
      rw [hbody', hbody]
      by_cases hmem : ResponseAction.done ∈ acts
      · rw [if_pos hmem, if_pos (List.mem_cons_of_mem a hmem)]
      · rw [if_neg hmem]
        by_cases ha : a = .done
        · rw [if_pos ha, if_pos (ha ▸ List.mem_cons_self)]
        · rw [if_neg ha, if_neg fun hin => (List.mem_cons.mp hin).elim (Ne.symm ha) hmem]

/-- The loop stops behind the newline that ends the header, which is where the body starts, and
inside the text where no header ends. -/
structure Scanned (E : ResponseEnv μ) (bs : Bytes) (p : Nat) (parser s : HttpResponseParser μ)
    (q : Nat) : Prop where
  nread : s.mParser.nread = parser.mParser.nread
  bound : q ≤ p + bs.length
  ended : ∀ n, E.machine.headEnd parser.mParser.cs bs = some n →
    q = p + n ∧ s.mParser.body_start = UInt64.ofNat q
  kept : E.machine.headEnd parser.mParser.cs bs = none →
    s.mParser.body_start = parser.mParser.body_start

theorem scan_spec {buffer : Bytes} : ∀ {bs : Bytes} {p q : Nat} {parser s : HttpResponseParser μ},
    scan E buffer bs p parser = .ok (s, q) → Scanned E bs p parser s q := by
  intro bs
  induction bs with
  | nil =>
      rintro p q parser s ⟨⟩
      exact ⟨rfl, Nat.le_refl p, by rintro n ⟨⟩, fun _ => rfl⟩
  | cons b bs ih =>
      intro p q parser s h
      rw [scan] at h
      cases hstep : E.machine.step parser.mParser.cs b with
      | none =>
          simp only [hstep] at h
          cases h
          refine ⟨rfl, Nat.le_add_right p _, fun n hn => ?_, fun _ => rfl⟩
          rw [ResponseMachine.headEnd, hstep] at hn
          cases hn
      | some next =>
          obtain ⟨acts, cs⟩ := next
          simp only [hstep] at h
          obtain ⟨parser₁, hacts, h⟩ := bind_ok_iff.mp h
          obtain ⟨hnread, hbody⟩ := respond_all hacts
          have hhead := ResponseMachine.headEnd_cons hstep bs
          by_cases hdone : ResponseAction.done ∈ acts
          · rw [if_pos hdone] at h hbody hhead
            cases h
            refine ⟨hnread, ?_, fun n hn => ?_, fun hn => ?_⟩
            · rw [List.length_cons]
              omega
            · rw [hhead] at hn
              cases hn
              exact ⟨rfl, hbody⟩
            · rw [hhead] at hn
              cases hn
          · rw [if_neg hdone] at h hbody hhead
            obtain ⟨hnread', hbound, hended, hkept⟩ := ih h
            refine ⟨hnread'.trans hnread, ?_, fun n hn => ?_, fun hn => ?_⟩
            · rw [List.length_cons]
              omega
            · rw [hhead] at hn
              obtain ⟨m, hm, rfl⟩ := Option.map_eq_some_iff.mp hn
              obtain ⟨hq, hstart⟩ := hended m hm
              exact ⟨by omega, hstart⟩
            · rw [hhead] at hn
              exact (hkept (Option.map_eq_none_iff.mp hn)).trans hbody

/-! ## What a call returns -/

/-- A call keeps to the buffer: it returns no more than the length, `memmove` takes what is
left of the text and stays inside, and behind the final newline of a header nothing is lost. -/
structure Executed.Contained (e : Executed μ) (M : ResponseMachine) (cs : Nat) (text : Bytes) :
    Prop where
  offset : e.offset.toNat ≤ text.length
  moved : e.offset.toNat + e.moved.toNat = text.length
  inside : e.data ≠ none
  rest : ∀ data, e.data = some data → ∀ n, M.headEnd cs text = some n →
    data.take e.moved.toNat = text.drop n

/-- The loop gets through a text and the assertions hold. -/
structure Passes (E : ResponseEnv μ) (parser : HttpResponseParser μ) (text rest : Bytes)
    (s : HttpResponseParser μ) (p : Nat) : Prop where
  length : text.length < 2 ^ 31
  scanned : scan E (text ++ 0 :: rest) text 0 parser = .ok (s, p)
  asserted : (counted p s).mParser.Asserted p text.length

/-- The checks hold, no header ends in the text, and where a `body_start` is kept there is room
for one more.  A header may end where `nread` is the largest `size_t`. -/
structure InRange (E : ResponseEnv μ) (parser : HttpResponseParser μ) (text : Bytes)
    (s : HttpResponseParser μ) (p : Nat) : Prop where
  checked : s.mParser.Checked text.length
  no_end : E.machine.headEnd parser.mParser.cs text ≠ none →
    parser.mParser.nread.toNat = 2 ^ 64 - 1
  room : E.machine.headEnd parser.mParser.cs text = none → parser.mParser.body_start ≠ 0 →
    (parser.mParser.nread + UInt64.ofNat p).toNat < text.length

theorem toInt32_eq_iff {n : Nat} : Conn.toInt32 n = n ↔ n < 2 ^ 31 := by
  rw [Conn.toInt32, BitVec.toInt_ofNat', Int.bmod_def]
  omega

/-- A result that is more than the length by no more than one. -/
theorem offset_spec {n len : Nat} (hn : n ≤ len + 1) (hlen : len < 2 ^ 31) :
    ((UInt64.ofInt (Conn.toInt32 n)).toNat ≤ len ↔ n ≤ len) ∧
      (n ≤ len → (UInt64.ofInt (Conn.toInt32 n)).toNat = n) := by
  have hnat : (UInt64.ofInt (Conn.toInt32 n)).toNat = (Conn.toInt32 n % 2 ^ 64).toNat := by
    rw [UInt64.ofInt, UInt64.toNat_ofNat']
    omega
  rw [hnat, Conn.toInt32, BitVec.toInt_ofNat', Int.bmod_def]
  omega

theorem httpclient_parser_execute_iff {parser : HttpResponseParser μ} {text rest : Bytes}
    {r : HttpResponseParser μ × Int} :
    httpclient_parser_execute E (text ++ 0 :: rest) text.length parser = .ok r ↔
      ∃ s p, Passes E parser text rest s p ∧ r = leave text.length (counted p s) := by
  have hnul : (text ++ 0 :: rest)[text.length]? = some 0 := by
    rw [List.getElem?_append_right (Nat.le_refl _), Nat.sub_self]
    rfl
  have htake : (text ++ 0 :: rest).take text.length = text := List.take_left
  rw [httpclient_parser_execute, hnul]
  simp only [ne_eq, not_true_eq_false, if_false, htake]
  by_cases hlen : text.length < 2 ^ 31
  · rw [if_neg (not_not_intro (toInt32_eq_iff.mpr hlen))]
    constructor
    · intro h
      obtain ⟨⟨s, p⟩, hscan, h⟩ := bind_ok_iff.mp h
      by_cases hasserted : (counted p s).mParser.Asserted p text.length
      · rw [if_neg (not_not_intro hasserted)] at h
        cases h
        exact ⟨s, p, ⟨hlen, hscan, hasserted⟩, rfl⟩
      · rw [if_pos hasserted] at h
        cases h
    · rintro ⟨s, p, hpass, rfl⟩
      refine bind_ok_iff.mpr ⟨(s, p), hpass.scanned, ?_⟩
      exact if_neg (not_not_intro hpass.asserted)
  · rw [if_pos (mt toInt32_eq_iff.mp hlen)]
    refine iff_of_false (by rintro ⟨⟩) ?_
    rintro ⟨s, p, hpass, -⟩
    exact hlen hpass.length

/-- What a call makes of the result. -/
def finish (data : Bytes) (len : Nat) (r : HttpResponseParser μ × Int) : Executed μ where
  parser := r.1
  offset := UInt64.ofInt r.2
  moved := UInt64.ofNat len - UInt64.ofInt r.2
  data := memmove data (UInt64.ofInt r.2).toNat
    (UInt64.ofNat len - UInt64.ofInt r.2).toNat

theorem execute_iff {parser : HttpResponseParser μ} {text rest : Bytes} {chunck : Bool}
    {e : Executed μ} :
    parser.execute E (text ++ 0 :: rest) text.length chunck = .ok e ↔
      ∃ s p, Passes E (parser.starts chunck) text rest s p ∧
        e = finish (text ++ 0 :: rest) text.length (leave text.length (counted p s)) := by
  rw [HttpResponseParser.execute, bind_ok_iff]
  constructor
  · rintro ⟨r, hr, ⟨⟩⟩
    obtain ⟨s, p, hpass, rfl⟩ := httpclient_parser_execute_iff.mp hr
    exact ⟨s, p, hpass, rfl⟩
  · rintro ⟨s, p, hpass, rfl⟩
    exact ⟨_, httpclient_parser_execute_iff.mpr ⟨s, p, hpass, rfl⟩, rfl⟩

/-- What is moved for a result inside the text is all that is behind it. -/
theorem memmove_rest {text : Bytes} (rest : Bytes) {n : Nat} (hn : n ≤ text.length) :
    ∃ data, memmove (text ++ 0 :: rest) n (text.length - n) = some data ∧
      data.take (text.length - n) = text.drop n := by
  have hwindow : window (text ++ 0 :: rest) n (text.length - n) = text.drop n := by
    rw [Window.window_append_left (by omega), window, List.take_of_length_le]
    rw [List.length_drop]
  refine ⟨_, if_pos ?_, ?_⟩
  · rw [List.length_append]
    omega
  · rw [hwindow, overwrite, List.take_zero, List.nil_append, ← List.length_drop, List.take_left]

/-- A result that is above the text by no more than one keeps to the buffer when it is not above
it, and is the length up to the final newline where there is one. -/
theorem contained_finish_iff {M : ResponseMachine} {cs : Nat} {text rest : Bytes}
    {parser : HttpResponseParser μ} {n : Nat} (hn : n ≤ text.length + 1)
    (hlen : text.length < 2 ^ 31) :
    (finish (text ++ 0 :: rest) text.length (parser, Conn.toInt32 n)).Contained M cs text ↔
      n ≤ text.length ∧ ∀ q, M.headEnd cs text = some q → n = q := by
  obtain ⟨hle, heq⟩ := offset_spec hn hlen
  constructor
  · intro h
    have hin : n ≤ text.length := hle.mp h.offset
    refine ⟨hin, fun q hq => ?_⟩
    obtain ⟨data, hdata, htake⟩ := memmove_rest rest hin
    have hoffset := heq hin
    have hmoved : (UInt64.ofNat text.length - UInt64.ofInt (Conn.toInt32 n)).toNat =
        text.length - n := by
      have hsum := h.moved
      simp only [finish, hoffset] at hsum
      omega
    have hrest := h.rest data (by simp only [finish, hoffset, hmoved, hdata]) q hq
    simp only [finish, hmoved, htake] at hrest
    have hlength := congrArg List.length hrest
    have hq' := (ResponseMachine.headEnd_le hq).2
    rw [List.length_drop, List.length_drop] at hlength
    omega
  · rintro ⟨hin, hall⟩
    obtain ⟨data, hdata, htake⟩ := memmove_rest rest hin
    have hoffset := heq hin
    have hmoved : (UInt64.ofNat text.length - UInt64.ofInt (Conn.toInt32 n)).toNat =
        text.length - n := by
      rw [UInt64.toNat_sub, hoffset, UInt64.toNat_ofNat']
      omega
    refine ⟨hle.mpr hin, ?_, ?_, fun d hd q hq => ?_⟩
    · simp only [finish, hoffset, hmoved]
      omega
    · simp only [finish, hoffset, hmoved, hdata]
      exact Option.some_ne_none data
    · simp only [finish, hoffset, hmoved, hdata] at hd ⊢
      cases hd
      rw [htake, hall q hq]

/-- The error result is above every length. -/
theorem not_contained_error {M : ResponseMachine} {cs : Nat} {text data : Bytes}
    {parser : HttpResponseParser μ} (hlen : text.length < 2 ^ 31) :
    ¬ (finish data text.length (parser, -1)).Contained M cs text := by
  intro h
  have hoffset : text.length < (UInt64.ofInt (-1)).toNat := Nat.lt_trans hlen (by decide)
  exact Nat.not_le.mpr hoffset h.offset

/-- The result where the checks hold. -/
theorem leave_checked {s : HttpResponseParser μ} {p len : Nat} (h : s.mParser.Checked len) :
    ∃ parser : HttpResponseParser μ, leave len (counted p s) = (parser, Conn.toInt32
      (if s.mParser.body_start ≠ 0 then (s.mParser.nread + UInt64.ofNat p + 1).toNat
      else (s.mParser.nread + UInt64.ofNat p).toNat)) := by
  have hchecked : (counted p s).mParser.Checked len := h
  have hbody : (counted p s).mParser.body_start = s.mParser.body_start := rfl
  rw [leave, if_neg (not_not_intro hchecked), hbody]
  by_cases hb : s.mParser.body_start ≠ 0
  · rw [if_pos hb, if_pos hb]
    exact ⟨_, rfl⟩
  · rw [if_neg hb, if_neg hb]
    exact ⟨_, rfl⟩

theorem toNat_succ {x : UInt64} {len : Nat} (hx : x.toNat ≤ len) (hlen : len < 2 ^ 31) :
    (x + 1).toNat = x.toNat + 1 := by
  rw [UInt64.toNat_add]
  exact Nat.mod_eq_of_lt (Nat.lt_of_le_of_lt (Nat.succ_le_succ hx) (by omega))

section Leave

variable {parser s : HttpResponseParser μ} {text rest : Bytes} {p : Nat}

/-- What the assertions say of `nread`. -/
theorem Passes.nread_le (hpass : Passes E parser text rest s p) :
    (parser.mParser.nread + UInt64.ofNat p).toNat ≤ text.length := by
  rw [← (scan_spec hpass.scanned).nread]
  exact hpass.asserted.2.1

/-- Where no header ends, one more than what the loop took is in range while there is room. -/
theorem contained_of_no_end (hpass : Passes E parser text rest s p)
    (hchecked : s.mParser.Checked text.length)
    (hhead : E.machine.headEnd parser.mParser.cs text = none) :
    (finish (text ++ 0 :: rest) text.length (leave text.length (counted p s))).Contained E.machine
      parser.mParser.cs text ↔ InRange E parser text s p := by
  have hsum := hpass.nread_le
  obtain ⟨hnread, -, -, hkept⟩ := scan_spec hpass.scanned
  obtain ⟨parser', hleave⟩ := leave_checked (p := p) hchecked
  rw [hleave, hnread, hkept hhead]
  by_cases hbody : parser.mParser.body_start ≠ 0
  · rw [if_pos hbody, toNat_succ hsum hpass.length,
      contained_finish_iff (Nat.succ_le_succ hsum) hpass.length, hhead]
    constructor
    · intro h
      exact ⟨hchecked, fun hne => absurd hhead hne, fun _ _ => h.1⟩
    · intro h
      exact ⟨h.room hhead hbody, by rintro q ⟨⟩⟩
  · rw [if_neg hbody, contained_finish_iff (Nat.le_succ_of_le hsum) hpass.length, hhead]
    refine iff_of_true ⟨hsum, by rintro q ⟨⟩⟩ ⟨hchecked, fun hne => absurd hhead hne, ?_⟩
    exact fun _ hne => absurd hne hbody

/-- Where one ends, one more than its length is returned, unless `nread` wraps around. -/
theorem contained_of_end (hpass : Passes E parser text rest s p)
    (hchecked : s.mParser.Checked text.length) {n : Nat}
    (hhead : E.machine.headEnd parser.mParser.cs text = some n) :
    (finish (text ++ 0 :: rest) text.length (leave text.length (counted p s))).Contained E.machine
      parser.mParser.cs text ↔ InRange E parser text s p := by
  have hlen := hpass.length
  have hsum := hpass.nread_le
  obtain ⟨hnread, -, hended, -⟩ := scan_spec hpass.scanned
  obtain ⟨hp, hbody⟩ := hended n hhead
  obtain ⟨hpos, hn⟩ := ResponseMachine.headEnd_le hhead
  rw [Nat.zero_add] at hp
  subst hp
  have hne : s.mParser.body_start ≠ 0 := by
    rw [hbody]
    intro hzero
    have hnat := congrArg UInt64.toNat hzero
    rw [UInt64.toNat_ofNat'] at hnat
    change p % 2 ^ 64 = 0 at hnat
    omega
  have hwrap : (parser.mParser.nread + UInt64.ofNat p).toNat =
      (parser.mParser.nread.toNat + p) % 2 ^ 64 := by
    rw [UInt64.toNat_add, UInt64.toNat_ofNat']
    omega
  have hlt := parser.mParser.nread.toNat_lt
  obtain ⟨parser', hleave⟩ := leave_checked (p := p) hchecked
  rw [hleave, hnread, if_pos hne, toNat_succ hsum hlen,
    contained_finish_iff (Nat.succ_le_succ hsum) hlen, hhead]
  rw [hwrap] at hsum ⊢
  constructor
  · rintro ⟨-, hall⟩
    have hsame := hall p rfl
    refine ⟨hchecked, fun _ => by omega, fun hnone => ?_⟩
    rw [hhead] at hnone
    cases hnone
  · intro h
    have hmax := h.no_end (by rw [hhead]; exact Option.some_ne_none p)
    refine ⟨by omega, ?_⟩
    rintro q ⟨⟩
    omega

/-- A call that gets behind the assertions keeps to the buffer when it is in range. -/
theorem contained_leave_iff (hpass : Passes E parser text rest s p) :
    (finish (text ++ 0 :: rest) text.length (leave text.length (counted p s))).Contained E.machine
      parser.mParser.cs text ↔ InRange E parser text s p := by
  by_cases hchecked : s.mParser.Checked text.length
  · cases hhead : E.machine.headEnd parser.mParser.cs text with
    | none => exact contained_of_no_end hpass hchecked hhead
    | some n => exact contained_of_end hpass hchecked hhead
  · have hleave : leave text.length (counted p s) = (counted p s, -1) := if_pos hchecked
    rw [hleave]
    exact iff_of_false (not_contained_error hpass.length) fun h => hchecked h.checked

end Leave

/-- `execute` returns when the loop gets through and the assertions hold, and what it returns keeps
to the buffer exactly when the call is in range. -/
theorem execute_contained_iff (E : ResponseEnv μ) (parser : HttpResponseParser μ)
    (text rest : Bytes) (chunck : Bool) :
    ((∃ e, parser.execute E (text ++ 0 :: rest) text.length chunck = .ok e) ↔
      ∃ s p, Passes E (parser.starts chunck) text rest s p) ∧
    ((∀ e, parser.execute E (text ++ 0 :: rest) text.length chunck = .ok e →
        e.Contained E.machine (parser.starts chunck).mParser.cs text) ↔
      ∀ s p, Passes E (parser.starts chunck) text rest s p →
        InRange E (parser.starts chunck) text s p) := by
  refine ⟨⟨?_, ?_⟩, ⟨fun h s p hpass => ?_, fun h e he => ?_⟩⟩
  · rintro ⟨e, he⟩
    obtain ⟨s, p, hpass, -⟩ := execute_iff.mp he
    exact ⟨s, p, hpass⟩
  · rintro ⟨s, p, hpass⟩
    exact ⟨_, execute_iff.mpr ⟨s, p, hpass, rfl⟩⟩
  · exact (contained_leave_iff hpass).mp (h _ (execute_iff.mpr ⟨s, p, hpass, rfl⟩))
  · obtain ⟨s, p, hpass, rfl⟩ := execute_iff.mp he
    exact (contained_leave_iff hpass).mpr (h s p hpass)

/-! ## A chunk -/

/-- The transitions of the compiled table for the size of a chunk without an extension. -/
def chunkStep (cs : Nat) (b : UInt8) : Option (List ResponseAction × Nat) :=
  if cs = 1 then if isxdigit b then some ([.mark], 2) else none
  else if cs = 2 then
    if isxdigit b then some ([], 2)
    else if b = 10 then some ([.chunk_size, .done], 120)
    else if b = 13 then some ([.chunk_size], 3)
    else none
  else if cs = 3 then if b = 10 then some ([.done], 120) else none
  else none

/-- The line ends with a newline, in the final state. -/
theorem chunkStep_spec {cs cs' : Nat} {b : UInt8} {acts : List ResponseAction}
    (h : chunkStep cs b = some (acts, cs')) :
    (.done ∈ acts ↔ httpclient_parser_first_final ≤ cs') ∧ (.done ∈ acts → b = 10) := by
  rw [chunkStep] at h
  split_ifs at h with h1 hdigit h2 hdigit hnewline hreturn h3 hnewline
  · cases h
    exact ⟨by decide, fun hdone => absurd hdone (by decide)⟩
  · cases h
    exact ⟨by decide, fun hdone => absurd hdone (by decide)⟩
  · cases h
    exact ⟨by decide, fun _ => hnewline⟩
  · cases h
    exact ⟨by decide, fun hdone => absurd hdone (by decide)⟩
  · cases h
    exact ⟨by decide, fun _ => hnewline⟩

/-- An environment with these transitions. -/
def chunkEnv : ResponseEnv (List (Bytes × Bytes)) where
  machine :=
    { step := chunkStep
      done_iff := fun h => (chunkStep_spec h).1
      done_newline := fun h => (chunkStep_spec h).2 }
  map := OrderedMap.assoc Bytes Bytes CaseInsensitiveLess
  status := 0

/-- A chunk of five bytes behind its size. -/
def chunkText : Bytes := bytes "5\r\nhello"

/-- Four bytes are moved to the front. -/
theorem chunk_run : ∃ e, (HttpResponseParser.new chunkEnv).execute chunkEnv (chunkText ++ 0 :: [])
    chunkText.length false = .ok e ∧ e.moved = 4 ∧ e.data = some (bytes "elloello" ++ [0]) := by
  have hrun : (((HttpResponseParser.new chunkEnv).execute chunkEnv (chunkText ++ 0 :: [])
      chunkText.length false).toOption.map fun e => (e.moved, e.data)) =
        some (4, some (bytes "elloello" ++ [0])) := by decide
  cases hexec : (HttpResponseParser.new chunkEnv).execute chunkEnv (chunkText ++ 0 :: [])
      chunkText.length false with
  | error stop =>
      rw [hexec] at hrun
      cases hrun
  | ok e =>
      rw [hexec] at hrun
      obtain ⟨hmoved, hdata⟩ := Prod.mk.inj (Option.some.inj hrun)
      exact ⟨e, rfl, hmoved, hdata⟩

/-- Of the five bytes the first is taken for a part of the line. -/
theorem chunk_not_contained :
    ¬ ∀ e, (HttpResponseParser.new chunkEnv).execute chunkEnv (chunkText ++ 0 :: [])
        chunkText.length false = .ok e →
      e.Contained chunkEnv.machine httpclient_parser_start chunkText := by
  intro h
  obtain ⟨e, he, hmoved, hdata⟩ := chunk_run
  have hrest := (h e he).rest _ hdata 3 (by decide)
  rw [hmoved] at hrest
  revert hrest
  decide

end Http

end Muqiu
