import Muqiu.Config.Model
import Muqiu.Lib.Attempt

/-!
# Listeners that throw

A change of a variable should be all or nothing: a text that is refused leaves the variable alone
and nobody hears of it, and one that is taken is told to every listener once, in the order of the
keys (`AllOrNothing`).

`setValue` tells the listeners first and sets the value behind them.  A listener that throws keeps
the value from being set, and `fromString` catches what it throws, but the listeners up to that one
have been told (`tryFromString_thrown`).  Which calls throw is a parameter, and so are the type of
the variable, its `operator==` and its `FromStr`.
-/

namespace Muqiu.Config

open Json (Text ascii)

namespace ConfigVar

variable {α : Type}

theorem sorted_keys (var : ConfigVar α) : SortedSet.Sorted less var.m_cbs :=
  var.ordered.imp less_iff.mpr

/-- `addListener`, with the count of keys given before and the key. -/
def addListener (s_fun_id : Nat) (var : ConfigVar α) : Nat × ConfigVar α :=
  (s_fun_id + 1,
    { var with
      m_cbs := SortedSet.insert less (s_fun_id + 1) var.m_cbs
      ordered := (SortedSet.sorted_insert (strictTotal_less Nat) var.sorted_keys).imp less_iff.mp })

/-- The loop over `m_cbs`, which ends at a call that throws. -/
def notify (throws : Change α → Bool) :
    List (Change α) → ConfigVar α → Attempt Unit (ConfigVar α) (Change α) Unit
  | [], var => .ok () var
  | c :: cs, var =>
      Attempt.bind ⟨if throws c then .error () else .ok (), var, [c]⟩ fun _ => notify throws cs

/-- The calls `setValue` makes when none of them throws. -/
def calls (var : ConfigVar α) (v : α) : List (Change α) := var.m_cbs.map fun i => ⟨i, var.m_val, v⟩

/-- `setValue`, with the calls that throw. -/
def trySetValue (eq : α → α → Bool) (throws : Change α → Bool) (var : ConfigVar α) (v : α) :
    Attempt Unit (ConfigVar α) (Change α) Unit :=
  if eq v var.m_val then .ok () var
  else (notify throws (var.calls v) var).bind fun _ var => .ok () { var with m_val := v }

/-- `fromString`: its result, the calls made and the variable. -/
def tryFromString (FromStr : Text → Option α) (eq : α → α → Bool) (throws : Change α → Bool)
    (var : ConfigVar α) (val : Text) : Bool × List (Change α) × ConfigVar α :=
  match FromStr val with
  | none => (false, [], var)
  | some v =>
      let r := var.trySetValue eq throws v
      match r.result with
      | .ok _ => (true, r.log, r.state)
      | .error _ => (false, r.log, r.state)

/-- A text is taken and told to every listener, or refused without a trace. -/
structure AllOrNothing (FromStr : Text → Option α) (eq : α → α → Bool)
    (throws : Change α → Bool) (var : ConfigVar α) (val : Text) : Prop where
  refused : (var.tryFromString FromStr eq throws val).1 = false →
    (var.tryFromString FromStr eq throws val).2.2 = var ∧
      (var.tryFromString FromStr eq throws val).2.1 = []
  /-- The value is the one read, or equal to it for `operator==`. -/
  taken : (var.tryFromString FromStr eq throws val).1 = true →
    ∃ v, FromStr val = some v ∧
      ((var.tryFromString FromStr eq throws val).2.2.m_val = v ∨
        eq v (var.tryFromString FromStr eq throws val).2.2.m_val = true) ∧
      (eq v var.m_val = false → (var.tryFromString FromStr eq throws val).2.1 = var.calls v)

/-! ## Adding a listener -/

theorem insert_above {n : Nat} {keys : List Nat} (h : ∀ i ∈ keys, i < n) :
    SortedSet.insert less n keys = keys ++ [n] := by
  induction keys with
  | nil => rfl
  | cons i keys ih =>
      rw [SortedSet.insert, if_pos (less_iff.mpr (h i List.mem_cons_self)),
        ih fun j hj => h j (List.mem_cons_of_mem i hj), List.cons_append]

/-- A new listener is the last to be called. -/
theorem addListener_m_cbs {s_fun_id : Nat} {var : ConfigVar α}
    (h : ∀ i ∈ var.m_cbs, i ≤ s_fun_id) :
    (addListener s_fun_id var).2.m_cbs = var.m_cbs ++ [(addListener s_fun_id var).1] :=
  insert_above fun i hi => Nat.lt_succ_of_le (h i hi)

/-! ## The loop -/

section Notify

variable {throws : Change α → Bool} {cs : List (Change α)}

theorem notify_quiet (h : ∀ c ∈ cs, throws c = false) (var : ConfigVar α) :
    notify throws cs var = ⟨.ok (), var, cs⟩ := by
  induction cs with
  | nil => rfl
  | cons c cs ih =>
      rw [notify, h c List.mem_cons_self, if_neg Bool.false_ne_true, Attempt.bind]
      dsimp only
      rw [ih fun d hd => h d (List.mem_cons_of_mem c hd), List.singleton_append]

/-- The calls end with the first one that throws. -/
theorem notify_thrown {before after : List (Change α)} {c : Change α}
    (h : ∀ b ∈ before, throws b = false) (hc : throws c = true) (var : ConfigVar α) :
    notify throws (before ++ c :: after) var = ⟨.error (), var, before ++ [c]⟩ := by
  induction before with
  | nil =>
      rw [List.nil_append, notify, if_pos hc]
      rfl
  | cons b before ih =>
      rw [List.cons_append, notify, h b List.mem_cons_self, if_neg Bool.false_ne_true,
        Attempt.bind]
      dsimp only
      rw [ih fun d hd => h d (List.mem_cons_of_mem b hd), List.singleton_append, List.cons_append]

theorem exists_first_thrown (h : ¬∀ c ∈ cs, throws c = false) :
    ∃ before c after, cs = before ++ c :: after ∧ (∀ b ∈ before, throws b = false) ∧
      throws c = true := by
  induction cs with
  | nil => exact absurd (fun c hc => absurd hc List.not_mem_nil) h
  | cons d cs ih =>
      cases hd : throws d with
      | true => exact ⟨[], d, cs, rfl, fun b hb => absurd hb List.not_mem_nil, hd⟩
      | false =>
          have hcs : ¬∀ c ∈ cs, throws c = false := fun hall => h fun c hc => by
            rcases List.mem_cons.mp hc with rfl | hmem
            · exact hd
            · exact hall c hmem
          obtain ⟨before, c, after, rfl, hbefore, hc⟩ := ih hcs
          refine ⟨d :: before, c, after, rfl, fun b hb => ?_, hc⟩
          rcases List.mem_cons.mp hb with rfl | hmem
          · exact hd
          · exact hbefore b hmem

end Notify

/-! ## `fromString` -/

section FromString

variable {FromStr : Text → Option α} {eq : α → α → Bool} {throws : Change α → Bool}
  {var : ConfigVar α} {val : Text} {v : α}

theorem tryFromString_unread (hv : FromStr val = none) :
    var.tryFromString FromStr eq throws val = (false, [], var) := by
  rw [tryFromString, hv]

theorem tryFromString_equal (hv : FromStr val = some v) (heq : eq v var.m_val = true) :
    var.tryFromString FromStr eq throws val = (true, [], var) := by
  rw [tryFromString, hv]
  dsimp only
  rw [trySetValue, if_pos heq]
  rfl

theorem tryFromString_quiet (hv : FromStr val = some v) (heq : eq v var.m_val = false)
    (hquiet : ∀ c ∈ var.calls v, throws c = false) :
    var.tryFromString FromStr eq throws val = (true, var.calls v, { var with m_val := v }) := by
  rw [tryFromString, hv]
  dsimp only
  rw [trySetValue, if_neg (Bool.eq_false_iff.mp heq), notify_quiet hquiet]
  simp [Attempt.bind, Attempt.ok]

/-- The listeners up to the first that throws have been told. -/
theorem tryFromString_thrown {before after : List (Change α)} {c : Change α}
    (hv : FromStr val = some v) (heq : eq v var.m_val = false)
    (hcalls : var.calls v = before ++ c :: after) (hbefore : ∀ b ∈ before, throws b = false)
    (hc : throws c = true) :
    var.tryFromString FromStr eq throws val = (false, before ++ [c], var) := by
  rw [tryFromString, hv]
  dsimp only
  rw [trySetValue, if_neg (Bool.eq_false_iff.mp heq), hcalls, notify_thrown hbefore hc]
  rfl

/-- Without exceptions `setValue` is the one of the model. -/
theorem trySetValue_quiet (hquiet : ∀ c ∈ var.calls v, throws c = false) :
    var.trySetValue eq throws v = ⟨.ok (), (var.setValue eq v).2, (var.setValue eq v).1⟩ := by
  rw [trySetValue, setValue]
  split
  next => rfl
  next =>
    rw [notify_quiet hquiet]
    simp [Attempt.bind, Attempt.ok, calls]

/-- Without exceptions `fromString` is the one of the model. -/
theorem tryFromString_eq {R : Readers} {t : Ty} (var : ConfigVar t.Val) (val : Text) :
    var.tryFromString (ofText R t) (fun a b => decide (a = b)) (fun _ => false) val =
      var.fromString R val := by
  rw [tryFromString, fromString]
  cases ofText R t val with
  | none => rfl
  | some v =>
      dsimp only
      rw [trySetValue_quiet fun _ _ => rfl]

/-- What is refused leaves no trace. -/
theorem allOrNothing_of_refused
    (hrun : var.tryFromString FromStr eq throws val = (false, [], var)) :
    AllOrNothing FromStr eq throws var val := by
  constructor
  · rw [hrun]
    exact fun _ => ⟨rfl, rfl⟩
  · rw [hrun]
    exact fun hf => absurd hf Bool.false_ne_true

theorem allOrNothing_of_taken {told : List (Change α)} {var' : ConfigVar α}
    (hrun : var.tryFromString FromStr eq throws val = (true, told, var'))
    (hv : FromStr val = some v) (hval : var'.m_val = v ∨ eq v var'.m_val = true)
    (htold : eq v var.m_val = false → told = var.calls v) :
    AllOrNothing FromStr eq throws var val := by
  constructor
  · rw [hrun]
    exact fun hf => absurd hf.symm Bool.false_ne_true
  · rw [hrun]
    exact fun _ => ⟨v, hv, hval, htold⟩

/-- A change is all or nothing just when no listener throws at it. -/
theorem allOrNothing_iff :
    AllOrNothing FromStr eq throws var val ↔
      ∀ v, FromStr val = some v → eq v var.m_val = false →
        ∀ i ∈ var.m_cbs, throws ⟨i, var.m_val, v⟩ = false := by
  have hcalls (v : α) : (∀ c ∈ var.calls v, throws c = false) ↔
      ∀ i ∈ var.m_cbs, throws ⟨i, var.m_val, v⟩ = false := List.forall_mem_map
  constructor
  · intro h v hv heq
    by_contra hthrown
    obtain ⟨before, c, after, hcut, hbefore, hc⟩ :=
      exists_first_thrown (mt (hcalls v).mp hthrown)
    have hrun := tryFromString_thrown hv heq hcut hbefore hc
    have htold := (h.refused (by rw [hrun])).2
    rw [hrun] at htold
    exact absurd htold (List.append_ne_nil_of_right_ne_nil before (List.cons_ne_nil c []))
  · intro h
    cases hv : FromStr val with
    | none => exact allOrNothing_of_refused (tryFromString_unread hv)
    | some v =>
        cases heq : eq v var.m_val with
        | true =>
            exact allOrNothing_of_taken (tryFromString_equal hv heq) hv (Or.inr heq)
              fun hne => absurd (heq.symm.trans hne).symm Bool.false_ne_true
        | false =>
            have hquiet := (hcalls v).mpr (h v hv heq)
            exact allOrNothing_of_taken (tryFromString_quiet hv heq hquiet) hv (Or.inl rfl)
              fun _ => rfl

end FromString

/-- Two listeners of a variable, the second of which throws. -/
theorem secondListener_not_allOrNothing :
    ¬AllOrNothing (fun t => if t = ascii "2" then some 2 else none) (fun a b => decide (a = b))
      (fun c => decide (c.listener = 2)) ⟨1, [1, 2], by decide⟩ (ascii "2") := by
  intro h
  have htold := (h.refused (by decide)).2
  exact absurd htold (by decide)

end ConfigVar

end Muqiu.Config
