import Mathlib.Data.List.Nodup
import Mathlib.Data.List.TakeWhile
import Muqiu.Timer.Effects
import Muqiu.Timer.NextTimer

/-!
# Timer delivery

`listExpiredCb` should deliver the armed timers that are due and no others, unless the clock has
gone back by more than an hour since the previous check: then all of them (`Sweeps`).  A one-shot
timer should fire once in a run and a cancelled one not again (`History`).

The set is the set of timers with a callback (`Live`), and no operation gives a callback back, so
`History` holds in every run.  `detectColckRollover` takes an hour off the time of the previous
check, and in the first hour of the clock that difference wraps around.  There every step back of
the clock counts as a rollover, and a sweep delivers timers that are not due.
-/

namespace Muqiu

open SortedSet Runs

namespace TimerManager

/-- `timer->m_cb` is not null. -/
def Armed (m : TimerManager) (a : Nat) : Prop := (callback m.heap a).isSome = true

/-- The clock has gone back by more than an hour since the previous check. -/
def RolledBack (m : TimerManager) (now_ms : UInt64) : Prop :=
  now_ms.toNat + 60 * 60 * 1000 < m.m_previousTime.toNat

instance (m : TimerManager) (now_ms : UInt64) : Decidable (m.RolledBack now_ms) :=
  inferInstanceAs (Decidable (_ < _))

/-- A call at `now_ms` that returns `cbs`, the callbacks of the timers `due`. -/
structure Sweeps (m m' : TimerManager) (now_ms : UInt64) (due : List Nat)
    (cbs : List (Option Nat)) : Prop where
  callbacks : cbs = due.map (callback m.heap)
  exact : ∀ a, a ∈ due ↔ m.Armed a ∧ (m.RolledBack now_ms ∨ nextOf m.heap a ≤ now_ms)
  nodup : due.Nodup
  ordered : due.Pairwise fun a b => nextOf m.heap a ≤ nextOf m.heap b
  /-- All others are untouched. -/
  rest : ∀ a, a ∉ due → m'.heap a = m.heap a
  recurring : ∀ a ∈ due, ∀ t, m.heap a = some t → t.m_recurring = true →
    m'.heap a = some { t with m_next := now_ms + t.m_ms }
  oneShot : ∀ a ∈ due, ∀ t, m.heap a = some t → t.m_recurring = false →
    m'.heap a = some { t with m_cb := none }
  /-- The armed timers are in the set, each once. -/
  armed : m'.m_timers.Nodup ∧ ∀ a, a ∈ m'.m_timers ↔ m'.Armed a

/-- A sweep in the first hour of the clock, after the clock went back, with a timer that is not
due. -/
def FalseRollover (m : TimerManager) : Act → Prop
  | .listExpiredCb now_ms _ =>
      m.m_previousTime.toNat < 60 * 60 * 1000 ∧ now_ms < m.m_previousTime ∧
        ∃ a ∈ m.m_timers, now_ms < nextOf m.heap a
  | _ => False

instance decidableFalseRollover (m : TimerManager) : ∀ act, Decidable (m.FalseRollover act)
  | .listExpiredCb _ _ => inferInstanceAs (Decidable (_ ∧ _ ∧ _))
  | .addTimer _ _ _ _ _ => .isFalse id
  | .cancel _ => .isFalse id
  | .refresh _ _ => .isFalse id
  | .reset _ _ _ _ => .isFalse id
  | .getNextTimer _ => .isFalse id

/-! ## What is due -/

/-- From the hour on, the test is for a step back of more than an hour. -/
theorem rollover_of_late {m : TimerManager} (h : 60 * 60 * 1000 ≤ m.m_previousTime.toNat)
    (now_ms : UInt64) :
    (m.detectColckRollover now_ms).1 = true ↔ m.RolledBack now_ms := by
  have hsub : (m.m_previousTime - 60 * 60 * 1000).toNat =
      m.m_previousTime.toNat - 60 * 60 * 1000 :=
    UInt64.toNat_sub_of_le _ _ (UInt64.le_iff_toNat_le.mpr h)
  rw [detectColckRollover, decide_eq_true_iff, UInt64.lt_iff_toNat_lt, UInt64.lt_iff_toNat_lt,
    hsub, RolledBack]
  omega

/-- Before it, for any step back. -/
theorem rollover_of_early {m : TimerManager} (h : m.m_previousTime.toNat < 60 * 60 * 1000)
    (now_ms : UInt64) :
    (m.detectColckRollover now_ms).1 = true ↔ now_ms < m.m_previousTime := by
  have hsub : (m.m_previousTime - 60 * 60 * 1000).toNat =
      (18446744073709551616 - 3600000 + m.m_previousTime.toNat) % 18446744073709551616 :=
    UInt64.toNat_sub _ _
  have hprev := m.m_previousTime.toNat_lt
  rw [detectColckRollover, decide_eq_true_iff, UInt64.lt_iff_toNat_lt, UInt64.lt_iff_toNat_lt,
    hsub]
  omega

/-- The cut of the set without a rollover: what is due and what is not. -/
theorem Ordered.splitDue_due {m : TimerManager} (h : m.Ordered) (now_ms : UInt64) (tmp : Nat) :
    (∀ a ∈ (m.splitDue false now_ms tmp).1, nextOf m.heap a ≤ now_ms) ∧
      ∀ a ∈ (m.splitDue false now_ms tmp).2, now_ms < nextOf m.heap a := by
  simp only [splitDue, Bool.false_or]
  generalize hbelow : (fun a => Timer.comparator (some (nextOf m.heap a, a)) (some (now_ms, tmp)))
    = below
  have hbelow_iff : ∀ a, below a = true ↔ (nextOf m.heap a).toNat < now_ms.toNat ∨
      (nextOf m.heap a).toNat = now_ms.toNat ∧ a < tmp := by
    intro a
    rw [← hbelow]
    simp only [Timer.comparator, UInt64.lt_iff_toNat_lt]
    rcases Nat.lt_trichotomy (nextOf m.heap a).toNat now_ms.toNat with hlt | heq | hgt
    · simp [hlt]
    · simp [heq]
    · simp [Nat.lt_asymm hgt, hgt, Nat.ne_of_gt hgt]
  have hrest : ∀ a ∈ m.m_timers.dropWhile below, now_ms.toNat ≤ (nextOf m.heap a).toNat := by
    intro a ha
    have hnot := not_of_mem_dropWhile h.sorted (fun a _ b _ hab hb => by
      rw [less_eq_true] at hab
      rw [hbelow_iff] at hb ⊢
      omega) a ha
    rw [Bool.eq_false_iff, Ne, hbelow_iff] at hnot
    omega
  have hsorted : Sorted (less m.heap) (m.m_timers.dropWhile below) :=
    h.sorted.sublist (List.dropWhile_sublist _)
  constructor
  · intro a ha
    rw [UInt64.le_iff_toNat_le]
    rcases List.mem_append.mp ha with hfront | hnow
    · have := (hbelow_iff a).mp (List.mem_takeWhile_imp hfront)
      omega
    · have heq : nextOf m.heap a = now_ms := by simpa using List.mem_takeWhile_imp hnow
      exact Nat.le_of_eq (by rw [heq])
  · intro a ha
    have hmem := (List.dropWhile_sublist _).subset ha
    have hge := hrest a hmem
    have hne := not_of_mem_dropWhile hsorted (fun x hx y hy hxy hnow => by
      rw [less_eq_true] at hxy
      have hyeq := of_decide_eq_true hnow
      have hxge := hrest x hx
      rw [hyeq] at hxy
      exact decide_eq_true (UInt64.toNat_inj.mp (by omega))) a ha
    have hne' : (nextOf m.heap a).toNat ≠ now_ms.toNat :=
      fun heq => of_decide_eq_false hne (UInt64.toNat_inj.mp heq)
    rw [UInt64.lt_iff_toNat_lt]
    omega

theorem splitDue_rollover (m : TimerManager) (now_ms : UInt64) (tmp : Nat) :
    m.splitDue true now_ms tmp = (m.m_timers, []) := by
  have htake : m.m_timers.takeWhile (fun _ => true) = m.m_timers :=
    List.takeWhile_eq_self_iff.mpr fun _ _ => rfl
  have hdrop : m.m_timers.dropWhile (fun _ => true) = [] :=
    List.dropWhile_eq_nil_iff.mpr fun _ _ => rfl
  simp only [splitDue, Bool.true_or, htake, hdrop, List.takeWhile_nil, List.dropWhile_nil,
    List.append_nil]

/-- The timers taken out: all of them on a rollover, those that are due otherwise. -/
theorem Ordered.mem_expired {m : TimerManager} (h : m.Ordered) (now_ms : UInt64) (tmp a : Nat) :
    a ∈ m.expired now_ms tmp ↔
      a ∈ m.m_timers ∧ ((m.detectColckRollover now_ms).1 = true ∨ nextOf m.heap a ≤ now_ms) := by
  rw [expired]
  cases hts : m.m_timers with
  | nil => simp
  | cons first rest =>
      cases hroll : (m.detectColckRollover now_ms).1 with
      | true =>
          simp only [Bool.true_eq_false, false_and, if_false, splitDue_rollover, hts, true_or,
            and_true]
      | false =>
          simp only [true_and, Bool.false_eq_true, false_or, ← hts]
          obtain ⟨hdue, hlater⟩ := h.splitDue_due now_ms tmp
          have hcut := m.splitDue_append false now_ms tmp
          by_cases hearly : nextOf m.heap first > now_ms
          · rw [if_pos hearly]
            refine ⟨fun hmem => by simp at hmem, fun ⟨hmem, hle⟩ => ?_⟩
            have hfirst : (nextOf m.heap first).toNat ≤ (nextOf m.heap a).toNat :=
              ((h.isEarliest hts).mpr rfl).2 a hmem
            rw [gt_iff_lt, UInt64.lt_iff_toNat_lt] at hearly
            rw [UInt64.le_iff_toNat_le] at hle
            omega
          · rw [if_neg hearly, ← hcut, List.mem_append]
            constructor
            · exact fun hmem => ⟨Or.inl hmem, hdue a hmem⟩
            · rintro ⟨hmem | hmem, hle⟩
              · exact hmem
              · have hlt := hlater a hmem
                rw [UInt64.le_iff_toNat_le] at hle
                rw [UInt64.lt_iff_toNat_lt] at hlt
                omega

/-- What a call does: the timers taken out are fired, those that recur are put back. -/
theorem Ordered.listExpiredCb_spec {m : TimerManager} (h : m.Ordered) (now_ms : UInt64)
    (tmp : Nat) :
    (m.expired now_ms tmp).Sublist m.m_timers ∧
      (m.listExpiredCb now_ms tmp).1 = (m.expired now_ms tmp).map (callback m.heap) ∧
      (∀ a ∈ m.expired now_ms tmp,
        (m.listExpiredCb now_ms tmp).2.heap a = (m.heap a).map (fired now_ms)) ∧
      (∀ a, a ∉ m.expired now_ms tmp → (m.listExpiredCb now_ms tmp).2.heap a = m.heap a) ∧
      (∀ a, a ∈ (m.listExpiredCb now_ms tmp).2.m_timers ↔
        a ∈ m.m_timers ∧ (a ∈ m.expired now_ms tmp → recurs m.heap a = true)) ∧
      (m.listExpiredCb now_ms tmp).2.m_tickled = m.m_tickled := by
  cases hts : m.m_timers with
  | nil => simp [TimerManager.listExpiredCb, expired, hts]
  | cons first rest =>
      rw [TimerManager.listExpiredCb, expired]
      simp only [hts]
      generalize hroll : (m.detectColckRollover now_ms).1 = rollover
      by_cases hearly : rollover = false ∧ nextOf m.heap first > now_ms
      · have hsnd : (m.detectColckRollover now_ms).2.heap = m.heap ∧
            (m.detectColckRollover now_ms).2.m_timers = first :: rest := ⟨rfl, hts⟩
        simp only [hsnd.1, if_pos hearly, hsnd.2]
        refine ⟨List.nil_sublist _, rfl, ?_⟩
        simp [detectColckRollover]
      · have hcut := m.splitDue_append rollover now_ms tmp
        have hsub : (m.splitDue rollover now_ms tmp).1.Sublist m.m_timers := by
          rw [← hcut]; exact List.sublist_append_left _ _
        have hnodup := Sorted.nodup h.sorted
        obtain ⟨hcbs, hswept⟩ := collect_spec now_ms
          (m := { m with
            m_previousTime := now_ms, m_timers := (m.splitDue rollover now_ms tmp).2 })
          (hnodup.sublist hsub) (fun a ha => h.allocated a (hsub.subset ha))
        have hsplit : (m.detectColckRollover now_ms).2.splitDue rollover now_ms tmp =
          m.splitDue rollover now_ms tmp := rfl
        simp only [hsplit]
        rw [if_neg (show ¬(rollover = false ∧
          nextOf (m.detectColckRollover now_ms).2.heap first > now_ms) from hearly), if_neg hearly]
        refine ⟨hts ▸ hsub, hcbs, hswept.heap, hswept.rest, fun a => ?_, hswept.tickled⟩
        rw [← hcut] at hnodup
        obtain ⟨_, _, hdisj⟩ := List.nodup_append.mp hnodup
        refine (hswept.timers a).trans ?_
        rw [← hts, ← hcut, List.mem_append]
        constructor
        · rintro (hleft | ⟨hmem, hrec⟩)
          · exact ⟨Or.inr hleft, fun hmem => absurd rfl (hdisj a hmem a hleft)⟩
          · exact ⟨Or.inl hmem, fun _ => hrec⟩
        · rintro ⟨hmem | hleft, hrec⟩
          · exact Or.inr ⟨hmem, hrec hmem⟩
          · exact Or.inl hleft

/-! ## The set and the callbacks -/

/-- The timers in the set are those with a callback. -/
structure Live (m : TimerManager) : Prop where
  ordered : m.Ordered
  armed : ∀ a, a ∈ m.m_timers ↔ m.Armed a

theorem new_live (now : UInt64) : (new now).Live :=
  ⟨new_ordered now, fun _ => by simp [new, Armed, callback]⟩

/-- The operation does not register a null callback. -/
def NonNull : Act → Prop
  | .addTimer _ _ _ cb _ => cb.isSome = true
  | _ => True

instance decidableNonNull : DecidablePred NonNull
  | .addTimer _ _ _ _ _ => inferInstanceAs (Decidable (_ = _))
  | .cancel _ => .isTrue trivial
  | .refresh _ _ => .isTrue trivial
  | .reset _ _ _ _ => .isTrue trivial
  | .getNextTimer _ => .isTrue trivial
  | .listExpiredCb _ _ => .isTrue trivial

theorem Live.rearmed {m m' : TimerManager} (h : m.Live) {a : Nat} {t : Timer}
    (hr : Rearmed m m' a t) (hcb : t.m_cb.isSome = true) : ∀ b, b ∈ m'.m_timers ↔ m'.Armed b := by
  intro b
  rw [hr.timers, Armed, hr.heap]
  by_cases hba : b = a
  · subst hba
    simp [callback, hcb]
  · rw [callback_update_ne hba, ← Armed, ← h.armed]
    exact ⟨fun hb => hb.resolve_left hba, Or.inr⟩

theorem Live.callback_isSome {m : TimerManager} (h : m.Live) {a : Nat} {t : Timer}
    (ht : m.heap a = some t) (ha : a ∈ m.m_timers) : t.m_cb.isSome = true := by
  have harmed := (h.armed a).mp ha
  rwa [Armed, callback_of_heap ht] at harmed

theorem callback_fired (now_ms : UInt64) (t : Timer) :
    (fired now_ms t).m_cb = if t.m_recurring then t.m_cb else none := by
  rw [fired]
  cases t.m_recurring <;> rfl

theorem recurring_fired (now_ms : UInt64) (t : Timer) :
    (fired now_ms t).m_recurring = t.m_recurring := by
  rw [fired]
  split <;> rfl

theorem Live.listExpiredCb {m : TimerManager} (h : m.Live) (now_ms : UInt64) (tmp : Nat) :
    (m.listExpiredCb now_ms tmp).2.Live := by
  obtain ⟨_, _, hheap, hrest, htimers, _⟩ := h.ordered.listExpiredCb_spec now_ms tmp
  refine ⟨h.ordered.listExpiredCb now_ms tmp, fun a => ?_⟩
  rw [htimers, h.armed, Armed, Armed]
  by_cases ha : a ∈ m.expired now_ms tmp
  · rw [callback, callback, recurs, hheap a ha]
    cases ht : m.heap a with
    | none => simp
    | some t => cases hrec : t.m_recurring <;> simp [ha, callback_fired, hrec]
  · rw [callback, callback, hrest a ha]
    simp [ha]

theorem Live.step {m m' : TimerManager} {act : Act} (h : m.Live) (hcb : NonNull act)
    (hstep : TimerManager.step m act = some m') : m'.Live := by
  refine ⟨h.ordered.step hstep, ?_⟩
  cases h.ordered.step_effect hstep with
  | same _ _ _ hm => rw [hm]; exact h.armed
  | asked => exact h.armed
  | added _ hr _ => exact h.rearmed hr hcb
  | @cancelled a t m' ht _ hheap htimers _ _ =>
      intro b
      rw [htimers, Armed, hheap]
      by_cases hba : b = a
      · subst hba
        simp [callback]
      · rw [callback_update_ne hba, ← Armed, ← h.armed]
        exact ⟨And.right, fun hb => ⟨hba, hb⟩⟩
  | refreshed ht hmem hr _ =>
      have hsome := h.callback_isSome ht hmem
      exact h.rearmed hr hsome
  | moved ht hmem hr _ =>
      have hsome := h.callback_isSome ht hmem
      exact h.rearmed hr hsome
  | swept => exact (h.listExpiredCb _ _).armed

/-! ## One sweep -/

/-- A sweep is right just when it is no false rollover. -/
theorem Live.sweeps_iff {m : TimerManager} (h : m.Live) (now_ms : UInt64) (tmp : Nat) :
    Sweeps m (m.listExpiredCb now_ms tmp).2 now_ms (m.expired now_ms tmp)
        (m.listExpiredCb now_ms tmp).1 ↔
      ¬m.FalseRollover (.listExpiredCb now_ms tmp) := by
  constructor
  · rintro hsweeps ⟨hearly, hback, a, ha, hlater⟩
    have hmem := (h.ordered.mem_expired now_ms tmp a).mpr
      ⟨ha, Or.inl ((rollover_of_early hearly now_ms).mpr hback)⟩
    rw [UInt64.lt_iff_toNat_lt] at hlater
    rcases ((hsweeps.exact a).mp hmem).2 with hrolled | hle
    · rw [RolledBack] at hrolled
      omega
    · rw [UInt64.le_iff_toNat_le] at hle
      omega
  · intro hnot
    obtain ⟨hsub, hcbs, hheap, hrest, htimers, _⟩ := h.ordered.listExpiredCb_spec now_ms tmp
    have hlive := h.listExpiredCb now_ms tmp
    refine ⟨hcbs, fun a => ?_, (Sorted.nodup h.ordered.sorted).sublist hsub, ?_, hrest, ?_, ?_,
      Sorted.nodup hlive.ordered.sorted, hlive.armed⟩
    · rw [h.ordered.mem_expired, h.armed]
      refine and_congr_right fun ha => ?_
      rcases Nat.lt_or_ge m.m_previousTime.toNat (60 * 60 * 1000) with hearly | hlate
      · rw [rollover_of_early hearly]
        constructor
        · rintro (hback | hle)
          · refine Or.inr (UInt64.not_lt.mp fun hlater => ?_)
            exact hnot ⟨hearly, hback, a, (h.armed a).mpr ha, hlater⟩
          · exact Or.inr hle
        · rintro (hrolled | hle)
          · rw [RolledBack] at hrolled
            omega
          · exact Or.inr hle
      · rw [rollover_of_late hlate]
    · refine (h.ordered.sorted.sublist hsub).imp fun hab => ?_
      rw [less_eq_true] at hab
      rw [UInt64.le_iff_toNat_le]
      omega
    · intro a ha t ht hrec
      rw [hheap a ha, ht, Option.map_some, fired, if_pos hrec]
    · intro a ha t ht hrec
      rw [hheap a ha, ht, Option.map_some, fired, hrec, if_neg Bool.false_ne_true]

/-! ## Runs -/

/-- What a run has done to timers. -/
inductive Event where
  /-- `listExpiredCb` has delivered the callback. -/
  | fired (a : Nat)
  /-- `cancel` has returned true. -/
  | cancelled (a : Nat)
deriving DecidableEq, Repr

/-- What an operation does, the last first. -/
def events (m : TimerManager) : Act → List Event
  | .cancel a =>
      match (m.heap a).bind (m.cancel a) with
      | some (true, _) => [.cancelled a]
      | _ => []
  | .listExpiredCb now_ms tmp => (m.expired now_ms tmp).reverse.map .fired
  | _ => []

/-- A manager and what has been done since the start, the last first. -/
structure Recorded where
  m : TimerManager
  log : List Event

namespace Recorded

/-- Before the first call, at a time. -/
def start (now : UInt64) : Recorded := ⟨new now, []⟩

/-- A step, and what it does to the timers. -/
def step (r : Recorded) (act : Act) : Option Recorded :=
  (r.m.step act).map fun m => ⟨m, r.m.events act ++ r.log⟩

/-- No one-shot timer has fired twice, and none after it was cancelled. -/
structure History (r : Recorded) : Prop where
  once : ∀ a t, r.m.heap a = some t → t.m_recurring = false → r.log.count (.fired a) ≤ 1
  cancelled : r.log.Pairwise fun later earlier =>
    ∀ a, earlier = .cancelled a → later ≠ .fired a

/-- Every sweep is right. -/
def Delivers (r : Recorded) (act : Act) (r' : Recorded) : Prop :=
  ∀ now_ms tmp, act = .listExpiredCb now_ms tmp →
    Sweeps r.m r'.m now_ms (r.m.expired now_ms tmp) (r.m.listExpiredCb now_ms tmp).1

/-- A one-shot timer that has fired and a timer that was cancelled have no callback. -/
structure Kept (r : Recorded) : Prop where
  live : r.m.Live
  spent : ∀ a, .fired a ∈ r.log →
    ∃ t, r.m.heap a = some t ∧ (t.m_recurring = false → t.m_cb = none)
  dead : ∀ a, .cancelled a ∈ r.log → ∃ t, r.m.heap a = some t ∧ t.m_cb = none
  history : History r

theorem start_kept (now : UInt64) : Kept (start now) where
  live := new_live now
  spent := fun _ h => by simp [start] at h
  dead := fun _ h => by simp [start] at h
  history := ⟨fun _ _ _ _ => Nat.zero_le _, List.Pairwise.nil⟩

end Recorded

/-- A timer stays what it is, and one without a callback gets none. -/
theorem Live.keeps {m m' : TimerManager} {act : Act} (h : m.Live)
    (hstep : TimerManager.step m act = some m') {a : Nat} {t : Timer} (ht : m.heap a = some t) :
    ∃ t', m'.heap a = some t' ∧ t'.m_recurring = t.m_recurring ∧
      (t.m_cb = none → t'.m_cb = none) := by
  -- a timer that is changed keeps its kind and its callback, or loses it
  have hupdate : ∀ {b : Nat} {u u' : Timer}, m.heap b = some u →
      m'.heap = Function.update m.heap b (some u') → u'.m_recurring = u.m_recurring →
      (u.m_cb = none → u'.m_cb = none) → ∃ t', m'.heap a = some t' ∧
        t'.m_recurring = t.m_recurring ∧ (t.m_cb = none → t'.m_cb = none) := by
    intro b u u' hu hheap hrec hcb
    by_cases hab : a = b
    · subst hab
      rw [hu] at ht
      cases Option.some.inj ht
      exact ⟨u', by rw [hheap, Function.update_self], hrec, hcb⟩
    · exact ⟨t, by rw [hheap, Function.update_of_ne hab, ht], rfl, id⟩
  cases h.ordered.step_effect hstep with
  | same _ _ _ hm => exact ⟨t, by rw [hm, ht], rfl, id⟩
  | asked => exact ⟨t, ht, rfl, id⟩
  | @added now ms b cb recurring m' hfree hr _ =>
      have hab : a ≠ b := fun hab => by rw [hab, hfree] at ht; simp at ht
      exact ⟨t, by rw [hr.heap, Function.update_of_ne hab, ht], rfl, id⟩
  | cancelled hu _ hheap _ _ _ => exact hupdate hu hheap rfl fun _ => rfl
  | refreshed hu _ hr _ => exact hupdate hu hr.heap rfl id
  | moved hu _ hr _ => exact hupdate hu hr.heap rfl id
  | @swept now_ms tmp =>
      obtain ⟨_, _, hheap, hrest, _, _⟩ := h.ordered.listExpiredCb_spec now_ms tmp
      by_cases ha : a ∈ m.expired now_ms tmp
      · refine ⟨fired now_ms t, by rw [hheap a ha, ht]; rfl, recurring_fired now_ms t, ?_⟩
        intro hcb
        rw [callback_fired, hcb, ite_self]
      · exact ⟨t, by rw [hrest a ha, ht], rfl, id⟩

/-- A timer after an operation: it is new, or it was there.  Then it has its callback or none
any more, and one that does not recur is due when it was, unless the operation has moved it. -/
theorem Ordered.timer_cases {m m' : TimerManager} {act : Act} (h : m.Ordered)
    (hstep : TimerManager.step m act = some m') {a : Nat} {t' : Timer}
    (ht' : m'.heap a = some t') :
    (∃ now ms cb recurring, act = .addTimer now a ms cb recurring ∧
        t' = ⟨recurring, ms, now + ms, cb⟩) ∨
      ∃ t, m.heap a = some t ∧ (t'.m_cb = t.m_cb ∨ t'.m_cb = none) ∧
        t'.m_recurring = t.m_recurring ∧
        (t.m_recurring = false → (∀ now, act ≠ .refresh now a) →
          (∀ now ms from_now, act ≠ .reset now a ms from_now) → t'.m_next = t.m_next) := by
  cases h.step_effect hstep with
  | same _ _ _ hm =>
      rw [hm] at ht'
      exact Or.inr ⟨t', ht', Or.inl rfl, rfl, fun _ _ _ => rfl⟩
  | asked => exact Or.inr ⟨t', ht', Or.inl rfl, rfl, fun _ _ _ => rfl⟩
  | @added now ms b cb recurring m' _ hr _ =>
      rw [hr.heap, Function.update_apply] at ht'
      split at ht'
      next hab =>
        cases Option.some.inj ht'
        exact Or.inl ⟨now, ms, cb, recurring, by rw [hab], rfl⟩
      next => exact Or.inr ⟨t', ht', Or.inl rfl, rfl, fun _ _ _ => rfl⟩
  | @cancelled b t m' ht _ hheap _ _ _ =>
      rw [hheap, Function.update_apply] at ht'
      split at ht'
      next hab =>
        cases Option.some.inj ht'
        exact Or.inr ⟨t, by rw [hab, ht], Or.inr rfl, rfl, fun _ _ _ => rfl⟩
      next => exact Or.inr ⟨t', ht', Or.inl rfl, rfl, fun _ _ _ => rfl⟩
  | @refreshed now b t m' ht _ hr _ =>
      rw [hr.heap, Function.update_apply] at ht'
      split at ht'
      next hab =>
        cases Option.some.inj ht'
        exact Or.inr ⟨t, by rw [hab, ht], Or.inl rfl, rfl,
          fun _ hne => absurd (by rw [hab]) (hne now)⟩
      next => exact Or.inr ⟨t', ht', Or.inl rfl, rfl, fun _ _ _ => rfl⟩
  | @moved now ms b from_now t m' ht _ hr _ =>
      rw [hr.heap, Function.update_apply] at ht'
      split at ht'
      next hab =>
        cases Option.some.inj ht'
        exact Or.inr ⟨t, by rw [hab, ht], Or.inl rfl, rfl,
          fun _ _ hne => absurd (by rw [hab]) (hne now ms from_now)⟩
      next => exact Or.inr ⟨t', ht', Or.inl rfl, rfl, fun _ _ _ => rfl⟩
  | @swept now_ms tmp =>
      obtain ⟨_, _, hheap, hrest, _, _⟩ := h.listExpiredCb_spec now_ms tmp
      by_cases ha : a ∈ m.expired now_ms tmp
      · rw [hheap a ha] at ht'
        obtain ⟨t, ht, rfl⟩ := Option.map_eq_some_iff.mp ht'
        refine Or.inr ⟨t, ht, ?_, recurring_fired now_ms t, fun hrec _ _ => ?_⟩
        · rw [callback_fired]
          split
          · exact Or.inl rfl
          · exact Or.inr rfl
        · rw [fired, hrec]
          rfl
      · rw [hrest a ha] at ht'
        exact Or.inr ⟨t', ht', Or.inl rfl, rfl, fun _ _ _ => rfl⟩

/-- What an operation does is done to armed timers, to each at most once, and leaves a one-shot
or cancelled timer without a callback. -/
theorem Live.events_spec {m m' : TimerManager} {act : Act} (h : m.Live)
    (hstep : TimerManager.step m act = some m') :
    (m.events act).Nodup ∧
      (∀ a, .fired a ∈ m.events act → m.Armed a ∧
        ∃ t, m'.heap a = some t ∧ (t.m_recurring = false → t.m_cb = none)) ∧
      (∀ a, .cancelled a ∈ m.events act → m.events act = [.cancelled a] ∧
        ∃ t, m'.heap a = some t ∧ t.m_cb = none) := by
  cases act with
  | cancel a =>
      cases h.ordered.step_effect hstep with
      | same _ _ hnone _ =>
          have hevents : m.events (.cancel a) = [] := by
            have hcb := hnone a rfl
            rw [events]
            cases ht : m.heap a with
            | none => rfl
            | some t =>
                rw [callback_of_heap ht] at hcb
                simp [TimerManager.cancel, hcb]
          simp [hevents]
      | @cancelled a t m' ht hcb hheap _ _ _ =>
          have hgone : m'.heap a = some { t with m_cb := none } := by
            rw [hheap, Function.update_self]
          rw [events]
          split
          · simp [hgone]
          · simp
  | listExpiredCb now_ms tmp =>
      obtain ⟨hsub, _, hheap, _, _, _⟩ := h.ordered.listExpiredCb_spec now_ms tmp
      cases h.ordered.step_effect hstep with
      | same hnot _ _ _ => exact absurd rfl (hnot now_ms tmp)
      | swept =>
          refine ⟨?_, fun a ha => ?_, fun a ha => by simp [events] at ha⟩
          · refine (List.nodup_reverse.mpr ((Sorted.nodup h.ordered.sorted).sublist hsub)).map ?_
            exact fun _ _ heq => Event.fired.inj heq
          · have hmem : a ∈ m.expired now_ms tmp := by simpa [events] using ha
            have harmed := (h.armed a).mp (hsub.subset hmem)
            obtain ⟨t, ht⟩ := Option.isSome_iff_exists.mp
              (h.ordered.allocated a (hsub.subset hmem))
            refine ⟨harmed, fired now_ms t, by rw [hheap a hmem, ht]; rfl, fun hrec => ?_⟩
            rw [recurring_fired] at hrec
            rw [callback_fired, hrec, if_neg Bool.false_ne_true]
  | addTimer _ _ _ _ _ => simp [events]
  | refresh _ _ => simp [events]
  | reset _ _ _ _ => simp [events]
  | getNextTimer _ => simp [events]

namespace Recorded

theorem Kept.step {r r' : Recorded} {act : Act} (h : r.Kept) (hcb : NonNull act)
    (hstep : r.step act = some r') : r'.Kept := by
  obtain ⟨m', hm, rfl⟩ := Option.map_eq_some_iff.mp hstep
  obtain ⟨hnodup, hfired, hcancelled⟩ := h.live.events_spec hm
  refine ⟨h.live.step hcb hm, fun a ha => ?_, fun a ha => ?_, fun a t ht hrec => ?_, ?_⟩
  · rcases List.mem_append.mp ha with hnew | hold
    · exact (hfired a hnew).2
    · obtain ⟨t, ht, hspent⟩ := h.spent a hold
      obtain ⟨t', ht', hkind, hnone⟩ := h.live.keeps hm ht
      exact ⟨t', ht', fun hrec => hnone (hspent (hkind ▸ hrec))⟩
  · rcases List.mem_append.mp ha with hnew | hold
    · exact (hcancelled a hnew).2
    · obtain ⟨t, ht, hdead⟩ := h.dead a hold
      obtain ⟨t', ht', _, hnone⟩ := h.live.keeps hm ht
      exact ⟨t', ht', hnone hdead⟩
  · show (r.m.events act ++ r.log).count (.fired a) ≤ 1
    rw [List.count_append]
    by_cases hnew : .fired a ∈ r.m.events act
    · -- what fires now is armed, so it has not fired before
      have hold : .fired a ∉ r.log := by
        intro hold
        obtain ⟨t₀, ht₀, hspent⟩ := h.spent a hold
        obtain ⟨t', ht', hkind, _⟩ := h.live.keeps hm ht₀
        rw [show m'.heap a = some t from ht] at ht'
        cases Option.some.inj ht'
        have harmed := (hfired a hnew).1
        rw [Armed, callback_of_heap ht₀, hspent (hkind ▸ hrec)] at harmed
        simp at harmed
      rw [List.count_eq_zero.mpr hold]
      exact List.nodup_iff_count_le_one.mp hnodup _
    · rw [List.count_eq_zero.mpr hnew, Nat.zero_add]
      by_cases hold : .fired a ∈ r.log
      · obtain ⟨t₀, ht₀, _⟩ := h.spent a hold
        obtain ⟨t', ht', hkind, _⟩ := h.live.keeps hm ht₀
        rw [show m'.heap a = some t from ht] at ht'
        cases Option.some.inj ht'
        exact h.history.once a t₀ ht₀ (hkind ▸ hrec)
      · rw [List.count_eq_zero.mpr hold]
        exact Nat.zero_le 1
  · refine List.pairwise_append.mpr ⟨?_, h.history.cancelled, ?_⟩
    · refine hnodup.imp_of_mem fun {x y} hx hy hne a hya => ?_
      subst hya
      rw [(hcancelled a hy).1, List.mem_singleton] at hx
      exact absurd hx hne
    · rintro x hx y hy a rfl rfl
      obtain ⟨t, ht, hdead⟩ := h.dead a hy
      have harmed := (hfired a hx).1
      rw [Armed, callback_of_heap ht, hdead] at harmed
      simp at harmed

/-- In a run that registers no null callback, every sweep is right and no timer fires when it
should not, exactly when the run has no false rollover. -/
theorem delivers_iff {t₀ : UInt64} {as : List Act} (hcb : ∀ act ∈ as, NonNull act) :
    Along step Delivers (start t₀) as ∧ Throughout step History (start t₀) as ↔
      Along step (fun r act _ => ¬r.m.FalseRollover act) (start t₀) as := by
  have hhistory : Throughout step History (start t₀) as :=
    (throughout_of_invariant (fun _ _ _ hnn h hstep => h.step hnn hstep) hcb
      (start_kept t₀)).mono fun _ h => h.history
  have hsteps : Along step (fun r act r' => Delivers r act r' ↔ ¬r.m.FalseRollover act)
      (start t₀) as := by
    refine along_of_invariant (fun _ _ _ hnn h hstep => Kept.step h hnn hstep) ?_ hcb
      (start_kept t₀)
    intro r act r' _ h hstep
    obtain ⟨m', hm, rfl⟩ := Option.map_eq_some_iff.mp hstep
    cases act with
    | listExpiredCb now_ms tmp =>
        simp only [TimerManager.step, Option.ite_none_left_eq_some, Option.some.injEq] at hm
        obtain ⟨_, rfl⟩ := hm
        rw [← h.live.sweeps_iff now_ms tmp]
        refine ⟨fun hd => hd now_ms tmp rfl, ?_⟩
        rintro hs _ _ ⟨⟩
        exact hs
    | _ => exact ⟨fun _ => id, fun _ _ _ heq => by simp at heq⟩
  rw [hsteps.congr]
  exact and_iff_left hhistory

/-- A one-shot and a recurring timer, swept twice, and the recurring one cancelled. -/
def oneShotAndRecurring : List Act :=
  [.addTimer 100 0 10 (some 1) false, .addTimer 100 1 20 (some 2) true, .listExpiredCb 115 2,
    .listExpiredCb 130 2, .cancel 1]

/-- The clock does not go back, and every sweep is right. -/
theorem delivers_oneShotAndRecurring :
    Along step Delivers (start 100) oneShotAndRecurring ∧
      Throughout step History (start 100) oneShotAndRecurring := by
  have hrule : Along step (fun r act _ => ¬r.m.FalseRollover act) (start 100)
      oneShotAndRecurring := by
    decide +kernel
  exact (delivers_iff (by decide)).mpr hrule

/-- A timer due in ten seconds, and a sweep after the clock went back by a millisecond. -/
def backInTheFirstHour : List Act :=
  [.addTimer 1000 0 10000 (some 1) false, .listExpiredCb 999 1]

/-- The sweep delivers the timer. -/
theorem not_delivers_backInTheFirstHour :
    ¬∀ t₀ as, (∀ act ∈ as, NonNull act) →
      Along step Delivers (start t₀) as ∧ Throughout step History (start t₀) as := by
  intro h
  obtain ⟨⟨_, hdelivers, _⟩, _⟩ := h 1000 backInTheFirstHour (by decide)
  have hsweeps := hdelivers 999 1 rfl
  rcases ((hsweeps.exact 0).mp (by decide)).2 with hrolled | hle
  · exact absurd hrolled (by decide)
  · exact absurd hle (by decide)

end Recorded

end TimerManager

end Muqiu
