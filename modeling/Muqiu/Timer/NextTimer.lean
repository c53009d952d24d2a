import Muqiu.Timer.Order

/-!
# When the next timer is due

`getNextTimer` is asked how long until the first timer is due, and answers with an unsigned
difference.  `NextTimerExact` is what the answer should be.  The code tests `now_ms` against
the due time for equality only, so an overdue timer makes the difference wrap, and one
overdue by a millisecond makes it `~0ull`, the answer for no timer at all.
-/

namespace Muqiu

open SortedSet

namespace TimerManager

/-- `e` is the due time of the armed timer due first. -/
def IsEarliest (m : TimerManager) (e : UInt64) : Prop :=
  (∃ a ∈ m.m_timers, nextOf m.heap a = e) ∧
    ∀ a ∈ m.m_timers, e.toNat ≤ (nextOf m.heap a).toNat

/-- The answer of `getNextTimer` is `~0ull` just when no timer is armed, zero when the first
timer is due, and the time until it is due otherwise. -/
structure NextTimerExact (m : TimerManager) (now : UInt64) : Prop where
  none : (m.getNextTimer now).1 = noTimer ↔ m.m_timers = []
  due : ∀ e, m.IsEarliest e → e.toNat ≤ now.toNat → (m.getNextTimer now).1 = 0
  ahead : ∀ e, m.IsEarliest e → now.toNat < e.toNat →
    (m.getNextTimer now).1.toNat = e.toNat - now.toNat

/-- No timer is armed, or the first one is not overdue and due before the end of time. -/
def InTime (m : TimerManager) (now : UInt64) : Prop :=
  m.m_timers = [] ∨
    ∃ e, m.IsEarliest e ∧ now.toNat ≤ e.toNat ∧ e.toNat - now.toNat ≠ UInt64.size - 1

/-- The first timer of the set is the earliest. -/
theorem Ordered.isEarliest {m : TimerManager} (h : m.Ordered) {a : Nat} {rest : List Nat}
    (hts : m.m_timers = a :: rest) {e : UInt64} :
    m.IsEarliest e ↔ e = nextOf m.heap a := by
  have hs := h.sorted
  rw [hts] at hs
  have hfirst : ∀ b ∈ m.m_timers, (nextOf m.heap a).toNat ≤ (nextOf m.heap b).toNat := by
    intro b hb
    rw [hts] at hb
    cases List.mem_cons.mp hb with
    | inl heq => exact Nat.le_of_eq (by rw [heq])
    | inr hmem =>
        have hless := less_eq_true.mp (hs.head hmem)
        omega
  constructor
  · rintro ⟨⟨b, hb, rfl⟩, hle⟩
    have hab := hle a (by rw [hts]; exact List.mem_cons_self)
    exact UInt64.toNat_inj.mp (Nat.le_antisymm hab (hfirst b hb))
  · rintro rfl
    exact ⟨⟨a, by rw [hts]; exact List.mem_cons_self, rfl⟩, hfirst⟩

theorem getNextTimer_nil {m : TimerManager} (h : m.m_timers = []) (now : UInt64) :
    (m.getNextTimer now).1 = noTimer := by
  simp [getNextTimer, h]

/-- With a timer armed the answer is the wrapped difference. -/
theorem getNextTimer_cons {m : TimerManager} {a : Nat} {rest : List Nat}
    (h : m.m_timers = a :: rest) (now : UInt64) :
    (m.getNextTimer now).1.toNat =
      (UInt64.size - now.toNat + (nextOf m.heap a).toNat) % UInt64.size := by
  simp only [getNextTimer, h]
  by_cases heq : now = nextOf m.heap a
  · rw [if_pos heq, heq]
    have hlt : (nextOf m.heap a).toNat < UInt64.size := (nextOf m.heap a).toNat_lt
    rw [Nat.sub_add_cancel (Nat.le_of_lt hlt), Nat.mod_self]
    rfl
  · rw [if_neg heq, UInt64.toNat_sub]

theorem nextTimerExact_iff {m : TimerManager} (h : m.Ordered) (now : UInt64) :
    m.NextTimerExact now ↔ m.InTime now := by
  cases hts : m.m_timers with
  | nil =>
      have hnone : ∀ e, ¬ m.IsEarliest e := by
        rintro e ⟨⟨a, ha, _⟩, _⟩
        rw [hts] at ha
        simp at ha
      refine ⟨fun _ => Or.inl hts, fun _ => ⟨?_, ?_, ?_⟩⟩
      · exact ⟨fun _ => hts, fun _ => getNextTimer_nil hts now⟩
      · exact fun e he => absurd he (hnone e)
      · exact fun e he => absurd he (hnone e)
  | cons a rest =>
      have hsize : UInt64.size = 18446744073709551616 := rfl
      have hval := getNextTimer_cons hts now
      rw [hsize] at hval
      have hnow : now.toNat < UInt64.size := now.toNat_lt
      have hnext : (nextOf m.heap a).toNat < UInt64.size := (nextOf m.heap a).toNat_lt
      have hne : m.m_timers ≠ [] := by rw [hts]; exact List.cons_ne_nil a rest
      have hmax : noTimer.toNat = UInt64.size - 1 := rfl
      constructor
      · intro hex
        right
        have hear : m.IsEarliest (nextOf m.heap a) := (h.isEarliest hts).mpr rfl
        have hle : now.toNat ≤ (nextOf m.heap a).toNat := by
          by_contra hlt
          have hzero := hex.due _ hear (by omega)
          rw [hzero, UInt64.toNat_zero] at hval
          omega
        refine ⟨_, hear, hle, fun hfar => hne (hex.none.mp ?_)⟩
        rw [← UInt64.toNat_inj, hval, hmax]
        omega
      · rintro (hnil | ⟨e, he, hle, hfar⟩)
        · exact absurd hnil hne
        · rw [h.isEarliest hts] at he
          subst he
          refine ⟨⟨fun heq => ?_, fun hnil => absurd hnil hne⟩, ?_, ?_⟩
          · rw [heq, hmax] at hval
            omega
          · intro e he hdue
            rw [h.isEarliest hts] at he
            subst he
            rw [← UInt64.toNat_inj, hval, UInt64.toNat_zero]
            omega
          · intro e he hlt
            rw [h.isEarliest hts] at he
            subst he
            rw [hval]
            omega

end TimerManager

end Muqiu
