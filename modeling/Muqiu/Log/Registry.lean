import Muqiu.Log.Effects

/-!
# The registry of the logger manager

`getLogger` enters a new logger for a name it does not know, and returns the root logger.  The
logger it enters has no root: `getRoot() = m_root` sets a copy of the pointer.  So the calls
agree with one another only as long as they ask for the root logger (`registry_coherent_iff`).
-/

namespace Muqiu.Log

open Json (Text ascii)

/-- Calls of `getLogger` one after the other, with the loggers they return. -/
def getLoggers : List Text → World → Except Fault (List Nat × World)
  | [], w => .ok ([], w)
  | name :: names, w =>
      (getLogger name w).bind fun r =>
        (getLoggers names r.2).map fun rs => (r.1 :: rs.1, rs.2)

/-- Every call returns a logger of its name, calls return the same logger exactly for the same
name, and every other logger of the registry has the root logger for its root. -/
structure Coherent (names : List Text) (results : List Nat) (w : World) : Prop where
  named : ∀ c ∈ names.zip results, ∃ l, w.loggers[c.2]? = some l ∧ l.m_name = c.1
  same : ∀ c ∈ names.zip results, ∀ c' ∈ names.zip results, c.1 = c'.1 ↔ c.2 = c'.2
  root : ∀ e ∈ w.m_loggers, e.2 ≠ w.m_root →
    ∃ l, w.loggers[e.2]? = some l ∧ l.m_root = some w.m_root

/-- The registry has the root logger, and loggers of their names without a root. -/
structure Registered (w : World) : Prop where
  free : w.held = []
  root : w.m_loggers.lookup (ascii "root") = some w.m_root
  entry : ∀ e ∈ w.m_loggers, ∃ l, w.loggers[e.2]? = some l ∧ l.m_name = e.1 ∧ l.m_root = none

/-! ## Calls -/

theorem mem_of_lookup_eq {name : Text} {n : Nat} :
    ∀ {es : List (Text × Nat)}, es.lookup name = some n → (name, n) ∈ es
  | (k, m) :: es, h => by
      rw [List.lookup_cons] at h
      cases heq : name == k with
      | true =>
          rw [heq] at h
          cases Option.some.inj h
          rw [beq_iff_eq.mp heq]
          exact List.mem_cons_self
      | false =>
          rw [heq] at h
          exact List.mem_cons_of_mem _ (mem_of_lookup_eq h)

theorem getElem?_withLogger {name : Text} {w : World} {n : Nat} {l : Logger}
    (h : w.loggers[n]? = some l) : (withLogger name w).loggers[n]? = some l := by
  have hlt : n < w.loggers.length := (List.getElem?_eq_some_iff.mp h).1
  rw [withLogger, List.getElem?_append_left hlt, h]

theorem getElem?_withLogger_new (name : Text) (w : World) :
    ∃ l, (withLogger name w).loggers[w.loggers.length]? = some l ∧ l.m_name = name ∧
      l.m_root = none :=
  ⟨_, getElem?_concat_self w.loggers [] _, rfl, rfl⟩

/-- The manager starts with the root logger. -/
theorem newManager_registered {w : World} (h : w.held = []) :
    ∃ w', newManager w = .ok w' ∧ Registered w' ∧
      w'.m_loggers = [(ascii "root", w'.m_root)] := by
  have hnew : newLogger (ascii "root") w = .ok (withLogger (ascii "root") w) :=
    newLogger_eq (by rw [h]; exact List.not_mem_nil)
  have hman : newManager w = .ok { withLogger (ascii "root") w with
      m_root := w.loggers.length, m_loggers := [(ascii "root", w.loggers.length)] } := by
    rw [newManager, hnew]
    rfl
  refine ⟨_, hman, ⟨h, rfl, ?_⟩, rfl⟩
  intro e he
  rw [List.mem_singleton.mp he]
  exact getElem?_withLogger_new (ascii "root") w

/-- A call keeps what is registered and leaves a logger of the name in the registry. -/
theorem getLogger_spec {w : World} (h : Registered w) (name : Text) :
    ∃ r, getLogger name w = .ok r ∧ Registered r.2 ∧ (∀ e ∈ w.m_loggers, e ∈ r.2.m_loggers) ∧
      ∃ n, (name, n) ∈ r.2.m_loggers := by
  rw [getLogger]
  cases hfind : w.m_loggers.lookup name with
  | some n => exact ⟨(n, w), rfl, h, fun _ he => he, n, mem_of_lookup_eq hfind⟩
  | none =>
      have hnew : newLogger name w = .ok (withLogger name w) :=
        newLogger_eq (by rw [h.free]; exact List.not_mem_nil)
      rw [hnew]
      refine ⟨_, rfl, ⟨h.free, ?_, ?_⟩, fun e he => List.mem_cons_of_mem _ he,
        w.loggers.length, List.mem_cons_self⟩
      · have hne : (ascii "root" == name) = false := beq_false_of_ne fun heq => by
          rw [← heq, h.root] at hfind
          cases hfind
        change List.lookup (ascii "root") ((name, w.loggers.length) :: w.m_loggers) = _
        rw [List.lookup_cons, hne]
        exact h.root
      · intro e he
        rcases List.mem_cons.mp he with rfl | hold
        · exact getElem?_withLogger_new name w
        · obtain ⟨l, hl, hspec⟩ := h.entry e hold
          exact ⟨l, getElem?_withLogger hl, hspec⟩

/-- After some calls the registry has a logger of every name that was asked for. -/
theorem getLoggers_spec : ∀ (names : List Text) {w : World}, Registered w →
    ∃ rs, getLoggers names w = .ok rs ∧ Registered rs.2 ∧
      (∀ e ∈ w.m_loggers, e ∈ rs.2.m_loggers) ∧ ∀ name ∈ names, ∃ n, (name, n) ∈ rs.2.m_loggers
  | [], w, h => ⟨([], w), rfl, h, fun _ he => he, fun _ hn => by cases hn⟩
  | name :: names, w, h => by
      obtain ⟨r, hr, hreg, hkeep, n, hn⟩ := getLogger_spec h name
      obtain ⟨rs, hrs, hreg', hkeep', hnames⟩ := getLoggers_spec names hreg
      refine ⟨(r.1 :: rs.1, rs.2), ?_, hreg', fun e he => hkeep' e (hkeep e he), fun k hk => ?_⟩
      · rw [getLoggers, hr]
        change (getLoggers names r.2).map _ = _
        rw [hrs]
        rfl
      · rcases List.mem_cons.mp hk with rfl | hmem
        · exact ⟨n, hkeep' _ hn⟩
        · exact hnames k hmem

/-- Calls for the root logger return it and change nothing. -/
theorem getLoggers_root {w : World} (h : Registered w) :
    ∀ {names : List Text}, (∀ n ∈ names, n = ascii "root") →
      getLoggers names w = .ok (names.map fun _ => w.m_root, w)
  | [], _ => rfl
  | name :: names, hroot => by
      have hname := hroot name List.mem_cons_self
      have hrest := getLoggers_root h fun n hn => hroot n (List.mem_cons_of_mem name hn)
      have hcall : getLogger name w = .ok (w.m_root, w) := by
        rw [getLogger, hname, h.root]
      rw [getLoggers, hcall]
      change (getLoggers names w).map _ = _
      rw [hrest]
      rfl

/-- From a new manager on, calls of `getLogger` agree with one another exactly when all of them
ask for the root logger. -/
theorem registry_coherent_iff (w₀ : World) (names : List Text) :
    ∃ w results w', newManager { w₀ with held := [] } = .ok w ∧
      getLoggers names w = .ok (results, w') ∧
      (Coherent names results w' ↔ ∀ n ∈ names, n = ascii "root") := by
  obtain ⟨w, hw, hreg, honly⟩ := newManager_registered (w := { w₀ with held := [] }) rfl
  obtain ⟨⟨results, w'⟩, hrs, hreg', _, hnames⟩ := getLoggers_spec names hreg
  refine ⟨w, results, w', hw, hrs, ?_, ?_⟩
  · intro h name hname
    -- a logger of another name is no root logger, and has no root
    obtain ⟨n, hn⟩ := hnames name hname
    obtain ⟨l, hl, hlname, hlroot⟩ := hreg'.entry _ hn
    by_contra hne
    obtain ⟨l₀, hl₀, hl₀name, _⟩ := hreg'.entry _ (mem_of_lookup_eq hreg'.root)
    have hnroot : n ≠ w'.m_root := by
      rintro rfl
      rw [hl₀] at hl
      cases Option.some.inj hl
      exact hne (hlname.symm.trans hl₀name)
    obtain ⟨l', hl', hroot⟩ := h.root _ hn hnroot
    rw [hl] at hl'
    cases Option.some.inj hl'
    rw [hlroot] at hroot
    cases hroot
  · intro hroot
    rw [getLoggers_root hreg hroot] at hrs
    cases Except.ok.inj hrs
    obtain ⟨l, hl, hlname, _⟩ := hreg.entry _ (mem_of_lookup_eq hreg.root)
    have hcall : ∀ c ∈ names.zip (names.map fun _ => w.m_root),
        c.1 = ascii "root" ∧ c.2 = w.m_root := by
      intro c hc
      obtain ⟨hc₁, hc₂⟩ := List.of_mem_zip hc
      obtain ⟨_, _, heq⟩ := List.mem_map.mp hc₂
      exact ⟨hroot c.1 hc₁, heq.symm⟩
    refine ⟨fun c hc => ?_, fun c hc c' hc' => ?_, fun e he hne => ?_⟩
    · rw [(hcall c hc).1, (hcall c hc).2]
      exact ⟨l, hl, hlname⟩
    · rw [(hcall c hc).1, (hcall c hc).2, (hcall c' hc').1, (hcall c' hc').2]
      exact iff_of_true rfl rfl
    · rw [honly] at he
      rw [List.mem_singleton.mp he] at hne
      exact absurd rfl hne

/-- The first call for another name returns the root logger. -/
theorem firstCall_not_coherent :
    ∃ w results w', newManager {} = .ok w ∧ getLoggers [ascii "system"] w = .ok (results, w') ∧
      ¬ Coherent [ascii "system"] results w' := by
  refine ⟨_, _, _, rfl, rfl, fun h => ?_⟩
  obtain ⟨l, hl, hname⟩ := h.named (ascii "system", 0) List.mem_cons_self
  cases Option.some.inj hl
  revert hname
  decide

end Muqiu.Log
