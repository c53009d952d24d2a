import Mathlib.Data.List.Perm.Subperm
import Mathlib.Logic.Relation
import Muqiu.Log.Configure

/-!
# Mutexes that are locked twice

The public operations of the log module, each at the start of a call chain.  `setFormatter` with a
pattern calls the other `setFormatter` under the mutex they both lock, so a pattern without an
error ends in a deadlock, and the listener runs into it.  Writing an event locks a mutex twice
only where the root links go in a circle (`run_deadlock_iff`).
-/

namespace Muqiu.Log

open Json (Text ascii)
open Relation (ReflTransGen TransGen)

/-! ## Operations -/

/-- The public operations of loggers, appenders and the manager, and the listener. -/
inductive Op where
  | newLogger (name : Text)
  | log (n : Nat) (level : Level) (event : LogEvent)
  | addAppender (n a : Nat)
  | delAppender (n a : Nat)
  | setLevel (n : Nat) (level : Level)
  | clearAppenders (n : Nat)
  | setFormatter (n : Nat) (val : Option LogFormatter)
  | setFormatterPattern (n : Nat) (val : Text)
  | newAppender (sink : Sink)
  | appenderLog (a n : Nat) (level : Level) (event : LogEvent)
  | appenderFormatter (a : Nat) (val : Option LogFormatter)
  | appenderLevel (a : Nat) (level : Level)
  | newManager
  | getLogger (name : Text)
  | listener (old_value new_value : LogDefines)

/-- What an operation does. -/
def Op.run : Op → World → Outcome
  | .newLogger name, w => Log.newLogger name w
  | .log n level event, w => Log.log event level (logFuel w) n w
  | .addAppender n a, w => onLogger n (Logger.addAppender a) w
  | .delAppender n a, w => onLogger n (Logger.delAppender a) w
  | .setLevel n level, w => onLogger n (Logger.setLevel level) w
  | .clearAppenders n, w => onLogger n Logger.clearAppenders w
  | .setFormatter n val, w => Log.setFormatter n val w
  | .setFormatterPattern n val, w => Log.setFormatterPattern n val w
  | .newAppender sink, w => .ok (Log.newAppender sink w)
  | .appenderLog a n level event, w => Log.appenderLog a n level event w
  | .appenderFormatter a val, w => onAppender a (LogAppender.setFormatter val) w
  | .appenderLevel a level, w => onAppender a (fun p => { p with m_level := level }) w
  | .newManager, w => Log.newManager w
  | .getLogger name, w => (Log.getLogger name w).map Prod.snd
  | .listener old_value new_value, w => (Log.listener old_value new_value w).map Prod.snd

/-- A logger passes an event of a level on to its root. -/
def Forwards (loggers : List Logger) (level : Level) (n r : Nat) : Prop :=
  ∃ l, loggers[n]? = some l ∧ l.m_level.toNat ≤ level.toNat ∧ l.m_appenders = [] ∧
    l.m_root = some r

/-- The event comes to a logger that it comes back to. -/
def Circles (loggers : List Logger) (level : Level) (n : Nat) : Prop :=
  ∃ m, ReflTransGen (Forwards loggers level) n m ∧ TransGen (Forwards loggers level) m m

/-- The operations that lock a mutex twice: a pattern without an error is set, an event goes in
a circle, or the listener comes to a definition whose formatter it sets. -/
def Op.Relocks (w : World) : Op → Prop
  | .setFormatterPattern n val =>
      n < w.loggers.length ∧ (LogFormatter.ofPattern val).m_error = false
  | .log n level _ => Circles w.loggers level n
  | .listener old_value new_value => Log.Relocks (configured old_value new_value)
  | _ => False

/-! ## Call chains that give their mutexes back -/

/-- No mutex is locked twice, and those of `held` are held afterwards. -/
abbrev Keeps (held : List Mutex) (o : Outcome) : Prop :=
  Fallible.Ends (fun e => ∀ m, e ≠ .deadlock m) (fun w => w.held = held) o

theorem Keeps.no_deadlock {held : List Mutex} {o : Outcome} (h : Keeps held o) (m : Mutex) :
    o ≠ .error (.deadlock m) := by
  rintro rfl
  exact h m rfl

theorem keeps_null (held : List Mutex) : Keeps held (.error .null) := by
  intro m h
  cases h

theorem keeps_locking {m : Mutex} {body : World → Outcome} {w : World} (h : m ∉ w.held)
    (hbody : Keeps (m :: w.held) (body { w with held := m :: w.held })) :
    Keeps w.held (locking m body w) := by
  rw [locking_free h]
  exact hbody.map fun _ _ => rfl

theorem keeps_onLogger (n : Nat) (f : Logger → Logger) (w : World) :
    Keeps w.held (onLogger n f w) := by
  rw [onLogger]
  split
  next => exact keeps_null w.held
  next => exact rfl

theorem keeps_onAppender (a : Nat) (f : LogAppender → LogAppender) (w : World) :
    Keeps w.held (onAppender a f w) := by
  rw [onAppender]
  split
  next => exact keeps_null w.held
  next => exact rfl

theorem keeps_appenderLog {a n : Nat} {level : Level} {event : LogEvent} {w : World}
    (h : Mutex.appender a ∉ w.held) : Keeps w.held (appenderLog a n level event w) := by
  refine keeps_locking h ?_
  dsimp only
  split
  next => exact keeps_null _
  next =>
    split
    next =>
      split
      next => exact keeps_null _
      next => exact rfl
    next => exact rfl

theorem keeps_setFormatter {n : Nat} {val : Option LogFormatter} {w : World}
    (h : Mutex.logger n ∉ w.held) : Keeps w.held (setFormatter n val w) := by
  refine keeps_locking h ?_
  dsimp only
  split
  next => exact keeps_null _
  next l _ =>
    refine Fallible.Ends.foldlM (fun w' a hw' => ?_) l.m_appenders rfl
    rw [← hw']
    exact keeps_onAppender a _ w'

/-! ## Events on their way -/

section Events

variable {loggers : List Logger} {level : Level}

theorem Forwards.functional {n r r' : Nat} (h : Forwards loggers level n r)
    (h' : Forwards loggers level n r') : r = r' := by
  obtain ⟨l, hl, _, _, hr⟩ := h
  obtain ⟨l', hl', _, _, hr'⟩ := h'
  rw [hl] at hl'
  cases Option.some.inj hl'
  rw [hr] at hr'
  exact Option.some.inj hr'

/-- An event that goes in a circle is passed on. -/
theorem Circles.next {n : Nat} (h : Circles loggers level n) :
    ∃ r, Forwards loggers level n r ∧ Circles loggers level r := by
  obtain ⟨m, hnm, hmm⟩ := h
  rcases ReflTransGen.cases_head hnm with rfl | ⟨r, hnr, hrm⟩
  · obtain ⟨r, hnr, hrm⟩ := TransGen.head'_iff.mp hmm
    exact ⟨r, hnr, n, hrm, hmm⟩
  · exact ⟨r, hnr, m, hrm, hmm⟩

theorem Circles.prev {n r : Nat} (hnr : Forwards loggers level n r)
    (h : Circles loggers level r) : Circles loggers level n := by
  obtain ⟨m, hrm, hmm⟩ := h
  exact ⟨m, ReflTransGen.head hnr hrm, hmm⟩

/-- A logger that an event is passed on by. -/
theorem Forwards.lt {n r : Nat} (h : Forwards loggers level n r) : n < loggers.length := by
  obtain ⟨l, hl, _⟩ := h
  exact (List.getElem?_eq_some_iff.mp hl).1

/-- Distinct loggers are as many as there are at most. -/
theorem length_le_of_nodup {visited : List Nat} {k : Nat} (hnodup : visited.Nodup)
    (hlt : ∀ v ∈ visited, v < k) : visited.length ≤ k := by
  have hsub : visited ⊆ List.range k := fun v hv => List.mem_range.mpr (hlt v hv)
  have hle := (List.subperm_of_subset hnodup hsub).length_le
  rwa [List.length_range] at hle

/-- What a logger does with an event: it passes it on, or the chain ends there. -/
theorem log_succ (event : LogEvent) (fuel : Nat) {n : Nat} {w : World} (h : Mutex.logger n ∉ w.held)
    (happenders : ∀ a, Mutex.appender a ∉ w.held) :
    (∃ r, Forwards w.loggers level n r ∧
      log event level (fuel + 1) n w =
        (log event level fuel r { w with held := .logger n :: w.held }).map
          fun w' => { w' with held := w.held }) ∨
    (∀ r, ¬ Forwards w.loggers level n r) ∧ Keeps w.held (log event level (fuel + 1) n w) := by
  have hstop : (∀ r, ¬ Forwards w.loggers level n r) →
      Keeps w.held (log event level (fuel + 1) n w) := by
    intro hnone
    rw [log]
    refine keeps_locking h ?_
    dsimp only
    split
    next => exact keeps_null _
    next l hl =>
      split
      next hlevel =>
        split
        next hempty =>
          split
          next => exact rfl
          next r hr => exact absurd ⟨l, hl, hlevel, List.isEmpty_iff.mp hempty, hr⟩ (hnone r)
        next =>
          refine Fallible.Ends.foldlM (fun w' a hw' => ?_) l.m_appenders rfl
          rw [← hw']
          refine keeps_appenderLog fun ha => ?_
          rw [hw'] at ha
          rcases List.mem_cons.mp ha with heq | hmem
          · cases heq
          · exact happenders a hmem
      next => exact rfl
  by_cases hsome : ∃ r, Forwards w.loggers level n r
  · obtain ⟨r, hr⟩ := hsome
    refine Or.inl ⟨r, hr, ?_⟩
    obtain ⟨l, hl, hlevel, hempty, hroot⟩ := hr
    rw [log, locking_free h]
    simp only [hl, if_pos hlevel, hempty, List.isEmpty_nil, if_true, hroot]
  · have hnone : ∀ r, ¬ Forwards w.loggers level n r := fun r hr => hsome ⟨r, hr⟩
    exact Or.inr ⟨hnone, hstop hnone⟩

/-- An event that goes in a circle locks a mutex twice. -/
theorem log_deadlock (event : LogEvent) : ∀ (fuel : Nat) {n : Nat} {w : World},
    (∀ a, Mutex.appender a ∉ w.held) → Circles w.loggers level n →
    ∃ m, log event level fuel n w = .error (.deadlock m)
  | 0, n, _, _, _ => ⟨.logger n, rfl⟩
  | fuel + 1, n, w, happenders, hcircle => by
      obtain ⟨r, hnr, hr⟩ := hcircle.next
      by_cases h : Mutex.logger n ∈ w.held
      · exact ⟨.logger n, by rw [log, locking_held h]⟩
      · rcases log_succ event fuel h happenders with
          ⟨r', hr', heq⟩ | ⟨hnone, _⟩
        · cases hnr.functional hr'
          have happenders' : ∀ a, Mutex.appender a ∉ Mutex.logger n :: w.held := by
            intro a ha
            rcases List.mem_cons.mp ha with hcase | hmem
            · cases hcase
            · exact happenders a hmem
          obtain ⟨m, hm⟩ := log_deadlock event fuel
            (w := { w with held := .logger n :: w.held }) happenders' hr
          exact ⟨m, by rw [heq, hm]; rfl⟩
        · exact absurd hnr (hnone r)

/-- Any other event does not.  The loggers it was passed on by are held, and each is another one,
so the fuel is not used up. -/
theorem log_keeps (event : LogEvent) : ∀ (fuel : Nat) (visited : List Nat) {n : Nat} {w : World},
    w.held = visited.map Mutex.logger → visited.Nodup →
    (∀ v ∈ visited, TransGen (Forwards w.loggers level) v n) →
    w.loggers.length < fuel + visited.length → ¬ Circles w.loggers level n →
    Keeps w.held (log event level fuel n w)
  | 0, visited, n, w, _, hnodup, hvisited, hfuel, _ => by
      have hle := length_le_of_nodup hnodup fun v hv => by
        obtain ⟨r, hr, _⟩ := TransGen.head'_iff.mp (hvisited v hv)
        exact hr.lt
      omega
  | fuel + 1, visited, n, w, hheld, hnodup, hvisited, hfuel, hcircle => by
      have hnew : n ∉ visited := fun hn => hcircle ⟨n, ReflTransGen.refl, hvisited n hn⟩
      have h : Mutex.logger n ∉ w.held := by
        rw [hheld]
        intro hmem
        obtain ⟨v, hv, heq⟩ := List.mem_map.mp hmem
        cases heq
        exact hnew hv
      have happenders : ∀ a, Mutex.appender a ∉ w.held := by
        intro a hmem
        rw [hheld] at hmem
        obtain ⟨_, _, heq⟩ := List.mem_map.mp hmem
        cases heq
      rcases log_succ event fuel h happenders with ⟨r, hr, heq⟩ | ⟨_, hkeeps⟩
      · rw [heq]
        have hrest := log_keeps event fuel (n :: visited) (n := r)
          (w := { w with held := .logger n :: w.held })
          (by rw [List.map_cons, ← hheld]) (List.nodup_cons.mpr ⟨hnew, hnodup⟩)
          (fun v hv => by
            rcases List.mem_cons.mp hv with rfl | hmem
            · exact TransGen.single hr
            · exact (hvisited v hmem).tail hr)
          (by rw [List.length_cons]; exact lt_of_lt_of_eq hfuel (by omega))
          (fun hcircle' => hcircle (hcircle'.prev hr))
        exact hrest.map fun _ _ => rfl
      · exact hkeeps

end Events

/-! ## Every operation -/

/-- A call chain that starts at an operation locks no mutex twice, apart from the operations of
`Op.Relocks`. -/
theorem run_deadlock_iff (w : World) (op : Op) :
    (∀ m, op.run { w with held := [] } ≠ .error (.deadlock m)) ↔ ¬ op.Relocks w := by
  have hfree : ∀ m : Mutex, m ∉ ({ w with held := [] } : World).held :=
    fun _ => List.not_mem_nil
  have hnew : ∀ name, newLogger name { w with held := [] } =
      .ok (withLogger name { w with held := [] }) := newLogger_free rfl
  have hkeeps : ∀ {op : Op}, Keeps [] (op.run { w with held := [] }) → ¬ op.Relocks w →
      ((∀ m, op.run { w with held := [] } ≠ .error (.deadlock m)) ↔ ¬ op.Relocks w) :=
    fun h hno => iff_of_true h.no_deadlock hno
  cases op with
  | newLogger name => exact hkeeps (by rw [Op.run, hnew]; exact rfl) id
  | log n level event =>
      by_cases hcircle : Circles w.loggers level n
      · obtain ⟨m, hm⟩ := log_deadlock event (logFuel { w with held := [] })
          (w := { w with held := [] }) (fun a => hfree (.appender a)) hcircle
        exact iff_of_false (fun h => h m hm) (fun h => h hcircle)
      · refine hkeeps ?_ hcircle
        exact log_keeps event _ [] rfl List.nodup_nil (fun v hv => by cases hv)
          (Nat.lt_succ_self _) hcircle
  | addAppender n a => exact hkeeps (keeps_onLogger n _ _) id
  | delAppender n a => exact hkeeps (keeps_onLogger n _ _) id
  | setLevel n level => exact hkeeps (keeps_onLogger n _ _) id
  | clearAppenders n => exact hkeeps (keeps_onLogger n _ _) id
  | setFormatter n val => exact hkeeps (keeps_setFormatter (hfree _)) id
  | setFormatterPattern n val =>
      cases hn : w.loggers[n]? with
      | none =>
          refine hkeeps ?_ fun h => ?_
          · rw [Op.run, Log.setFormatterPattern_none (hfree _) hn]
            exact keeps_null []
          · rw [List.getElem?_eq_none_iff] at hn
            exact absurd h.1 (Nat.not_lt.mpr hn)
      | some l =>
          have hlt : n < w.loggers.length := (List.getElem?_eq_some_iff.mp hn).1
          cases hval : (LogFormatter.ofPattern val).m_error with
          | true =>
              refine hkeeps ?_ fun h => ?_
              · rw [Op.run, Log.setFormatterPattern_invalid (hfree _) hn hval]
                exact rfl
              · rw [h.2] at hval
                cases hval
          | false =>
              refine iff_of_false (fun h => ?_) fun h => h ⟨hlt, hval⟩
              exact h _ (Log.setFormatterPattern_valid (hfree _) hn hval)
  | newAppender sink => exact hkeeps rfl id
  | appenderLog a n level event => exact hkeeps (keeps_appenderLog (hfree _)) id
  | appenderFormatter a val => exact hkeeps (keeps_onAppender a _ _) id
  | appenderLevel a level => exact hkeeps (keeps_onAppender a _ _) id
  | newManager =>
      refine hkeeps ?_ id
      rw [Op.run, Log.newManager, hnew]
      exact rfl
  | getLogger name =>
      refine hkeeps ?_ id
      rw [Op.run, Log.getLogger]
      split
      next => exact rfl
      next =>
        rw [hnew]
        exact rfl
  | listener old_value new_value =>
      have hiff := listener_deadlock_iff (w := { w with held := [] }) rfl old_value new_value
      rw [Op.Relocks, ← hiff, not_exists]
      refine forall_congr' fun m => not_congr ?_
      rw [Op.run]
      cases Log.listener old_value new_value { w with held := [] } with
      | error e => exact ⟨fun h => congrArg _ (Except.error.inj h), fun h => by rw [h]; rfl⟩
      | ok r => exact iff_of_false (fun h => by cases h) (fun h => by cases h)

/-- Setting a pattern on a new logger locks its mutex twice. -/
theorem pattern_relocks :
    ∃ w, newLogger (ascii "system") {} = .ok w ∧ w.held = [] ∧
      (Op.setFormatterPattern 0 (ascii "%m%n")).run w = .error (.deadlock (.logger 0)) :=
  ⟨_, rfl, rfl, rfl⟩

end Muqiu.Log
