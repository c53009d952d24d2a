import Muqiu.Log.Effects

/-!
# What the listener does with a definition

A new or changed definition gets a new logger with its level and its appenders
(`configure_eq`), a definition that is gone a new logger with the level 0 and no appenders
(`unconfigure_eq`).  An appender of an unknown type is a null pointer (`configure_null`), and a
formatter of the definition itself locks the mutex of the new logger twice
(`configure_deadlock`).
-/

namespace Muqiu.Log

open Json (Text ascii)

/-! ## Appenders -/

/-- The types there is a class for. -/
def LogAppenderDefine.Known (a : LogAppenderDefine) : Prop := a.type = 1 ∨ a.type = 2

instance (a : LogAppenderDefine) : Decidable a.Known := inferInstanceAs (Decidable (_ ∨ _))

/-- The appender of a definition. -/
def LogAppenderDefine.made (a : LogAppenderDefine) : LogAppender where
  sink := if a.type = 1 then .file a.file 0 else .stdout
  m_level := a.level
  m_logformatter :=
    if a.formatter.isEmpty || (LogFormatter.ofPattern a.formatter).m_error then none
    else some (LogFormatter.ofPattern a.formatter)

theorem onLogger_at {w : World} {xs ys : List Logger} {l : Logger} {n : Nat}
    (hn : n = xs.length) (h : w.loggers = xs ++ l :: ys) (f : Logger → Logger) :
    onLogger n f w = .ok { w with loggers := xs ++ f l :: ys } := by
  rw [onLogger, h, hn, getElem?_concat_self]
  simp only [set_concat_self]

/-- Setting the level and the formatter of a new appender makes it the one of its definition. -/
theorem made_eq (a : LogAppenderDefine) (sink : Sink)
    (h : sink = if a.type = 1 then .file a.file 0 else .stdout) :
    (let p := { ({ sink := sink } : LogAppender) with m_level := a.level }
     if a.formatter.isEmpty || (LogFormatter.ofPattern a.formatter).m_error then p
     else p.setFormatter (some (LogFormatter.ofPattern a.formatter))) = a.made := by
  rw [LogAppenderDefine.made, ← h]
  split <;> rfl

theorem configureAppender_eq {w : World} {xs : List Logger} {l : Logger} {a : LogAppenderDefine}
    (hw : w.loggers = xs ++ [l]) (ha : a.Known) :
    configureAppender xs.length w a = .ok { w with
      loggers := xs ++ [l.addAppender w.appenders.length]
      appenders := w.appenders ++ [a.made] } := by
  have hmake : ∀ sink : Sink, (sink = if a.type = 1 then .file a.file 0 else .stdout) →
      (onAppender w.appenders.length
        (fun p =>
          let p := { p with m_level := a.level }
          if a.formatter.isEmpty || (LogFormatter.ofPattern a.formatter).m_error then p
          else p.setFormatter (some (LogFormatter.ofPattern a.formatter)))
        (newAppender sink w)).bind (onLogger xs.length (Logger.addAppender w.appenders.length)) =
      .ok { w with
        loggers := xs ++ [l.addAppender w.appenders.length]
        appenders := w.appenders ++ [a.made] } := by
    intro sink hsink
    have hnew : (newAppender sink w).appenders = w.appenders ++ { sink := sink } :: [] := rfl
    rw [onAppender_at rfl hnew]
    simp only [made_eq a sink hsink]
    have hadd : ∀ w' : World, w'.loggers = xs ++ l :: [] →
        onLogger xs.length (Logger.addAppender w.appenders.length) w' =
          .ok { w' with loggers := xs ++ [l.addAppender w.appenders.length] } :=
      fun w' hw' => onLogger_at rfl hw' _
    exact hadd { w with appenders := w.appenders ++ [a.made] } hw
  rw [configureAppender]
  by_cases h₁ : a.type = 1
  · simp only [if_pos h₁]
    exact hmake (.file a.file 0) (by rw [if_pos h₁])
  · simp only [if_neg h₁, if_pos (ha.resolve_left h₁)]
    exact hmake .stdout (by rw [if_neg h₁])

theorem configureAppender_null {n : Nat} {w : World} {a : LogAppenderDefine} (h : ¬ a.Known) :
    configureAppender n w a = .error .null := by
  have h₁ : a.type ≠ 1 := fun heq => h (Or.inl heq)
  have h₂ : a.type ≠ 2 := fun heq => h (Or.inr heq)
  rw [configureAppender]
  simp only [if_neg h₁, if_neg h₂]

/-- The appenders of a definition come at the end of the objects and of the list of the logger. -/
theorem configureAppenders_eq {xs : List Logger} :
    ∀ {as : List LogAppenderDefine} {w : World} {l : Logger}, w.loggers = xs ++ [l] →
      (∀ a ∈ as, a.Known) →
      as.foldlM (configureAppender xs.length) w = .ok { w with
        loggers := xs ++ [{ l with
          m_appenders := l.m_appenders ++ List.range' w.appenders.length as.length }]
        appenders := w.appenders ++ as.map LogAppenderDefine.made }
  | [], w, l, hw, _ => by
      rw [List.foldlM_nil]
      simp only [List.length_nil, List.range'_zero, List.append_nil, List.map_nil]
      rw [← hw]
      rfl
  | a :: as, w, l, hw, h => by
      rw [List.foldlM_cons, configureAppender_eq hw (h a List.mem_cons_self), ok_bind,
        configureAppenders_eq rfl fun b hb => h b (List.mem_cons_of_mem a hb)]
      simp only [Logger.addAppender, List.append_assoc, List.length_append, List.length_cons,
        List.length_nil, Nat.zero_add, List.cons_append, List.nil_append, List.map_cons,
        List.range'_succ]

theorem configureAppenders_null {xs : List Logger} :
    ∀ {as : List LogAppenderDefine} {w : World} {l : Logger}, w.loggers = xs ++ [l] →
      ¬ (∀ a ∈ as, a.Known) → as.foldlM (configureAppender xs.length) w = .error .null
  | [], _, _, _, h => absurd (fun _ ha => by cases ha) h
  | a :: as, w, l, hw, h => by
      rw [List.foldlM_cons]
      by_cases ha : a.Known
      · rw [configureAppender_eq hw ha, ok_bind]
        refine configureAppenders_null rfl fun hall => h fun b hb => ?_
        rcases List.mem_cons.mp hb with rfl | hb
        · exact ha
        · exact hall b hb
      · rw [configureAppender_null ha]
        rfl

/-! ## Patterns -/

theorem setFormatterPattern_none {w : World} {n : Nat} {val : Text} (h : Mutex.logger n ∉ w.held)
    (hn : w.loggers[n]? = none) : setFormatterPattern n val w = .error .null := by
  rw [setFormatterPattern, locking_free h]
  simp only [hn]
  rfl

/-- A pattern with an error is not set. -/
theorem setFormatterPattern_invalid {w : World} {n : Nat} {l : Logger} {val : Text}
    (h : Mutex.logger n ∉ w.held) (hn : w.loggers[n]? = some l)
    (hval : (LogFormatter.ofPattern val).m_error = true) :
    setFormatterPattern n val w = .ok w := by
  rw [setFormatterPattern, locking_free h]
  simp only [hn, hval, if_true]
  rfl

/-- A pattern without an error is set under the mutex that setting it locks. -/
theorem setFormatterPattern_valid {w : World} {n : Nat} {l : Logger} {val : Text}
    (h : Mutex.logger n ∉ w.held) (hn : w.loggers[n]? = some l)
    (hval : (LogFormatter.ofPattern val).m_error = false) :
    setFormatterPattern n val w = .error (.deadlock (.logger n)) := by
  rw [setFormatterPattern, locking_free h]
  simp only [hn, hval, setFormatter]
  rw [locking_held List.mem_cons_self]
  rfl

/-! ## Definitions -/

/-- The logger of a definition, whose appenders have the numbers from `a` on. -/
def LogDefine.made (i : LogDefine) (a : Nat) : Logger where
  m_name := i.name
  m_level := i.level
  m_appenders := List.range' a i.appenders.length
  m_formatter := some defaultFormatter

/-- The objects with the logger of a definition. -/
def withDefined (i : LogDefine) (w : World) : World :=
  { w with
    loggers := w.loggers ++ [i.made (w.appenders.length + 2)]
    appenders := (withLogger i.name w).appenders ++ i.appenders.map LogAppenderDefine.made }

/-- The objects with the logger of a definition that is gone. -/
def withCleared (i : LogDefine) (w : World) : World :=
  { withLogger i.name w with
    loggers := w.loggers ++
      [{ m_name := i.name, m_level := .unknow, m_formatter := some defaultFormatter }] }

/-- The formatter of a definition is set when it is a pattern without an error. -/
def LogDefine.SetsFormatter (i : LogDefine) : Prop :=
  i.formatter ≠ [] ∧ (LogFormatter.ofPattern i.formatter).m_error = false

instance (i : LogDefine) : Decidable i.SetsFormatter := inferInstanceAs (Decidable (_ ∧ _))

theorem newLogger_free {w : World} (h : w.held = []) (name : Text) :
    newLogger name w = .ok (withLogger name w) :=
  newLogger_eq (by rw [h]; exact List.not_mem_nil)

/-- Setting the level of a new logger and clearing its appenders. -/
theorem clearLogger_eq (name : Text) (level : Level) (w : World) :
    onLogger w.loggers.length (fun l => (l.setLevel level).clearAppenders) (withLogger name w) =
      .ok { withLogger name w with
        loggers := w.loggers ++
          [{ m_name := name, m_level := level, m_formatter := some defaultFormatter }] } := by
  have hset : ∀ (w' : World) (l : Logger), w'.loggers = w.loggers ++ l :: [] →
      onLogger w.loggers.length (fun l => (l.setLevel level).clearAppenders) w' =
        .ok { w' with loggers := w.loggers ++ [(l.setLevel level).clearAppenders] } :=
    fun w' l hw' => onLogger_at rfl hw' _
  exact hset (withLogger name w) _ rfl

theorem unconfigure_eq {w : World} (h : w.held = []) (i : LogDefine) :
    unconfigure i w = .ok (withCleared i w) := by
  rw [unconfigure, newLogger_free h]
  exact clearLogger_eq i.name .unknow w

/-- Up to the formatter of the definition. -/
theorem configure_appenders {w : World} (h : w.held = []) (i : LogDefine) :
    configure i w =
      (i.appenders.foldlM (configureAppender w.loggers.length) { withLogger i.name w with
        loggers := w.loggers ++
          [{ m_name := i.name, m_level := i.level, m_formatter := some defaultFormatter }] }).bind
      fun w' => if i.formatter.isEmpty then .ok w'
        else setFormatterPattern w.loggers.length i.formatter w' := by
  rw [configure, newLogger_free h]
  change (onLogger w.loggers.length _ (withLogger i.name w)).bind _ = _
  rw [clearLogger_eq]
  rfl

theorem configure_null {w : World} (h : w.held = []) {i : LogDefine}
    (hi : ¬ ∀ a ∈ i.appenders, a.Known) : configure i w = .error .null := by
  rw [configure_appenders h, configureAppenders_null rfl hi]
  rfl

theorem configure_known {w : World} (h : w.held = []) {i : LogDefine}
    (hi : ∀ a ∈ i.appenders, a.Known) :
    configure i w =
      if i.formatter.isEmpty then .ok (withDefined i w)
      else setFormatterPattern w.loggers.length i.formatter (withDefined i w) := by
  have hlen : (withLogger i.name w).appenders.length = w.appenders.length + 2 :=
    List.length_append
  rw [configure_appenders h, configureAppenders_eq rfl hi]
  simp only [hlen, List.nil_append]
  rfl

theorem configure_eq {w : World} (h : w.held = []) {i : LogDefine}
    (hi : ∀ a ∈ i.appenders, a.Known) (hformatter : ¬ i.SetsFormatter) :
    configure i w = .ok (withDefined i w) := by
  rw [configure_known h hi]
  by_cases hempty : i.formatter = []
  · rw [hempty]
    rfl
  · rw [if_neg (by rw [List.isEmpty_iff]; exact hempty)]
    have hval : (LogFormatter.ofPattern i.formatter).m_error = true :=
      eq_true_of_ne_false fun herror => hformatter ⟨hempty, herror⟩
    exact setFormatterPattern_invalid (by rw [withDefined, h]; exact List.not_mem_nil)
      (getElem?_concat_self w.loggers [] _) hval

theorem configure_deadlock {w : World} (h : w.held = []) {i : LogDefine}
    (hi : ∀ a ∈ i.appenders, a.Known) (hformatter : i.SetsFormatter) :
    configure i w = .error (.deadlock (.logger w.loggers.length)) := by
  rw [configure_known h hi, if_neg (by rw [List.isEmpty_iff]; exact hformatter.1)]
  exact setFormatterPattern_valid (by rw [withDefined, h]; exact List.not_mem_nil)
    (getElem?_concat_self w.loggers [] _) hformatter.2

/-! ## The listener -/

/-- A definition whose formatter is set comes before the first appender of an unknown type. -/
def Relocks : List LogDefine → Prop
  | [] => False
  | i :: ds => (∀ a ∈ i.appenders, a.Known) ∧ (i.SetsFormatter ∨ Relocks ds)

instance decidableRelocks : (ds : List LogDefine) → Decidable (Relocks ds)
  | [] => .isFalse id
  | _ :: ds =>
      letI := decidableRelocks ds
      inferInstanceAs (Decidable (_ ∧ (_ ∨ _)))

theorem forEach_error {op : LogDefine → World → Outcome} {i : LogDefine} {ds : List LogDefine}
    {w : World} {e : Fault} (h : op i w = .error e) : forEach op (i :: ds) w = .error e := by
  rw [forEach, h]
  rfl

theorem forEach_ok {op : LogDefine → World → Outcome} {i : LogDefine} {ds : List LogDefine}
    {w w' : World} (h : op i w = .ok w') :
    forEach op (i :: ds) w =
      (forEach op ds w').map fun r => ((i.name, w.loggers.length) :: r.1, r.2) := by
  rw [forEach, h]
  rfl

/-- A formatter that is set ends the call chain, and so does an appender of an unknown type. -/
theorem forEach_configure : ∀ (ds : List LogDefine) {w : World}, w.held = [] →
    if Relocks ds then ∃ m, forEach configure ds w = .error (.deadlock m)
    else forEach configure ds w = .error .null ∨
      ∃ r, forEach configure ds w = .ok r ∧ r.2.held = []
  | [], w, h => by
      rw [if_neg (by exact id)]
      exact Or.inr ⟨([], w), rfl, h⟩
  | i :: ds, w, h => by
      by_cases hi : ∀ a ∈ i.appenders, a.Known
      · by_cases hformatter : i.SetsFormatter
        · rw [if_pos ⟨hi, Or.inl hformatter⟩]
          exact ⟨_, forEach_error (configure_deadlock h hi hformatter)⟩
        · have hrest := forEach_configure ds (w := withDefined i w) h
          rw [forEach_ok (configure_eq h hi hformatter)]
          by_cases hds : Relocks ds
          · rw [if_pos hds] at hrest
            rw [if_pos ⟨hi, Or.inr hds⟩]
            obtain ⟨m, hm⟩ := hrest
            exact ⟨m, by rw [hm]; rfl⟩
          · rw [if_neg hds] at hrest
            rw [if_neg fun hrelocks => hrelocks.2.elim hformatter hds]
            rcases hrest with hnull | ⟨r, hr, hheld⟩
            · exact Or.inl (by rw [hnull]; rfl)
            · exact Or.inr ⟨((i.name, w.loggers.length) :: r.1, r.2), by rw [hr]; rfl, hheld⟩
      · rw [if_neg fun hrelocks => hi hrelocks.1]
        exact Or.inl (forEach_error (configure_null h hi))

theorem forEach_unconfigure : ∀ (ds : List LogDefine) {w : World}, w.held = [] →
    ∃ r, forEach unconfigure ds w = .ok r ∧ r.2.held = []
  | [], w, h => ⟨([], w), rfl, h⟩
  | i :: ds, w, h => by
      obtain ⟨r, hr, hheld⟩ := forEach_unconfigure ds (w := withCleared i w) h
      exact ⟨((i.name, w.loggers.length) :: r.1, r.2),
        by rw [forEach_ok (unconfigure_eq h i), hr]; rfl, hheld⟩

/-- The listener locks a mutex twice exactly when it comes to a definition whose formatter it
sets. -/
theorem listener_deadlock_iff {w : World} (h : w.held = []) (old_value new_value : LogDefines) :
    (∃ m, listener old_value new_value w = .error (.deadlock m)) ↔
      Relocks (configured old_value new_value) := by
  have hconf := forEach_configure (configured old_value new_value) h
  rw [listener]
  split at hconf
  next hrelocks =>
    obtain ⟨m, hm⟩ := hconf
    exact iff_of_true ⟨m, by rw [hm]; rfl⟩ hrelocks
  next hrelocks =>
    refine iff_of_false (fun hdead => ?_) hrelocks
    obtain ⟨m, hm⟩ := hdead
    rcases hconf with hnull | ⟨r, hr, hheld⟩
    · rw [hnull] at hm
      cases hm
    · obtain ⟨r', hr', _⟩ := forEach_unconfigure (removed old_value new_value) hheld
      rw [hr] at hm
      change (forEach unconfigure _ r.2).map _ = _ at hm
      rw [hr'] at hm
      cases hm

end Muqiu.Log
