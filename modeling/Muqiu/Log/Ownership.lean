import Mathlib.Logic.Function.Basic
import Muqiu.Lib.Runs
import Muqiu.Log.Locks

/-!
# The formatters of appenders

`Logger::setFormatter` passes its formatter on to the appenders that have none of their own, which
is what `m_hasFormatter` is for; but nothing sets `m_hasFormatter`, and `addAppender` passes on
none.  `own` is not in the source: it records the formatter that `LogAppender::setFormatter` was
last called with from outside, for each appender.
-/

namespace Muqiu.Log

open Json (Text ascii)
open Runs

/-- The loggers and appenders, with the formatter that each appender was given of its own. -/
structure Ownership where
  w : World
  own : Nat → Option LogFormatter

namespace Ownership

/-- Before the first operation. -/
def start : Ownership := ⟨{}, fun _ => none⟩

/-- The operations of a run.  An appender that is added exists. -/
def allows (w : World) : Op → Bool
  | .newLogger _ => true
  | .newAppender _ => true
  | .addAppender _ a => decide (a < w.appenders.length)
  | .delAppender _ _ => true
  | .clearAppenders _ => true
  | .setFormatter _ _ => true
  | .setFormatterPattern _ _ => true
  | .appenderFormatter _ _ => true
  | _ => false

/-- The formatters that appenders were given after an operation. -/
def given (own : Nat → Option LogFormatter) : Op → Nat → Option LogFormatter
  | .appenderFormatter a val => Function.update own a val
  | _ => own

/-- An operation that fails ends the run. -/
def step (s : Ownership) (op : Op) : Option Ownership :=
  if allows s.w op then
    match op.run s.w with
    | .ok w => some ⟨w, given s.own op⟩
    | .error _ => none
  else none

/-- The appender `a` is in the list of the logger `n`. -/
structure InList (s : Ownership) (n a : Nat) (l : Logger) (p : LogAppender) : Prop where
  logger : s.w.loggers[n]? = some l
  mem : a ∈ l.m_appenders
  appender : s.w.appenders[a]? = some p

/-- An appender keeps the formatter it was given.  In the list of a logger one that was given none
has that of the logger, and none is without. -/
structure Owned (s : Ownership) : Prop where
  keeps : ∀ (a : Nat) (p : LogAppender), s.w.appenders[a]? = some p → ∀ f, s.own a = some f →
    p.m_logformatter = some f
  follows : ∀ n a l p, s.InList n a l p → s.own a = none → p.m_logformatter = l.m_formatter
  reached : ∀ n a l p, s.InList n a l p → p.m_logformatter ≠ none

/-- `addAppender` adds an appender that was given a formatter or has that of the logger,
`LogAppender::setFormatter` takes the formatter from no appender in a list, and
`Logger::setFormatter` sets no formatter other than the ones that the appenders in the list of the
logger were given, and that another logger of theirs has. -/
def Respects (s : Ownership) (op : Op) (_ : Ownership) : Prop :=
  match op with
  | .addAppender n a => s.own a = none → ∀ (l : Logger) (p : LogAppender),
      s.w.loggers[n]? = some l → s.w.appenders[a]? = some p →
        p.m_logformatter = l.m_formatter ∧ p.m_logformatter ≠ none
  | .appenderFormatter a val => val = none → ∀ n l p, ¬ s.InList n a l p
  | .setFormatter n val => ∀ a l p, s.InList n a l p → val ≠ none ∧
      (∀ f, s.own a = some f → val = some f) ∧
      (s.own a = none → ∀ n' l', n' ≠ n → s.InList n' a l' p → l'.m_formatter = val)
  | _ => True

/-! ## What nothing changes -/

/-- No appender says that it has a formatter of its own. -/
structure Plain (s : Ownership) : Prop where
  free : s.w.held = []
  flag : ∀ (a : Nat) (p : LogAppender), s.w.appenders[a]? = some p → p.m_hasFormatter = false
  listed : ∀ (n : Nat) (l : Logger), s.w.loggers[n]? = some l →
    ∀ a ∈ l.m_appenders, a < s.w.appenders.length
  given : ∀ a f, s.own a = some f → a < s.w.appenders.length

theorem start_plain : start.Plain where
  free := rfl
  flag _ _ h := by cases h
  listed _ _ h := by cases h
  given _ _ h := by cases h

theorem start_owned : start.Owned where
  keeps _ _ h := by cases h
  follows _ _ _ _ h := by cases h.logger
  reached _ _ _ _ h := by cases h.logger

/-! ## Passing a formatter on -/

/-- Every appender of a list gets the formatter. -/
theorem pass_on (val : Option LogFormatter) : ∀ (as : List Nat) {w : World},
    (∀ (a : Nat) (p : LogAppender), w.appenders[a]? = some p → p.m_hasFormatter = false) →
    (∀ a ∈ as, a < w.appenders.length) →
    ∃ appenders, as.foldlM (fun w a => onAppender a
        (fun p => if p.m_hasFormatter then p else p.setFormatter val) w) w =
        (.ok { w with appenders := appenders } : Outcome) ∧
      appenders.length = w.appenders.length ∧ ∀ b, appenders[b]? =
        (w.appenders[b]?).map fun p => if b ∈ as then p.setFormatter val else p
  | [], w, _, _ => by
      refine ⟨w.appenders, rfl, rfl, fun b => ?_⟩
      simp
  | a :: as, w, hflag, hlisted => by
      have ha : a < w.appenders.length := hlisted a List.mem_cons_self
      have hget : w.appenders[a]? = some w.appenders[a] := List.getElem?_eq_getElem ha
      have hon : onAppender a (fun p => if p.m_hasFormatter then p else p.setFormatter val) w =
          .ok { w with appenders := w.appenders.set a (w.appenders[a].setFormatter val) } := by
        rw [onAppender, hget]
        simp only [hflag a _ hget, Bool.false_eq_true, if_false]
      have hset : ∀ b, (w.appenders.set a (w.appenders[a].setFormatter val))[b]? =
          (w.appenders[b]?).map fun p => if b = a then p.setFormatter val else p := by
        intro b
        by_cases hb : b = a
        · subst hb
          rw [List.getElem?_set_self ha, hget]
          simp
        · rw [List.getElem?_set_ne (Ne.symm hb)]
          simp [hb]
      obtain ⟨appenders, hfold, hlen, hall⟩ := pass_on val as
        (w := { w with appenders := w.appenders.set a (w.appenders[a].setFormatter val) })
        (fun b p hp => by
          rw [hset b, Option.map_eq_some_iff] at hp
          obtain ⟨q, hq, rfl⟩ := hp
          have hqf := hflag b q hq
          split
          · exact hqf
          · exact hqf)
        (fun b hb => by
          rw [List.length_set]
          exact hlisted b (List.mem_cons_of_mem a hb))
      refine ⟨appenders, ?_, by rw [hlen, List.length_set], fun b => ?_⟩
      · rw [List.foldlM_cons, hon, ok_bind, hfold]
      · rw [hall b, hset b, Option.map_map]
        congr 1
        funext p
        by_cases hb : b = a
        · by_cases hmem : b ∈ as
          · simp [hb, LogAppender.setFormatter]
          · simp [hb, LogAppender.setFormatter]
        · simp [hb]

/-- `Logger::setFormatter` gives its formatter to every appender of the logger. -/
theorem setFormatter_spec {s : Ownership} (h : s.Plain) {n : Nat} {l : Logger}
    (hl : s.w.loggers[n]? = some l) (val : Option LogFormatter) :
    ∃ appenders, setFormatter n val s.w = .ok { s.w with
        loggers := s.w.loggers.set n { l with m_formatter := val }, appenders := appenders } ∧
      appenders.length = s.w.appenders.length ∧ ∀ b, appenders[b]? =
        (s.w.appenders[b]?).map fun p => if b ∈ l.m_appenders then p.setFormatter val else p := by
  obtain ⟨appenders, hfold, hlen, hall⟩ := pass_on val l.m_appenders
    (w := { s.w with
      loggers := s.w.loggers.set n { l with m_formatter := val }, held := [.logger n] })
    h.flag (h.listed n l hl)
  refine ⟨appenders, ?_, hlen, hall⟩
  rw [setFormatter, locking_free (by rw [h.free]; exact List.not_mem_nil)]
  simp only [hl, h.free]
  rw [hfold]
  rfl

/-! ## New objects -/

theorem getElem?_append_cases {α : Type} {xs ys : List α} {i : Nat} {x : α}
    (h : (xs ++ ys)[i]? = some x) : xs[i]? = some x ∨ xs.length ≤ i ∧ x ∈ ys := by
  rcases Nat.lt_or_ge i xs.length with hlt | hge
  · rw [List.getElem?_append_left hlt] at h
    exact Or.inl h
  · rw [List.getElem?_append_right hge] at h
    exact Or.inr ⟨hge, List.mem_of_getElem? h⟩

theorem getElem?_set_cases {α : Type} {xs : List α} {n m : Nat} {x y : α}
    (h : (xs.set n x)[m]? = some y) : m = n ∧ y = x ∨ m ≠ n ∧ xs[m]? = some y := by
  by_cases hm : m = n
  · subst hm
    rw [List.getElem?_set] at h
    simp only [if_true] at h
    split at h
    · exact Or.inl ⟨rfl, (Option.some.inj h).symm⟩
    · cases h
  · rw [List.getElem?_set_ne (Ne.symm hm)] at h
    exact Or.inr ⟨hm, h⟩

theorem withLogger_spec {s : Ownership} (h : s.Plain) (ho : s.Owned) (name : Text) :
    Plain ⟨withLogger name s.w, s.own⟩ ∧ Owned ⟨withLogger name s.w, s.own⟩ := by
  have hnew : ∀ (a : Nat) (p : LogAppender), (withLogger name s.w).appenders[a]? = some p →
      s.w.appenders[a]? = some p ∨ s.w.appenders.length ≤ a ∧ p.m_hasFormatter = false ∧
        p.m_logformatter = some defaultFormatter := by
    intro a p hp
    refine (getElem?_append_cases hp).imp_right fun ⟨hge, hmem⟩ => ⟨hge, ?_⟩
    rcases List.mem_cons.mp hmem with rfl | hmem
    · exact ⟨rfl, rfl⟩
    · rw [List.mem_singleton.mp hmem]
      exact ⟨rfl, rfl⟩
  have hlen : (withLogger name s.w).appenders.length = s.w.appenders.length + 2 :=
    List.length_append
  have hin : ∀ n a l p, InList ⟨withLogger name s.w, s.own⟩ n a l p →
      s.InList n a l p ∨ l.m_formatter = some defaultFormatter ∧
        p.m_logformatter = some defaultFormatter := by
    rintro n a l p ⟨hl, ha, hp⟩
    rcases getElem?_append_cases hl with hold | ⟨-, hmem⟩
    · rcases hnew a p hp with hp | ⟨hge, -⟩
      · exact Or.inl ⟨hold, ha, hp⟩
      · have hlt := h.listed n l hold a ha
        omega
    · rw [List.mem_singleton.mp hmem] at ha ⊢
      rcases hnew a p hp with hp | ⟨-, -, hformatter⟩
      · have hlt := (List.getElem?_eq_some_iff.mp hp).1
        have hge : s.w.appenders.length ≤ a := by
          rcases List.mem_cons.mp ha with rfl | ha
          · exact Nat.le_refl _
          · rw [List.mem_singleton.mp ha]
            exact Nat.le_succ _
        omega
      · exact Or.inr ⟨rfl, hformatter⟩
  refine ⟨⟨h.free, fun a p hp => ?_, fun n l hl a ha => ?_, fun a f hf => ?_⟩,
    ⟨fun a p hp f hf => ?_, fun n a l p hmem hf => ?_, fun n a l p hmem => ?_⟩⟩
  · rcases hnew a p hp with hold | ⟨-, hflag, -⟩
    · exact h.flag a p hold
    · exact hflag
  · change a < (withLogger name s.w).appenders.length
    rw [hlen]
    rcases getElem?_append_cases hl with hold | ⟨-, hmem⟩
    · have hlt := h.listed n l hold a ha
      omega
    · rw [List.mem_singleton.mp hmem] at ha
      rcases List.mem_cons.mp ha with rfl | ha
      · omega
      · rw [List.mem_singleton.mp ha]
        omega
  · have hlt := h.given a f hf
    change a < (withLogger name s.w).appenders.length
    omega
  · rcases hnew a p hp with hold | ⟨hge, -⟩
    · exact ho.keeps a p hold f hf
    · have hlt := h.given a f hf
      omega
  · rcases hin n a l p hmem with hold | ⟨hl, hp⟩
    · exact ho.follows n a l p hold hf
    · rw [hl, hp]
  · rcases hin n a l p hmem with hold | ⟨-, hp⟩
    · exact ho.reached n a l p hold
    · rw [hp]
      exact Option.some_ne_none _

theorem newAppender_spec {s : Ownership} (h : s.Plain) (ho : s.Owned) (sink : Sink) :
    Plain ⟨newAppender sink s.w, s.own⟩ ∧ Owned ⟨newAppender sink s.w, s.own⟩ := by
  have hnew : ∀ (a : Nat) (p : LogAppender), (newAppender sink s.w).appenders[a]? = some p →
      s.w.appenders[a]? = some p ∨ s.w.appenders.length ≤ a ∧ p.m_hasFormatter = false := by
    intro a p hp
    refine (getElem?_append_cases hp).imp_right fun ⟨hge, hmem⟩ => ⟨hge, ?_⟩
    rw [List.mem_singleton.mp hmem]
  have hlen : (newAppender sink s.w).appenders.length = s.w.appenders.length + 1 :=
    List.length_append
  have hin : ∀ n a l p, InList ⟨newAppender sink s.w, s.own⟩ n a l p → s.InList n a l p := by
    rintro n a l p ⟨hl, ha, hp⟩
    rcases hnew a p hp with hold | ⟨hge, -⟩
    · exact ⟨hl, ha, hold⟩
    · have hlt := h.listed n l hl a ha
      omega
  refine ⟨⟨h.free, fun a p hp => ?_, fun n l hl a ha => ?_, fun a f hf => ?_⟩,
    ⟨fun a p hp f hf => ?_, fun n a l p hmem => ho.follows n a l p (hin n a l p hmem),
      fun n a l p hmem => ho.reached n a l p (hin n a l p hmem)⟩⟩
  · rcases hnew a p hp with hold | ⟨-, hflag⟩
    · exact h.flag a p hold
    · exact hflag
  · have hlt := h.listed n l hl a ha
    change a < (newAppender sink s.w).appenders.length
    omega
  · have hlt := h.given a f hf
    change a < (newAppender sink s.w).appenders.length
    omega
  · rcases hnew a p hp with hold | ⟨hge, -⟩
    · exact ho.keeps a p hold f hf
    · have hlt := h.given a f hf
      omega

/-! ## Lists of appenders -/

/-- Another list for a logger. -/
def withList (s : Ownership) (n : Nat) (l : Logger) : Ownership :=
  { s with w := { s.w with loggers := s.w.loggers.set n l } }

theorem withList_plain {s : Ownership} (h : s.Plain) {n : Nat} {l : Logger}
    (hlisted : ∀ a ∈ l.m_appenders, a < s.w.appenders.length) : (s.withList n l).Plain := by
  refine ⟨h.free, h.flag, fun n' l' hl' a ha => ?_, h.given⟩
  rcases getElem?_set_cases hl' with ⟨-, rfl⟩ | ⟨-, hold⟩
  · exact hlisted a ha
  · exact h.listed n' l' hold a ha

/-- With fewer appenders in a list the others are as before. -/
theorem withList_fewer {s : Ownership} (h : s.Plain) (ho : s.Owned) {n : Nat} {l : Logger}
    (l₁ : Logger) (hl : s.w.loggers[n]? = some l) (hsub : ∀ a ∈ l₁.m_appenders, a ∈ l.m_appenders)
    (hformatter : l₁.m_formatter = l.m_formatter) :
    (s.withList n l₁).Plain ∧ (s.withList n l₁).Owned := by
  have hin : ∀ n' a l' p, (s.withList n l₁).InList n' a l' p →
      ∃ l₀, s.InList n' a l₀ p ∧ l'.m_formatter = l₀.m_formatter := by
    rintro n' a l' p ⟨hl', ha, hp⟩
    rcases getElem?_set_cases hl' with ⟨rfl, rfl⟩ | ⟨-, hold⟩
    · exact ⟨l, ⟨hl, hsub a ha, hp⟩, hformatter⟩
    · exact ⟨l', ⟨hold, ha, hp⟩, rfl⟩
  refine ⟨withList_plain h fun a ha => h.listed n l hl a (hsub a ha),
    ⟨ho.keeps, fun n' a l' p hmem hf => ?_, fun n' a l' p hmem => ?_⟩⟩
  · obtain ⟨l₀, hold, heq⟩ := hin n' a l' p hmem
    rw [heq]
    exact ho.follows n' a l₀ p hold hf
  · obtain ⟨l₀, hold, -⟩ := hin n' a l' p hmem
    exact ho.reached n' a l₀ p hold

/-- Adding an appender. -/
theorem withList_add {s : Ownership} (h : s.Plain) (ho : s.Owned) {n a : Nat} {l : Logger}
    {p : LogAppender} (hl : s.w.loggers[n]? = some l) (hp : s.w.appenders[a]? = some p) :
    (s.withList n (l.addAppender a)).Plain ∧ ((s.withList n (l.addAppender a)).Owned ↔
      (s.own a = none → p.m_logformatter = l.m_formatter ∧ p.m_logformatter ≠ none)) := by
  have hlt : a < s.w.appenders.length := (List.getElem?_eq_some_iff.mp hp).1
  have hn : n < s.w.loggers.length := (List.getElem?_eq_some_iff.mp hl).1
  have hadded : (s.withList n (l.addAppender a)).InList n a (l.addAppender a) p :=
    ⟨List.getElem?_set_self hn, List.mem_append_right _ (List.mem_singleton_self a), hp⟩
  refine ⟨withList_plain h fun b hb => ?_, ⟨fun ho' hown =>
    ⟨ho'.follows n a (l.addAppender a) p hadded hown, ho'.reached n a _ p hadded⟩,
    fun hcond => ?_⟩⟩
  · rcases List.mem_append.mp hb with hold | hnew
    · exact h.listed n l hl b hold
    · rw [List.mem_singleton.mp hnew]
      exact hlt
  · have hin : ∀ n' b l' q, (s.withList n (l.addAppender a)).InList n' b l' q →
        (∃ l₀, s.InList n' b l₀ q ∧ l'.m_formatter = l₀.m_formatter) ∨
          b = a ∧ q = p ∧ l'.m_formatter = l.m_formatter := by
      rintro n' b l' q ⟨hl', hb, hq⟩
      rcases getElem?_set_cases hl' with ⟨rfl, rfl⟩ | ⟨-, hold⟩
      · rcases List.mem_append.mp hb with hold | hnew
        · exact Or.inl ⟨l, ⟨hl, hold, hq⟩, rfl⟩
        · cases List.mem_singleton.mp hnew
          exact Or.inr ⟨rfl, Option.some.inj (hq.symm.trans hp), rfl⟩
      · exact Or.inl ⟨l', ⟨hold, hb, hq⟩, rfl⟩
    refine ⟨ho.keeps, fun n' b l' q hmem hown => ?_, fun n' b l' q hmem => ?_⟩
    · rcases hin n' b l' q hmem with ⟨l₀, hold, heq⟩ | ⟨rfl, rfl, heq⟩
      · rw [heq]
        exact ho.follows n' b l₀ q hold hown
      · rw [heq]
        exact (hcond hown).1
    · rcases hin n' b l' q hmem with ⟨l₀, hold, -⟩ | ⟨rfl, rfl, -⟩
      · exact ho.reached n' b l₀ q hold
      · cases hown : s.own b with
        | none => exact (hcond hown).2
        | some f =>
            rw [ho.keeps b q hp f hown]
            exact Option.some_ne_none f

/-! ## Setting formatters -/

/-- The appender `a`, which is `p`, is given a formatter. -/
def withFormatter (s : Ownership) (a : Nat) (p : LogAppender) (val : Option LogFormatter) :
    Ownership where
  w := { s.w with appenders := s.w.appenders.set a (p.setFormatter val) }
  own := Function.update s.own a val

/-- `LogAppender::setFormatter` must not take the formatter from an appender in a list. -/
theorem appenderFormatter_spec {s : Ownership} (h : s.Plain) (ho : s.Owned) {a : Nat}
    {p : LogAppender} (hp : s.w.appenders[a]? = some p) (val : Option LogFormatter) :
    (s.withFormatter a p val).Plain ∧ ((s.withFormatter a p val).Owned ↔
      (val = none → ∀ n l p, ¬ s.InList n a l p)) := by
  have hlt : a < s.w.appenders.length := (List.getElem?_eq_some_iff.mp hp).1
  have hown : ∀ b f, Function.update s.own a val b = some f →
      b = a ∧ val = some f ∨ b ≠ a ∧ s.own b = some f := by
    intro b f hf
    by_cases hb : b = a
    · subst hb
      rw [Function.update_self] at hf
      exact Or.inl ⟨rfl, hf⟩
    · rw [Function.update_of_ne hb] at hf
      exact Or.inr ⟨hb, hf⟩
  refine ⟨⟨h.free, fun b q hq => ?_, fun n l hl b hb => ?_, fun b f hf => ?_⟩,
    ⟨fun ho' hval n l q hmem => ?_, fun hcond =>
      ⟨fun b q hq f hf => ?_, fun n b l q hmem hf => ?_, fun n b l q hmem => ?_⟩⟩⟩
  · rcases getElem?_set_cases hq with ⟨-, rfl⟩ | ⟨-, hold⟩
    · exact h.flag a p hp
    · exact h.flag b q hold
  · change b < (s.w.appenders.set a (p.setFormatter val)).length
    rw [List.length_set]
    exact h.listed n l hl b hb
  · change b < (s.w.appenders.set a (p.setFormatter val)).length
    rw [List.length_set]
    rcases hown b f hf with ⟨rfl, -⟩ | ⟨-, hold⟩
    · exact hlt
    · exact h.given b f hold
  · exact ho'.reached n a l (p.setFormatter val)
      ⟨hmem.logger, hmem.mem, List.getElem?_set_self hlt⟩ hval
  · rcases getElem?_set_cases hq with ⟨rfl, rfl⟩ | ⟨hne, hold⟩
    · rcases hown b f hf with ⟨-, hval⟩ | ⟨hne, -⟩
      · exact hval
      · exact absurd rfl hne
    · rcases hown b f hf with ⟨heq, -⟩ | ⟨-, hgiven⟩
      · exact absurd heq hne
      · exact ho.keeps b q hold f hgiven
  · rcases getElem?_set_cases hmem.appender with ⟨rfl, rfl⟩ | ⟨hne, hold⟩
    · change Function.update s.own b val b = none at hf
      rw [Function.update_self] at hf
      exact absurd ⟨hmem.logger, hmem.mem, hp⟩ (hcond hf n l p)
    · change Function.update s.own a val b = none at hf
      rw [Function.update_of_ne hne] at hf
      exact ho.follows n b l q ⟨hmem.logger, hmem.mem, hold⟩ hf
  · rcases getElem?_set_cases hmem.appender with ⟨rfl, rfl⟩ | ⟨hne, hold⟩
    · exact fun hval => hcond hval n l p ⟨hmem.logger, hmem.mem, hp⟩
    · exact ho.reached n b l q ⟨hmem.logger, hmem.mem, hold⟩

/-- The formatter `val` is set for the logger `n`, which is `l`, and passed on to the appenders. -/
def withFormatters (s : Ownership) (n : Nat) (l : Logger) (val : Option LogFormatter)
    (appenders : List LogAppender) : Ownership where
  w := { s.w with
    loggers := s.w.loggers.set n { l with m_formatter := val }, appenders := appenders }
  own := s.own

/-- The appenders in the list of `l` have the formatter, the others the one they had. -/
structure PassedOn (s : Ownership) (l : Logger) (val : Option LogFormatter)
    (appenders : List LogAppender) : Prop where
  length : appenders.length = s.w.appenders.length
  /-- Each was there before. -/
  old : ∀ b q, appenders[b]? = some q → ∃ p, s.w.appenders[b]? = some p ∧
    q.m_hasFormatter = p.m_hasFormatter ∧
    q.m_logformatter = if b ∈ l.m_appenders then val else p.m_logformatter
  /-- None is lost. -/
  kept : ∀ b p, s.w.appenders[b]? = some p → ∃ q, appenders[b]? = some q ∧
    q.m_logformatter = if b ∈ l.m_appenders then val else p.m_logformatter

theorem passedOn {s : Ownership} {l : Logger} {val : Option LogFormatter}
    {appenders : List LogAppender} (hlen : appenders.length = s.w.appenders.length)
    (hall : ∀ b : Nat, appenders[b]? =
      (s.w.appenders[b]?).map fun p => if b ∈ l.m_appenders then p.setFormatter val else p) :
    s.PassedOn l val appenders := by
  have hformatter : ∀ (b : Nat) (p : LogAppender),
      (if b ∈ l.m_appenders then p.setFormatter val else p).m_logformatter =
        if b ∈ l.m_appenders then val else p.m_logformatter := by
    intro b p
    split
    · rfl
    · rfl
  refine ⟨hlen, fun b q hq => ?_, fun b p hp => ?_⟩
  · rw [hall b, Option.map_eq_some_iff] at hq
    obtain ⟨p, hp, rfl⟩ := hq
    refine ⟨p, hp, ?_, hformatter b p⟩
    split
    · rfl
    · rfl
  · rw [hall b, hp]
    exact ⟨_, rfl, hformatter b p⟩

theorem withFormatters_plain {s : Ownership} (h : s.Plain) {n : Nat} {l : Logger}
    (hl : s.w.loggers[n]? = some l) {val : Option LogFormatter} {appenders : List LogAppender}
    (hpass : s.PassedOn l val appenders) : (s.withFormatters n l val appenders).Plain := by
  refine ⟨h.free, fun b q hq => ?_, fun n' l' hl' b hb => ?_, fun b f hf => ?_⟩
  · obtain ⟨p, hp, hflag, -⟩ := hpass.old b q hq
    rw [hflag]
    exact h.flag b p hp
  · change b < appenders.length
    rw [hpass.length]
    rcases getElem?_set_cases hl' with ⟨rfl, rfl⟩ | ⟨-, hl'⟩
    · exact h.listed n' l hl b hb
    · exact h.listed n' l' hl' b hb
  · change b < appenders.length
    rw [hpass.length]
    exact h.given b f hf

/-- The ownership is kept just when the formatter suits every appender in the list. -/
theorem withFormatters_owned_iff {s : Ownership} (ho : s.Owned) {n : Nat} {l : Logger}
    (hl : s.w.loggers[n]? = some l) {val : Option LogFormatter} {appenders : List LogAppender}
    (hpass : s.PassedOn l val appenders) : (s.withFormatters n l val appenders).Owned ↔
      ∀ a l p, s.InList n a l p → val ≠ none ∧ (∀ f, s.own a = some f → val = some f) ∧
        (s.own a = none → ∀ n' l', n' ≠ n → s.InList n' a l' p → l'.m_formatter = val) := by
  have hn : n < s.w.loggers.length := (List.getElem?_eq_some_iff.mp hl).1
  refine ⟨fun ho' => ?_, fun hcond => ⟨fun b q hq f hf => ?_, fun n' b l' q hmem hf => ?_,
    fun n' b l' q hmem => ?_⟩⟩
  · rintro a l₀ p ⟨hl₀, ha, hp⟩
    rw [hl] at hl₀
    cases hl₀
    obtain ⟨q, hq, hformatter⟩ := hpass.kept a p hp
    rw [if_pos ha] at hformatter
    rw [← hformatter]
    refine ⟨ho'.reached n a { l with m_formatter := val } q ⟨List.getElem?_set_self hn, ha, hq⟩,
      fun f hf => ho'.keeps a q hq f hf, fun hf n' l' hne hmem => ?_⟩
    exact (ho'.follows n' a l' q
      ⟨(List.getElem?_set_ne (Ne.symm hne)).trans hmem.logger, hmem.mem, hq⟩ hf).symm
  · obtain ⟨p, hp, -, hformatter⟩ := hpass.old b q hq
    rw [hformatter]
    split
    next hmem => exact (hcond b l p ⟨hl, hmem, hp⟩).2.1 f hf
    next => exact ho.keeps b p hp f hf
  · obtain ⟨hl', hb, hq⟩ := hmem
    obtain ⟨p, hp, -, hformatter⟩ := hpass.old b q hq
    rw [hformatter]
    rcases getElem?_set_cases hl' with ⟨rfl, rfl⟩ | ⟨hne, hl'⟩
    · exact if_pos hb
    · split
      next hmem => exact ((hcond b l p ⟨hl, hmem, hp⟩).2.2 hf n' l' hne ⟨hl', hb, hp⟩).symm
      next => exact ho.follows n' b l' p ⟨hl', hb, hp⟩ hf
  · obtain ⟨hl', hb, hq⟩ := hmem
    obtain ⟨p, hp, -, hformatter⟩ := hpass.old b q hq
    rw [hformatter]
    split
    next hmem => exact (hcond b l p ⟨hl, hmem, hp⟩).1
    next hmem =>
      rcases getElem?_set_cases hl' with ⟨rfl, rfl⟩ | ⟨hne, hl'⟩
      · exact absurd hb hmem
      · exact ho.reached n' b l' p ⟨hl', hb, hp⟩

/-- `Logger::setFormatter` sets the formatter of every appender in the list. -/
theorem loggerFormatter_spec {s : Ownership} (h : s.Plain) (ho : s.Owned) {n : Nat} {l : Logger}
    (hl : s.w.loggers[n]? = some l) (val : Option LogFormatter) :
    ∃ w, setFormatter n val s.w = .ok w ∧ Plain ⟨w, s.own⟩ ∧ (Owned ⟨w, s.own⟩ ↔
      ∀ a l p, s.InList n a l p → val ≠ none ∧ (∀ f, s.own a = some f → val = some f) ∧
        (s.own a = none → ∀ n' l', n' ≠ n → s.InList n' a l' p → l'.m_formatter = val)) := by
  obtain ⟨appenders, hset, hlen, hall⟩ := setFormatter_spec h hl val
  have hpass := passedOn hlen hall
  exact ⟨_, hset, withFormatters_plain h hl hpass, withFormatters_owned_iff ho hl hpass⟩

/-! ## Runs -/

theorem onLogger_eq {n : Nat} {f : Logger → Logger} {w w' : World} (h : onLogger n f w = .ok w') :
    ∃ l, w.loggers[n]? = some l ∧ w' = { w with loggers := w.loggers.set n (f l) } := by
  rw [onLogger] at h
  split at h
  next => cases h
  next l hl => exact ⟨l, hl, (Except.ok.inj h).symm⟩

theorem onAppender_eq {a : Nat} {f : LogAppender → LogAppender} {w w' : World}
    (h : onAppender a f w = .ok w') :
    ∃ p, w.appenders[a]? = some p ∧ w' = { w with appenders := w.appenders.set a (f p) } := by
  rw [onAppender] at h
  split at h
  next => cases h
  next p hp => exact ⟨p, hp, (Except.ok.inj h).symm⟩

theorem step_eq {s s' : Ownership} {op : Op} (h : s.step op = some s') :
    allows s.w op = true ∧ ∃ w, op.run s.w = .ok w ∧ s' = ⟨w, given s.own op⟩ := by
  rw [step, Option.ite_none_right_eq_some] at h
  refine ⟨h.1, ?_⟩
  cases hrun : op.run s.w with
  | error f =>
      rw [hrun] at h
      cases h.2
  | ok w =>
      rw [hrun] at h
      exact ⟨w, rfl, (Option.some.inj h.2).symm⟩

/-- An operation keeps the formatters right exactly when it respects those that were given. -/
theorem step_spec {s s' : Ownership} {op : Op} (h : s.Plain) (ho : s.Owned)
    (hstep : s.step op = some s') : s'.Plain ∧ (s'.Owned ↔ s.Respects op s') := by
  obtain ⟨hallows, w, hrun, rfl⟩ := step_eq hstep
  have hheld : ∀ m, m ∉ s.w.held := fun m => by rw [h.free]; exact List.not_mem_nil
  cases op with
  | newLogger name =>
      cases (newLogger_eq (hheld _)).symm.trans hrun
      obtain ⟨hplain, howned⟩ := withLogger_spec h ho name
      exact ⟨hplain, iff_of_true howned trivial⟩
  | newAppender sink =>
      cases hrun
      obtain ⟨hplain, howned⟩ := newAppender_spec h ho sink
      exact ⟨hplain, iff_of_true howned trivial⟩
  | addAppender n a =>
      obtain ⟨l, hl, rfl⟩ := onLogger_eq hrun
      have hp := List.getElem?_eq_getElem (of_decide_eq_true hallows)
      obtain ⟨hplain, hiff⟩ := withList_add h ho hl hp
      refine ⟨hplain, hiff.trans ⟨fun hcond hown l' p hl' hp' => ?_,
        fun hcond hown => hcond hown l _ hl hp⟩⟩
      rw [hl] at hl'
      rw [hp] at hp'
      cases hl'
      cases hp'
      exact hcond hown
  | delAppender n a =>
      obtain ⟨l, hl, rfl⟩ := onLogger_eq hrun
      obtain ⟨hplain, howned⟩ := withList_fewer h ho (l.delAppender a) hl
        (fun b hb => List.mem_of_mem_erase hb) rfl
      exact ⟨hplain, iff_of_true howned trivial⟩
  | clearAppenders n =>
      obtain ⟨l, hl, rfl⟩ := onLogger_eq hrun
      obtain ⟨hplain, howned⟩ := withList_fewer h ho l.clearAppenders hl
        (fun b hb => by cases hb) rfl
      exact ⟨hplain, iff_of_true howned trivial⟩
  | appenderFormatter a val =>
      obtain ⟨p, hp, rfl⟩ := onAppender_eq hrun
      exact appenderFormatter_spec h ho hp val
  | setFormatter n val =>
      cases hl : s.w.loggers[n]? with
      | none =>
          rw [Op.run, Log.setFormatter, locking_free (hheld _)] at hrun
          simp only [hl] at hrun
          cases hrun
      | some l =>
          obtain ⟨w', hset, hplain, hiff⟩ := loggerFormatter_spec h ho hl val
          cases hset.symm.trans hrun
          exact ⟨hplain, hiff⟩
  | setFormatterPattern n val =>
      cases hl : s.w.loggers[n]? with
      | none =>
          cases (setFormatterPattern_none (hheld _) hl).symm.trans hrun
      | some l =>
          cases hval : (LogFormatter.ofPattern val).m_error with
          | false => cases (setFormatterPattern_valid (hheld _) hl hval).symm.trans hrun
          | true =>
              cases (setFormatterPattern_invalid (hheld _) hl hval).symm.trans hrun
              exact ⟨⟨h.free, h.flag, h.listed, h.given⟩,
                iff_of_true ⟨ho.keeps, ho.follows, ho.reached⟩ trivial⟩
  | log => cases hallows
  | setLevel => cases hallows
  | appenderLog => cases hallows
  | appenderLevel => cases hallows
  | newManager => cases hallows
  | getLogger => cases hallows
  | listener => cases hallows

/-- In every run the appenders keep their formatters, have those of their loggers, and have one,
exactly when every operation respects the formatters that were given. -/
theorem owned_iff (ops : List Op) :
    Throughout step Owned start ops ↔ Along step Respects start ops := by
  have hrule : ∀ s op s', True → s.Plain → s.Owned → step s op = some s' →
      s'.Plain ∧ (s'.Owned ↔ Respects s op s') :=
    fun _ _ _ _ hplain howned hstep => step_spec hplain howned hstep
  exact throughout_iff_along_beside (fun s op s' hq hp ho hs => (hrule s op s' hq hp ho hs).1)
    (fun s op s' hq hp ho hs => (hrule s op s' hq hp ho hs).2) (fun _ _ => trivial) start_plain
    start_owned

/-- The formatter that an appender was given is lost with the next one of its logger, and a new
appender that is added has none. -/
theorem formatters_lost :
    (∃ s, exec step start [.newLogger (ascii "a"),
        .appenderFormatter 0 (some (.ofPattern (ascii "%m"))),
        .setFormatter 0 (some (.ofPattern (ascii "%n")))] = some s ∧ ¬ s.Owned) ∧
      ∃ s, exec step start [.newLogger (ascii "a"), .newAppender .stdout, .addAppender 0 2] =
        some s ∧ ¬ s.Owned := by
  refine ⟨⟨_, rfl, fun h => ?_⟩, ⟨_, rfl, fun h => ?_⟩⟩
  · have hkept := h.keeps 0 _ rfl _ rfl
    exact absurd (congrArg LogFormatter.m_pattern (Option.some.inj hkept)) (by decide)
  · exact h.reached 0 2 _ _ ⟨rfl, by decide, rfl⟩ rfl

end Ownership

end Muqiu.Log
