import Muqiu.Log.Model

/-!
# What the operations on loggers do

A new logger comes at the end of the objects, with two new appenders that have its formatter
(`newLogger_eq`).  The other operations change the objects they are about and give the mutexes
back.
-/

namespace Muqiu.Log

open Json (Text ascii)

/-! ## Scopes -/

theorem locking_free {m : Mutex} {body : World → Outcome} {w : World} (h : m ∉ w.held) :
    locking m body w =
      (body { w with held := m :: w.held }).map fun w' => { w' with held := w.held } := by
  rw [locking, if_neg h]

theorem locking_held {m : Mutex} {body : World → Outcome} {w : World} (h : m ∈ w.held) :
    locking m body w = .error (.deadlock m) := by
  rw [locking, if_pos h]

/-! ## New loggers -/

/-- The formatter of a new logger. -/
def defaultFormatter : LogFormatter := LogFormatter.ofPattern defaultPattern

/-- The objects with a new logger. -/
def withLogger (name : Text) (w : World) : World :=
  { w with
    loggers := w.loggers ++
      [{ m_name := name, m_appenders := [w.appenders.length, w.appenders.length + 1],
         m_formatter := some defaultFormatter }]
    appenders := w.appenders ++
      [{ sink := .stdout, m_logformatter := some defaultFormatter },
       { sink := .file defaultFile 0, m_logformatter := some defaultFormatter }] }

theorem getElem?_concat_self {α : Type} (xs ys : List α) (x : α) :
    (xs ++ x :: ys)[xs.length]? = some x := by
  rw [List.getElem?_append_right (Nat.le_refl _), Nat.sub_self]
  rfl

theorem set_concat_self {α : Type} (xs ys : List α) (x y : α) :
    (xs ++ x :: ys).set xs.length y = xs ++ y :: ys := by
  rw [List.set_append_right _ _ (Nat.le_refl _), Nat.sub_self]
  rfl

/-- Changing an appender among the others. -/
theorem onAppender_at {w : World} {xs ys : List LogAppender} {p : LogAppender} {a : Nat}
    (ha : a = xs.length) (h : w.appenders = xs ++ p :: ys) (f : LogAppender → LogAppender) :
    onAppender a f w = .ok { w with appenders := xs ++ f p :: ys } := by
  rw [onAppender, h, ha, getElem?_concat_self]
  simp only [set_concat_self]

theorem ok_bind (w : World) (f : World → Outcome) : ((Except.ok w : Outcome) >>= f) = f w := rfl

/-- Changing the last two appenders. -/
theorem onAppender_pair {w : World} {xs : List LogAppender} {p q : LogAppender}
    (h : w.appenders = xs ++ [p, q]) (f : LogAppender → LogAppender) :
    [xs.length, xs.length + 1].foldlM (fun w a => onAppender a f w) w =
      .ok { w with appenders := xs ++ [f p, f q] } := by
  have hfirst : onAppender xs.length f w = .ok { w with appenders := xs ++ f p :: [q] } :=
    onAppender_at rfl h f
  have hlen : xs.length + 1 = (xs ++ [f p]).length := by
    rw [List.length_append, List.length_singleton]
  have hsecond : onAppender (xs.length + 1) f { w with appenders := xs ++ f p :: [q] } =
      .ok { w with appenders := (xs ++ [f p]) ++ f q :: [] } :=
    onAppender_at hlen (List.append_assoc xs [f p] [q]).symm f
  rw [List.foldlM_cons, hfirst, ok_bind, List.foldlM_cons, hsecond, ok_bind, List.append_assoc]
  rfl

theorem newLogger_eq {name : Text} {w : World} (h : Mutex.logger w.loggers.length ∉ w.held) :
    newLogger name w = .ok (withLogger name w) := by
  rw [newLogger, setFormatter, locking_free (by exact h)]
  simp only [newAppender]
  rw [getElem?_concat_self]
  simp only [set_concat_self]
  rw [onAppender_pair (List.append_assoc _ _ _)]
  rfl

end Muqiu.Log
