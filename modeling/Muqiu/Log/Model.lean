import Muqiu.Log.Define
import Muqiu.Log.Formatter

/-!
# Loggers, appenders and the logger manager

Objects are numbered in the order they are made, and a pointer is the number of an object.  An
operation runs in one call chain, which holds some mutexes.  It fails where the chain locks a
mutex it already holds (`Fault.deadlock`), and where a null pointer is used (`Fault.null`).

`listener` is what `LogIniter` adds to the `logs` variable.  It returns the loggers it has
configured, with their names.
-/

namespace Muqiu.Log

open Json (Text ascii)

/-! ## Objects -/

/-- A `StdoutLogAppender`, or a `FileLogAppender` with `m_name` and `m_lastTime`. -/
inductive Sink where
  | stdout
  | file (m_name : Text) (m_lastTime : Nat)
deriving DecidableEq, Repr

/-- An appender.  `m_hasFormatter` says that its formatter is its own. -/
structure LogAppender where
  sink : Sink
  m_level : Level := .debug
  m_hasFormatter : Bool := false
  m_logformatter : Option LogFormatter := none
deriving DecidableEq, Repr

/-- A logger, with the numbers of its appenders and of the root it falls back to. -/
structure Logger where
  m_name : Text
  m_level : Level := .debug
  m_appenders : List Nat := []
  m_formatter : Option LogFormatter := none
  m_root : Option Nat := none
deriving DecidableEq, Repr

/-- The mutex of an object. -/
inductive Mutex where
  | logger (n : Nat)
  | appender (a : Nat)
deriving DecidableEq, Repr

/-- What ends a call chain. -/
inductive Fault where
  | deadlock (m : Mutex)
  | null
deriving DecidableEq, Repr

/-- What is logged: a time and a text. -/
structure LogEvent where
  time : Nat
  content : Text
deriving DecidableEq, Repr

/-- What an appender writes: the event of a logger, in a format. -/
structure Written where
  appender : Nat
  formatter : LogFormatter
  logger : Nat
  level : Level
  event : LogEvent
deriving DecidableEq, Repr

/-- The objects there are, the `LoggerManager`, the mutexes the call chain holds, and what was
written. -/
structure World where
  loggers : List Logger := []
  appenders : List LogAppender := []
  m_loggers : List (Text × Nat) := []
  m_root : Nat := 0
  held : List Mutex := []
  written : List Written := []
deriving DecidableEq, Repr

/-- What an operation makes of the objects. -/
abbrev Outcome := Except Fault World

/-- The scope of a `unique_lock`. -/
def locking (m : Mutex) (body : World → Outcome) (w : World) : Outcome :=
  if m ∈ w.held then .error (.deadlock m)
  else (body { w with held := m :: w.held }).map fun w' => { w' with held := w.held }

/-- Change a logger. -/
def onLogger (n : Nat) (f : Logger → Logger) (w : World) : Outcome :=
  match w.loggers[n]? with
  | none => .error .null
  | some l => .ok { w with loggers := w.loggers.set n (f l) }

/-- Change an appender. -/
def onAppender (a : Nat) (f : LogAppender → LogAppender) (w : World) : Outcome :=
  match w.appenders[a]? with
  | none => .error .null
  | some p => .ok { w with appenders := w.appenders.set a (f p) }

/-! ## Appenders -/

/-- A new appender, at the end of the objects. -/
def newAppender (sink : Sink) (w : World) : World :=
  { w with appenders := w.appenders ++ [{ sink := sink }] }

/-- `LogAppender::setFormatter` -/
def LogAppender.setFormatter (val : Option LogFormatter) (p : LogAppender) : LogAppender :=
  { p with m_logformatter := val }

/-- The file is opened again after three seconds. -/
def Sink.touched (now : Nat) : Sink → Sink
  | .stdout => .stdout
  | .file name last => if last + 3 ≤ now then .file name now else .file name last

/-- `StdoutLogAppender::log` and `FileLogAppender::log` -/
def appenderLog (a n : Nat) (level : Level) (event : LogEvent) : World → Outcome :=
  locking (.appender a) fun w =>
    match w.appenders[a]? with
    | none => .error .null
    | some p =>
        if p.m_level.toNat ≤ level.toNat then
          match p.m_logformatter with
          | none => .error .null
          | some f => .ok { w with
              appenders := w.appenders.set a { p with sink := p.sink.touched event.time }
              written := w.written ++ [⟨a, f, n, level, event⟩] }
        else .ok w

/-! ## Loggers -/

/-- `Logger::setFormatter` with a formatter, which the appenders without one of their own get. -/
def setFormatter (n : Nat) (val : Option LogFormatter) : World → Outcome :=
  locking (.logger n) fun w =>
    match w.loggers[n]? with
    | none => .error .null
    | some l =>
        l.m_appenders.foldlM
          (fun w a => onAppender a
            (fun p => if p.m_hasFormatter then p else p.setFormatter val) w)
          { w with loggers := w.loggers.set n { l with m_formatter := val } }

/-- `Logger::setFormatter` with a pattern. -/
def setFormatterPattern (n : Nat) (val : Text) : World → Outcome :=
  locking (.logger n) fun w =>
    match w.loggers[n]? with
    | none => .error .null
    | some _ =>
        let new_val := LogFormatter.ofPattern val
        if new_val.m_error then .ok w else setFormatter n (some new_val) w

/-- The pattern and the file of every new logger. -/
def defaultPattern : Text :=
  ascii "%d\x7b%Y-%m-%d %H:%M:%S\x7d%T%t%T%N%T%F%T[%p]%T[%c]%T%f:%l%T%m%n"

/-- The file of the second appender of a new logger. -/
def defaultFile : Text := ascii "/root/desktop/muqiu0614/src/Log.txt"

/-- The constructor of `Logger`: a new logger at the end of the objects, with two new
appenders. -/
def newLogger (name : Text) (w : World) : Outcome :=
  let a := w.appenders.length
  let w := newAppender (.file defaultFile 0) (newAppender .stdout w)
  let l : Logger := { m_name := name, m_appenders := [a, a + 1] }
  setFormatter w.loggers.length (some (LogFormatter.ofPattern defaultPattern))
    { w with loggers := w.loggers ++ [l] }

/-- `Logger::log`.  A logger without appenders passes the event on to its root.  `fuel` bounds
the number of loggers on the way. -/
def log (event : LogEvent) (level : Level) : Nat → Nat → World → Outcome
  | 0, n => fun _ => .error (.deadlock (.logger n))
  | fuel + 1, n =>
      locking (.logger n) fun w =>
        match w.loggers[n]? with
        | none => .error .null
        | some l =>
            if l.m_level.toNat ≤ level.toNat then
              if l.m_appenders.isEmpty then
                match l.m_root with
                | none => .ok w
                | some r => log event level fuel r w
              else l.m_appenders.foldlM (fun w a => appenderLog a n level event w) w
            else .ok w

/-- The fuel that is enough: more loggers than there are cannot be on the way. -/
def logFuel (w : World) : Nat := w.loggers.length + 1

/-- One more appender, at the end. -/
def Logger.addAppender (a : Nat) (l : Logger) : Logger :=
  { l with m_appenders := l.m_appenders ++ [a] }

/-- Without the first occurrence of an appender. -/
def Logger.delAppender (a : Nat) (l : Logger) : Logger :=
  { l with m_appenders := l.m_appenders.erase a }

/-- Another level. -/
def Logger.setLevel (level : Level) (l : Logger) : Logger := { l with m_level := level }

/-- Without appenders. -/
def Logger.clearAppenders (l : Logger) : Logger := { l with m_appenders := [] }

/-! ## The manager -/

/-- The constructor of `LoggerManager`, which makes the root logger. -/
def newManager (w : World) : Outcome :=
  (newLogger (ascii "root") w).map fun w' =>
    { w' with m_root := w.loggers.length, m_loggers := [(ascii "root", w.loggers.length)] }

/-- `getLogger`, with the logger it returns.  A new logger is entered, its `m_root` is left as it
is, and the root logger is returned. -/
def getLogger (name : Text) (w : World) : Except Fault (Nat × World) :=
  match w.m_loggers.lookup name with
  | some n => .ok (n, w)
  | none =>
      (newLogger name w).map fun w' =>
        (w.m_root, { w' with m_loggers := (name, w.loggers.length) :: w.m_loggers })

/-! ## The listener of `LogIniter` -/

/-- An appender of a definition is made and added. -/
def configureAppender (n : Nat) (w : World) (a : LogAppenderDefine) : Outcome :=
  let ap := w.appenders.length
  let made : Option World :=
    if a.type = 1 then some (newAppender (.file a.file 0) w)
    else if a.type = 2 then some (newAppender .stdout w)
    else none
  match made with
  | none => .error .null
  | some w =>
      let fmt := LogFormatter.ofPattern a.formatter
      (onAppender ap (fun p =>
        let p := { p with m_level := a.level }
        if a.formatter.isEmpty || fmt.m_error then p else p.setFormatter (some fmt)) w).bind
          (onLogger n (Logger.addAppender ap))

/-- A new or changed definition configures a logger of its name. -/
def configure (i : LogDefine) (w : World) : Outcome :=
  let n := w.loggers.length
  (newLogger i.name w).bind fun w =>
    (onLogger n (fun l => (l.setLevel i.level).clearAppenders) w).bind fun w =>
      (i.appenders.foldlM (configureAppender n) w).bind fun w =>
        if i.formatter.isEmpty then .ok w else setFormatterPattern n i.formatter w

/-- A definition that is gone clears a logger of its name. -/
def unconfigure (i : LogDefine) (w : World) : Outcome :=
  let n := w.loggers.length
  (newLogger i.name w).bind fun w =>
    onLogger n (fun l => (l.setLevel .unknow).clearAppenders) w

/-- Run an operation for each definition, with the logger each one makes. -/
def forEach (op : LogDefine → World → Outcome) :
    List LogDefine → World → Except Fault (List (Text × Nat) × World)
  | [], w => .ok ([], w)
  | i :: ds, w =>
      (op i w).bind fun w' =>
        (forEach op ds w').map fun r => ((i.name, w.loggers.length) :: r.1, r.2)

/-- The listener, with the loggers it has configured. -/
def listener (old_value new_value : LogDefines) (w : World) :
    Except Fault (List (Text × Nat) × World) :=
  (forEach configure (configured old_value new_value) w).bind fun r =>
    (forEach unconfigure (removed old_value new_value) r.2).map fun r' => (r.1 ++ r'.1, r'.2)

end Muqiu.Log
