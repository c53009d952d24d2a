import Muqiu.Config.Model

/-!
# The definitions behind the `logs` variable

`LogAppenderDefine` and `LogDefine` with their comparisons, the sets of definitions that the
variable holds, the definitions that the listener of `LogIniter` configures and removes, and the
two converters between a definition and its text.

`operator==` of `LogDefine` compares its own `appenders` with themselves, so it does not look at
the appenders at all.
-/

namespace Muqiu.Log

open Json (Text ascii)
open Config (ConfigVar Change Readers)

/-! ## Levels -/

/-- `LogLevel::Level` -/
inductive Level where
  | unknow
  | debug
  | info
  | warn
  | error
  | fatal
deriving DecidableEq, Repr

namespace Level

/-- The number of a level, by which levels are compared. -/
def toNat : Level → Nat
  | unknow => 0
  | debug => 1
  | info => 2
  | warn => 3
  | error => 4
  | fatal => 5

/-- `LogLevel::ToString` -/
def toText : Level → Text
  | debug => ascii "DEBUG"
  | info => ascii "INFO"
  | fatal => ascii "FATAL"
  | error => ascii "ERROR"
  | warn => ascii "WARN"
  | unknow => ascii "UNKNOW"

/-- `LogLevel::FromString` -/
def ofText (str : Text) : Level :=
  if str = ascii "debug" then debug
  else if str = ascii "info" then info
  else if str = ascii "warn" then warn
  else if str = ascii "error" then error
  else if str = ascii "fatal" then fatal
  else if str = ascii "DEBUG" then debug
  else if str = ascii "INFO" then info
  else if str = ascii "WARN" then warn
  else if str = ascii "ERROR" then error
  else if str = ascii "FATAL" then fatal
  else unknow

theorem ofText_toText (level : Level) : ofText level.toText = level := by
  cases level <;> rfl

end Level

/-! ## Definitions -/

/-- An appender; the type is 1 for a file and 2 for the standard output. -/
structure LogAppenderDefine where
  type : Int := 0
  level : Level := .unknow
  formatter : Text := []
  file : Text := []
deriving DecidableEq, Repr

/-- The definition of a logger in the configuration. -/
@[ext]
structure LogDefine where
  name : Text
  level : Level := .unknow
  formatter : Text := []
  appenders : List LogAppenderDefine := []
deriving DecidableEq, Repr

namespace LogDefine

/-- `operator==`, which compares `appenders` with itself. -/
def eq (d oth : LogDefine) : Bool :=
  d.name == oth.name && d.level == oth.level && d.formatter == oth.formatter &&
    d.appenders == d.appenders

/-- `operator<` -/
def lt (d oth : LogDefine) : Bool := decide (d.name < oth.name)

theorem eq_iff {d oth : LogDefine} :
    d.eq oth = true ↔ d.name = oth.name ∧ d.level = oth.level ∧ d.formatter = oth.formatter := by
  rw [eq, beq_self_eq_true, Bool.and_true, Bool.and_eq_true, Bool.and_eq_true, beq_iff_eq,
    beq_iff_eq, beq_iff_eq, and_assoc]

theorem lt_iff (d oth : LogDefine) : d.lt oth = true ↔ d.name < oth.name := decide_eq_true_iff

end LogDefine

/-- `std::set<LogDefine>` -/
abbrev LogDefines := { ds : List LogDefine // SortedSet.Sorted LogDefine.lt ds }

namespace LogDefines

/-- `find`, which goes by the name. -/
def find (ds : LogDefines) (d : LogDefine) : Option LogDefine :=
  SortedSet.find? LogDefine.lt d ds.val

/-- `operator==` of sets: the same number of elements, equal one by one. -/
def eq (ds oth : LogDefines) : Bool :=
  ds.val.length == oth.val.length && (ds.val.zip oth.val).all fun p => p.1.eq p.2

end LogDefines

/-! ## The listener -/

/-- The definitions the listener configures: new ones, and those that differ from the old one. -/
def configured (old_value new_value : LogDefines) : List LogDefine :=
  new_value.val.filter fun i =>
    match old_value.find i with
    | none => true
    | some it => !i.eq it

/-- The definitions the listener removes. -/
def removed (old_value new_value : LogDefines) : List LogDefine :=
  old_value.val.filter fun i => (new_value.find i).isNone

/-! ## `LexicalCast` -/

/-- A member that is set under a condition. -/
def member (cond : Bool) (key : String) (value : Json) : List (Text × Json) :=
  if cond then [(ascii key, value)] else []

/-- The member for the type of an appender, if it is one of the two. -/
def typeMember (type : Int) : List (Text × Json) :=
  if type = 1 then [(ascii "type", .str (ascii "FileLogAppender"))]
  else if type = 2 then [(ascii "type", .str (ascii "StdoutLogAppender"))]
  else []

/-- The `json` of an appender, which stays null when nothing is set. -/
def LogAppenderDefine.toJson (a : LogAppenderDefine) : Json :=
  let ms := member (a.type == 1) "file" (.str a.file) ++
    member (!a.formatter.isEmpty) "formatter" (.str a.formatter) ++
    member (a.level != .unknow) "level" (.str a.level.toText) ++ typeMember a.type
  if ms.isEmpty then .null else .obj ms

/-- The JSON of a definition.  A member that has its default is left out, but for the name. -/
def LogDefine.toJson (d : LogDefine) : Json :=
  .obj (member (!d.appenders.isEmpty) "appenders"
      (.arr (d.appenders.map LogAppenderDefine.toJson)) ++
    member (!d.formatter.isEmpty) "formatter" (.str d.formatter) ++
    member (d.level != .unknow) "level" (.str d.level.toText) ++
    member true "name" (.str d.name))

/-- `LexicalCast<LogDefine, std::string>` -/
def LogDefine.toText (d : LogDefine) : Option Text := Json.dump none d.toJson

/-- A string member, empty when it is missing. -/
def stringMember (key : String) (n : Json) : Option Text :=
  match n.get? (ascii key) with
  | none => some []
  | some v => v.str?

/-- One round of the loop over the appenders: nothing for one that is skipped with a message. -/
def appenderOf (a : Json) : Option (Option LogAppenderDefine) :=
  match a.get? (ascii "type") with
  | none => (Json.dump none a).map fun _ => none
  | some t =>
      t.str?.bind fun type =>
        if type = ascii "FileLogAppender" then
          match a.get? (ascii "path") with
          | none => (Json.dump none a).map fun _ => none
          | some p =>
              p.str?.bind fun file =>
                (stringMember "formatter" a).map fun formatter =>
                  some { type := 1, formatter := formatter, file := file }
        else if type = ascii "StdoutLogAppender" then
          (stringMember "formatter" a).map fun formatter =>
            some { type := 2, formatter := formatter }
        else (Json.dump none a).map fun _ => none

/-- The appenders of a definition that is read, from the member `appender`. -/
def appendersOf (n : Json) : Option (List LogAppenderDefine) :=
  match n.get? (ascii "appender") with
  | none => some []
  | some v => (v.elements.mapM appenderOf).map fun as => as.filterMap id

/-- `LexicalCast<std::string, LogDefine>` -/
def LogDefine.ofText (parse : Text → Option Json) (v : Text) : Option LogDefine :=
  (parse v).bind fun n =>
    (n.touch (ascii "name")).bind fun n =>
      (n.get? (ascii "name")).bind fun name =>
        name.str?.bind fun name =>
          (stringMember "level" n).bind fun level =>
            (stringMember "formatter" n).bind fun formatter =>
              (appendersOf n).map fun appenders =>
                ⟨name, Level.ofText level, formatter, appenders⟩

end Muqiu.Log
