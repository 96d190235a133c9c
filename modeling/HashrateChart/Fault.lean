/-
Why an operation of the chart fails. A fault is a cause; its wording stands in
`Fault.message?` alone, and only causes that carry a text of their own have one.

A rejected document is one fault with all its problems: each names the place
in the document and what is wrong there.
-/

namespace HashrateChart

/-- What is wrong with one value of a document. -/
inductive ProblemKind where
  | missing
  | intType
  | intParsing
  | intParsingSize
  | intFromFloat
  | finiteNumber
  | floatType
  | floatParsing
  | boolType
  | boolParsing
  | stringType
  | stringUnicode
  | listType
  | modelType
  | valueError
  deriving DecidableEq, Repr

/-- The name under which a problem is reported. -/
def ProblemKind.name : ProblemKind → String
  | missing => "missing"
  | intType => "int_type"
  | intParsing => "int_parsing"
  | intParsingSize => "int_parsing_size"
  | intFromFloat => "int_from_float"
  | finiteNumber => "finite_number"
  | floatType => "float_type"
  | floatParsing => "float_parsing"
  | boolType => "bool_type"
  | boolParsing => "bool_parsing"
  | stringType => "string_type"
  | stringUnicode => "string_unicode"
  | listType => "list_type"
  | modelType => "model_type"
  | valueError => "value_error"

/-- A problem and the path of field names and positions that leads to it. -/
structure Problem where
  path : List String
  kind : ProblemKind
  deriving DecidableEq, Repr

/-- A problem as one line: the path joined by points, then the kind. -/
def Problem.line (p : Problem) : String :=
  String.intercalate "." p.path ++ ": " ++ p.kind.name

/-- The cause of a failure. -/
inductive Fault where
  /-- A number is beyond the range of the kind of number it is turned into. -/
  | overflow
  /-- An undefined number is turned into an integer. -/
  | undefinedNumber
  /-- A text that should be a number is none. -/
  | badNumeral
  /-- A text that should name a warmup stage or event names none. -/
  | unknownName
  /-- A sequence that should hold pairs holds something of another length. -/
  | badPair
  /-- A value is of a kind that the operation does not take. -/
  | wrongType
  /-- A value has no operation of the name that is asked of it. -/
  | noSuchOperation
  /-- A quotient by zero. -/
  | zeroDivision
  /-- A place of a list that is not there is used. -/
  | noSuchSlot
  /-- A key of an object that is not there is used. -/
  | noSuchKey
  /-- A text with half a surrogate pair cannot be kept as bytes. -/
  | unstorable
  /-- A time is outside the calendar. -/
  | timeOutOfRange
  /-- The year of a time is beyond what years are counted with. -/
  | yearOutOfRange
  /-- A text holds lists and objects inside one another deeper than is read. -/
  | tooDeep
  | unknownChannel (key : String)
  | channelCount (got : Nat)
  | unknownViewMode (mode : String)
  | noDevice
  | sessionClosed
  /-- The device answered something that is no system information. -/
  | badResponse
  /-- The device could not be reached, or answered with an error status. -/
  | connection
  | timeout
  | invalid (problems : List Problem)
  deriving DecidableEq, Repr

/-- The text of a fault that has one. -/
def Fault.message? : Fault → Option String
  | unknownChannel key => some ("Unknown channel key: " ++ key)
  | channelCount got => some ("Expected 6 channel values, got " ++ toString got)
  | unknownViewMode mode => some ("Unknown view mode: " ++ mode)
  | noDevice => some "No device configured"
  | sessionClosed => some "Client not initialized. Use 'async with' context manager."
  | invalid problems => some (String.intercalate "\n" (problems.map Problem.line))
  | _ => none

/-- What an operation that may fail gives. -/
abbrev Result (α : Type) := Except Fault α

/-- An operation on a state: whatever it changed before it failed stays changed. -/
abbrev Action (σ α : Type) := ExceptT Fault (StateM σ) α

/-- Runs an action and keeps both its result and the state it left. -/
def Action.runOn {σ α : Type} (act : Action σ α) (s : σ) : Result α × σ :=
  StateT.run (ExceptT.run act) s

end HashrateChart
