/-
The command line: options in any order, each by its full name or by a beginning
that no other name shares, with a value after the name or after an equals sign.
Two dashes after an equals sign are no value, but the option stands there.

An ambiguous name is refused before anything else, a faulty option where it
stands, and an argument that belongs to no option once all options were read.
-/
import HashrateChart.Text.Digit

namespace HashrateChart

namespace Arguments

/-- The value of an option. -/
inductive Value where
  | text (s : String)
  | nothing
  deriving DecidableEq

/-- The value after an equals sign. -/
def Value.ofWritten (s : String) : Value := if s = "--" then nothing else text s

/-- The text of a value that counts: an empty one does not, as if the option were not there. -/
def chosen? : Option Value → Option String
  | some (.text s) => if s = "" then none else some s
  | _ => none

end Arguments

/-- What the command line says. -/
structure Arguments where
  config : Arguments.Value := .text "config.yaml"
  device : Option Arguments.Value := none
  dashboard : Bool := false
  logLevel : Option Arguments.Value := none
  deriving DecidableEq

namespace Arguments

/-- The options. -/
inductive Flag where
  | help
  | config
  | device
  | dashboard
  | logLevel
  deriving DecidableEq, Repr

/-- The names of the options. -/
def names : List (String × Flag) :=
  [("-h", .help), ("--help", .help), ("--config", .config), ("--device", .device),
    ("--dashboard", .dashboard), ("--log-level", .logLevel)]

/-- What the options are for. -/
def usage : List String :=
  ["usage: hashratechart [--help] [--config FILE] [--device IP] [--dashboard] [--log-level LEVEL]",
    "",
    "  -h, --help         say how the program is used",
    "  --config FILE      the configuration, config.yaml unless something else is said",
    "  --device IP        the device, in place of the one of the configuration",
    "  --dashboard        show the status panel",
    "  --log-level LEVEL  the log level, in place of the one of the configuration"]

/-- What an argument is by itself. -/
inductive Token where
  /-- An option, and the value that was written together with it. -/
  | option (flag : Flag) (value : Option String)
  /-- A short name, and what was written together with it. -/
  | short (more : String)
  /-- The beginning of several names. -/
  | ambiguous
  /-- Two dashes, after which everything is plain. -/
  | separator
  /-- Something that looks like an option and is none. -/
  | stranger
  /-- Anything else; it may be the value of an option. -/
  | plain (text : String)
  deriving DecidableEq

/-- The parts before and after the first equals sign. -/
def splitValue (cs : List Char) : List Char × Option String :=
  match cs.dropWhile (· ≠ '=') with
  | [] => (cs, none)
  | _ :: rest => (cs.takeWhile (· ≠ '='), some (String.ofList rest))

/-- The options that a name may stand for. Other letters may follow a short name. -/
def candidates (cs : List Char) : List Token :=
  if ['-', '-'].isPrefixOf cs then
    let (name, value) := splitValue cs
    (names.filter fun (n, _) => name.isPrefixOf n.toList).map fun (_, f) => .option f value
  else
    (names.filter fun (n, _) => n.toList = cs.take 2).map fun _ =>
      .short (String.ofList (cs.drop 2))

def isDigit (c : Char) : Bool := (Text.digitValue? c).isSome

/-- Whether a text is digits and nothing else, but that a line feed may follow. -/
def isDigits (cs : List Char) : Bool :=
  cs.head?.any isDigit && ([[], ['\n']].contains (cs.dropWhile isDigit))

/-- Whether a text is a negative number, which is no option. -/
def isNegativeNumber : List Char → Bool
  | '-' :: cs =>
    isDigits cs || (match cs.dropWhile isDigit with
      | '.' :: rest => isDigits rest
      | _ => false)
  | _ => false

/-- The option of a full name, with or without a value. -/
def fullName? (cs : List Char) : Option Token :=
  match names.lookup (String.ofList cs) with
  | some f => some (.option f none)
  | none =>
    match splitValue cs with
    | (name, some value) => (names.lookup (String.ofList name)).map fun f =>
        if name.length = 2 then .short value else .option f (some value)
    | (_, none) => none

/-- What an argument that starts with a dash is. -/
def dashed (cs : List Char) : Token :=
  match candidates cs with
  | [t] => t
  | _ :: _ :: _ => .ambiguous
  | [] =>
    if isNegativeNumber cs || cs.contains ' ' then .plain (String.ofList cs) else .stranger

/-- What an argument is. -/
def classify (s : String) : Token :=
  let cs := s.toList
  if cs = ['-', '-'] then .separator
  else if cs.head? ≠ some '-' then .plain s
  else
    match fullName? cs with
    | some t => t
    | none => if cs.length = 1 then .plain s else dashed cs

/-- What arguments are; after two dashes they are all plain. -/
def tokens : List String → List Token
  | [] => []
  | s :: rest =>
    match classify s with
    | .separator => .separator :: rest.map .plain
    | t => t :: tokens rest

/-- What becomes of a command line. -/
inductive Reading where
  | run (arguments : Arguments)
  | help
  | refused
  deriving DecidableEq

/-- Gives an option its value. -/
def set (a : Arguments) (f : Flag) (value : Value) : Arguments :=
  match f with
  | .config => { a with config := value }
  | .device => { a with device := some value }
  | .logLevel => { a with logLevel := some value }
  | .help | .dashboard => a

/-- Whether what follows a short name is the same name again, any number of times. -/
def repeatsHelp (more : String) : Bool := more ≠ "" && more.toList.all (· = 'h')

/-- Reads options from the front; `spare` tells whether an argument was left over. -/
def read (a : Arguments) (spare : Bool) : List Token → Reading
  | [] => if spare then .refused else .run a
  | .option .help none :: _ => .help
  | .option .help (some _) :: _ => .refused
  | .short more :: _ => if repeatsHelp more then .help else .refused
  | .option .dashboard none :: rest => read { a with dashboard := true } spare rest
  | .option .dashboard (some _) :: _ => .refused
  | .option f (some value) :: rest => read (a.set f (.ofWritten value)) spare rest
  | .option f none :: .plain value :: rest => read (a.set f (.text value)) spare rest
  | .option _ none :: _ => .refused
  | _ :: rest => read a true rest

/-- Reads a command line. -/
def parse (argv : List String) : Reading :=
  let ts := tokens argv
  if ts.contains .ambiguous then .refused else read {} false ts

end Arguments

end HashrateChart
