/-
From the command line and the configuration file to a monitor that is ready to
run, or to the reason why there is none.

The file is a document with a section for the chart and one for logging; one
that is empty, or whose value counts as false, has no sections.
-/
import HashrateChart.CommandLine.Arguments
import HashrateChart.CommandLine.Files
import HashrateChart.Config
import HashrateChart.Text.Line
import HashrateChart.Yaml.Value

namespace HashrateChart

namespace Launch

/-- Why a program ends before it monitors anything. -/
inductive Stop where
  | help
  | refused
  | noConfigFile (path : String)
  | unreadable
  | invalidConfig (problems : List Problem)
  | noDevice
  deriving DecidableEq

def Stop.code : Stop → UInt32
  | help => 0
  | refused => 2
  | _ => 1

/-- What is said about the reason. -/
def Stop.sentences : Stop → List String
  | noConfigFile path =>
    ["Error: Config file not found: " ++ path,
      "Please copy config.yaml.example to config.yaml and update with your device IP"]
  | unreadable => ["Error loading config:"]
  | invalidConfig problems => "Invalid configuration:" :: problems.map Problem.line
  | noDevice =>
    ["Error: no device configured (set chart.device in config.yaml or pass --device)"]
  | help | refused => []

/-- What is said about the reason, a line end after each sentence. -/
def Stop.text (stop : Stop) : String := String.join (stop.sentences.map (· ++ "\n"))

/-- What is said about the reason, line by line. -/
def Stop.lines (stop : Stop) : List String := Text.lines stop.text

/-- What the program is about to do. -/
structure Plan where
  config : Config
  device : DeviceConfig
  dashboard : Bool

/-- How a launch ends, and the log level that was set by then. -/
structure Outcome where
  logLevel : Option String
  result : Except Stop Plan

/-- The levels at which events are logged. -/
def logLevels : List String :=
  ["CRITICAL", "FATAL", "ERROR", "WARNING", "WARN", "INFO", "DEBUG", "NOTSET"]

/-- The upper case of a letter. Of those outside ASCII two have one letter of ASCII, and two that
are letters joined together have two. -/
def upper (c : Char) : List Char :=
  if c = 'ı' then ['I']
  else if c = 'ſ' then ['S']
  else if c = 'ﬅ' || c = 'ﬆ' then ['S', 'T']
  else [c.toUpper]

/-- A log level by its name in upper or lower case. Two more names are taken, one by a format and
one by a table of formats. -/
def checkLevel : Json → Result String
  | .text s =>
    let name := String.ofList (s.toList.flatMap upper)
    if logLevels.contains name then .ok s
    else if name = "BASIC_FORMAT" then .error .unknownName
    else if name = "_STYLES" then .error .wrongType
    else .error .noSuchOperation
  | _ => .error .noSuchOperation

/-- A section of a document that has sections. -/
def sectionOf (root : Yaml.Value) (name : String) : Result Yaml.Value :=
  if !root.truthy then .ok (.scalar .null)
  else
    match root with
    | .mapping ps =>
      .ok <| (ps.reverse.findSome? fun (k, v) => if k.isText name then some v else none).getD
        (.scalar .null)
    | _ => .error .noSuchOperation

/-- The log level of a document. -/
def configuredLevel (root : Yaml.Value) : Result Json := do
  let logging ← sectionOf root "logging"
  if !logging.truthy then return .text "INFO"
  match logging.toJson with
  | .object fields => return (Fields.lookup "log_level" fields).getD (.text "INFO")
  | _ => throw .noSuchOperation

/-- The keys and values of the chart's section. -/
def chartPairs (root : Yaml.Value) : Result (List (Json × Json)) := do
  match ← sectionOf root "chart" with
  | .mapping ps => return ps.map fun (k, v) => (k.toJson, v.toJson)
  | v => Config.documentPairs v.toJson

/-- The log level, of the command line or else of the document. -/
def levelOf (a : Arguments) (root : Yaml.Value) : Result String :=
  match Arguments.chosen? a.logLevel with
  | some level => checkLevel (.text level)
  | none => do checkLevel (← configuredLevel root)

/-- The fields of a chart, the device being the one of the command line. -/
def chartFields (a : Arguments) (pairs : List (Json × Json)) : Result (List (String × Json)) := do
  let fields ← Config.fieldsOfPairs pairs
  return match Arguments.chosen? a.device with
    | some ip => Fields.insert "device" (.text ip) fields
    | none => fields

/-- Launches with the document of the configuration file. -/
def withDocument (a : Arguments) (root : Yaml.Value) : Result Outcome := do
  let pairs ← chartPairs root
  let level ← levelOf a root
  match Config.ofDocument (.object (← chartFields a pairs)) with
  | .error (.invalid problems) => return ⟨some level, .error (.invalidConfig problems)⟩
  | .error e => throw e
  | .ok config =>
    match config.device with
    | none => return ⟨some level, .error .noDevice⟩
    | some device => return ⟨some level, .ok ⟨config, device, a.dashboard⟩⟩

/-- The arguments of a command line, or why there are none. -/
def arguments (argv : List String) : Except Stop Arguments :=
  match Arguments.parse argv with
  | .run a => .ok a
  | .help => .error .help
  | .refused => .error .refused

/-- The path of the configuration file; an option without a value gives none. -/
def configPath (a : Arguments) : Result String :=
  match a.config with
  | .text path => .ok path
  | .nothing => .error .wrongType

/-- Launches with what was found in place of the configuration file. -/
def withFile (a : Arguments) (path : String) : Found → Result Outcome
  | .missing => .ok ⟨none, .error (.noConfigFile path)⟩
  | .trouble => .ok ⟨none, .error .unreadable⟩
  | .file text =>
    match Yaml.read text with
    | .error .unreadable => .ok ⟨none, .error .unreadable⟩
    | .error (.fault e) => .error e
    | .ok root => withDocument a root

end Launch

end HashrateChart
