/-
The program: it reads its configuration and keeps a chart current with a device.

The device is reached through the standard streams, so that any connection can
be put between them. Questions go out as lines and answers come in as lines; the
program ends with its input. What is stored is kept in one file.
-/
import HashrateChart.CommandLine.Conversation
import HashrateChart.CommandLine.Launch
import HashrateChart.Monitor.Script
import HashrateChart.Storage.Archive
import Std.Time.DateTime.Timestamp

namespace HashrateChart

namespace Program

/-- A monitor at work. -/
abbrev Session (α : Type) := StateT Monitor IO α

/-- Writes a line. -/
def say (line : String) : IO Unit := IO.println (Text.unmarked line)

/-- Milliseconds since the epoch. -/
def now : IO Int := do return (← Std.Time.Timestamp.now).toMillisecondsSinceUnixEpoch.val

/-- Runs an action at the present time and says what it did. -/
def perform {α : Type} (act : Action Monitor α) : Session (Option α) := do
  let (r, m) := act.runOn { (← get) with clock := ← now }
  for event in m.events do
    for line in Conversation.lines m.device.ip event do
      say line
  (← IO.getStdout).flush
  set { m with events := [] }
  return r.toOption

/-- The next line, unless the input has ended. -/
def hear : IO (Option String) := do
  let line ← (← IO.getStdin).getLine
  return if line.isEmpty then none else some (Text.marked line)

/-- Answers a waiting task until it has ended. -/
partial def answerTask (t : Monitor.Task) : Session Unit := do
  let answer := Conversation.history (← hear)
  if let some (some t) ← perform (Monitor.deliver answer t) then answerTask t

/-- Runs all tasks to their ends. -/
def runTasks : Session Unit := do
  let tasks := (← get).tasks
  modify fun m => { m with tasks := [] }
  for t in tasks do
    if let some (some t) ← perform (Monitor.start t) then answerTask t

/-- What is found under a path. A name below a file leads nowhere, as one that is not there. -/
def find (path : String) : IO Found := do
  if path.toList.contains '\x00' then return .missing
  let parts := String.intercalate "/" (Files.parts path)
  let path := if path.startsWith "/" then "/" ++ parts else if parts = "" then "." else parts
  let path := Text.unmarked path
  match ← (IO.FS.Handle.mk path .read).toBaseIO with
  | .error (.noFileOrDirectory ..) | .error (.inappropriateType ..) => return .missing
  | .error _ => return .trouble
  | .ok _ =>
    match ← (IO.FS.readFile path).toBaseIO with
    | .ok text => return .file (Text.marked text)
    | .error _ => return .trouble

/-- Where the store is kept, unless it is only kept in memory. -/
def storePath (c : Config) : Option String :=
  some c.storage.databasePath |>.filter (· ≠ ":memory:")

/-- The store as it was kept. -/
def readStore (c : Config) : IO Store := do
  match storePath c with
  | none => return .ofItems []
  | some path =>
    match ← find path with
    | .file text => return .ofText text
    | _ => return .ofText ""

/-- Keeps the store; trouble with the file does not show. -/
def keepStore : Session Unit := do
  let m ← get
  match storePath m.config, m.chart.storage with
  | some path, some s =>
    try
      let path := Text.unmarked path
      if let some folder := Conversation.folder? path then IO.FS.createDirAll folder
      IO.FS.writeFile path s.store.print
    catch _ => return
  | _, _ => return

/-- Polls the device until the input ends. -/
partial def turns : Session Unit := do
  let some asked ← perform Monitor.ask | return
  let some line ← hear | return
  let answered ← perform do
    Monitor.answer asked (← liftM (m := Except Fault) (Conversation.answer (some line)))
  runTasks
  keepStore
  IO.sleep (Conversation.milliseconds ((← get).pauseAfter answered.isSome)).toUInt32
  turns

/-- Runs a monitor from its start to the end of the input. -/
def session (panel : Bool) : Session Unit := do
  discard <| perform (Monitor.connect panel)
  turns
  discard <| perform Monitor.disconnect
  keepStore

/-- A fault that ends the program. -/
def fail {α : Type} (e : Fault) : IO α :=
  throw (IO.userError (e.message?.getD "The configuration holds a value of a wrong kind"))

/-- Goes from the arguments to what is to be done. -/
def launch (a : Arguments) : IO (Except Launch.Stop Launch.Plan) := do
  match Launch.configPath a with
  | .error e => fail e
  | .ok path =>
    match Launch.withFile a path (← find path) with
    | .ok outcome => return outcome.result
    | .error e => fail e

/-- Does what is planned. -/
def carryOut (plan : Launch.Plan) : IO Unit := do
  let c := plan.config
  let storage : Storage := ⟨← readStore c, c.storage.keys, .ok c.storage.maxPoints⟩
  match Monitor.new c (some storage) (← now) with
  | .ok m => discard <| (session plan.dashboard).run m
  | .error e => fail e

/-- Says why nothing is done and gives the exit code. -/
def leave (stop : Launch.Stop) : IO UInt32 := do
  let lines := match stop with
    | .help | .refused => Arguments.usage
    | _ => stop.lines
  lines.forM say
  return stop.code

end Program

end HashrateChart

open HashrateChart in
/-- Runs the program with the arguments of its command line. -/
def main (args : List String) : IO UInt32 := do
  match Launch.arguments (args.map Text.marked) with
  | .error stop => Program.leave stop
  | .ok a =>
    match ← Program.launch a with
    | .error stop => Program.leave stop
    | .ok plan =>
      Program.carryOut plan
      return 0
