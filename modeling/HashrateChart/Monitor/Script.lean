/-
A monitor of a device whose answers are prepared. From some poll on the device
may hold its histories back; a task that asks then waits until they are released.

Between two polls every task that is not held back runs to its end, in the order
in which the tasks were started.
-/
import HashrateChart.Monitor.Poll

namespace HashrateChart

namespace Monitor

/-- Polls the device once; the clock moves on when it is known until when the answer takes. -/
def poll (arrival : Option Int) (info : Result SystemInfo) : Action Monitor Nat := do
  let asked ← ask
  modify fun m => { m with clock := arrival.getD m.clock }
  answer asked (← liftM (m := Except Fault) info)

/-- Runs an action; one that fails gives nothing. -/
def attempt {α : Type} (act : Action Monitor α) : StateM Monitor (Option α) := do
  return (← act.run).toOption

/-- Runs one step of a task; a task that fails has ended. -/
def attemptStep (step : Action Monitor (Option Task)) : StateM Monitor (Option Task) := do
  return (← attempt step).join

/-- Answers a waiting task until it has ended and gives the answers that are left. Without answers
there is no history: a drain ends, and so does a reload that may follow it. -/
def answerTask : List Answer → Task → StateM Monitor (List Answer)
  | [], t => do
    match ← attemptStep (deliver (.ok none) t) with
    | some t => discard <| attempt (deliver (.ok none) t)
    | none => pure ()
    return []
  | a :: rest, t => do
    match ← attemptStep (deliver a t) with
    | some t => answerTask rest t
    | none => return rest

def Task.isWaiting : Task → Bool
  | .draining _ | .reloading => true
  | _ => false

/-- Runs tasks one after the other and gives those that wait, as all do while the device holds its
histories back. -/
def runTasks (held : Bool) : List Answer → List Task → StateM Monitor (List Task)
  | _, [] => return []
  | answers, t :: rest => do
    if t.isWaiting && held then return t :: (← runTasks held answers rest)
    match ← attemptStep (start t) with
    | none => runTasks held answers rest
    | some t =>
      if held then return t :: (← runTasks held answers rest)
      runTasks held (← answerTask answers t) rest

/-- Runs all tasks of the monitor. -/
def settle (held : Bool) (answers : List Answer) : StateM Monitor Unit := do
  let waiting ← runTasks held answers (← get).tasks
  modify fun m => { m with tasks := waiting }

/-- What the device is prepared to answer to one poll, and to the requests for history after it. -/
structure Entry where
  arrival : Option Int
  info : Result SystemInfo
  /-- From now on the device holds its histories back. -/
  holds : Bool
  answers : List Answer

/-- How many seconds the monitor waits after a failed poll. -/
def retryDelay : Binary64 := 10

/-- How many seconds the monitor waits after a poll, which was answered or not. -/
def pauseAfter (m : Monitor) (answered : Bool) : Binary64 :=
  if answered then m.config.pollInterval else retryDelay

/-- One turn of the monitor: a poll, then a pause in which the tasks run. Gives whether histories
are held back afterwards. -/
def turn (held : Bool) (e : Entry) : Action Monitor Bool := do
  let polled ← attempt (poll e.arrival e.info)
  record (.sleep ((← get).pauseAfter polled.isSome))
  settle (held || e.holds) e.answers
  return held || e.holds

/-- Gives up all tasks. -/
def cancelAll : Action Monitor Unit := do
  (← get).tasks.forM cancel
  modify fun m => { m with tasks := [] }

/-- Takes back what was stored and goes to the device, with a panel beside the pictures or
without. -/
def connect (panel : Bool) : Action Monitor Unit := do
  modify fun m => { m with running := true }
  discard load
  let device := (← get).device
  record (.connect device.ip device.timeout)
  if panel then
    record .panelStart
    modify fun m => { m with showsPanel := true }

/-- Leaves the device and stores the chart once more. -/
def disconnect : Action Monitor Unit := do
  modify fun m => { m with running := false, stopping := true }
  if (← get).showsPanel then
    record .panelStop
    modify fun m => { m with showsPanel := false }
  cancelAll
  commit (← get).clock

/-- Runs the monitor from its start until the prepared answers are used up. -/
def run (panel : Bool) (entries : List Entry) : Action Monitor Unit := do
  connect panel
  discard <| entries.foldlM turn false
  disconnect

end Monitor

end HashrateChart
