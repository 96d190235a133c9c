/-
The state of a monitor: a chart that is kept current with one device, the
background tasks that fetch history for it, and a record of what the monitor did
to the outside world.

At most one drain runs at a time. A task that waits for history leaves the chart
to the polls, and the polls leave it to the task.
-/
import HashrateChart.Chart.Keep
import HashrateChart.Chart.Live
import HashrateChart.Drain
import HashrateChart.Panel

namespace HashrateChart

namespace Monitor

/-- What the device is asked for: history since a time, in chunks, over a span. -/
structure Request where
  start : Option Int
  chunk : Int
  span : Int
  deriving DecidableEq

/-- What a monitor does to the outside world. -/
inductive Event where
  | connect (ip : String) (timeout : Int)
  /-- The device is asked for its state. -/
  | info (request : Request)
  /-- The device is asked for history alone. -/
  | history (request : Request)
  /-- A picture is drawn, of so many samples and these curves. -/
  | save (samples : Nat) (visibility : List Bool)
  | panelStart
  | panelUpdate (panel : Panel)
  | panelStop
  | sleep (seconds : Binary64)
  deriving DecidableEq

/-- What the device answers when it is asked for history. -/
abbrev Answer := Result (Option HistoryBatch)

/-- A background task. -/
inductive Task where
  /-- A drain since a time is about to start; the history is filled up afterwards. -/
  | sync (start : Int)
  /-- The drain of a sync waits for a chunk. -/
  | draining (d : Drain)
  /-- A reload of the whole history is about to start. -/
  | reload
  /-- A reload waits for the history. -/
  | reloading
  deriving DecidableEq

end Monitor

structure Monitor where
  config : Config
  device : DeviceConfig
  chart : Chart
  window : Int
  visibility : List Bool
  clock : Int
  /-- A panel is shown beside the pictures. -/
  showsPanel : Bool := false
  running : Bool := false
  polls : Nat := 0
  frame : Option Frame := none
  syncStarted : Bool := false
  /-- A drain holds the chart. -/
  draining : Bool := false
  /-- The drain was asked to stop. -/
  stopping : Bool := false
  /-- A reload waits for its history. -/
  isReloading : Bool := false
  /-- The tasks that have not ended. -/
  tasks : List Monitor.Task := []
  /-- What was done so far. -/
  events : List Monitor.Event := []

namespace Monitor

/-- A monitor of the configured device. -/
def new (config : Config) (storage : Option Storage) (clock : Int) : Result Monitor :=
  match config.device with
  | none => .error .noDevice
  | some device =>
    let chart := Chart.new config storage
    .ok {
      config := config
      device := device
      chart := chart
      window := config.zoom.maxWindow
      visibility := chart.defaultVisibility
      clock := clock }

def record (e : Event) : Action Monitor Unit :=
  modify fun m => { m with events := m.events ++ [e] }

def onChart {α : Type} (act : Action Chart α) : Action Monitor α := do
  let (r, chart) := act.runOn (← get).chart
  modify fun m => { m with chart := chart }
  liftM (m := Except Fault) r

/-- A request for history since a time, over the longest window. -/
def requestSince (m : Monitor) (start : Option Int) : Request :=
  ⟨start, m.config.drain.chunkSize, m.config.zoom.maxWindow⟩

/-- Takes over how the chart was shown last. -/
def loadPreferences : Action Monitor Unit := do
  match ← onChart (Chart.onStorage (Storage.preferences (← get).config.ui)) with
  | none => return
  | some prefs => modify fun m => { m with visibility := prefs.legendHidden.map (!·) }

/-- Takes back what was stored and tells whether there were curves. -/
def load : Action Monitor Bool := do
  let restored ← onChart Chart.load
  loadPreferences
  return restored

/-- Draws the chart and refreshes the panel. -/
def render : Action Monitor Unit := do
  let m ← get
  let frame ← onChart (Chart.frame m.clock (.int m.window) (some m.visibility))
  modify fun m => { m with frame := some frame }
  if m.config.render.enabled then
    record (.save frame.labels.length frame.visibility)
  if m.showsPanel then
    record (.panelUpdate (← liftM (m := Except Fault) <|
      Panel.make (← get).chart frame (.ok (.int Panel.defaultWidth))))

def commit (now : Int) : Action Monitor Unit := do
  onChart (Chart.commit now (← get).clock true)

end Monitor

end HashrateChart
