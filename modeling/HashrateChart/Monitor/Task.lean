/-
The background tasks of a monitor, step by step: a task starts and asks the
device for history, and each answer moves it on to its next question or its end.

A task that fails has ended; whatever it held is free again.
-/
import HashrateChart.Monitor.State

namespace HashrateChart

namespace Monitor

/-- What the drain of a monitor does to it. -/
def drainHost : Drain.Host (Action Monitor) where
  take b := onChart (Chart.importBatch (some b) true)
  lastLabel := return (← get).chart.series.lastLabel?
  commit := commit
  clock := return (← get).clock
  stopping := return (← get).stopping
  render := some render

/-- Asks the device for history since a time. -/
def askHistory (start : Option Int) : Action Monitor Unit := do
  record (.history ((← get).requestSince start))

/-- Starts a reload, which asks for the longest window. -/
def startReload : Action Monitor (Option Task) := do
  modify fun m => { m with isReloading := true }
  let m ← get
  askHistory (some (m.clock - m.config.zoom.maxWindow))
  return some .reloading

/-- Goes on after the drain of a sync: a history that is too short is reloaded. -/
def afterDrain : Action Monitor (Option Task) := do
  let m ← get
  if m.chart.needsExpansion m.clock then startReload else return none

/-- Asks for a drain since a time, which asks the device for its first chunk; while another drain runs
it brings nothing. -/
def startDrain (since : Option Int) : Action Monitor Drain.Next := do
  match Drain.request (← get).draining since with
  | .finished total => return .finished total
  | .waiting d =>
    modify fun m => { m with draining := true, stopping := false }
    askHistory d.cursor
    return .waiting d

/-- How a sync goes on: it waits with its drain, and fills up the history after it. -/
def continueSync : Drain.Next → Action Monitor (Option Task)
  | .waiting d => return some (.draining d)
  | .finished _ => afterDrain

/-- Starts a task; gives what it waits for, unless it has ended. -/
def start : Task → Action Monitor (Option Task)
  | .sync since => do continueSync (← startDrain (some since))
  | .reload => startReload
  | t => return some t

/-- Ends the drain that runs; the next one may start. -/
def releaseDrain : Action Monitor Unit := modify fun m => { m with draining := false }

/-- Gives a drain its chunk and says how it goes on; it holds the chart until it has ended. -/
def continueDrain (d : Drain) (answer : Answer) : Action Monitor Drain.Next := fun m =>
  let step : Action Monitor Drain.Next := do
    Drain.receive drainHost m.config.drain d (← liftM (m := Except Fault) answer)
  match step.runOn m with
  | (.ok (.waiting d), m) => (.ok (.waiting d), m)
  | (r, m) => (r, (releaseDrain.runOn m).2)

/-- Gives a drain its chunk; a drain that goes on asks the device for the next one. -/
def resumeDrain (d : Drain) (answer : Answer) : Action Monitor Drain.Next := do
  match ← continueDrain d answer with
  | .waiting d =>
    askHistory d.cursor
    return .waiting d
  | .finished total => return .finished total

/-- Takes the history that a reload waited for. -/
def finishReload (answer : Answer) : Action Monitor (Option Task) := do
  modify fun m => { m with isReloading := false }
  let batch ← liftM (m := Except Fault) answer
  discard <| onChart (Chart.reloadBatch batch)
  commit (← get).clock
  render
  return none

/-- Gives a waiting task its answer; gives what it waits for next, unless it has ended. -/
def deliver (answer : Answer) : Task → Action Monitor (Option Task)
  | .draining d => do continueSync (← resumeDrain d answer)
  | .reloading => finishReload answer
  | t => return some t

/-- Gives up a waiting task: whatever it held is free again. -/
def cancel : Task → Action Monitor Unit
  | .draining _ => releaseDrain
  | .reloading => modify fun m => { m with isReloading := false }
  | _ => return

end Monitor

end HashrateChart
