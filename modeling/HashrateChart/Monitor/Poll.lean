/-
One poll of the device. The first one starts the sync; later ones take the
history that comes with the answer, unless a task is doing so.
-/
import HashrateChart.Monitor.Task

namespace HashrateChart

namespace Monitor

/-- A poll whose question is asked. -/
structure Poll where
  now : Int
  start : Int
  deriving DecidableEq

/-- From when on a poll asks for history: since the last sample, or the longest window. -/
def historyStart (m : Monitor) (now : Int) : Int :=
  match m.chart.lastSeen with
  | some t => t
  | none => now - m.config.zoom.maxWindow

/-- Asks the device for its state. -/
def ask : Action Monitor Poll := do
  modify fun m => { m with polls := m.polls + 1 }
  let m ← get
  let start := m.historyStart m.clock
  record (.info (m.requestSince (some start)))
  return ⟨m.clock, start⟩

/-- Adds a task that is about to start. -/
def spawn (t : Task) : Action Monitor Unit := modify fun m => { m with tasks := m.tasks ++ [t] }

/-- Whether no task is about to take history itself. -/
def isIdle (m : Monitor) : Bool := !m.draining && !m.isReloading

/-- Takes the history of a poll's answer, or starts the sync with the first poll. -/
def takeHistory (poll : Poll) (history : Option HistoryBatch) : Action Monitor Nat := do
  let m ← get
  if !m.syncStarted then
    modify fun m => { m with syncStarted := true }
    spawn (.sync poll.start)
    return 0
  else if m.isIdle then
    let n ← onChart (Chart.importBatch history false)
    commit poll.now
    render
    return n
  else return 0

/-- Starts the reload that was requested, unless a task is at work. -/
def serveReload (now : Int) : Action Monitor Unit := do
  discard <| onChart (modifyGet fun p => p.pollDeferred now)
  let requested ← onChart (modifyGet fun p => p.takeReload)
  if requested && (← get).isIdle then spawn .reload

/-- Takes the answer to a poll and counts the samples that it brought. -/
def answer (poll : Poll) (info : SystemInfo) : Action Monitor Nat := do
  onChart (modify fun p => p.observe poll.now info)
  let n ← takeHistory poll info.history
  serveReload poll.now
  return n

end Monitor

end HashrateChart
