/-
Drains of a chart over prepared chunks, with a clock whose readings are
prepared as well: the last reading stays.

A request that finds a drain at work brings nothing. A drain may be asked to stop
while it waits for one of the chunks; the next drain starts afresh, and goes on
with the chunks that are left. A chunk that is none ends the drain when it is
fetched; what was stored by then stays.
-/
import HashrateChart.Chart.Import
import HashrateChart.Chart.Keep
import HashrateChart.Drain

namespace HashrateChart

namespace Drain

/-- What a drain does to the outside world. -/
inductive Event where
  | fetch (start : Option Int)
  | render
  deriving DecidableEq

/-- A chart that is drained, and what is prepared for it. -/
structure Script where
  chart : Chart
  /-- The time at which the chart stores itself, and that of a clock without readings. -/
  now : Int
  clock : List Int
  chunks : List (Result (Option HistoryBatch))
  /-- At which fetch the drain is asked to stop. -/
  stopAt : Option Int
  fetches : Nat := 0
  stopping : Bool := false
  events : List Event := []

namespace Script

def onChart {α : Type} (act : Action Chart α) : Action Script α := do
  let (r, chart) := act.runOn (← get).chart
  modify fun s => { s with chart := chart }
  liftM (m := Except Fault) r

def note (e : Event) : Action Script Unit := modify fun s => { s with events := s.events ++ [e] }

def readClock : Action Script Int := do
  let s ← get
  match s.clock with
  | [] => return s.now
  | [t] => return t
  | t :: rest =>
    set { s with clock := rest }
    return t

/-- Takes the next chunk; without one there is no history. -/
def fetch (start : Option Int) : Action Script (Option HistoryBatch) := do
  note (.fetch start)
  let s ← get
  set { s with
    fetches := s.fetches + 1
    chunks := s.chunks.tail
    stopping := s.stopping || s.stopAt == some (s.fetches + 1 : Int) }
  liftM (m := Except Fault) (s.chunks.headD (.ok none))

def host (renders : Bool) : Host (Action Script) where
  take b := onChart (Chart.importBatch (some b) true)
  lastLabel := return (← get).chart.series.lastLabel?
  commit now := do onChart (Chart.commit now (← get).now true)
  clock := readClock
  stopping := return (← get).stopping
  render := if renders then some (note .render) else none

/-- A request for a drain, which runs to its end if it starts; gives the stored samples. -/
def drain (cfg : DrainConfig) (renders busy : Bool) (start : Option Int) : Action Script Nat := do
  match request busy start with
  | .finished total => return total
  | .waiting d =>
    modify fun s => { s with stopping := false }
    let fuel := (← get).chunks.length + 1
    return (← Drain.run (host renders) cfg fetch fuel d).getD 0

/-- Requests for drains at the same time: the first one is served, the others find it busy. -/
def drainTogether (cfg : DrainConfig) (renders : Bool) (start : Option Int) (requests : Nat) :
    Action Script (List Nat) :=
  (List.range requests).mapM fun i => drain cfg renders (0 < i) start

end Script

end Drain

end HashrateChart
