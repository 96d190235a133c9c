/-
Fetching history in chunks until the chart has caught up.

A drain waits for one chunk at a time. It goes on from the last sample of the
chart, as long as chunks come full and the last sample moves. The chart is
committed once, at the end, so that half a history is never stored; a drain
that was asked to stop commits nothing.
-/
import HashrateChart.Config
import HashrateChart.Device.Batch

namespace HashrateChart

/-- A drain that waits for a chunk. -/
structure Drain where
  /-- From when on the chunk is asked for; the device decides when it is missing. -/
  cursor : Option Int
  /-- How many samples were stored so far. -/
  total : Nat := 0
  lastRender : Int := 0
  deriving DecidableEq

namespace Drain

/-- How a drain goes on after a chunk. -/
inductive Next where
  | waiting (d : Drain)
  | finished (total : Nat)
  deriving DecidableEq

/-- What comes of a request for a drain since a time: while another one runs it brings nothing. -/
def request (busy : Bool) (start : Option Int) : Next :=
  if busy then .finished 0 else .waiting { cursor := start }

/-- What a drain does to its surroundings. -/
structure Host (m : Type → Type) where
  /-- Takes a chunk into the chart and counts the stored samples. -/
  take : HistoryBatch → m Nat
  lastLabel : m (Option Int)
  /-- Commits the chart at a time. -/
  commit : Int → m Unit
  clock : m Int
  /-- Whether the drain was asked to stop. -/
  stopping : m Bool
  /-- Draws the chart, if it is drawn at all. -/
  render : Option (m Unit)

variable {m : Type → Type} [Monad m]

/-- Draws the chart between two chunks, not more often than the configuration says; gives the
time of the last drawing. -/
def renderBetween (host : Host m) (cfg : DrainConfig) (last : Int) : m Int := do
  match host.render with
  | none => return last
  | some render =>
    if cfg.suppressed then return last
    let now ← host.clock
    if cfg.throttled && decide (now - last < cfg.throttle) then return last
    render
    return now

/-- Ends a drain: the chart is committed and drawn, unless the drain was asked to stop. -/
def finish (host : Host m) (total : Nat) : m Next := do
  if ← host.stopping then return .finished total
  host.commit (← host.clock)
  match host.render with
  | some render => render
  | none => pure ()
  return .finished total

/-- Whether a chunk has as many entries as were asked for. -/
def isFull (cfg : DrainConfig) (b : HistoryBatch) : Bool :=
  decide (0 < cfg.chunkSize) && decide (cfg.chunkSize ≤ b.times.length)

/-- From when on the next chunk is asked for, when there is more to come. -/
def cursorAfter (cfg : DrainConfig) (b : HistoryBatch) (before after : Option Int) : Option Int :=
  match after with
  | some last => if after = before ∨ !isFull cfg b then none else some (last + 1)
  | none => none

/-- Takes the chunk that a drain waits for. -/
def receive (host : Host m) (cfg : DrainConfig) (d : Drain) (chunk : Option HistoryBatch) :
    m Next := do
  match chunk.filter fun b => !b.times.isEmpty with
  | none => finish host d.total
  | some b =>
    let before ← host.lastLabel
    let total := d.total + (← host.take b)
    let after ← host.lastLabel
    let lastRender ← renderBetween host cfg d.lastRender
    match cursorAfter cfg b before after with
    | none => finish host total
    | some cursor =>
      if ← host.stopping then return .finished total
      return .waiting ⟨some cursor, total, lastRender⟩

/-- Runs a drain for at most a number of fetches; gives the stored samples once it has ended. -/
def run (host : Host m) (cfg : DrainConfig) (fetch : Option Int → m (Option HistoryBatch)) :
    Nat → Drain → m (Option Nat)
  | 0, _ => return none
  | fuel + 1, d => do
    match ← receive host cfg d (← fetch d.cursor) with
    | .waiting d => run host cfg fetch fuel d
    | .finished total => return some total

end Drain

end HashrateChart
