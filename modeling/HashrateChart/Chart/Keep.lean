/-
Keeping the curves: trimming them to the longest window, storing them, taking
them back at the next start, and replacing them by a longer history.
-/
import HashrateChart.Chart.Import

namespace HashrateChart

namespace Chart

/-! ## Committing -/

/-- Drops the samples that no window shows. -/
def trim (p : Chart) (now : Int) : Chart :=
  let series := (p.series.trim now p.config.zoom.maxWindow).2
  { p with
    series := series
    lastSeen :=
      match series.lastLabel? with
      | some last => some (max last (Warmup.noted p.lastSeen last))
      | none => p.lastSeen }

/-- Trims the curves and stores them at a time, once the stored ones were looked for. -/
def commit (now clock : Int) (persist : Bool) : Action Chart Unit := do
  modify fun p => p.trim now
  let p ← get
  if persist && p.storage.isSome && p.loaded then
    let stored ← liftM (m := Except Fault) p.series.toStored
    discard <| onStorage (Storage.saveSeries stored clock)
    if p.lastSeen.isSome then
      discard <| onStorage (Storage.saveLast (p.lastSeen.map .int))

/-! ## Loading -/

/-- What the filters make of a stored value: as in the import, but without a live hashrate. -/
def refilterValue (p : Chart) (c : Channel) (x : Binary64) : Binary64 × Guard.Memory :=
  let x := Sanitize.sample p.config.sanitize c x
  if x.isFinite && (c.isTemperature || p.config.guard.spikeGuard) then
    p.guard.sample c x (p.config.guard.thresholds.get c) none none
  else (x, p.guard.memory.get c)

/-- Takes back one stored sample; one without values is a gap. -/
def restoreRow (p : Chart) (t : Int) (row : PerChannel Binary64) : Chart :=
  let out := PerChannel.ofFn fun c => p.refilterValue c (row.get c)
  let row := out.map (·.1)
  { p with
    guard := { p.guard with memory := out.map (·.2) }
    series := p.series.upsert t row
    lastBreak := if row.toList.all Binary64.isNaN then some t else p.lastBreak }

/-- The samples of curves, each with its time. -/
def rows (s : Series) : List (Int × PerChannel Binary64) :=
  s.labels.zipIdx.map fun (t, i) => (t, s.data.map fun values => values.getD i .nan)

/-- Takes back stored curves in place of those that are there. -/
def restore (p : Chart) (stored : Series) : Chart :=
  let p := { p with guard := p.guard.reset, series := .empty }
  let p := (rows stored).foldl (fun p (t, row) => p.restoreRow t row) p
  { p with startup := { p.startup with
      started := (Series.lastFinite? p.series.data.hashrate1m).isSome } }

/-- Takes back what was stored and tells whether there were curves. -/
def load : Action Chart Bool := do
  modify fun p => { p with loaded := true }
  if (← get).storage.isNone then return false
  let least ← onStorage Storage.loadMin
  modify fun p => { p with historyMin := least.join.map .real }
  match (← onStorage Storage.loadLast).join with
  | some last =>
    let last ← liftM (m := Except Fault) last.truncate
    modify fun p => { p with lastSeen := some last }
  | none => pure ()
  match (← onStorage Storage.loadSeries).join with
  | none => return false
  | some stored =>
    let stored ← liftM (m := Except Fault) (Series.ofStored stored)
    modify fun p => p.restore stored
    return true

/-! ## Clearing and reloading -/

/-- Drops the curves and what the filters remember of them. -/
def dropCurves (p : Chart) : Chart :=
  { p with series := .empty, guard := p.guard.reset, lastBreak := none }

/-- How far before now history is still taken after the curves are cleared. -/
def seedMargin : Int := 30000

/-- Clears the chart; older history of the device does not come back. -/
def clear (now : Int) : Action Chart Unit := do
  let seed := now - seedMargin
  modify fun p => { p.dropCurves with
    tempMemory := none, historyMin := some (.int seed), lastSeen := some seed }
  discard <| onStorage (do
    Storage.clearSeries
    Storage.clearLast
    Storage.saveMin (some (.int seed))
    Storage.saveLast (some (.int seed)))

/-- How much further back a history must reach to count as longer. -/
def replaceMargin : Int := 2000

/-- Whether the curves do not reach back to the longest window. -/
def needsExpansion (p : Chart) (now : Int) : Bool :=
  let longest := p.config.zoom.maxWindow
  match p.series.labels.head? with
  | some first => longest ≠ 0 && decide (now - longest + replaceMargin < first)
  | none => false

/-- Whether a history reaches further back than the curves. -/
def isLonger (oldest : Option Binary64) (first : Int) : Bool :=
  match oldest with
  | some t => (Number.real t).lt (.int (first - replaceMargin))
  | none => false

/-- Takes a history of the longest window. It replaces the curves when it reaches further back,
and is added to them otherwise. -/
def reloadBatch (batch : Option HistoryBatch) : Action Chart Nat := do
  match batch with
  | none => return 0
  | some b =>
    if b.times.isEmpty then return 0
    let oldest ← liftM (m := Except Fault) (History.oldest batch)
    let replaces := match (← get).series.labels.head? with
      | some first => isLonger oldest first
      | none => true
    if replaces then
      modify fun p => { p.dropCurves with historyMin := none }
      discard <| onStorage (do
        Storage.clearSeries
        Storage.clearLast
        Storage.clearMin)
    importBatch batch true

end Chart

end HashrateChart
