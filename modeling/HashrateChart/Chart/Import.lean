/-
Taking history into the curves, sample by sample in the order of time.

Each sample is either skipped, or cut because it shows a restart, or stored with
what the filters make of its values. While the chart warms up all samples are
skipped.
-/
import HashrateChart.Chart.State
import HashrateChart.History
import HashrateChart.Sanitize

namespace HashrateChart

namespace Chart

/-- What became of a sample. -/
inductive Outcome where
  /-- The sample was only looked at. -/
  | seen
  /-- The sample showed a restart, and a gap was drawn. -/
  | cut
  | stored
  deriving DecidableEq, Repr

/-! ## The start of the 1m curve -/

/-- Whether a value has reached the share of the expected hashrate that ends the startup. -/
def reachesExpected (p : Chart) (x : Binary64) : Bool :=
  !Binary64.zero.lt p.expected || (p.expected * p.config.startup.unlockRatio).le x

/-- Whether the 1m curve may start with a value. -/
def mayStart (p : Chart) (x : Binary64) (importing : Bool) : Bool :=
  Warmup.startsHashrate p.startup.started p.startup.unlocked x.isPositive
    (x.isPositive && p.reachesExpected x) importing

/-- Starts the 1m curve; the first start after a restart is remembered. -/
def startHashrate (p : Chart) (t : Int) : Chart :=
  let armed := p.startup.smoothArmed
  let p := { p with startup := { p.startup with
      started := true, startedAt := if armed then some t else none } }
  if armed then p.planReload t else p

/-- The 1m value that may be stored; a gap until the curve has started. -/
def candidate (p : Chart) (x : Binary64) (t : Int) (importing : Bool) : Binary64 × Chart :=
  if p.startup.started then (x, p)
  else if p.mayStart x importing then (x, p.startHashrate t)
  else (.nan, p)

/-! ## Filtering -/

/-- How many suspicious samples confirm a step of the 1m curve; more just after it has started. -/
def confirmCount (p : Chart) (t : Int) : Int :=
  let cfg := p.config.startup
  match p.startup.startedAt with
  | some start =>
    if p.startup.started && decide (t - start ≤ cfg.smoothWindow) then cfg.confirmStartup
    else cfg.confirmNormal
  | none => cfg.confirmNormal

/-- What the filters make of one value, and what the channel remembers then. -/
structure Filtered where
  value : Binary64
  memory : Guard.Memory
  bypass : Nat

/-- Filters one value. A gap stays a gap; temperatures are always filtered, hashrates unless they
pass unfiltered after the startup or their filter is off. -/
def filterValue (p : Chart) (t : Int) (c : Channel) (x : Binary64) : Filtered :=
  let memory := p.guard.memory.get c
  let bypass := p.startup.bypass.get c
  let threshold := p.config.guard.thresholds.get c
  if !x.isFinite then ⟨.nan, memory, bypass⟩
  else if c.isTemperature then
    let (v, memory) := p.guard.sample c x threshold none none
    ⟨v, memory, bypass⟩
  else if p.startup.unlocked && decide (0 < bypass) then ⟨x, memory, bypass - 1⟩
  else if !p.config.guard.spikeGuard then ⟨x, memory, bypass⟩
  else
    let confirm := if c = .hashrate1m then some (p.confirmCount t) else none
    let (v, memory) := p.guard.sample c x threshold p.live confirm
    ⟨v, memory, bypass⟩

/-- Filters a value of each channel. -/
def filterRow (p : Chart) (t : Int) (row : PerChannel Binary64) : PerChannel Binary64 × Chart :=
  let out := PerChannel.ofFn fun c => p.filterValue t c (row.get c)
  (out.map (·.value), { p with
    guard := { p.guard with memory := out.map (·.memory) }
    startup := { p.startup with bypass := out.map (·.bypass) } })

/-- Stores a sample. -/
def storeRow (p : Chart) (t : Int) (row : PerChannel Binary64) : Chart :=
  { p with
    series := p.series.upsert t row
    warmup := if row.hashrate1m.isFinite then p.warmup.noteFlow t else p.warmup }

/-! ## Samples -/

/-- The time of a sample; one up to the last gap comes just after it. -/
def lifted (p : Chart) (t : Int) : Int :=
  match p.lastBreak with
  | some last => if t ≤ last then last + 1 else t
  | none => t

/-- Draws the gap of a restart that a sample shows; the sample itself is left out. -/
def cutAt (p : Chart) (t : Int) : Chart :=
  let warmup := (p.warmup.reset t).consumeBreak.2
  { ({ p with warmup := warmup }.insertBreak (t - 1)) with lastSeen := some t }

/-- Takes one sample. -/
def importSample (importing : Bool) (p : Chart) (s : History.Sample) : Outcome × Chart :=
  let t := p.lifted s.time
  if p.warmup.isLocked then (.seen, { p with lastSeen := some t })
  else
    let clean := PerChannel.ofFn fun c => Sanitize.sample p.config.sanitize c (s.values.get c)
    let (first, p) := p.candidate clean.hashrate1m t importing
    if Warmup.isRestartSample p.live.isSome clean.vregTemp clean.asicTemp s.values.hashrate1m
        p.config.warmup.tempMin then
      (.cut, p.cutAt t)
    else
      let (row, p) := { p with lastSeen := some t }.filterRow t { clean with hashrate1m := first }
      (.stored, p.storeRow t row)

/-- Takes samples one after the other and counts those that were stored. -/
def importAll (importing : Bool) (p : Chart) (samples : List History.Sample) : Nat × Chart :=
  samples.foldl (fun (n, p) s =>
    let (outcome, p) := p.importSample importing s
    (if outcome = .stored then n + 1 else n, p)) (0, p)

/-- Whether a sample is new enough to be taken. -/
def accepts (p : Chart) (s : History.Sample) : Bool :=
  (match p.series.lastLabel? with
    | some last => decide (last ≤ s.time)
    | none => true) &&
  match p.historyMin with
  | some least => least.le (.int s.time)
  | none => true

/-- Takes the samples that are new enough. A restart that a live poll has detected is drawn just
before the first of them. -/
def importSamples (importing : Bool) (p : Chart) (samples : List History.Sample) : Nat × Chart :=
  match samples.filter p.accepts with
  | [] => (0, p)
  | s :: rest =>
    let (pending, warmup) := p.warmup.consumeBreak
    let p := { p with warmup := warmup }
    let p := if pending then p.insertBreak (s.time - 1) else p
    p.importAll importing (s :: rest)

/-- Takes a batch of history; nothing is taken from one that cannot be read. -/
def importBatch (batch : Option HistoryBatch) (importing : Bool) : Action Chart Nat := do
  let samples ← liftM (m := Except Fault) (History.decode batch)
  modifyGet fun p => p.importSamples importing samples

end Chart

end HashrateChart
