/-
The state of a chart: its curves, the filters in front of them, what is known
about the device, and where the curves stand after a restart.
-/
import HashrateChart.Deferred
import HashrateChart.Guard
import HashrateChart.Series
import HashrateChart.Storage
import HashrateChart.Warmup

namespace HashrateChart

/-- How the curves start again after a restart. -/
structure Startup where
  /-- The live hashrate has reached its share of the expected one. -/
  unlocked : Bool := false
  /-- The 1m curve has started. -/
  started : Bool := false
  /-- When the 1m curve started, after a restart. -/
  startedAt : Option Int := none
  /-- The next start of the 1m curve is the first one after a restart. -/
  smoothArmed : Bool := false
  /-- How many samples of a channel still pass unfiltered. -/
  bypass : PerChannel Nat := .replicate 0
  deriving DecidableEq

/-- The reload of the history that follows a restart. -/
structure Reload where
  /-- The restart whose reload is due later. -/
  slot : Deferred Int := .empty
  /-- The restart that was given its reload last. -/
  consumed : Option Int := none
  /-- Before this time no other reload is planned. -/
  cooldownUntil : Int := 0
  requested : Bool := false
  deriving DecidableEq

structure Chart where
  config : Config
  storage : Option Storage
  series : Series := .empty
  guard : Guard
  warmup : Warmup
  startup : Startup := {}
  reload : Reload := {}
  /-- The live hashrate of the last poll, when it was a positive one. -/
  live : Option Binary64 := none
  /-- The hashrate that the device should have, zero when it is unknown. -/
  expected : Binary64 := 0
  /-- Before this time no history is taken. -/
  historyMin : Option Number := none
  /-- The time of the last sample that was looked at. -/
  lastSeen : Option Int := none
  /-- The stored curves were looked for; before that nothing is stored. -/
  loaded : Bool := false
  /-- The time of the last gap. -/
  lastBreak : Option Int := none
  /-- The time of the last gap that a restart made, which names the restart. -/
  restartToken : Option Int := none
  /-- The temperature axis of the last picture. -/
  tempMemory : Option (Binary64 × Binary64) := none

namespace Chart

/-- A chart without samples. -/
def new (config : Config) (storage : Option Storage) : Chart where
  config := config
  storage := storage
  guard := .new config.guard.cfg
  warmup := .new config.warmup .ready

/-- Runs an action on the storage, if there is one. -/
def onStorage {α : Type} (act : Action Storage α) : Action Chart (Option α) := do
  match (← get).storage with
  | none => return none
  | some s =>
    let (r, s) := act.runOn s
    modify fun p => { p with storage := some s }
    return some (← liftM (m := Except Fault) r)

/-- Draws the gap of a restart: all that the restart makes void is forgotten. -/
def insertBreak (p : Chart) (t : Int) : Chart :=
  let (placed, series) := p.series.insertBreak t
  let p := { p with
    series := series
    guard := p.guard.reset
    startup := { smoothArmed := true }
    reload := { p.reload with slot := .empty }
    tempMemory := none }
  match placed with
  | none => p
  | some t => { p with lastBreak := some t, restartToken := some t, lastSeen := some t }

/-- Plans the reload that follows the smoothing of the 1m curve, once for each restart. -/
def planReload (p : Chart) (t : Int) : Chart :=
  let cfg := p.config.startup
  match p.restartToken with
  | none => p
  | some token =>
    if cfg.reloadAfterSmooth && decide (0 < cfg.smoothWindow) then
      let p := { p with startup := { p.startup with smoothArmed := false } }
      if p.reload.consumed = some token ∨ t < p.reload.cooldownUntil then p
      else
        { p with reload := { p.reload with
            slot := p.reload.slot.schedule token (t + cfg.smoothWindow)
            consumed := some token
            cooldownUntil :=
              if cfg.reloadCooldown = 0 then p.reload.cooldownUntil else t + cfg.reloadCooldown } }
    else p

/-- Runs the reload that is due now: it is requested. -/
def pollDeferred (p : Chart) (now : Int) : Bool × Chart :=
  match p.reload.slot.poll (.int now) with
  | (none, slot) => (false, { p with reload := { p.reload with slot := slot } })
  | (some _, slot) => (true, { p with reload := { p.reload with slot := slot, requested := true } })

/-- Whether a reload was requested; reading it clears the request. -/
def takeReload (p : Chart) : Bool × Chart :=
  (p.reload.requested, { p with reload := { p.reload with requested := false } })

end Chart

end HashrateChart
