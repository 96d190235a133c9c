/-
A live poll of the device: it gives the live and the expected hashrate, may end
the startup, and moves the warmup on.
-/
import HashrateChart.Chart.State
import HashrateChart.Device.Info

namespace HashrateChart

namespace Chart

/-- Samples that pass unfiltered once the startup is over. The 1m curve is always filtered: after
a restart its history starts with a short low stretch. -/
def bypassed (n : Int) : PerChannel Nat :=
  .ofFn fun c => if c.isHashrate && c ≠ .hashrate1m then n.toNat else 0

/-- Ends the startup once the live hashrate is steady and near the expected one. -/
def unlock (p : Chart) (live : Binary64) : Chart :=
  let cfg := p.config.startup
  let unlocks := Warmup.isUnlockedAt live p.expected cfg.unlockRatio p.guard.isSteady
  if !p.startup.unlocked && unlocks then
    { p with startup := { p.startup with unlocked := true, bypass := bypassed cfg.bypassSamples } }
  else p

/-- What a poll says about the hashrates. -/
def noteHashrates (p : Chart) (live expected : Binary64) : Chart :=
  { p with
    guard := p.guard.observeLive live
    live := if Binary64.zero.lt live then some live else none
    expected := if Binary64.zero.lt expected then expected else p.expected }

/-- Takes one live poll. -/
def observe (p : Chart) (now : Int) (info : SystemInfo) : Chart :=
  let live := info.liveHashrate
  let p := (p.noteHashrates live info.expectedHashrate).unlock live
  let warmup := p.warmup.poll now (.real (info.vregTemp.getD .nan)) (.real (info.temp.getD .nan))
    (.real live) (Binary64.zero.lt p.expected)
  { p with warmup := warmup }

end Chart

end HashrateChart
