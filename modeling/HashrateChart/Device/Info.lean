/-
What a device tells about itself: its hashrate and how it is shared between two
pools, the numbers from which the expected hashrate follows, two temperatures,
and perhaps a batch of history.
-/
import HashrateChart.Device.Batch

namespace HashrateChart

open Check

/-- A pool that the device mines for. -/
structure Pool where
  connected : Bool
  accepted : Int
  rejected : Int
  deriving DecidableEq

def Pool.check : Json → Checked Pool :=
  object fun o => Pool.mk
    <$> field o "connected" false truth
    <*> field o "accepted" 0 integer
    <*> field o "rejected" 0 integer

/-- The pools and the share, in percent, of the first of two. -/
structure Stratum where
  pools : List Pool
  balance : Binary64
  usingFallback : Bool
  deriving DecidableEq

def Stratum.check : Json → Checked Stratum :=
  object fun o => Stratum.mk
    <$> field o "pools" [] (listOf Pool.check)
    <*> field o "poolBalance" 100 real
    <*> field o "usingFallback" false truth

structure SystemInfo where
  /-- The hashrate in GH/s. -/
  hashrate : Binary64
  frequency : Binary64
  smallCores : Int
  asics : Int
  temp : Option Binary64
  vregTemp : Option Binary64
  stratum : Option Stratum
  history : Option HistoryBatch
  deriving DecidableEq

namespace SystemInfo

/-- What a document says about a device. -/
def checkFields (o : List (String × Json)) : Checked SystemInfo :=
  SystemInfo.mk
    <$> field o "hashRate" 0 real
    <*> field o "frequency" 0 real
    <*> field o "smallCoreCount" 0 integer
    <*> field o "asicCount" 0 integer
    <*> field o "temp" none (optional real)
    <*> field o "vrTemp" none (optional real)
    <*> field o "stratum" none (optional Stratum.check)
    <*> field o "history" none (optional HistoryBatch.check)

def check : Json → Checked SystemInfo := object checkFields

/-- Whether the `i`-th pool is connected. -/
def isConnected (s : Stratum) (i : Nat) : Bool :=
  match s.pools[i]? with
  | some p => p.connected
  | none => false

/-- The share, in percent, of the hashrate that goes to the first or the second pool. -/
def share (info : SystemInfo) (second : Bool) : Binary64 :=
  let alone := if second then (0 : Binary64) else 100
  match info.stratum with
  | none => alone
  | some s =>
    if s.pools.isEmpty then alone
    else
      match isConnected s 0, isConnected s 1 with
      | false, false => 0
      | true, true => if second then 100 - s.balance else s.balance
      | first, _ => if first != second then 100 else 0

/-- The hashrate, in GH/s, that goes to a pool. -/
def poolHashrate (info : SystemInfo) (second : Bool) : Binary64 :=
  info.hashrate * info.share second / 100

/-- The live hashrate in H/s over both pools, zero when nothing is mined. -/
def liveHashrate (info : SystemInfo) : Binary64 :=
  let total := [false, true].foldl (fun (sum : Binary64) second =>
    let x := info.poolHashrate second
    if x.isFinite then sum + x else sum) 0
  if !total.isFinite || total.le 0 then 0 else total * 1000000000

/-- The hashrate in H/s that the clock and the cores should give, zero when it is unknown. -/
def expectedHashrate (info : SystemInfo) : Binary64 :=
  let gigahashes : Result Binary64 := do
    let cores : Binary64 ← Arithmetic.ofInt? (info.smallCores * info.asics)
    let whole ← (info.frequency * cores / 1000).floor
    if 0 < whole then return (← Arithmetic.ofInt? whole) * 1000000000 else return 0
  match gigahashes with
  | .ok x => x
  | .error _ => 0

end SystemInfo

end HashrateChart
