/-
Warmup after a restart of the device. While it boots, its sensors report junk;
the chart is locked, and the channels come back in stages: the regulator's
temperature, the chip's temperature, then the hashrates.

A stage is left only once its sensor has been valid for the configured delay.
While all channels are enabled, polls that look like a boot detect the next
restart.
-/
import HashrateChart.Config

namespace HashrateChart

namespace Warmup

inductive Stage where
  | locked
  | vregWait
  | asicWait
  | hashrateWait
  | ready
  deriving DecidableEq, Repr

inductive Event where
  | reset
  | start
  | vregReady
  | asicReady
  | hashrateReady
  deriving DecidableEq, Repr

namespace Stage

def all : List Stage := [locked, vregWait, asicWait, hashrateWait, ready]

def name : Stage → String
  | locked => "LOCKED"
  | vregWait => "VREG_WAIT"
  | asicWait => "ASIC_WAIT"
  | hashrateWait => "HASH1M_WAIT"
  | ready => "READY"

def ofName? (s : String) : Result Stage :=
  match all.find? (·.name = s) with
  | some x => .ok x
  | none => .error .unknownName

/-- The place of a stage on the way from locked to ready. -/
def rank : Stage → Nat
  | locked => 0
  | vregWait => 1
  | asicWait => 2
  | hashrateWait => 3
  | ready => 4

/-- Whether a stage plots a channel. -/
def enables (s : Stage) : Channel → Bool
  | .vregTemp => decide (2 ≤ s.rank)
  | .asicTemp => decide (3 ≤ s.rank)
  | _ => decide (4 ≤ s.rank)

end Stage

namespace Event

def all : List Event := [reset, start, vregReady, asicReady, hashrateReady]

def name : Event → String
  | reset => "RESET"
  | start => "BEGIN"
  | vregReady => "VREG_READY"
  | asicReady => "ASIC_READY"
  | hashrateReady => "HASH1M_READY"

def ofName? (s : String) : Result Event :=
  match all.find? (·.name = s) with
  | some x => .ok x
  | none => .error .unknownName

end Event

/-- The stage after an event; an event that does not belong to the stage keeps it. -/
def transition : Stage → Event → Stage
  | _, .reset => .locked
  | .locked, .start => .vregWait
  | .vregWait, .vregReady => .asicWait
  | .asicWait, .asicReady => .hashrateWait
  | .hashrateWait, .hashrateReady => .ready
  | s, _ => s

/-- When things happened since the last reset. -/
structure Timers where
  resetAt : Option Int := none
  vregFirst : Option Int := none
  vregEnabled : Option Int := none
  asicFirst : Option Int := none
  asicEnabled : Option Int := none
  liveFirst : Option Int := none
  readyAt : Option Int := none
  flowFirst : Option Int := none
  flowLast : Option Int := none
  deriving DecidableEq

/-! ## Decisions on single values -/

/-- A reading that may be any value: a number, or a truth value as one or zero. -/
def isFiniteReading (j : Json) : Result Bool :=
  match j.number? with
  | some n => n.isFinite
  | none => .ok false

/-- A reading as a number that binary64 numbers reach; what is no number is undefined. -/
def readingOf (j : Json) : Result Number :=
  match j.number? with
  | some n => do
    discard n.isFinite
    return n
  | none => .ok (.real .nan)

/-- Whether a temperature is missing or below what the device shows once it has booted. -/
def isColdReading (least : Arithmetic.Raw Number) (j : Json) : Result Bool := do
  match j.number? with
  | none => return true
  | some n => if ← n.isFinite then return n.lt (← least) else return true

/-- Whether a hashrate is missing or none. -/
def isIdleReading (j : Json) : Result Bool := do
  match j.number? with
  | none => return true
  | some n => return !(← n.isFinite) || n.le .zero

/-- Whether a history sample shows a restart: the live hashrate is gone, and a temperature is
cold or the hashrate is none. -/
def isRestartCut (liveOk : Bool) (vreg asic hashrate : Json) (least : Arithmetic.Raw Number) :
    Result Bool := do
  if liveOk then return false
  let cold ← if ← isColdReading least vreg then pure true else isColdReading least asic
  let idle ← isIdleReading hashrate
  return cold || idle

/-- As `isRestartCut`, for a sample of real numbers. -/
def isRestartSample (liveOk : Bool) (vreg asic hashrate least : Binary64) : Bool :=
  let isCold (x : Binary64) : Bool := !x.isFinite || x.lt least
  !liveOk && (isCold vreg || isCold asic || !hashrate.isPositive)

/-- Whether a value is a positive finite number. -/
def isPositiveReading (j : Json) : Result Bool := do
  match j.number? with
  | none => return false
  | some n => return (← n.isFinite) && n.isPositive

/-- Whether a live hashrate has reached its share of the expected one. -/
def reaches (live expected ratio : Number) : Result Bool := do
  let goal : Number ←
    match expected, ratio with
    | .int e, .int r => pure (.int (e * r))
    | e, r => pure (.real ((← e.toReal) * (← r.toReal)))
  return goal.le live

/-- Whether the startup is over: the live hashrate is steady and near the expected one. -/
def isUnlocked (live expected : Json) (ratio : Arithmetic.Raw Number) (stable : Bool) :
    Result Bool := do
  if !(← isPositiveReading live) then return false
  if !(← isPositiveReading expected) then return false
  if !stable then return false
  reaches (live.number?.getD .zero) (expected.number?.getD .zero) (← ratio)

/-- As `isUnlocked`, for real numbers. -/
def isUnlockedAt (live expected ratio : Binary64) (stable : Bool) : Bool :=
  live.isPositive && expected.isPositive && stable && (expected * ratio).le live

/-- Whether the 1m curve may start from a history sample. Once the startup is over the sample has
to reach the expected share; before that, any valid sample of a bulk import will do. -/
def startsHashrate (started unlocked valid reached importing : Bool) : Bool :=
  started || (if unlocked then reached else importing && valid)

end Warmup

/-! ## The machine -/

/-- Which channels are enabled, and what led there. -/
structure Warmup where
  cfg : WarmupConfig
  stage : Warmup.Stage
  timers : Warmup.Timers
  /-- How many polls in a row looked like a boot. -/
  streak : Nat
  /-- A restart was detected and its gap is not yet drawn. -/
  breakPending : Bool
  deriving DecidableEq

namespace Warmup

def new (cfg : WarmupConfig) (stage : Stage) : Warmup := ⟨cfg, stage, {}, 0, false⟩

def isLocked (m : Warmup) : Bool := decide (m.stage ≠ .ready)

def isEnabled (m : Warmup) (c : Channel) : Bool := m.stage.enables c

/-- Goes back to the locked stage and forgets all times. -/
def reset (m : Warmup) (at_ : Int) : Warmup :=
  { m with stage := transition m.stage .reset, timers := { resetAt := some at_ }, streak := 0 }

/-- As `reset`, for a time that may be any value; the stage changes even when it is none. -/
def resetAt (at_ : Json) : Action Warmup Unit := do
  modify fun m => { m with stage := transition m.stage .reset }
  let t ← liftM (m := Except Fault) at_.toInt
  modify fun m => m.reset t

/-- Notes that a finite 1m value was stored. -/
def noteFlow (m : Warmup) (t : Int) : Warmup :=
  { m with timers := { m.timers with
      flowFirst := m.timers.flowFirst.or (some t)
      flowLast := some t } }

/-- Whether a restart waits for its gap; reading it clears it. -/
def consumeBreak (m : Warmup) : Bool × Warmup := (m.breakPending, { m with breakPending := false })

/-- Whether a temperature is one of a running device. -/
def isTempValid (cfg : WarmupConfig) (x : Number) : Bool :=
  x.isBounded && (Number.real cfg.tempMin).le x && x.le (.real cfg.tempMax)

/-- Whether a temperature is one of a device that boots. -/
def isTempCold (cfg : WarmupConfig) (x : Number) : Bool :=
  !x.isBounded || x.lt (.real cfg.tempMin)

/-- Whether a live hashrate is one of a device that works. -/
def isLive (x : Number) : Bool := x.isBounded && x.isPositive

/-- Counts polls that look like a boot; enough of them in a row are a restart. -/
def checkRestart (m : Warmup) (now : Int) (bootLike : Bool) : Warmup :=
  if bootLike then
    let m := { m with streak := m.streak + 1 }
    if max 1 m.cfg.restartStreak ≤ m.streak then { m.reset now with breakPending := true } else m
  else { m with streak := 0 }

/-- A time that was noted, zero counting as none. -/
def noted (t : Option Int) (now : Int) : Int :=
  match t with
  | some t => if t = 0 then now else t
  | none => now

/-- Leaves the current stage once its delay is over. -/
def advance (m : Warmup) (now : Int) : Warmup :=
  let t := m.timers
  match m.stage with
  | .vregWait =>
    match t.vregFirst with
    | some first =>
      if m.cfg.vregDelay ≤ now - first then
        { m with
          stage := transition m.stage .vregReady
          timers := { t with vregEnabled := some now } }
      else m
    | none => m
  | .asicWait =>
    match t.asicFirst with
    | some first =>
      if m.cfg.asicDelay ≤ now - max (noted t.vregEnabled now) first then
        { m with
          stage := transition m.stage .asicReady
          timers := { t with asicEnabled := some now } }
      else m
    | none => m
  | .hashrateWait =>
    match t.liveFirst with
    | some first =>
      if m.cfg.hashrateDelay ≤ now - max (noted t.asicEnabled now) first then
        { m with
          stage := transition m.stage .hashrateReady
          timers := { t with readyAt := some now } }
      else m
    | none => m
  | _ => m

/-- Leaves as many stages as the delays allow; three are between locked and ready. -/
def walk (m : Warmup) (now : Int) : Warmup := ((m.advance now).advance now).advance now

/-- Notes the first time at which something holds. -/
def noteFirst (t : Option Int) (now : Int) (holds : Bool) : Option Int :=
  if t.isNone && holds then some now else t

/-- Notes which readings are valid for the first time. -/
def noteReadings (m : Warmup) (now : Int) (vreg asic live : Number) (systemOk : Bool) : Warmup :=
  let t := m.timers
  { m with timers := { t with
      vregFirst := noteFirst t.vregFirst now (isTempValid m.cfg vreg)
      asicFirst := noteFirst t.asicFirst now (isTempValid m.cfg asic)
      liveFirst := noteFirst t.liveFirst now (isLive live && systemOk) } }

/-- Takes one poll of the live readings. -/
def poll (m : Warmup) (now : Int) (vreg asic live : Number) (systemOk : Bool) : Warmup :=
  if m.stage = .ready then
    m.checkRestart now
      (!isLive live && (isTempCold m.cfg vreg || isTempCold m.cfg asic || !systemOk))
  else
    let m := { m with stage := transition m.stage .start }
    (m.noteReadings now vreg asic live systemOk).walk now

/-- The reading of a sensor that says nothing. -/
def missing : Number := .real .nan

/-- As `poll`, for readings that may fail when they are read. Each is read only where it counts:
beside a cold regulator the chip does not, and a sensor that was valid once does not again. -/
def observe (now : Int) (vreg asic live : Arithmetic.Raw Number) (systemOk : Bool) :
    Action Warmup Stage := do
  let live ← liftM (m := Except Fault) live
  let m ← get
  if m.stage = .ready then
    let v ← liftM (m := Except Fault) vreg
    let a ← liftM (m := Except Fault) (if isTempCold m.cfg v then .ok missing else asic)
    set (m.poll now v a live systemOk)
  else
    set { m with stage := transition m.stage .start }
    let v ← liftM (m := Except Fault) (if m.timers.vregFirst.isNone then vreg else .ok missing)
    modify fun m => m.noteReadings now v missing missing false
    let a ← liftM (m := Except Fault) (if m.timers.asicFirst.isNone then asic else .ok missing)
    set (m.poll now v a live systemOk)
  return (← get).stage

end Warmup

end HashrateChart
