/-
The outlier filter of the chart. A suspicious step is held back until enough
samples in a row confirm it; a live hashrate of another source decides about
hashrates that are ambiguous.

Each channel has a memory of its own. The only thing that channels share is the
ring of recent live hashrates.
-/
import HashrateChart.Config
import HashrateChart.Axis.Window
import HashrateChart.Smoothing

namespace HashrateChart

open Arithmetic (Raw)

namespace Guard

/-- How many accepted values a channel remembers. -/
def windowSize : Nat := 9

/-- How many live hashrates are remembered. -/
def ringSize : Nat := 6

/-- Adds an item at the end and drops items at the front beyond a size. -/
def pushBounded {β : Type} (size : Nat) (xs : List β) (x : β) : List β :=
  (xs ++ [x]).drop (xs.length + 1 - size)

theorem length_pushBounded {β : Type} (size : Nat) (xs : List β) (x : β) :
    (pushBounded size xs x).length = min (xs.length + 1) size := by
  simp [pushBounded]; omega

/-! ## Tuning -/

/-- The settings of the filter as they are read where they are used. A setting that was changed
to something unusable keeps its fault until then. -/
structure Tuning where
  confirm : Result Int
  liveTolerance : Result Number
  /-- The live tolerance for the first sample of a channel. -/
  seedTolerance : Result Binary64
  bigStep : Result Number
  stableSamples : Result Int
  stableSpread : Result Binary64
  minValid : Result Number
  tempCeiling : Result Number

/-- A value as a whole number, a half going to the even one. -/
def roundedSetting (j : Json) : Result Int := do (← j.asNumber).nearest

def Tuning.ofConfig (c : GuardConfig) : Tuning where
  confirm := .ok c.confirmSamples
  liveTolerance := .ok (.real c.liveTolerance)
  seedTolerance := .ok c.liveTolerance
  bigStep := .ok (.real c.bigStep)
  stableSamples := .ok c.stableSamples
  stableSpread := .ok c.stableSpread
  minValid := .ok (.real c.minValid)
  tempCeiling := .ok (.real c.tempCeiling)

/-- Changes one setting by name; other names change nothing. -/
def Tuning.change (t : Tuning) (name : String) (j : Json) : Tuning :=
  match name with
  | "confirm_samples" => { t with confirm := roundedSetting j }
  | "live_ref_tolerance" => { t with liveTolerance := j.asNumber, seedTolerance := j.toReal }
  | "big_step_rel" => { t with bigStep := j.asNumber }
  | "live_ref_stable_samples" => { t with stableSamples := roundedSetting j }
  | "live_ref_stable_rel" => { t with stableSpread := j.toReal }
  | "min_valid" => { t with minValid := j.asNumber }
  | "temp_ceiling_c" => { t with tempCeiling := j.asNumber }
  | _ => t

/-! ## Memory of a channel -/

inductive Direction where
  | up
  | down
  deriving DecidableEq, Repr

/-- What the filter remembers of a channel: the value it gave last, a suspected step, and the
values it accepted. -/
structure Memory where
  prev : Option Binary64 := none
  direction : Option Direction := none
  count : Nat := 0
  window : List Binary64 := []
  deriving DecidableEq

namespace Memory

/-- Gives out a value and remembers it. -/
def accept (m : Memory) (v : Binary64) : Result Binary64 × Memory :=
  (.ok v, { m with prev := some v, window := pushBounded windowSize m.window v })

def clearSuspect (m : Memory) : Memory := { m with direction := none, count := 0 }

/-- Counts a suspicious sample; a change of direction starts the count anew. -/
def suspect (m : Memory) (d : Direction) : Memory :=
  if m.direction = some d then { m with count := m.count + 1 }
  else { m with direction := some d, count := 1 }

end Memory

/-- A sample as the filter sees it. -/
structure Sample where
  valid : Bool
  /-- The sample itself when it is valid, or else what stands for it. -/
  candidate : Binary64
  /-- The live hashrate, when there is a positive one. -/
  live : Option Binary64
  deriving DecidableEq

/-- The distance of two values as a share of the second. -/
def relative (x y : Binary64) : Binary64 := (x - y).abs / y

/-- Whether a sample is in the range of values that a channel can have. -/
def isValid (t : Tuning) (c : Channel) (x : Binary64) : Result Bool := do
  if !x.isFinite then return false
  let least ← t.minValid
  if !least.lt (.real x) then return false
  if c.isTemperature then
    let ceiling ← t.tempCeiling
    return (Number.real x).lt ceiling
  else return true

/-- What stands for an invalid sample: the median of the accepted values. -/
def fallback (m : Memory) : Binary64 :=
  if m.window.isEmpty then m.prev.getD 0 else Smoothing.median m.window

def observe (t : Tuning) (m : Memory) (c : Channel) (x : Binary64) (live : Json) :
    Result Sample := do
  let valid ← isValid t c x
  let reading ← if c.isHashrate then live.reading else pure .nan
  return ⟨valid, if valid then x else fallback m, if reading.isPositive then some reading else none⟩

/-- The first value of a channel: the sample, unless the live hashrate is far from it. -/
def seed (t : Tuning) (s : Sample) : Result Binary64 := do
  match s.live with
  | none => return s.candidate
  | some live =>
    let tolerance := Arithmetic.larger 0.05 (← t.seedTolerance)
    return if !s.valid || (tolerance * 2).lt (relative s.candidate live) then live
      else s.candidate

/-- What the live hashrate says about a sample. -/
inductive Gate where
  /-- The sample goes on to the next check. -/
  | pass
  /-- The value before is given out and remembered again. -/
  | again
  /-- The value before is given out and nothing is remembered. -/
  | hold
  deriving DecidableEq, Repr

/-- How far from the live hashrate a value may be; further just after the live one has jumped. -/
def gateWidth (live prev : Binary64) : Binary64 :=
  let jump := if (0 : Binary64).lt prev then relative live prev else 0
  if (0.20 : Binary64).lt jump then 0.80 else 0.25

/-- Whether a valid sample is a big step from a positive value. -/
def isBigStep (t : Tuning) (s : Sample) (prev : Binary64) : Result Bool := do
  if s.valid && (0 : Binary64).lt prev then
    return (← t.bigStep).le (.real (relative s.candidate prev))
  else return false

def gate (t : Tuning) (stable : Result Bool) (s : Sample) (prev : Binary64) : Result Gate := do
  match s.live with
  | none => return .pass
  | some live =>
    if (gateWidth live prev).lt (relative s.candidate live) then
      let big ← isBigStep t s prev
      let stable ← stable
      return if stable && !big then .again else .hold
    else return .pass

/-- Whether a sample steps too far from the value before. -/
def isSuspicious (s : Sample) (prev : Binary64) (threshold : Raw Number) : Result Bool := do
  if s.valid && (0 : Binary64).lt prev then
    return (← threshold).lt (.real (relative s.candidate prev))
  else return false

/-- Whether a big step may pass at once because it leads to the live hashrate. -/
def isFast (t : Tuning) (s : Sample) (prev : Binary64) : Result Bool := do
  match s.live with
  | none => return false
  | some live =>
    if (← t.bigStep).le (.real (relative s.candidate prev)) then
      return (Number.real (relative s.candidate live)).le (← t.liveTolerance)
    else return false

/-- How many suspicious samples in a row confirm a step. -/
def needed (t : Tuning) (confirm : Option Json) : Result Int := do
  return max 1 (← match confirm with
    | some j => roundedSetting j
    | none => t.confirm)

namespace Memory

/-- Counts a suspicious sample and gives it out once the step is confirmed. -/
def confirmStep (t : Tuning) (m : Memory) (s : Sample) (prev : Binary64) (confirm : Option Json) :
    Result Binary64 × Memory :=
  let direction := if (0 : Binary64).le (s.candidate - prev) then Direction.up else .down
  let m := m.suspect direction
  match needed t confirm with
  | .error e => (.error e, m)
  | .ok n => if n ≤ m.count then m.clearSuspect.accept s.candidate else m.accept prev

/-- Judges a sample that the live hashrate lets pass by its step from the value before. -/
def judge (t : Tuning) (m : Memory) (s : Sample) (prev : Binary64) (threshold : Raw Number)
    (confirm : Option Json) : Result Binary64 × Memory :=
  match isSuspicious s prev threshold with
  | .error e => (.error e, m)
  | .ok false => m.clearSuspect.accept (if s.valid then s.candidate else prev)
  | .ok true =>
    match isFast t s prev with
    | .error e => (.error e, m)
    | .ok true => m.clearSuspect.accept s.candidate
    | .ok false => m.confirmStep t s prev confirm

/-- Filters one sample of a channel. -/
def filter (t : Tuning) (stable : Result Bool) (m : Memory) (c : Channel) (x : Binary64)
    (threshold : Raw Number) (live : Json) (confirm : Option Json) : Result Binary64 × Memory :=
  match observe t m c x live with
  | .error e => (.error e, m)
  | .ok s =>
    match m.prev with
    | none =>
      match seed t s with
      | .error e => (.error e, m)
      | .ok v => m.accept v
    | some prev =>
      match gate t stable s prev with
      | .error e => (.error e, m)
      | .ok .again => m.accept prev
      | .ok .hold => (.ok prev, m)
      | .ok .pass => m.judge t s prev threshold confirm

end Memory

end Guard

/-! ## The filter -/

/-- The filter for all channels. -/
structure Guard where
  tuning : Guard.Tuning
  memory : PerChannel Guard.Memory
  ring : List Binary64

namespace Guard

def new (cfg : GuardConfig) : Guard := ⟨.ofConfig cfg, .replicate {}, []⟩

/-- Changes settings without checking them. The name of the filter itself is none of a setting. -/
def configure (g : Guard) (changes : List (String × Json)) : Result Guard :=
  if (Fields.lookup "self" changes).isSome then .error .wrongType
  else .ok { g with tuning := changes.foldl (fun t (name, j) => t.change name j) g.tuning }

/-- Forgets all samples and live hashrates. -/
def reset (g : Guard) : Guard := { g with memory := .replicate {}, ring := [] }

/-- Remembers a live hashrate, when it is a positive number. -/
def observeLive (g : Guard) (x : Binary64) : Guard :=
  if x.isPositive then { g with ring := pushBounded ringSize g.ring x } else g

/-- Whether the recent live hashrates agree with each other. -/
def isLiveStable (g : Guard) : Result Bool := do
  let n := max 1 (← g.tuning.stableSamples)
  let spread := Arithmetic.larger 0 (← g.tuning.stableSpread)
  if (g.ring.length : Int) < n then return false
  let recent := Smoothing.lastItems n.toNat g.ring
  match Axis.extremes? recent, g.ring.getLast? with
  | some (lo, hi), some base => return ((hi - lo) / base).le spread
  | _, _ => return false

/-- Whether the recent live hashrates are known to agree with each other. -/
def isSteady (g : Guard) : Bool := g.isLiveStable.toOption.getD false

/-- The value to plot for a sample of a channel, and what the channel remembers then. A setting
that cannot be used gives a gap; a checked configuration has none. -/
def sample (g : Guard) (c : Channel) (x threshold : Binary64) (live : Option Binary64)
    (confirm : Option Int) : Binary64 × Memory :=
  let (r, m) := (g.memory.get c).filter g.tuning g.isLiveStable c x (.ok (.real threshold))
    (live.elim .null .real) (confirm.map .int)
  (r.toOption.getD .nan, m)

/-- Filters one sample and gives the value to plot. -/
def filter (g : Guard) (c : Channel) (x : Binary64) (threshold : Raw Number) (live : Json)
    (confirm : Option Json) : Result Binary64 × Guard :=
  let (r, m) := (g.memory.get c).filter g.tuning g.isLiveStable c x threshold live confirm
  (r, { g with memory := g.memory.set c m })

/-- Filters a sample that may be any value. -/
def filterValue (g : Guard) (c : Channel) (sample : Json) (threshold : Raw Number) (live : Json)
    (confirm : Option Json) : Result Binary64 × Guard :=
  match sample.reading with
  | .error e => (.error e, g)
  | .ok x => g.filter c x threshold live confirm

end Guard

end HashrateChart
