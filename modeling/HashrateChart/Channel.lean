/-
The six curves of the chart: four hashrates and two temperatures, in the order
in which the chart keeps them.

`PerChannel` is a value for each of them; `get_set_self` and `get_set_other`
say that writing one channel leaves the others alone.
-/
import HashrateChart.Fault

namespace HashrateChart

/-- A curve of the chart. -/
inductive Channel where
  | hashrate1m
  | hashrate10m
  | hashrate1h
  | hashrate1d
  | vregTemp
  | asicTemp
  deriving DecidableEq, Repr

namespace Channel

/-- All channels in chart order. -/
def all : List Channel := [hashrate1m, hashrate10m, hashrate1h, hashrate1d, vregTemp, asicTemp]

theorem mem_all (c : Channel) : c ∈ all := by cases c <;> decide

/-- The place of a channel in chart order. -/
def index : Channel → Nat
  | hashrate1m => 0
  | hashrate10m => 1
  | hashrate1h => 2
  | hashrate1d => 3
  | vregTemp => 4
  | asicTemp => 5

/-- The name of a channel in configurations and device answers. -/
def key : Channel → String
  | hashrate1m => "hashrate_1m"
  | hashrate10m => "hashrate_10m"
  | hashrate1h => "hashrate_1h"
  | hashrate1d => "hashrate_1d"
  | vregTemp => "vregTemp"
  | asicTemp => "asicTemp"

def isTemperature : Channel → Bool
  | vregTemp | asicTemp => true
  | _ => false

def isHashrate (c : Channel) : Bool := !c.isTemperature

def hashrates : List Channel := all.filter isHashrate

def temperatures : List Channel := all.filter isTemperature

/-- The channel of a name. -/
def ofKey? (key : String) : Result Channel :=
  match all.find? (·.key = key) with
  | some c => .ok c
  | none => .error (.unknownChannel key)

end Channel

/-- A value for each channel. -/
structure PerChannel (α : Type) where
  hashrate1m : α
  hashrate10m : α
  hashrate1h : α
  hashrate1d : α
  vregTemp : α
  asicTemp : α
  deriving DecidableEq, Repr

namespace PerChannel

variable {α β : Type}

def get (p : PerChannel α) : Channel → α
  | .hashrate1m => p.hashrate1m
  | .hashrate10m => p.hashrate10m
  | .hashrate1h => p.hashrate1h
  | .hashrate1d => p.hashrate1d
  | .vregTemp => p.vregTemp
  | .asicTemp => p.asicTemp

def set (p : PerChannel α) (c : Channel) (a : α) : PerChannel α :=
  match c with
  | .hashrate1m => { p with hashrate1m := a }
  | .hashrate10m => { p with hashrate10m := a }
  | .hashrate1h => { p with hashrate1h := a }
  | .hashrate1d => { p with hashrate1d := a }
  | .vregTemp => { p with vregTemp := a }
  | .asicTemp => { p with asicTemp := a }

/-- The value of each channel by a rule. -/
def ofFn (f : Channel → α) : PerChannel α :=
  ⟨f .hashrate1m, f .hashrate10m, f .hashrate1h, f .hashrate1d, f .vregTemp, f .asicTemp⟩

def replicate (a : α) : PerChannel α := ofFn fun _ => a

def map (f : α → β) (p : PerChannel α) : PerChannel β := ofFn fun c => f (p.get c)

/-- The value of each channel by a rule that may fail, in chart order. -/
def ofFnM (f : Channel → Result α) : Result (PerChannel α) := do
  return ⟨← f .hashrate1m, ← f .hashrate10m, ← f .hashrate1h, ← f .hashrate1d, ← f .vregTemp,
    ← f .asicTemp⟩

/-- The values in chart order. -/
def toList (p : PerChannel α) : List α := Channel.all.map p.get

@[simp] theorem get_ofFn (f : Channel → α) (c : Channel) : (ofFn f).get c = f c := by
  cases c <;> rfl

@[simp] theorem get_replicate (a : α) (c : Channel) : (replicate a).get c = a := get_ofFn _ c

@[simp] theorem get_map (f : α → β) (p : PerChannel α) (c : Channel) :
    (p.map f).get c = f (p.get c) := get_ofFn _ c

@[simp] theorem get_set_self (p : PerChannel α) (c : Channel) (a : α) : (p.set c a).get c = a := by
  cases c <;> rfl

theorem get_set_other (p : PerChannel α) {c d : Channel} (a : α) (h : d ≠ c) :
    (p.set c a).get d = p.get d := by
  cases c <;> cases d <;> first | rfl | exact absurd rfl h

theorem ext_get {p q : PerChannel α} (h : ∀ c, p.get c = q.get c) : p = q := by
  cases p; cases q
  simpa [get] using And.intro (h .hashrate1m) ⟨h .hashrate10m, h .hashrate1h, h .hashrate1d,
    h .vregTemp, h .asicTemp⟩

end PerChannel

end HashrateChart
