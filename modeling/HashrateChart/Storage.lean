/-
What the chart keeps between runs: its curves, the time of the last sample, the
time before which history is not taken again, and how the chart was shown.

Trouble with the store never shows: a failed read gives nothing, a failed write
is dropped, and a text that is no value of its kind reads as nothing, unless it
nests too deep to be read.
-/
import HashrateChart.Config
import HashrateChart.Storage.Document
import HashrateChart.Storage.Store

namespace HashrateChart

structure Storage where
  store : Store
  keys : StorageKeys
  /-- How many samples are kept at most; an unusable setting keeps its fault until it is used. -/
  maxPoints : Result Int

namespace Storage

/-- Makes a call of the store. When it fails the trouble is dropped, and a value stands in for its
result. -/
def attempt {α : Type} (call : StorageKeys → Store.Access α) (otherwise : α) : StateM Storage α := fun s =>
  let out := (ExceptT.run (call s.keys)).run s.store
  (match out.1 with
    | .ok a => a
    | .error .outOfOrder => otherwise, { s with store := out.2 })

def read (key : StorageKeys → String) : StateM Storage (Option String) := do
  return (← attempt (fun keys => Store.read (key keys)) none).filter (· ≠ "")

def write (key : StorageKeys → String) (text : String) : StateM Storage Unit :=
  attempt (fun keys => Store.write (key keys) text) ()

def remove (key : StorageKeys → String) : StateM Storage Unit :=
  attempt (fun keys => Store.remove (key keys)) ()

/-! ## Curves -/

/-- The stored curves. -/
def loadSeries : Action Storage (Option StoredSeries) := do
  let text ← read StorageKeys.chartData
  match ← liftM (m := Except Fault) (text.mapM StoredSeries.state) with
  | none | some none => return none
  | some (some j) =>
    let s ← liftM (m := Except Fault) (StoredSeries.ofDocument j (← get).maxPoints)
    return some s

/-- Stores the curves at a time. -/
def saveSeries (series : StoredSeries) (now : Int) : Action Storage Unit := do
  match (← get).maxPoints with
  | .ok most =>
    write StorageKeys.chartData ((StoredSeries.normalize series.labels series.data most).print now)
  | .error .overflow => throw .overflow
  | .error _ => return

def clearSeries : StateM Storage Unit := remove StorageKeys.chartData

/-! ## Times -/

/-- The finite number that a stored text is read as. -/
def finiteNumber? (text : String) : Option Binary64 :=
  (Decimal.readReal? text).filter Binary64.isFinite

def loadNumber (key : StorageKeys → String) : StateM Storage (Option Binary64) := do
  return (← read key).bind finiteNumber?

/-- Stores the whole part of a number. -/
def saveWhole (key : StorageKeys → String) (t : Number) : Action Storage Unit := do
  let i ← liftM (m := Except Fault) t.truncate
  write key (Decimal.intText i)

def loadLast : StateM Storage (Option Binary64) := loadNumber StorageKeys.lastTimestamp

/-- Stores the time of the last sample, when there is one. -/
def saveLast (t : Option Number) : Action Storage Unit := do
  match t with
  | none => return
  | some t =>
    if ← liftM (m := Except Fault) t.isFinite then saveWhole StorageKeys.lastTimestamp t

def clearLast : StateM Storage Unit := remove StorageKeys.lastTimestamp

def loadMin : StateM Storage (Option Binary64) := loadNumber StorageKeys.minTimestamp

/-- Stores the time before which history is not taken, when it is a positive one. -/
def saveMin (t : Option Number) : Action Storage Unit := do
  match t with
  | none => return
  | some t =>
    if (← liftM (m := Except Fault) t.isFinite) && t.isPositive then
      saveWhole StorageKeys.minTimestamp t

def clearMin : StateM Storage Unit := remove StorageKeys.minTimestamp

/-! ## Appearance -/

/-- The truth values of a list. -/
def flags? : Json → Option (List Bool)
  | .list items => some (items.map Json.truthy)
  | _ => none

/-- Whether each curve is hidden. -/
def loadLegend : Action Storage (Option (List Bool)) := do
  let text ← read StorageKeys.legend
  return (← liftM (m := Except Fault) (text.mapM storedValue)).join.bind flags?

def saveLegend (hidden : List Bool) : StateM Storage Unit :=
  write StorageKeys.legend (Json.print (.list (hidden.map .bool)))

def viewModes : List String := ["gauge", "bars"]

def loadViewMode : StateM Storage (Option String) := do
  return (← read StorageKeys.viewMode).filter viewModes.contains

def saveViewMode (mode : String) : Action Storage Unit :=
  if viewModes.contains mode then write StorageKeys.viewMode mode else throw (.unknownViewMode mode)

/-- How the chart was shown last; flags count only when there is one for each curve. -/
def preferences (defaults : UiDefaults) : Action Storage UiDefaults := do
  let mode ← loadViewMode
  let hidden ← loadLegend
  return {
    viewMode := mode.getD defaults.viewMode
    legendHidden :=
      (hidden.filter fun h => h.length = defaults.legendHidden.length).getD defaults.legendHidden }

end Storage

end HashrateChart
