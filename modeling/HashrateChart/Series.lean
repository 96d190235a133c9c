/-
The stored curves: the times of the samples, and for each channel one value per
sample. A gap that cuts all curves is a sample of undefined values.

Samples may come from anywhere as any values; a sample that turns out unusable
half-way leaves what was written before.
-/
import HashrateChart.Channel
import HashrateChart.Config.Check

namespace HashrateChart

/-- The curves of the chart. -/
structure Series where
  labels : List Int
  data : PerChannel (List Binary64)
  deriving DecidableEq

/-- Whether a sample was added, or replaced the last one of the same time. -/
inductive Upserted where
  | appended
  | updated
  deriving DecidableEq, Repr

def Upserted.name : Upserted → String
  | appended => "appended"
  | updated => "updated"

/-- The curves in their stored form: real labels, and lists that need not match them. -/
structure StoredSeries where
  labels : List Binary64
  data : PerChannel (List Binary64)
  deriving DecidableEq

namespace Series

def empty : Series := ⟨[], .replicate []⟩

instance : Inhabited Series := ⟨empty⟩

def lastLabel? (s : Series) : Option Int := s.labels.getLast?

/-- The list with another last item. -/
def replaceLast {β : Type} (xs : List β) (x : β) : List β :=
  if xs.isEmpty then [] else xs.dropLast ++ [x]

/-- Adds a sample at the end. -/
def append (s : Series) (t : Int) (row : PerChannel Binary64) : Series :=
  ⟨s.labels ++ [t], .ofFn fun c => s.data.get c ++ [row.get c]⟩

/-- Gives the last sample other values. -/
def replace (s : Series) (row : PerChannel Binary64) : Series :=
  { s with data := .ofFn fun c => replaceLast (s.data.get c) (row.get c) }

/-- Adds a sample, or replaces the last one when it is of the same time. -/
def upsert (s : Series) (t : Int) (row : PerChannel Binary64) : Series :=
  if s.lastLabel? = some t then s.replace row else s.append t row

/-- A gap at a time after all samples. -/
def insertBreak (s : Series) (t : Int) : Option Int × Series :=
  if t ≤ 0 then (none, s)
  else
    let t := match s.lastLabel? with
      | some last => if t ≤ last then last + 1 else t
      | none => t
    (some t, s.append t (.replicate .nan))

/-- How many samples at the front are older than a time. -/
def olderCount (s : Series) (cutoff : Int) : Nat := (s.labels.takeWhile (· < cutoff)).length

/-- Drops the samples at the front that are older than a window before now, and counts them. -/
def trim (s : Series) (now window : Int) : Nat × Series :=
  let n := s.olderCount (now - max 0 window)
  (n, ⟨s.labels.drop n, s.data.map (·.drop n)⟩)

/-! ## Samples of any values -/

/-- Writes the value of a channel in the last sample. -/
def writeLast (c : Channel) (value : Result Json) : Action Series Unit := do
  let x ← liftM (m := Except Fault) (value.bind Json.toReal)
  let s ← get
  if (s.data.get c).isEmpty then throw .noSuchSlot
  set { s with data := s.data.set c (replaceLast (s.data.get c) x) }

/-- Adds a value to a channel. -/
def writeNext (c : Channel) (value : Result Json) : Action Series Unit := do
  let x ← liftM (m := Except Fault) (value.bind Json.toReal)
  modify fun s => { s with data := s.data.set c (s.data.get c ++ [x]) }

/-- As `upsert`, channel by channel, for a time and values that may be anything. -/
def upsertValues (t : Json) (values : List (Result Json)) : Action Series Upserted := do
  if values.length ≠ Channel.all.length then throw (.channelCount values.length)
  let t ← liftM (m := Except Fault) t.toInt
  let cells := Channel.all.zip values
  if (← get).lastLabel? = some t then
    cells.forM fun (c, value) => writeLast c value
    return .updated
  else
    modify fun s => { s with labels := s.labels ++ [t] }
    cells.forM fun (c, value) => writeNext c value
    return .appended

/-- As `trim`, for a time and a window that may be anything. -/
def trimValues (s : Series) (now window : Json) : Result (Nat × Series) := do
  let length ← window.toInt
  let cutoff ← (← now.asNumber).subInt (max 0 length)
  let n := (s.labels.takeWhile fun t => (Number.int t).lt cutoff).length
  return (n, ⟨s.labels.drop n, s.data.map (·.drop n)⟩)

/-- As `insertBreak`, for a time that may be anything; what is no time makes no gap. -/
def insertBreakAt (s : Series) (t : Json) : Option Int × Series :=
  match t.toInt with
  | .ok t => s.insertBreak t
  | .error _ => (none, s)

/-! ## Values -/

/-- The last finite value. -/
def lastFinite? (values : List Binary64) : Option Binary64 :=
  values.reverse.find? Binary64.isFinite

/-- The last value that is a finite number, among any values. -/
def lastFiniteOf (values : List Json) : Result (Option Binary64) :=
  go values.reverse
where
  go : List Json → Result (Option Binary64)
    | [] => .ok none
    | j :: rest =>
      match j.number? with
      | none => go rest
      | some n => do
        let x ← n.toReal
        if x.isFinite then return some x else go rest

/-- The values of the last sample. -/
def lastRow? (s : Series) : Option (PerChannel Binary64) :=
  if s.labels.isEmpty then none else some (s.data.map fun xs => xs.getLast?.getD .nan)

/-! ## Stored form -/

/-- The stored form; labels become real numbers. -/
def toStored (s : Series) : Result StoredSeries := do
  return ⟨← s.labels.mapM fun t => Arithmetic.ofInt? t, s.data⟩

/-- The values filled up with gaps, or cut, to a length. -/
def fitLength (n : Nat) (values : List Binary64) : List Binary64 :=
  values.take n ++ List.replicate (n - values.length) .nan

/-- The curves of a stored form; every channel gets as many values as there are labels. -/
def ofStored (s : StoredSeries) : Result Series := do
  let labels ← s.labels.mapM Binary64.truncate
  return ⟨labels, s.data.map (fitLength s.labels.length)⟩

end Series

namespace StoredSeries

def empty : StoredSeries := ⟨[], .replicate []⟩

/-- The name of a channel in the stored form. -/
def fieldName : Channel → String
  | .hashrate1m => "dataData1m"
  | .hashrate10m => "dataData10m"
  | .hashrate1h => "dataData1h"
  | .hashrate1d => "dataData1d"
  | .vregTemp => "dataVregTemp"
  | .asicTemp => "dataAsicTemp"

open Check in
/-- The stored form that a document holds. -/
def check : Json → Checked StoredSeries :=
  object fun o =>
    let channel (c : Channel) := field o (fieldName c) [] (listOf real)
    let schema := if (Fields.lookup "schema" o).isSome then "schema" else "schema_"
    (fun _ labels d1m d10m d1h d1d vreg asic => ⟨labels, d1m, d10m, d1h, d1d, vreg, asic⟩)
      <$> (field o schema 1 integer).map (fun _ => ())
      <*> field o "labels" [] (listOf real)
      <*> channel .hashrate1m <*> channel .hashrate10m <*> channel .hashrate1h
      <*> channel .hashrate1d <*> channel .vregTemp <*> channel .asicTemp

end StoredSeries

end HashrateChart
