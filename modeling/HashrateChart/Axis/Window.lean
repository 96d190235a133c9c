/-
The visible window: which stretch of time it spans, which samples fall into it,
and the extremes of their values.

Positions are found by binary search over the labels. An undefined label
stands after every number. Of the series nothing is read but what the window
shows.
-/
import HashrateChart.Config

namespace HashrateChart

open Arithmetic

variable {α : Type} [Arithmetic α]

namespace Axis

/-- A series that may be missing. -/
abbrev SeriesLike (α : Type) := Option (List (Raw α))

/-- The whole length of a window that is given as any value, never negative. -/
def windowLength (window : Json) : Result Int :=
  match window.toReal with
  | .error .badNumeral | .error .wrongType => .ok 0
  | .error e => .error e
  | .ok x =>
    match x.nearest with
    | .error .undefinedNumber => .ok 0
    | .error e => .error e
    | .ok w => .ok (max 0 w)

/-- A window of fixed length that ends now, or at the last label when that is later. -/
def xWindow (last : Option (Raw Binary64)) (window : Json) (now : Raw Number) :
    Result (Number × Number) := do
  let length ← windowLength window
  let label ← last.mapM id
  let now ← now
  let xMax :=
    match label with
    | none => now
    | some x => if x.isFinite then now.max (.real x) else now
  return (← xMax.subInt length, xMax)

/-! ## Positions -/

/-- Whether `a` stands before `b` among labels. -/
def before (a b : α) : Bool := lt a b || (isGap b && !isGap a)

/-- Something that numbers are compared with: a number, or an integer of any size, which is not
rounded for it. -/
inductive Edge (α : Type) where
  | number (x : α)
  | exact (i : Int)
  deriving DecidableEq

namespace Edge

/-- An integer as an end of a window; one that 64 bits hold is rounded to a number. -/
def ofInt (i : Int) : Edge α :=
  if -2 ^ 63 ≤ i ∧ i < 2 ^ 64 then number (whole i) else exact i

def ofNumber : Number → Edge Binary64
  | .int i => ofInt i
  | .real x => number x

/-- A number of a document as it is, without rounding. -/
def ofExact : Number → Edge Binary64
  | .int i => exact i
  | .real x => number x

/-- The nearest number, when it is in range. -/
def toNumber : Edge α → Result α
  | number x => .ok x
  | exact i => ofInt? i

/-- Whether a number is less than the edge. -/
def exceeds (e : Edge α) (x : α) : Bool :=
  match e with
  | number y => lt x y
  | exact i => !isGap x && !leInt (zero - x) (-i)

/-- Whether a number is greater than the edge. -/
def isExceededBy (e : Edge α) (x : α) : Bool :=
  match e with
  | number y => lt y x
  | exact i => !isGap x && !leInt x i

/-- Whether a label stands before the edge. -/
def isAfter (e : Edge α) (label : α) : Bool :=
  match e with
  | number x => before label x
  | e => e.exceeds label

/-- Whether a label stands after the edge. -/
def isBefore (e : Edge α) (label : α) : Bool :=
  match e with
  | number x => before x label
  | e => e.isExceededBy label

end Edge

/-- The first position between two where a test that holds at the front fails. -/
def bisect (goesRight : α → Bool) (labels : Array α) (lo hi : Nat) : Nat :=
  if lo < hi then
    let mid := lo + (hi - lo) / 2
    match labels[mid]? with
    | some a => if goesRight a then bisect goesRight labels (mid + 1) hi
        else bisect goesRight labels lo mid
    | none => lo
  else lo
termination_by hi - lo
decreasing_by all_goals omega

/-- The positions of the labels from `xMin` to `xMax`, as first and one past the last. -/
def indicesBetween (labels : List α) (xMin xMax : Edge α) : Nat × Nat :=
  let sorted := labels.toArray
  let first := bisect xMin.isAfter sorted 0 sorted.size
  let last := bisect (fun a => !xMax.isBefore a) sorted 0 sorted.size
  (first, max first last)

/-- As `indicesBetween`, for labels and ends that are read when there are labels. -/
def windowIndices (labels : List (Raw α)) (xMin xMax : Raw (Edge α)) : Result (Nat × Nat) := do
  if labels.isEmpty then return (0, 0)
  return indicesBetween (← readAll labels) (← xMin) (← xMax)

/-- The finite values of some series at the positions of a window. -/
def windowed (series : List (SeriesLike α)) (range : Nat × Nat) : Result (List α) := do
  let parts ← (series.filterMap id).mapM fun values =>
    readAll ((values.take range.2).drop range.1)
  return parts.flatten.filter isFinite

/-! ## Extremes -/

/-- The least and the greatest value. -/
def extremes? : List α → Option (α × α)
  | [] => none
  | v :: rest =>
    some (rest.foldl (fun (lo, hi) x => (smaller lo x, larger hi x)) (v, v))

/-- How many values are left out at either end: one in fifty. -/
def trimCount (n : Nat) : Result Int := floor (whole n * (ratio 2 100 : α))

/-- The least and the greatest value once the outer ones are left out. -/
def robustExtremes? (values : List α) : Result (Option (α × α)) := do
  if values.isEmpty then return none
  let sorted := values.mergeSort le
  let n := sorted.length
  let trim := (← trimCount (α := α) n).toNat
  return some (sorted.getD (min (n - 1) trim) zero, sorted.getD (n - 1 - trim) zero)

end Axis

end HashrateChart
