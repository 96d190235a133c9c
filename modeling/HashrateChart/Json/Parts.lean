/-
Values that are used as rows of others.

Gone through from the front, a list gives its items, a text its places and an
object its keys. Looked up by position, an object has nothing, although it counts
as long as it has keys. Where a row of numbers is wanted, a text is a number that
cannot be read, and what has no length at all is of a wrong type wherever one looks.
-/
import HashrateChart.Json
import HashrateChart.Text.Half

namespace HashrateChart

namespace Json

/-- What a value gives when it is gone through. -/
def parts : Json → Result (List Json)
  | list xs => .ok xs
  | text s => .ok ((Text.places s).map text)
  | object fields => .ok (fields.map fun (key, _) => text key)
  | _ => .error .wrongType

/-- What a value has under each of its positions. -/
def slots : Json → Result (List (Result Json))
  | list xs => .ok (xs.map .ok)
  | text s => .ok ((Text.places s).map fun p => .ok (text p))
  | object fields => .ok (fields.map fun _ => .error .noSuchKey)
  | _ => .error .wrongType

/-- The truth values under the positions of a value. -/
def flags (j : Json) : Result (List Bool) := do
  (← j.slots).mapM fun slot => do return (← slot).truthy

/-- An item of a row of numbers: null is a gap, and a list is no number. -/
def gapOrReal : Json → Result Binary64
  | null => .ok .nan
  | list _ => .error .badNumeral
  | j => j.toReal

/-- The numbers of a row. -/
def row : Json → List (Result Binary64)
  | list xs => xs.map gapOrReal
  | text s => (Text.places s).map fun _ => .error .badNumeral
  | object fields => fields.map fun _ => .error .wrongType
  | _ => List.replicate 3 (.error .wrongType)

/-- The numbers of a row that may be missing: what counts as false is an empty one. -/
def rowOrNone : Json → List (Result Binary64)
  | number n => if n.isZero then [] else [.error .badNumeral]
  | bool b => if b then [.error .badNumeral] else []
  | null => []
  | j => j.row

/-- The number under the last position, when what counts as true is asked for it. -/
def last? (j : Json) : Option (Result Binary64) :=
  if !j.truthy then none
  else
    match j.slots with
    | .ok slots => slots.getLast?.map fun slot => slot.bind toReal
    | .error e => some (.error e)

end Json

end HashrateChart
