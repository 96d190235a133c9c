/-
Values of documents: what a stored text, a device's answer or a configuration
holds before anything is known about its shape.

An object keeps its fields in the order in which their keys first came; a key
that comes again replaces the value.
-/
import HashrateChart.Fields
import HashrateChart.Number
import HashrateChart.Decimal.Reader

namespace HashrateChart

inductive Json where
  | null
  | bool (value : Bool)
  | number (value : Number)
  | text (value : String)
  | list (items : List Json)
  | object (fields : List (String × Json))

namespace Json

instance : Inhabited Json := ⟨null⟩

def int (i : Int) : Json := number (.int i)

def real (x : Binary64) : Json := number (.real x)

/-! ## Fields -/

/-- The value under a key of an object; other values have none. -/
def get? (j : Json) (key : String) : Option Json :=
  match j with
  | object fields => Fields.lookup key fields
  | _ => none

/-- The value under a key, or null. -/
def get (j : Json) (key : String) : Json := (j.get? key).getD null

/-! ## Scalars -/

def isNull : Json → Bool
  | null => true
  | _ => false

def isObject : Json → Bool
  | object _ => true
  | _ => false

/-- A number, or a truth value as one or zero. -/
def number? : Json → Option Number
  | number n => some n
  | bool b => some (.int (if b then 1 else 0))
  | _ => none

/-- Whether a value counts as true: null, false, zero and the empty ones do not. -/
def truthy : Json → Bool
  | null => false
  | bool b => b
  | number n => !n.isZero
  | text s => s ≠ ""
  | list xs => !xs.isEmpty
  | object fields => !fields.isEmpty

/-- The real number that a value stands for; a text is read. -/
def toReal : Json → Result Binary64
  | text s =>
    match Decimal.readReal? s with
    | some x => .ok x
    | none => .error .badNumeral
  | j =>
    match j.number? with
    | some n => n.toReal
    | none => .error .wrongType

/-- The integer that a value stands for, the fraction dropped; a text is read. -/
def toInt : Json → Result Int
  | text s =>
    match Decimal.readInt? s with
    | some i => .ok i
    | none => .error .badNumeral
  | j =>
    match j.number? with
    | some n => n.truncate
    | none => .error .wrongType

/-- A value that is used as a number without being read. -/
def asNumber (j : Json) : Result Number :=
  match j.number? with
  | some n => .ok n
  | none => .error .wrongType

/-- The reading of a sensor: a number, or a text that is read as one. Null, truth values and
everything that is no number are gaps. -/
def reading : Json → Result Binary64
  | null | bool _ => .ok .nan
  | j =>
    match j.toReal with
    | .error .badNumeral | .error .wrongType => .ok .nan
    | r => r

end Json

end HashrateChart
