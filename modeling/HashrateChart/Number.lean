/-
A number as documents hold it: an integer of any size, or a binary64 number.

The two kinds compare by value, without a conversion that could round. Turning
an integer into a binary64 number fails when it is out of range.
-/
import HashrateChart.Arithmetic

namespace HashrateChart

inductive Number where
  | int (value : Int)
  | real (value : Binary64)
  deriving DecidableEq

namespace Number

/-- Two integers that stand to each other as the two numbers do. -/
def keys? : Number → Number → Option (Int × Int)
  | int i, int j => some (i, j)
  | int i, real (.finite s m) => some (i * unitsPerOne, Binary64.signed s m.units)
  | int _, real (.infinite s) => some (0, Binary64.signed s 1)
  | int _, real .nan => none
  | real (.finite s m), int j => some (Binary64.signed s m.units, j * unitsPerOne)
  | real (.infinite s), int _ => some (Binary64.signed s 1, 0)
  | real .nan, int _ => none
  | real x, real y => do return (← x.key?, ← y.key?)

def lt (a b : Number) : Bool :=
  match keys? a b with
  | some (i, j) => decide (i < j)
  | none => false

def le (a b : Number) : Bool :=
  match keys? a b with
  | some (i, j) => decide (i ≤ j)
  | none => false

def eq (a b : Number) : Bool :=
  match keys? a b with
  | some (i, j) => decide (i = j)
  | none => false

/-- The larger of two, the first unless the second exceeds it. -/
def max (a b : Number) : Number := if a.lt b then b else a

def zero : Number := int 0

def isUndefined : Number → Bool
  | int _ => false
  | real x => x.isNaN

/-- Whether a number is finite; an integer of any size is. -/
def isBounded : Number → Bool
  | int _ => true
  | real x => x.isFinite

def isPositive (a : Number) : Bool := zero.lt a

def isZero (a : Number) : Bool := a.eq zero

def toReal : Number → Result Binary64
  | int i => Arithmetic.ofInt? i
  | real x => .ok x

/-- Whether the binary64 number nearest to this one is finite. -/
def isFinite : Number → Result Bool
  | int i => do let _ : Binary64 ← Arithmetic.ofInt? i; return true
  | real x => .ok x.isFinite

/-- The integer left when the fraction is dropped. -/
def truncate : Number → Result Int
  | int i => .ok i
  | real x => x.truncate

/-- The nearest integer, a half going to the even one. -/
def nearest : Number → Result Int
  | int i => .ok i
  | real x => x.nearest

/-- The difference of two numbers; that of integers is an integer. -/
def sub : Number → Number → Result Number
  | int i, int j => .ok (int (i - j))
  | a, b => do return real ((← a.toReal) - (← b.toReal))

/-- The quotient of two numbers; that of integers is rounded once. -/
def div : Number → Number → Result Binary64
  | int i, int j => Arithmetic.quotient i j
  | a, b => do
    let a ← a.toReal
    let b ← b.toReal
    if b.eq 0 then throw .zeroDivision
    return a / b

/-- The smaller of two, the first unless the second is below it. -/
def min (a b : Number) : Number := if b.lt a then b else a

/-- The number less an integer; integers stay integers. -/
def subInt : Number → Int → Result Number
  | int i, j => .ok (int (i - j))
  | real x, j => do return real (x - (← Arithmetic.ofInt? j))

end Number

end HashrateChart
