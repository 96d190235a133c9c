/-
The arithmetic in which axes and curves are computed, as an interface: the
operations on numbers that a rule may use, whatever the numbers are.

Charts are computed with binary64 numbers. The rules are stated over the
interface so that the same definitions can be read over exact numbers.
-/
import HashrateChart.Binary64

namespace HashrateChart

/-- Numbers with gaps: arithmetic, comparison and rounding to integers. -/
class Arithmetic (α : Type) extends Add α, Sub α, Mul α, Div α where
  /-- The number nearest to the fraction `n / d`. -/
  ratio : Int → Nat → α
  /-- The undefined number, which stands for a gap in a series. -/
  gap : α
  isGap : α → Bool
  isFinite : α → Bool
  lt : α → α → Bool
  le : α → α → Bool
  eq : α → α → Bool
  /-- Whether the number is at most an integer, compared without rounding. -/
  leInt : α → Int → Bool
  floor : α → Result Int
  ceil : α → Result Int
  /-- The nearest integer, a half going to the even one. -/
  nearest : α → Result Int

instance : Arithmetic Binary64 where
  ratio := Binary64.ratio
  gap := .nan
  isGap := Binary64.isNaN
  isFinite := Binary64.isFinite
  lt := Binary64.lt
  le := Binary64.le
  eq := Binary64.eq
  leInt := Binary64.leInt
  floor := Binary64.floor
  ceil := Binary64.ceil
  nearest := Binary64.nearest

namespace Arithmetic

variable {α : Type} [Arithmetic α]

/-- A whole constant. -/
def whole (i : Int) : α := ratio i 1

def zero : α := whole 0

/-- An integer as a number, when it is in range. -/
def ofInt? (i : Int) : Result α :=
  let x : α := whole i
  if isFinite x then .ok x else .error .overflow

/-- The quotient of two integers, rounded once. -/
def quotient (n d : Int) : Result α :=
  if d = 0 then .error .zeroDivision
  else
    let x : α := ratio (n * d.sign) d.natAbs
    if isFinite x then .ok x else .error .overflow

/-- The larger of two, the first unless the second exceeds it. -/
def larger (a b : α) : α := if lt a b then b else a

/-- The smaller of two, the first unless the second is below it. -/
def smaller (a b : α) : α := if lt b a then b else a

def abs (a : α) : α := if lt a zero then zero - a else a

/-! ## Values that are read late -/

/-- A value that is read where it is used, and may turn out to be none of its kind. -/
abbrev Raw (α : Type) := Result α

/-- Reads values; the first one that is none ends it. -/
def readAll {β : Type} (values : List (Raw β)) : Result (List β) := values.mapM id

end Arithmetic

end HashrateChart
