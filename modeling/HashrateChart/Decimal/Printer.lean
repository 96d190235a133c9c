/-
Binary64 numbers as text: 17 significant digits with an exponent, a fixed
number of places, and the shortest text that reads back.
-/
import HashrateChart.Decimal.Rounded

namespace HashrateChart

namespace Decimal

/-- Texts of the numbers that have no digits. -/
def specialText? : Binary64 → Option String
  | .nan => some "nan"
  | .infinite s => some (if s then "-inf" else "inf")
  | .finite _ _ => none

def signText (negative : Bool) : String := if negative then "-" else ""

/-- An exponent with its sign and at least two digits. -/
def exponentText (e : Int) : String :=
  (if e < 0 then "-" else "+") ++ digitText (padLeft 2 (digits e.natAbs))

/-- One digit, a point and sixteen digits, then the exponent; a zero has no sign. -/
def scientific (x : Binary64) : String :=
  match x with
  | .finite s m =>
    if m.units = 0 then "0." ++ digitText (List.replicate 16 0) ++ "e+00"
    else
      let n := significant 17 m
      let ds := digits n.coefficient
      signText s ++ digitText (ds.take 1) ++ "." ++ digitText (ds.drop 1) ++ "e" ++
        exponentText (n.exponent + 16)
  | x => (specialText? x).getD ""

/-- A fixed number of digits after the point; the sign of a zero is kept. -/
def fixed (places : Nat) (x : Binary64) : String :=
  match x with
  | .finite s m =>
    let ds := padLeft (places + 1) (digits (roundHalfEven (m.units * 10 ^ places) unitsPerOne))
    let whole := ds.length - places
    signText s ++ digitText (ds.take whole) ++ "." ++ digitText (ds.drop whole)
  | x => (specialText? x).getD ""

/-- Which texts of numbers a document holds: the least and the greatest power of ten of the
leading digit that are written without an exponent. -/
structure Layout where
  leastPlain : Int
  greatestPlain : Int

/-- Numbers of a stored document: plain from `0.0001` to below `10^16`. -/
def stored : Layout := ⟨-4, 15⟩

/-- The digits of a numeral in plain notation, with at least one digit on each side of the point. -/
def plainText (ds : List Nat) (exponent : Int) : String :=
  if 0 ≤ exponent then digitText (ds ++ List.replicate exponent.toNat 0) ++ ".0"
  else
    let places := (-exponent).toNat
    let ds := padLeft (places + 1) ds
    digitText (ds.take (ds.length - places)) ++ "." ++ digitText (ds.drop (ds.length - places))

/-- The shortest text of a number that reads back as the same number. -/
def shortestText (style : Layout) (x : Binary64) : String :=
  match x with
  | .finite s m =>
    if m.units = 0 then signText s ++ "0.0"
    else
      let n := (shortest m).trim
      let ds := digits n.coefficient
      let lead := n.exponent + (ds.length - 1)
      signText s ++
        if style.leastPlain ≤ lead ∧ lead ≤ style.greatestPlain then plainText ds n.exponent
        else digitText (ds.take 1) ++ (if ds.length = 1 then "" else "." ++ digitText (ds.drop 1))
          ++ "e" ++ exponentText lead
  | x => (specialText? x).getD ""

end Decimal

end HashrateChart
