/-
A magnitude in decimal: the value of a numeral, and the nearest numeral with a
given number of significant digits or of places.

`shortest` takes the fewest significant digits that read back, and of two such
numerals the nearer; `magnitude?_shortest` says that the result reads back.
-/
import HashrateChart.Binary64
import HashrateChart.Decimal.Digits

namespace HashrateChart

namespace Decimal

/-- A positive decimal number, `coefficient * 10^exponent`. -/
structure Numeral where
  coefficient : Nat
  exponent : Int
  deriving DecidableEq, Repr

/-- The magnitude nearest to a numeral, or nothing when it is out of range. -/
def Numeral.magnitude? (n : Numeral) : Option Magnitude :=
  if 0 ≤ n.exponent then
    Magnitude.ofRatio? (n.coefficient * 10 ^ n.exponent.toNat * unitsPerOne) 1
  else
    Magnitude.ofRatio? (n.coefficient * unitsPerOne) (10 ^ (-n.exponent).toNat)

/-- The binary64 number nearest to a signed numeral. A numeral with a leading digit above
`10^400` or below `10^-400` is out of range or zero whatever its digits are. -/
def Numeral.toBinary64 (negative : Bool) (n : Numeral) : Binary64 :=
  let top := n.exponent + digitCount n.coefficient
  if n.coefficient = 0 ∨ top < -400 then .finite negative .zero
  else if 400 < top then .infinite negative
  else
    match n.magnitude? with
    | some m => .finite negative m
    | none => .infinite negative

/-- The power of ten of the leading digit of a positive magnitude. -/
def leadingExponent (m : Magnitude) : Int :=
  if unitsPerOne ≤ m.units then digitCount (m.units / unitsPerOne) - 1
  else -(digitCount ((unitsPerOne - 1) / m.units) : Int)

/-- The coefficient nearest to a magnitude on the grid of multiples of `10^exponent`, and the
neighbour of it on the other side. -/
def gridNeighbours (m : Magnitude) (exponent : Int) : Nat × Nat :=
  let n := if 0 ≤ exponent then m.units else m.units * 10 ^ (-exponent).toNat
  let d := if 0 ≤ exponent then unitsPerOne * 10 ^ exponent.toNat else unitsPerOne
  let q := n / d
  let near := roundHalfEven n d
  (near, if near = q then q + 1 else q)

/-- The nearest numeral with `count` significant digits. -/
def significant (count : Nat) (m : Magnitude) : Numeral :=
  let exponent := leadingExponent m - (count - 1)
  let near := (gridNeighbours m exponent).1
  if near = 10 ^ count then ⟨10 ^ (count - 1), exponent + 1⟩ else ⟨near, exponent⟩

/-- The numerals with `count` significant digits next to a magnitude, the nearer first. -/
def candidates (m : Magnitude) (count : Nat) : List Numeral :=
  let exponent := leadingExponent m - (count - 1)
  let (near, other) := gridNeighbours m exponent
  [⟨near, exponent⟩, ⟨other, exponent⟩]

/-- All digits of a magnitude. -/
def exact (m : Magnitude) : Numeral := ⟨m.units * 5 ^ unitPlaces, -unitPlaces⟩

theorem magnitude?_exact (m : Magnitude) : (exact m).magnitude? = some m := by
  have hten (n : Nat) : m.units * 5 ^ n * 2 ^ n = m.units * 10 ^ n := by
    rw [Nat.mul_assoc, ← Nat.mul_pow]
  have hmag : (exact m).magnitude? =
      Magnitude.ofRatio? (m.units * 10 ^ unitPlaces) (1 * 10 ^ unitPlaces) := by
    unfold exact Numeral.magnitude? unitsPerOne
    dsimp only
    rw [twoPow_eq]
    split
    · next h =>
      have h0 : unitPlaces = 0 := by omega
      rw [h0]; simp
    · rw [hten, Nat.one_mul, Int.neg_neg, Int.toNat_natCast]
  rw [hmag, Magnitude.ofRatio?_mul_mul _ _ (Nat.pow_pos (by decide)), Magnitude.ofRatio?_units]

/-- The shortest numeral that reads back as a positive magnitude. -/
def shortest (m : Magnitude) : Numeral :=
  (((List.range 17).flatMap fun i => candidates m (i + 1)).find?
    fun n => n.magnitude? = some m).getD (exact m)

theorem magnitude?_shortest (m : Magnitude) : (shortest m).magnitude? = some m := by
  unfold shortest
  cases h : ((List.range 17).flatMap fun i => candidates m (i + 1)).find?
      fun n => n.magnitude? = some m with
  | none => exact magnitude?_exact m
  | some n => simpa using List.find?_some h

/-- A numeral without zeros at the end. -/
def Numeral.trim (n : Numeral) : Numeral :=
  if h : n.coefficient = 0 then ⟨0, 0⟩
  else if n.coefficient % 10 = 0 then Numeral.trim ⟨n.coefficient / 10, n.exponent + 1⟩
  else n
termination_by n.coefficient
decreasing_by exact Nat.div_lt_self (Nat.pos_of_ne_zero h) (by decide)

end Decimal

end HashrateChart
