/-
Binary64 numbers with exact operations: a finite number is a sign and a whole
count of units of `2^-1074`, and every operation rounds its exact result once.

All undefined numbers are one (`nan`); a zero keeps its sign. Numbers are
compared by `key?`, a signed count in which an infinity stands at `2^1024`,
just outside the finite ones, and an undefined number has none.
-/
import HashrateChart.Fault
import HashrateChart.Magnitude

namespace HashrateChart

/-- A binary64 number. -/
inductive Binary64 where
  | nan
  | infinite (negative : Bool)
  | finite (negative : Bool) (magnitude : Magnitude)
  deriving DecidableEq

namespace Binary64

/-- A magnitude with its sign, in units of `2^-1074`. -/
def signed (negative : Bool) (units : Nat) : Int :=
  if negative then -(units : Int) else units

/-- Where a number stands among the others. -/
def key? : Binary64 → Option Int
  | nan => none
  | infinite s => some (signed s magnitudeLimit)
  | finite s m => some (signed s m.units)

def isNaN : Binary64 → Bool
  | nan => true
  | _ => false

def isFinite : Binary64 → Bool
  | finite _ _ => true
  | _ => false

/-- Compares two numbers; nothing compares with an undefined number. -/
def compareWith (p : Int → Int → Bool) (x y : Binary64) : Bool :=
  match x.key?, y.key? with
  | some a, some b => p a b
  | _, _ => false

def lt : Binary64 → Binary64 → Bool := compareWith fun a b => decide (a < b)

def le : Binary64 → Binary64 → Bool := compareWith fun a b => decide (a ≤ b)

/-- Equality as numbers: the two zeros are equal and `nan` equals nothing. -/
def eq : Binary64 → Binary64 → Bool := compareWith fun a b => decide (a = b)

/-- Whether a number is finite and greater than zero. -/
def isPositive : Binary64 → Bool
  | finite s m => !s && decide (m.units ≠ 0)
  | _ => false

/-- Whether a number is at most an integer. -/
def leInt (x : Binary64) (i : Int) : Bool :=
  match x with
  | nan => false
  | infinite s => s
  | finite s m => decide (signed s m.units ≤ i * unitsPerOne)

/-! ## Rounding -/

/-- The number nearest to `n / d` units of the given sign. -/
def round (negative : Bool) (n d : Nat) : Binary64 :=
  match Magnitude.ofRatio? n d with
  | some m => finite negative m
  | none => infinite negative

/-- The number nearest to the fraction `n / d`. -/
def ratio (n : Int) (d : Nat) : Binary64 :=
  round (decide (n < 0)) (n.natAbs * unitsPerOne) d

def zero : Binary64 := finite false .zero

instance : OfScientific Binary64 where
  ofScientific coefficient negative exponent :=
    if negative then ratio coefficient (10 ^ exponent) else ratio (coefficient * 10 ^ exponent) 1

instance (n : Nat) : OfNat Binary64 n := ⟨ratio n 1⟩

theorem round_units (s : Bool) (m : Magnitude) : round s m.units 1 = finite s m := by
  simp [round, Magnitude.ofRatio?_units]

/-! ## Arithmetic -/

def neg : Binary64 → Binary64
  | nan => nan
  | infinite s => infinite (!s)
  | finite s m => finite (!s) m

def abs : Binary64 → Binary64
  | nan => nan
  | infinite _ => infinite false
  | finite _ m => finite false m

/-- A sum of finite numbers that cancels is a zero, negative only when both parts are. -/
def add : Binary64 → Binary64 → Binary64
  | finite s a, finite t b =>
    let sum := signed s a.units + signed t b.units
    if sum = 0 then finite (s && t) .zero else round (decide (sum < 0)) sum.natAbs 1
  | infinite s, infinite t => if s = t then infinite s else nan
  | infinite s, finite _ _ => infinite s
  | finite _ _, infinite t => infinite t
  | nan, _ => nan
  | _, nan => nan

def sub (x y : Binary64) : Binary64 := add x (neg y)

def mul : Binary64 → Binary64 → Binary64
  | finite s a, finite t b => round (s ^^ t) (a.units * b.units) unitsPerOne
  | infinite s, infinite t => infinite (s ^^ t)
  | infinite s, finite t b => if b.units = 0 then nan else infinite (s ^^ t)
  | finite s a, infinite t => if a.units = 0 then nan else infinite (s ^^ t)
  | nan, _ => nan
  | _, nan => nan

def div : Binary64 → Binary64 → Binary64
  | finite s a, finite t b =>
    if b.units = 0 then (if a.units = 0 then nan else infinite (s ^^ t))
    else round (s ^^ t) (a.units * unitsPerOne) b.units
  | infinite _, infinite _ => nan
  | infinite s, finite t _ => infinite (s ^^ t)
  | finite s _, infinite t => finite (s ^^ t) .zero
  | nan, _ => nan
  | _, nan => nan

instance : Add Binary64 := ⟨add⟩
instance : Sub Binary64 := ⟨sub⟩
instance : Mul Binary64 := ⟨mul⟩
instance : Div Binary64 := ⟨div⟩
instance : Neg Binary64 := ⟨neg⟩
instance : Inhabited Binary64 := ⟨nan⟩

/-! ## Integers -/

/-- The integer that a rule for counts of units gives; only a finite number has one. -/
def toIntBy (rule : Int → Int) : Binary64 → Result Int
  | nan => .error .undefinedNumber
  | infinite _ => .error .overflow
  | finite s m => .ok (rule (signed s m.units))

def floor : Binary64 → Result Int := toIntBy fun k => k.fdiv unitsPerOne

def ceil : Binary64 → Result Int := toIntBy fun k => -((-k).fdiv unitsPerOne)

/-- The integer left when the fraction is dropped. -/
def truncate : Binary64 → Result Int := toIntBy fun k => k.tdiv unitsPerOne

/-- The nearest integer, a half going to the even one. -/
def nearest : Binary64 → Result Int :=
  toIntBy fun k => signed (decide (k < 0)) (roundHalfEven k.natAbs unitsPerOne)

end Binary64

end HashrateChart
