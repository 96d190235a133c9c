/-
Exact numbers: the rational numbers, with the infinities and the undefined number
beside them.

The rules of axes and curves are stated over any arithmetic. Here they are read
without rounding: on rational numbers every operation gives its exact result, and
with an infinity or the undefined number it gives what it gives for binary64
numbers. The lemmas say what each operation of the interface is on rational
numbers, so that a rule that meets nothing else is a rule about them.
-/
import Mathlib.Data.Rat.Floor
import HashrateChart.Arithmetic

namespace HashrateChart

/-- A number that is never rounded. -/
inductive Exact where
  | gap
  | infinite (negative : Bool)
  | number (value : ℚ)
  deriving DecidableEq

namespace Exact

/-- Where a number stands among the others: below all, among the rational numbers, or above all. -/
def key? : Exact → Option (ℤ × ℚ)
  | gap => none
  | infinite s => some (if s then -1 else 1, 0)
  | number q => some (0, q)

/-- Compares two numbers by where they stand; nothing compares with the undefined number. -/
def compareWith (p : ℤ × ℚ → ℤ × ℚ → Bool) (x y : Exact) : Bool :=
  match x.key?, y.key? with
  | some a, some b => p a b
  | _, _ => false

def neg : Exact → Exact
  | gap => gap
  | infinite s => infinite (!s)
  | number q => number (-q)

def add : Exact → Exact → Exact
  | number p, number q => number (p + q)
  | infinite s, infinite t => if s = t then infinite s else gap
  | infinite s, number _ => infinite s
  | number _, infinite t => infinite t
  | _, _ => gap

def mul : Exact → Exact → Exact
  | number p, number q => number (p * q)
  | infinite s, infinite t => infinite (s ^^ t)
  | infinite s, number q => if q = 0 then gap else infinite (s ^^ decide (q < 0))
  | number p, infinite t => if p = 0 then gap else infinite (decide (p < 0) ^^ t)
  | _, _ => gap

/-- A quotient by zero counts zero as positive. -/
def div : Exact → Exact → Exact
  | number p, number q =>
    if q = 0 then (if p = 0 then gap else infinite (decide (p < 0))) else number (p / q)
  | infinite s, number q => infinite (s ^^ decide (q < 0))
  | number _, infinite _ => number 0
  | _, _ => gap

/-- The integer that a rule for rational numbers gives; only a rational number has one. -/
def toIntBy (rule : ℚ → ℤ) : Exact → Result ℤ
  | gap => .error .undefinedNumber
  | infinite _ => .error .overflow
  | number q => .ok (rule q)

/-- The nearest integer, a half going to the even one. -/
def roundHalfEven (q : ℚ) : ℤ :=
  let n := ⌊q⌋
  if q - n < 1 / 2 then n else if q - n = 1 / 2 then n + n % 2 else n + 1

instance : Arithmetic Exact where
  add := add
  sub x y := add x (neg y)
  mul := mul
  div := div
  ratio n d := number (n / d)
  gap := gap
  isGap x := decide (x = gap)
  isFinite
    | number _ => true
    | _ => false
  lt := compareWith fun a b => decide (a.1 < b.1 ∨ a.1 = b.1 ∧ a.2 < b.2)
  le := compareWith fun a b => decide (a.1 < b.1 ∨ a.1 = b.1 ∧ a.2 ≤ b.2)
  eq := compareWith fun a b => decide (a = b)
  leInt
    | number q, i => decide (q ≤ i)
    | infinite s, _ => s
    | gap, _ => false
  floor := toIntBy Int.floor
  ceil := toIntBy Int.ceil
  nearest := toIntBy roundHalfEven

open Arithmetic

variable {q : ℚ} {x : Exact}

/-! ## Operations on rational numbers -/

@[simp] theorem number_add (p q : ℚ) : number p + number q = number (p + q) := rfl

@[simp] theorem number_sub (p q : ℚ) : number p - number q = number (p - q) := by
  rw [sub_eq_add_neg]
  rfl

@[simp] theorem number_mul (p q : ℚ) : number p * number q = number (p * q) := rfl

theorem number_div (p : ℚ) (h : q ≠ 0) : number p / number q = number (p / q) := if_neg h

@[simp] theorem ratio_eq (n : ℤ) (d : ℕ) : (ratio n d : Exact) = number (n / d) := rfl

@[simp] theorem whole_eq (i : ℤ) : (whole i : Exact) = number i := by
  rw [whole, ratio_eq, Nat.cast_one, div_one]

@[simp] theorem zero_eq : (zero : Exact) = number 0 := by
  rw [zero, whole_eq, Int.cast_zero]

@[simp] theorem isFinite_number (q : ℚ) : isFinite (number q) = true := rfl

@[simp] theorem isGap_number (q : ℚ) : isGap (number q) = false := rfl

@[simp] theorem lt_number (p q : ℚ) : lt (number p) (number q) = decide (p < q) := by
  show decide ((0 : ℤ) < 0 ∨ (0 : ℤ) = 0 ∧ p < q) = decide (p < q)
  simp

@[simp] theorem le_number (p q : ℚ) : le (number p) (number q) = decide (p ≤ q) := by
  show decide ((0 : ℤ) < 0 ∨ (0 : ℤ) = 0 ∧ p ≤ q) = decide (p ≤ q)
  simp

@[simp] theorem eq_number (p q : ℚ) : eq (number p) (number q) = decide (p = q) := by
  show decide (((0 : ℤ), p) = (0, q)) = decide (p = q)
  simp

@[simp] theorem leInt_number (q : ℚ) (i : ℤ) : leInt (number q) i = decide (q ≤ i) := rfl

@[simp] theorem floor_number (q : ℚ) : floor (number q) = .ok ⌊q⌋ := rfl

@[simp] theorem ceil_number (q : ℚ) : ceil (number q) = .ok ⌈q⌉ := rfl

@[simp] theorem larger_number (p q : ℚ) : larger (number p) (number q) = number (max p q) := by
  simp only [larger, lt_number, decide_eq_true_eq]
  split
  · next h => rw [max_eq_right h.le]
  · next h => rw [max_eq_left (not_lt.mp h)]

@[simp] theorem smaller_number (p q : ℚ) : smaller (number p) (number q) = number (min p q) := by
  simp only [smaller, lt_number, decide_eq_true_eq]
  split
  · next h => rw [min_eq_right h.le]
  · next h => rw [min_eq_left (not_lt.mp h)]

@[simp] theorem abs_number (q : ℚ) : Arithmetic.abs (number q) = number |q| := by
  simp only [Arithmetic.abs, zero_eq, lt_number, decide_eq_true_eq]
  split
  · next h => rw [number_sub, zero_sub, abs_of_neg h]
  · next h => rw [abs_of_nonneg (not_lt.mp h)]

/-- Every integer is an exact number. -/
@[simp] theorem ofInt?_eq (i : ℤ) : (ofInt? i : Result Exact) = .ok (number i) := by
  rw [ofInt?, whole_eq]
  rfl

/-- The quotient of an integer by a positive one. -/
theorem quotient_eq (n : ℤ) {d : ℤ} (h : 0 < d) : (quotient n d : Result Exact) = .ok (number (n / d)) := by
  have hd : (d.natAbs : ℚ) = d := by rw [Nat.cast_natAbs, abs_of_pos h]
  rw [quotient, if_neg h.ne', Int.sign_eq_one_of_pos h, mul_one, ratio_eq, hd]
  rfl

/-! ## Rounding -/

@[simp] theorem nearest_number (q : ℚ) : nearest (number q) = .ok (roundHalfEven q) := rfl

theorem floor_le_roundHalfEven (q : ℚ) : ⌊q⌋ ≤ roundHalfEven q := by
  unfold roundHalfEven
  dsimp only
  split_ifs <;> omega

theorem roundHalfEven_le (q : ℚ) : roundHalfEven q ≤ ⌊q⌋ + 1 := by
  unfold roundHalfEven
  dsimp only
  split_ifs <;> omega

theorem roundHalfEven_mono {p q : ℚ} (h : p ≤ q) : roundHalfEven p ≤ roundHalfEven q := by
  rcases (Int.floor_mono h).lt_or_eq with hlt | heq
  · calc roundHalfEven p ≤ ⌊p⌋ + 1 := roundHalfEven_le p
      _ ≤ ⌊q⌋ := hlt
      _ ≤ roundHalfEven q := floor_le_roundHalfEven q
  · -- one whole part: what is left of the larger number is rounded up first
    have hrest : p - ⌊q⌋ ≤ q - ⌊q⌋ := sub_le_sub_right h _
    unfold roundHalfEven
    rw [heq]
    dsimp only
    split_ifs <;> grind

/-! ## Finite numbers -/

/-- The rational number that a finite number is. -/
def value? : Exact → Option ℚ
  | number q => some q
  | _ => none

theorem eq_number_of_value (h : x.value? = some q) : x = number q := by
  cases x <;> cases h
  rfl

theorem exists_number (h : isFinite x = true) : ∃ q, x = number q := by
  cases x with
  | number q => exact ⟨q, rfl⟩
  | gap | infinite s => cases h

theorem isFinite_of_no_value (h : x.value? = none) : isFinite x = false := by
  cases x with
  | number q => cases h
  | gap | infinite s => rfl

theorem filter_isFinite (xs : List Exact) : xs.filter isFinite = (xs.filterMap value?).map number := by
  induction xs with
  | nil => rfl
  | cons x xs ih =>
    cases hx : x.value? with
    | none =>
      rw [List.filterMap_cons_none hx, List.filter_cons_of_neg (by rw [isFinite_of_no_value hx]; simp), ih]
    | some q =>
      obtain rfl := eq_number_of_value hx
      rw [List.filterMap_cons_some hx, List.filter_cons_of_pos (isFinite_number q), List.map_cons, ih]

end Exact

end HashrateChart
