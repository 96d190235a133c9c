/-
Arithmetic keeps the order of numbers.

The exact result of an operation is rounded once, and rounding keeps the order. So a difference
(`sub_le`), a product (`mul_le`) and a quotient (`div_le`) with one and the same number keep it too, and
an operation takes the numbers between two ends to those between its results at the ends (`Carries`):
when these are finite, so is all between them.
-/
import HashrateChart.Proofs.Binary64.Order

namespace HashrateChart

namespace Binary64

open Arithmetic (whole)
open Magnitude (rounded rounded_mono rounded_zero)

variable {x y z : Binary64} {m : Magnitude}

theorem zero_eq : (0 : Binary64) = zero := by decide +kernel

/-- A finite number above zero. -/
theorem exists_units_of_pos (hx : x.isFinite = true) (hpos : (0 : Binary64).lt x = true) :
    ∃ m : Magnitude, x = .finite false m ∧ m.units ≠ 0 := by
  cases x with
  | finite s m =>
    obtain rfl := not_negative_of_lt hpos
    obtain ⟨k, l, hk, hl, hlt⟩ := exists_key?_of_compareWith hpos
    cases key?_zero.symm.trans hk
    cases hl
    have hunits : (0 : Int) < m.units := of_decide_eq_true hlt
    exact ⟨m, rfl, by omega⟩
  | _ => cases hx

/-! ## Differences -/

/-- A sum of finite numbers is the number nearest to the sum of their counts. -/
theorem key?_add (s t : Bool) (a b : Magnitude) :
    (finite s a + finite t b).key? = some (nearestKey (signed s a.units + signed t b.units)) := by
  show (if signed s a.units + signed t b.units = 0 then finite (s && t) .zero
    else round (decide (signed s a.units + signed t b.units < 0)) (signed s a.units + signed t b.units).natAbs 1
      : Binary64).key? = _
  split
  · next hzero =>
    have hsame : nearestKey (signed (s && t) Magnitude.zero.units) = signed (s && t) Magnitude.zero.units :=
      nearestKey_units _ .zero
    have hnone : signed (s && t) Magnitude.zero.units = 0 := by cases s <;> cases t <;> rfl
    rw [hnone] at hsame
    rw [hzero, hsame, ← hnone]
    rfl
  · rw [key?_round, nearestKey]

theorem sub_le (h : x.le y = true) (hx : x.isFinite = true) (hy : y.isFinite = true) (hz : z.isFinite = true) :
    (x - z).le (y - z) = true := by
  cases x with
  | finite s a =>
    cases y with
    | finite t b =>
      cases z with
      | finite u c =>
        have hkeys : signed s a.units ≤ signed t b.units := of_decide_eq_true h
        exact le_of_key? (key?_add s (!u) a c) (key?_add t (!u) b c)
          (nearestKey_mono (Int.add_le_add_right hkeys _))
      | _ => cases hz
    | _ => cases hy
  | _ => cases hx

theorem sub_self (h : x.isFinite = true) : x - x = zero := by
  cases x with
  | finite s m =>
    have hsum : signed s m.units + signed (!s) m.units = 0 := by
      rw [signed_not]
      omega
    show (if signed s m.units + signed (!s) m.units = 0 then finite (s && !s) .zero else _) = _
    rw [if_pos hsum, Bool.and_not_self]
    rfl
  | _ => cases h

/-! ## Products and quotients -/

/-- Where the number nearest to `k * n / d` units stands. -/
def scaledKey (n d : Nat) (k : Int) : Int :=
  signed (decide (k < 0)) (min (rounded (k.natAbs * n) d) magnitudeLimit)

theorem scaledKey_mono (n d : Nat) {k l : Int} (h : k ≤ l) : scaledKey n d k ≤ scaledKey n d l := by
  have hmono {a b : Nat} (hab : a ≤ b) :
      min (rounded (a * n) d) magnitudeLimit ≤ min (rounded (b * n) d) magnitudeLimit := by
    have hle : rounded (a * n) d ≤ rounded (b * n) d := rounded_mono (Nat.mul_le_mul_right n hab)
    omega
  exact signed_mono hmono h

theorem key?_round_mul (s : Bool) (u n d : Nat) :
    (round s (u * n) d).key? = some (scaledKey n d (signed s u)) := by
  have hsign : signed s (min (rounded (u * n) d) magnitudeLimit) = scaledKey n d (signed s u) := by
    rw [scaledKey, natAbs_signed]
    rcases Nat.eq_zero_or_pos u with rfl | hpos
    · rw [Nat.zero_mul, rounded_zero, Nat.zero_min]
      cases s <;> rfl
    · have hneg : decide (signed s u < 0) = s := by
        cases s with
        | false => exact decide_eq_false (Int.not_lt.mpr (Int.natCast_nonneg u))
        | true => exact decide_eq_true (Int.neg_neg_of_pos (by exact_mod_cast hpos))
      rw [hneg]
  rw [key?_round, hsign]

/-- What multiplies the count of a finite number by one fraction keeps the order. -/
theorem le_of_round_mul {f : Binary64 → Binary64} {n d : Nat}
    (hf : ∀ s a, f (finite s a) = round s (a.units * n) d) (h : x.le y = true) (hx : x.isFinite = true)
    (hy : y.isFinite = true) : (f x).le (f y) = true := by
  cases x with
  | finite s a =>
    cases y with
    | finite t b =>
      rw [hf, hf]
      exact le_of_key? (key?_round_mul s _ n d) (key?_round_mul t _ n d) (scaledKey_mono n d (of_decide_eq_true h))
    | _ => cases hy
  | _ => cases hx

theorem mul_finite (s : Bool) (a m : Magnitude) :
    finite s a * finite false m = round s (a.units * m.units) unitsPerOne := by
  show round (s ^^ false) _ _ = _
  rw [Bool.xor_false]

theorem div_finite (s : Bool) (a : Magnitude) (hm : m.units ≠ 0) :
    finite s a / finite false m = round s (a.units * unitsPerOne) m.units := by
  show (if m.units = 0 then _ else round (s ^^ false) _ _) = _
  rw [if_neg hm, Bool.xor_false]

theorem mul_le (h : x.le y = true) (hx : x.isFinite = true) (hy : y.isFinite = true) :
    (x * finite false m).le (y * finite false m) = true :=
  le_of_round_mul (f := (· * finite false m)) (fun s a => mul_finite s a m) h hx hy

theorem div_le (hm : m.units ≠ 0) (h : x.le y = true) (hx : x.isFinite = true) (hy : y.isFinite = true) :
    (x / finite false m).le (y / finite false m) = true :=
  le_of_round_mul (f := (· / finite false m)) (fun s a => div_finite s a hm) h hx hy

theorem zero_div (hm : m.units ≠ 0) : zero / finite false m = zero := by
  rw [zero, div_finite false .zero hm]
  show round false (0 * unitsPerOne) m.units = _
  rw [Nat.zero_mul, round, Magnitude.ofRatio?_zero]

theorem div_self (hm : m.units ≠ 0) : finite false m / finite false m = 1 := by
  have hone : (1 : Binary64) = round false (1 * unitsPerOne) 1 := rfl
  have hcross : m.units * unitsPerOne * 1 = 1 * unitsPerOne * m.units := by
    rw [Nat.mul_one, Nat.one_mul, Nat.mul_comm]
  rw [div_finite false m hm, hone, round, round,
    Magnitude.ofRatio?_of_cross (Nat.pos_of_ne_zero hm) Nat.one_pos hcross]

/-! ## Whole factors and whole parts -/

/-- The product of an integer and a number is the multiple of its units. -/
theorem whole_mul {k : Nat} (hk : k ≤ 2 ^ 53) (s : Bool) (m : Magnitude) :
    (whole (k : Int) : Binary64) * finite s m = round s (k * m.units) 1 := by
  have hexact : IsExact (k : Int) := hk
  obtain ⟨a, ha, hunits⟩ := whole_of_isExact hexact
  have hneg : decide ((k : Int) < 0) = false := decide_eq_false (by omega)
  have hcross : a.units * m.units * 1 = k * m.units * unitsPerOne := by
    rw [hunits, Int.natAbs_natCast, Nat.mul_one, Nat.mul_right_comm]
  rw [ha, hneg]
  show round (false ^^ s) (a.units * m.units) unitsPerOne = _
  rw [Bool.false_xor, round, round, Magnitude.ofRatio?_of_cross unitsPerOne_pos (by decide) hcross]

theorem round_of_lt (s : Bool) {n d : Nat} (h : rounded n d < magnitudeLimit) :
    ∃ m : Magnitude, round s n d = finite s m ∧ m.units = rounded n d := by
  obtain ⟨m, hm, hunits⟩ := Magnitude.ofRatio?_of_rounded_lt h
  exact ⟨m, by rw [round, hm], hunits⟩

/-- The whole part of a number that is not below zero. -/
theorem truncate_eq (m : Magnitude) : (finite false m).truncate = .ok ((m.units / unitsPerOne : Nat) : Int) := rfl

theorem truncate_zero : zero.truncate = .ok 0 := by
  rw [zero, truncate_eq]
  show Except.ok ((0 / unitsPerOne : Nat) : Int) = _
  rw [Nat.zero_div]
  rfl

/-! ## Between two ends -/

/-- A finite number lies between two others. -/
theorem isFinite_of_between (hx : x.isFinite = true) (hz : z.isFinite = true) (hxy : x.le y = true)
    (hyz : y.le z = true) : y.isFinite = true := by
  cases y with
  | finite t b => rfl
  | nan => cases x <;> cases hxy
  | infinite t =>
    cases t with
    | true =>
      cases x with
      | finite s a =>
        have hkeys : signed s a.units ≤ -(magnitudeLimit : Int) := of_decide_eq_true hxy
        have hlt := a.representable.1
        unfold signed at hkeys
        split at hkeys <;> omega
      | _ => cases hx
    | false =>
      cases z with
      | finite s c =>
        have hkeys : (magnitudeLimit : Int) ≤ signed s c.units := of_decide_eq_true hyz
        have hlt := c.representable.1
        unfold signed at hkeys
        split at hkeys <;> omega
      | _ => cases hz

theorem le_self_of_le (h : x.le y = true) : x.le x = true ∧ y.le y = true := by
  obtain ⟨k, l, hk, hl, -⟩ := exists_key?_of_le h
  exact ⟨le_of_key? hk hk (Int.le_refl k), le_of_key? hl hl (Int.le_refl l)⟩

theorem eq_false_of_lt (h : x.lt y = true) : y.eq x = false := by
  obtain ⟨k, l, hk, hl, hlt⟩ := exists_key?_of_compareWith h
  have hless : k < l := of_decide_eq_true hlt
  rw [eq_of_keys hl hk]
  exact decide_eq_false (by omega)

theorem lt_of_le_of_eq_false (h : x.le y = true) (hne : y.eq x = false) : x.lt y = true := by
  obtain ⟨k, l, hk, hl, hle⟩ := exists_key?_of_le h
  rw [eq_of_keys hl hk] at hne
  have hdiffer : l ≠ k := of_decide_eq_false hne
  rw [lt, compareWith, hk, hl]
  exact decide_eq_true (by omega)

/-- An operation takes the numbers from `a` to `b` to numbers from `c` to `d`, in order. -/
structure Carries (f : Binary64 → Binary64) (a b c d : Binary64) : Prop where
  first : f a = c
  last : f b = d
  mono : ∀ {x y}, a.le x = true → x.le y = true → y.le b = true → (f x).le (f y) = true

namespace Carries

variable {f g : Binary64 → Binary64} {a b c d e k : Binary64}

/-- An operation that keeps the order of finite numbers, from its results at finite ends. -/
theorem of_mono (ha : a.isFinite = true) (hb : b.isFinite = true) (hfa : f a = c) (hfb : f b = d)
    (hf : ∀ {x y}, x.le y = true → x.isFinite = true → y.isFinite = true → (f x).le (f y) = true) :
    Carries f a b c d where
  first := hfa
  last := hfb
  mono hax hxy hyb :=
    hf hxy (isFinite_of_between ha hb hax (le_trans hxy hyb)) (isFinite_of_between ha hb (le_trans hax hxy) hyb)

theorem between (h : Carries f a b c d) (hax : a.le x = true) (hxb : x.le b = true) :
    c.le (f x) = true ∧ (f x).le d = true := by
  have hlow := h.mono (le_self_of_le hax).1 hax hxb
  have hhigh := h.mono hax hxb (le_self_of_le hxb).2
  rw [h.first] at hlow
  rw [h.last] at hhigh
  exact ⟨hlow, hhigh⟩

theorem comp (hf : Carries f a b c d) (hg : Carries g c d e k) : Carries (g ∘ f) a b e k where
  first := by rw [Function.comp, hf.first, hg.first]
  last := by rw [Function.comp, hf.last, hg.last]
  mono hax hxy hyb := hg.mono (hf.between hax (le_trans hxy hyb)).1 (hf.mono hax hxy hyb)
    (hf.between (le_trans hax hxy) hyb).2

end Carries

end Binary64

/-! ## Numbers that are binary64 numbers -/

namespace Number

variable {x : Binary64}

theorem min_real (x y : Binary64) : min (real x) (real y) = real (Arithmetic.smaller x y) := by
  have hlt : Arithmetic.lt y x = y.lt x := rfl
  rw [min, lt_real, Arithmetic.smaller, hlt]
  split <;> rfl

theorem max_real (x y : Binary64) : max (real x) (real y) = real (Arithmetic.larger x y) := by
  have hlt : Arithmetic.lt x y = x.lt y := rfl
  rw [max, lt_real, Arithmetic.larger, hlt]
  split <;> rfl

theorem isZero_real (hx : x.isFinite = true) : (real x).isZero = x.eq 0 := by
  cases x with
  | finite s m =>
    rw [Binary64.eq_of_keys rfl Binary64.key?_zero]
    show decide (Binary64.signed s m.units = 0 * unitsPerOne) = _
    rw [Int.zero_mul]
  | _ => cases hx

end Number

end HashrateChart
