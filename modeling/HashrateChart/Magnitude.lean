/-
Magnitudes of finite binary64 numbers, as whole counts of the smallest one,
`2^-1074`. A count is representable when it is a 53-bit significand shifted
left and stays below `2^1024`.

`ofRatio?` rounds an exact ratio to the nearest representable count, a tie to
the even significand, and fails exactly when the result would leave the range.
-/

namespace HashrateChart

-- powers are those of the core library, also next to a library with powers of its own
attribute [instance (10000), default_instance (10000)] instPowNat
attribute [instance (10000)] instNatPowNat Int.instNatPow

/-- A power of two, kept folded so that large ones are not written out. -/
@[irreducible] def twoPow (n : Nat) : Nat := 2 ^ n

theorem twoPow_eq (n : Nat) : twoPow n = 2 ^ n := by unfold twoPow; rfl

theorem twoPow_pos (n : Nat) : 0 < twoPow n := twoPow_eq n ▸ Nat.two_pow_pos n

/-- The exponent of the unit, less its sign; also the decimal places of the unit. -/
@[irreducible] def unitPlaces : Nat := 1074

/-- The number one in units of `2^-1074`. -/
def unitsPerOne : Nat := twoPow unitPlaces

/-- The first power of two out of range, `2^1024`, in units of `2^-1074`. -/
def magnitudeLimit : Nat := twoPow 2098

theorem unitsPerOne_pos : 0 < unitsPerOne := twoPow_pos unitPlaces

theorem magnitudeLimit_pos : 0 < magnitudeLimit := twoPow_pos 2098

/-- A count of units that some finite binary64 number has as its magnitude. -/
def Representable (units : Nat) : Prop :=
  units < magnitudeLimit ∧ ∃ k e, k < 2 ^ 53 ∧ units = k * 2 ^ e

/-- The magnitude of a finite number in units of `2^-1074`. -/
structure Magnitude where
  units : Nat
  representable : Representable units
  deriving DecidableEq

/-- The whole number nearest to `n / d`, a half going to the even neighbour. -/
def roundHalfEven (n d : Nat) : Nat :=
  let q := n / d
  let r := n % d
  if 2 * r < d then q else if 2 * r = d then q + q % 2 else q + 1

theorem roundHalfEven_le (n d : Nat) : roundHalfEven n d ≤ n / d + 1 := by
  unfold roundHalfEven; dsimp only; split
  · omega
  · split <;> omega

theorem le_roundHalfEven (n d : Nat) : n / d ≤ roundHalfEven n d := by
  unfold roundHalfEven; dsimp only; split
  · omega
  · split <;> omega

theorem roundHalfEven_zero (d : Nat) : roundHalfEven 0 d = 0 := by
  unfold roundHalfEven; dsimp only
  rw [Nat.zero_div, Nat.zero_mod]
  split
  · rfl
  · split
    · rfl
    · omega

theorem roundHalfEven_mul (k : Nat) {d : Nat} (h : 0 < d) : roundHalfEven (k * d) d = k := by
  simp [roundHalfEven, Nat.mul_mod_left, Nat.mul_div_cancel k h, h]

/-- Rounding sees the ratio alone. -/
theorem roundHalfEven_mul_mul (n d : Nat) {c : Nat} (h : 0 < c) :
    roundHalfEven (n * c) (d * c) = roundHalfEven n d := by
  have e : (2 * (n % d * c) < d * c) = (2 * (n % d) < d) := by
    rw [← Nat.mul_assoc]; exact propext (Nat.mul_lt_mul_right h)
  have f : (2 * (n % d * c) = d * c) = (2 * (n % d) = d) := by
    rw [← Nat.mul_assoc]; exact propext (Nat.mul_left_inj (Nat.ne_of_gt h))
  simp only [roundHalfEven, Nat.mul_mod_mul_right, Nat.mul_div_mul_right _ _ h, e, f]

namespace Magnitude

/-- How far the significand of `n / d` must be shifted to fit 53 bits. -/
def shift (n d : Nat) : Nat := (n / d).log2 - 52

theorem significand_le (n d : Nat) : roundHalfEven n (d * 2 ^ shift n d) ≤ 2 ^ 53 := by
  have hq : n / (d * 2 ^ shift n d) < 2 ^ 53 := by
    rw [← Nat.div_div_eq_div_mul]
    apply Nat.div_lt_of_lt_mul
    have h : n / d < 2 ^ ((n / d).log2 + 1) := Nat.lt_log2_self
    refine Nat.lt_of_lt_of_le h ?_
    rw [← Nat.pow_add]
    apply Nat.pow_le_pow_right (by decide)
    unfold shift; omega
  have := roundHalfEven_le n (d * 2 ^ shift n d)
  omega

theorem representable_of_le {k e : Nat} (hk : k ≤ 2 ^ 53) (h : k * 2 ^ e < magnitudeLimit) :
    Representable (k * 2 ^ e) := by
  refine ⟨h, ?_⟩
  by_cases hlt : k < 2 ^ 53
  · exact ⟨k, e, hlt, rfl⟩
  · refine ⟨2 ^ 52, e + 1, by decide, ?_⟩
    have hk : k = 2 ^ 53 := by omega
    rw [hk, Nat.pow_succ 2 e]
    omega

/-- The representable magnitude nearest to `n / d` units, or nothing when that is `2^1024` or
more. -/
def ofRatio? (n d : Nat) : Option Magnitude :=
  let e := shift n d
  let k := roundHalfEven n (d * 2 ^ e)
  if h : k * 2 ^ e < magnitudeLimit then
    some ⟨k * 2 ^ e, representable_of_le (significand_le n d) h⟩
  else none

/-- A magnitude is its own nearest magnitude. -/
theorem ofRatio?_units (m : Magnitude) : ofRatio? m.units 1 = some m := by
  obtain ⟨u, hu, k, e, hk, rfl⟩ := m
  have hdvd : 2 ^ shift (k * 2 ^ e) 1 ∣ k * 2 ^ e := by
    refine Nat.dvd_trans (Nat.pow_dvd_pow 2 ?_) (Nat.dvd_mul_left (2 ^ e) k)
    unfold shift
    rw [Nat.div_one]
    by_cases h0 : k * 2 ^ e = 0
    · simp [h0]
    · have : k * 2 ^ e < 2 ^ (53 + e) := by
        rw [Nat.pow_add]
        exact Nat.mul_lt_mul_of_pos_right hk (Nat.two_pow_pos e)
      have := (Nat.log2_lt h0).2 this
      omega
  have hr : roundHalfEven (k * 2 ^ e) (1 * 2 ^ shift (k * 2 ^ e) 1)
      * 2 ^ shift (k * 2 ^ e) 1 = k * 2 ^ e := by
    obtain ⟨c, hc⟩ := hdvd
    generalize 2 ^ shift (k * 2 ^ e) 1 = p at hc ⊢
    have hp : 0 < p ∨ p = 0 := by omega
    rcases hp with hp | hp
    · rw [hc, Nat.one_mul, Nat.mul_comm p c, roundHalfEven_mul c hp]
    · subst hp; simp [hc]
  unfold ofRatio?
  simp only [hr, hu, dite_true]

theorem ofRatio?_mul_mul (n d : Nat) {c : Nat} (h : 0 < c) :
    ofRatio? (n * c) (d * c) = ofRatio? n d := by
  have hs : shift (n * c) (d * c) = shift n d := by
    simp only [shift, Nat.mul_div_mul_right _ _ h]
  have hr : roundHalfEven (n * c) (d * c * 2 ^ shift n d)
      = roundHalfEven n (d * 2 ^ shift n d) := by
    rw [Nat.mul_right_comm d c, roundHalfEven_mul_mul _ _ h]
  unfold ofRatio?
  simp only [hs, hr]

/-- The magnitude zero. -/
def zero : Magnitude := ⟨0, magnitudeLimit_pos, 0, 0, by decide, rfl⟩

theorem ofRatio?_zero (d : Nat) : ofRatio? 0 d = some zero := by
  have h : roundHalfEven 0 (d * 2 ^ shift 0 d) * 2 ^ shift 0 d = 0 := by
    rw [roundHalfEven_zero, Nat.zero_mul]
  unfold ofRatio?
  simp only [h, zero, magnitudeLimit_pos, dite_true]

end Magnitude

end HashrateChart
