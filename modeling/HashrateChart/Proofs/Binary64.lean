/-
Which ratios have a magnitude, and which integers are binary64 numbers.

Powers of two stay folded, so that bounds on them are bounds on their exponents.
Up to `2^53` an integer is one of the numbers, and dropping the fraction of that
number gives the integer back.
-/
import HashrateChart.Number

namespace HashrateChart

/-! ## Powers of two -/

theorem unitPlaces_eq : unitPlaces = 1074 := by unfold unitPlaces; rfl

theorem le_log2_of_twoPow_le {a n : Nat} (h : twoPow a ≤ n) : a ≤ n.log2 := by
  have hn : n ≠ 0 := Nat.ne_of_gt (Nat.lt_of_lt_of_le (twoPow_pos a) h)
  rw [twoPow_eq] at h
  exact (Nat.le_log2 hn).mpr h

theorem twoPow_mono {a b : Nat} (h : a ≤ b) : twoPow a ≤ twoPow b := by
  rw [twoPow_eq, twoPow_eq]
  exact Nat.pow_le_pow_right (by decide) h

theorem twoPow_lt {a b : Nat} (h : a < b) : twoPow a < twoPow b := by
  rw [twoPow_eq, twoPow_eq]
  exact Nat.pow_lt_pow_right (by decide) h

theorem two_pow_le_ten_pow (k : Nat) : 2 ^ (3 * k) ≤ 10 ^ k := by
  rw [Nat.pow_mul]
  exact Nat.pow_le_pow_left (by decide) k

theorem twoPow_le_mul {a b k : Nat} (h : a ≤ 3 * k + b) : twoPow a ≤ 10 ^ k * twoPow b := by
  rw [twoPow_eq, twoPow_eq]
  calc 2 ^ a ≤ 2 ^ (3 * k + b) := Nat.pow_le_pow_right (by decide) h
    _ = 2 ^ (3 * k) * 2 ^ b := Nat.pow_add ..
    _ ≤ 10 ^ k * 2 ^ b := Nat.mul_le_mul_right _ (two_pow_le_ten_pow k)

theorem two_mul_twoPow_lt {a k : Nat} (h : a + 1 < 3 * k) : 2 * twoPow a < 10 ^ k := by
  rw [twoPow_eq, ← Nat.pow_succ']
  exact Nat.lt_of_lt_of_le (Nat.pow_lt_pow_right (by decide) h) (two_pow_le_ten_pow k)

/-! ## Ratios -/

namespace Magnitude

/-- Equal ratios have the same nearest magnitude. -/
theorem ofRatio?_of_cross {n d n' d' : Nat} (hd : 0 < d) (hd' : 0 < d') (h : n * d' = n' * d) :
    ofRatio? n d = ofRatio? n' d' := by
  rw [← ofRatio?_mul_mul n d hd', h, Nat.mul_comm d d', ofRatio?_mul_mul n' d' hd]

/-- A ratio of less than half a unit has the magnitude zero. -/
theorem units_of_small {n d : Nat} {m : Magnitude} (h : ofRatio? n d = some m) (hs : 2 * n < d) :
    m.units = 0 := by
  have hq : n / d = 0 := Nat.div_eq_of_lt (by omega)
  have hr : roundHalfEven n (d * 2 ^ shift n d) = 0 := by
    have he : shift n d = 0 := by simp [shift, hq]
    unfold roundHalfEven
    simp only [he, Nat.pow_zero, Nat.mul_one, hq, Nat.mod_eq_of_lt (show n < d by omega), if_pos hs]
  unfold ofRatio? at h
  simp only [hr, Nat.zero_mul, magnitudeLimit_pos, dite_true, Option.some.injEq] at h
  rw [← h]

/-- Rounding a ratio does not go below a power of two that the ratio reaches. -/
theorem two_pow_log2_le_rounded {n d : Nat} (h : n / d ≠ 0) :
    2 ^ (n / d).log2 ≤ roundHalfEven n (d * 2 ^ shift n d) * 2 ^ shift n d := by
  have htop : 2 ^ (n / d).log2 ≤ n / d := Nat.log2_self_le h
  have hk : 2 ^ ((n / d).log2 - shift n d) ≤ roundHalfEven n (d * 2 ^ shift n d) := by
    refine Nat.le_trans ?_ (le_roundHalfEven _ _)
    rw [← Nat.div_div_eq_div_mul, Nat.le_div_iff_mul_le (Nat.two_pow_pos _), ← Nat.pow_add]
    refine Nat.le_trans (Nat.pow_le_pow_right (by decide) ?_) htop
    unfold shift
    omega
  refine Nat.le_trans ?_ (Nat.mul_le_mul_right _ hk)
  rw [← Nat.pow_add]
  refine Nat.pow_le_pow_right (by decide) ?_
  unfold shift
  omega

theorem two_pow_log2_le_units {n d : Nat} {m : Magnitude} (hn : n / d ≠ 0) (h : ofRatio? n d = some m) :
    2 ^ (n / d).log2 ≤ m.units := by
  refine Nat.le_trans (two_pow_log2_le_rounded hn) (Nat.le_of_eq ?_)
  unfold ofRatio? at h
  dsimp only at h
  split at h
  · cases h
    rfl
  · cases h

/-- A ratio out of range has no magnitude. -/
theorem ofRatio?_of_large {n d : Nat} (h : magnitudeLimit ≤ n / d) : ofRatio? n d = none := by
  have hpos : n / d ≠ 0 := by have := magnitudeLimit_pos; omega
  have hlog : 2098 ≤ (n / d).log2 := le_log2_of_twoPow_le h
  have hout : ¬ roundHalfEven n (d * 2 ^ shift n d) * 2 ^ shift n d < magnitudeLimit := by
    rw [Nat.not_lt]
    refine Nat.le_trans ?_ (two_pow_log2_le_rounded hpos)
    rw [← twoPow_eq]
    exact twoPow_mono hlog
  unfold ofRatio?
  simp only [hout, dite_false]

/-- Rounding an integer of 54 bits or more does not go below `2^53`. -/
theorem le_units_of_large {k : Nat} {m : Magnitude} (hk : 2 ^ 53 ≤ k)
    (h : ofRatio? (k * unitsPerOne) 1 = some m) : 2 ^ 53 * unitsPerOne ≤ m.units := by
  have hreach : twoPow (53 + unitPlaces) ≤ k * unitsPerOne := by
    rw [twoPow_eq, Nat.pow_add, unitsPerOne, twoPow_eq]
    exact Nat.mul_le_mul_right _ hk
  have hlog : 53 + unitPlaces ≤ (k * unitsPerOne / 1).log2 := by
    rw [Nat.div_one]
    exact le_log2_of_twoPow_le hreach
  have hpos : k * unitsPerOne / 1 ≠ 0 := by
    rw [Nat.div_one]
    exact Nat.ne_of_gt (Nat.lt_of_lt_of_le (twoPow_pos _) hreach)
  have hpow : 2 ^ (53 + unitPlaces) ≤ m.units :=
    Nat.le_trans (Nat.pow_le_pow_right (by decide) hlog) (two_pow_log2_le_units hpos h)
  rw [Nat.pow_add] at hpow
  rw [unitsPerOne, twoPow_eq]
  exact hpow

/-- Every magnitude is at least one last place below the limit. -/
theorem units_add_le (m : Magnitude) {a : Nat} (ha : 53 + a = 2098) : m.units + twoPow a ≤ magnitudeLimit := by
  obtain ⟨units, hlt, k, e, hk, rfl⟩ := m
  dsimp only
  rw [magnitudeLimit, ← ha] at hlt ⊢
  rw [twoPow_eq] at hlt
  rw [twoPow_eq, twoPow_eq]
  rcases Nat.le_total e a with he | he
  · calc k * 2 ^ e + 2 ^ a ≤ k * 2 ^ a + 2 ^ a :=
          Nat.add_le_add_right (Nat.mul_le_mul_left k (Nat.pow_le_pow_right (by decide) he)) _
      _ = (k + 1) * 2 ^ a := (Nat.succ_mul k _).symm
      _ ≤ 2 ^ (53 + a) := by
          rw [Nat.pow_add]
          exact Nat.mul_le_mul_right _ hk
  · rcases Nat.eq_zero_or_pos k with rfl | hpos
    · rw [Nat.zero_mul, Nat.zero_add]
      exact Nat.pow_le_pow_right (by decide) (Nat.le_add_left a 53)
    · -- a last place beyond `2 ^ a` divides both the magnitude and the limit
      have hle : e ≤ 53 + a := by
        have hpow : 2 ^ e < 2 ^ (53 + a) := Nat.lt_of_le_of_lt (Nat.le_mul_of_pos_left _ hpos) hlt
        exact Nat.le_of_lt ((Nat.pow_lt_pow_iff_right (by decide)).mp hpow)
      obtain ⟨c, hc⟩ := Nat.exists_eq_add_of_le' hle
      rw [hc, Nat.pow_add] at hlt ⊢
      have hnext : k + 1 ≤ 2 ^ c := Nat.lt_of_mul_lt_mul_right hlt
      calc k * 2 ^ e + 2 ^ a ≤ k * 2 ^ e + 2 ^ e := Nat.add_le_add_left (Nat.pow_le_pow_right (by decide) he) _
        _ = (k + 1) * 2 ^ e := (Nat.succ_mul k _).symm
        _ ≤ 2 ^ c * 2 ^ e := Nat.mul_le_mul_right _ hnext

end Magnitude

/-! ## Whole parts -/

theorem tdiv_le_of_lt {k i u : Int} (hu : 0 < u) (h : k < i * u) : k.tdiv u ≤ i := by
  rcases Int.le_total 0 k with hk | hk
  · rw [Int.tdiv_eq_ediv_of_nonneg hk]
    exact Int.le_of_lt (Int.ediv_lt_of_lt_mul hu h)
  · have hneg : k.tdiv u = -(-k / u) := by
      rw [← Int.tdiv_eq_ediv_of_nonneg (by omega), Int.neg_tdiv, Int.neg_neg]
    have hle : -i ≤ -k / u := by
      rw [Int.le_ediv_iff_mul_le hu, Int.neg_mul]
      omega
    omega

theorem le_tdiv_of_mul_le {k i u : Int} (hu : 0 < u) (hi : 0 ≤ i) (h : i * u ≤ k) : i ≤ k.tdiv u := by
  have hk : 0 ≤ k := Int.le_trans (Int.mul_nonneg hi (Int.le_of_lt hu)) h
  rw [Int.tdiv_eq_ediv_of_nonneg hk]
  exact (Int.le_ediv_iff_mul_le hu).mpr h

/-! ## Integers -/

theorem Arithmetic.ofInt?_eq {α : Type} [Arithmetic α] (i : Int) :
    (ofInt? i : Result α) = if isFinite (whole i : α) then .ok (whole i) else .error .overflow := rfl

theorem Arithmetic.ofInt?_cases {α : Type} [Arithmetic α] (i : Int) :
    (∃ x : α, ofInt? i = .ok x) ∨ (ofInt? i : Result α) = .error .overflow := by
  rw [ofInt?_eq]
  split
  · exact .inl ⟨_, rfl⟩
  · exact .inr rfl

theorem Arithmetic.isFinite_of_ofInt? {α : Type} [Arithmetic α] {i : Int} {x : α} (h : ofInt? i = .ok x) :
    isFinite x = true := by
  rw [ofInt?_eq] at h
  split at h
  · next hf =>
    cases h
    exact hf
  · cases h

theorem Number.toReal_cases (n : Number) : (∃ x, n.toReal = .ok x) ∨ n.toReal = .error .overflow := by
  cases n with
  | int i => exact Arithmetic.ofInt?_cases i
  | real x => exact .inl ⟨x, rfl⟩

namespace Binary64

/-- The integers that are all binary64 numbers. -/
def IsExact (i : Int) : Prop := i.natAbs ≤ 2 ^ 53

instance (i : Int) : Decidable (IsExact i) := inferInstanceAs (Decidable (i.natAbs ≤ 2 ^ 53))

theorem representable_whole {k : Nat} (h : k ≤ 2 ^ 53) : Representable (k * unitsPerOne) := by
  have hmul : k * 2 ^ unitPlaces ≤ twoPow (53 + unitPlaces) := by
    rw [twoPow_eq, Nat.pow_add]
    exact Nat.mul_le_mul_right _ h
  have hlimit : twoPow (53 + unitPlaces) < magnitudeLimit :=
    twoPow_lt (by rw [unitPlaces_eq]; omega)
  rw [unitsPerOne, twoPow_eq]
  exact Magnitude.representable_of_le h (Nat.lt_of_le_of_lt hmul hlimit)

/-- The half of an integer of at most 53 bits is a number. -/
theorem exists_half {k : Nat} (h : k ≤ 2 ^ 53) : ∃ m : Magnitude, m.units * 2 = k * unitsPerOne := by
  obtain ⟨e, he⟩ : ∃ e, unitPlaces = e + 1 := ⟨1073, unitPlaces_eq⟩
  have hlimit : k * 2 ^ e < magnitudeLimit := by
    have hmul : k * 2 ^ e ≤ twoPow (53 + e) := by
      rw [twoPow_eq, Nat.pow_add]
      exact Nat.mul_le_mul_right _ h
    exact Nat.lt_of_le_of_lt hmul (twoPow_lt (by rw [unitPlaces_eq] at he; omega))
  refine ⟨⟨k * 2 ^ e, Magnitude.representable_of_le h hlimit⟩, ?_⟩
  rw [unitsPerOne, he, twoPow_eq, Nat.pow_succ, Nat.mul_assoc]

theorem whole_eq (i : Int) : (Arithmetic.whole i : Binary64) = ratio i 1 := by
  have hratio : (Arithmetic.ratio : Int → Nat → Binary64) = ratio := rfl
  rw [Arithmetic.whole, hratio]

/-- An integer of at most 53 bits is a number. -/
theorem whole_of_isExact {i : Int} (h : IsExact i) :
    ∃ m : Magnitude, (Arithmetic.whole i : Binary64) = .finite (decide (i < 0)) m ∧
      m.units = i.natAbs * unitsPerOne := by
  obtain ⟨m, hm⟩ : ∃ m : Magnitude, m.units = i.natAbs * unitsPerOne :=
    ⟨⟨_, representable_whole h⟩, rfl⟩
  refine ⟨m, ?_, hm⟩
  rw [whole_eq, ratio, ← hm, round_units]

theorem signed_natAbs (i : Int) : signed (decide (i < 0)) i.natAbs = i := by
  unfold signed
  split
  · next h => simp only [decide_eq_true_eq] at h; omega
  · next h => simp only [decide_eq_true_eq] at h; omega

theorem signed_mul (s : Bool) (k u : Nat) : signed s (k * u) = signed s k * u := by
  unfold signed
  split
  · rw [Int.natCast_mul, Int.neg_mul]
  · rw [Int.natCast_mul]

theorem signed_not (s : Bool) (u : Nat) : signed (!s) u = -signed s u := by
  cases s <;> simp [signed]

theorem truncate_of_isFinite {x : Binary64} (h : x.isFinite = true) : ∃ i, x.truncate = .ok i := by
  cases x with
  | finite s m => exact ⟨_, rfl⟩
  | _ => cases h

theorem isFinite_whole {i : Int} (h : IsExact i) : (Arithmetic.whole i : Binary64).isFinite = true := by
  obtain ⟨m, hw, -⟩ := whole_of_isExact h
  rw [hw]
  rfl

theorem ofInt?_whole {i : Int} (h : IsExact i) :
    (Arithmetic.ofInt? i : Result Binary64) = .ok (Arithmetic.whole i) := by
  rw [Arithmetic.ofInt?_eq]
  exact if_pos (isFinite_whole h)

/-- An integer of at most 53 bits and the number that it is. -/
theorem ofInt?_of_isExact {i : Int} (h : IsExact i) :
    ∃ x : Binary64, Arithmetic.ofInt? i = .ok x ∧ x.isFinite = true ∧ x.truncate = .ok i := by
  obtain ⟨m, hw, hu⟩ := whole_of_isExact h
  refine ⟨.finite (decide (i < 0)) m, ?_, rfl, ?_⟩
  · rw [Arithmetic.ofInt?_eq, hw]
    rfl
  · show Except.ok ((signed _ m.units).tdiv unitsPerOne) = _
    rw [hu, signed_mul, signed_natAbs, Int.mul_tdiv_cancel]
    have := unitsPerOne_pos
    omega

/-- A quotient is the number nearest to the ratio of its units. -/
theorem quotient_eq {n : Int} {d : Nat} {m : Magnitude} (hd : 0 < d)
    (h : Magnitude.ofRatio? (n.natAbs * unitsPerOne) d = some m) :
    (Arithmetic.quotient n d : Result Binary64) = .ok (.finite (decide (n < 0)) m) := by
  have hround : ratio n d = .finite (decide (n < 0)) m := by rw [ratio, round, h]
  have hratio : (Arithmetic.ratio : Int → Nat → Binary64) = ratio := rfl
  rw [Arithmetic.quotient, if_neg (by omega), Int.sign_eq_one_of_pos (by omega), Int.mul_one, hratio,
    Int.natAbs_natCast, hround]
  rfl

/-- Half of an integer of at most 53 bits is not rounded. -/
theorem quotient_two {n : Int} (h : IsExact n) :
    ∃ m : Magnitude, (Arithmetic.quotient n 2 : Result Binary64) = .ok (.finite (decide (n < 0)) m) ∧
      m.units * 2 = n.natAbs * unitsPerOne := by
  obtain ⟨m, hm⟩ := exists_half h
  have hratio : Magnitude.ofRatio? (n.natAbs * unitsPerOne) 2 = some m := by
    rw [Magnitude.ofRatio?_of_cross (by decide) (by decide) ((Nat.mul_one _).trans hm.symm), Magnitude.ofRatio?_units]
  exact ⟨m, quotient_eq (by decide) hratio, hm⟩

/-- An integer from `2^1024` on is beyond the range. -/
theorem ofInt?_of_large {i : Int} (h : magnitudeLimit ≤ i.natAbs * unitsPerOne) :
    (Arithmetic.ofInt? i : Result Binary64) = .error .overflow := by
  have hw : (Arithmetic.whole i : Binary64) = .infinite (decide (i < 0)) := by
    rw [whole_eq, ratio, round, Magnitude.ofRatio?_of_large (by rw [Nat.div_one]; exact h)]
  rw [Arithmetic.ofInt?_eq, hw]
  rfl

theorem ofInt?_ten_pow {k : Nat} (h : 342 ≤ k) :
    (Arithmetic.ofInt? ((10 ^ k : Nat) : Int) : Result Binary64) = .error .overflow :=
  ofInt?_of_large (twoPow_le_mul (by rw [unitPlaces_eq]; omega))

/-- Rounding an integer does not go below one that is exact: the number nearest to `t` is cut to at
least `i` when `t` is. -/
theorem le_truncate_of_le {i t k : Int} {x : Binary64} (hi : 0 ≤ i) (hexact : i ≤ 2 ^ 53) (hit : i ≤ t)
    (hx : Arithmetic.ofInt? t = .ok x) (hk : x.truncate = .ok k) : i ≤ k := by
  by_cases ht : IsExact t
  · obtain ⟨y, hy, -, hback⟩ := ofInt?_of_isExact ht
    rw [hy] at hx
    cases hx
    rw [hback] at hk
    cases hk
    exact hit
  · have hlarge : 2 ^ 53 ≤ t.natAbs := Nat.le_of_lt (Nat.not_le.mp ht)
    have hneg : decide (t < 0) = false := decide_eq_false (by omega)
    rw [Arithmetic.ofInt?_eq, whole_eq, ratio, hneg, round] at hx
    cases hm : Magnitude.ofRatio? (t.natAbs * unitsPerOne) 1 with
    | none =>
      rw [hm] at hx
      cases hx
    | some m =>
      rw [hm] at hx
      cases hx
      have hunits := Magnitude.le_units_of_large hlarge hm
      have hu : (0 : Int) < unitsPerOne := by exact_mod_cast unitsPerOne_pos
      cases hk
      refine le_tdiv_of_mul_le hu hi (Int.le_trans (Int.mul_le_mul_of_nonneg_right hexact (Int.le_of_lt hu)) ?_)
      have hcast : ((2 ^ 53 * unitsPerOne : Nat) : Int) ≤ (m.units : Int) := by exact_mod_cast hunits
      simpa [signed] using hcast

/-! ## Comparing integers -/

theorem decide_units_neg (i : Int) : decide (i * (unitsPerOne : Int) < 0) = decide (i < 0) := by
  have hpos : (0 : Int) < unitsPerOne := by exact_mod_cast unitsPerOne_pos
  refine decide_eq_decide.mpr ⟨fun h => ?_, fun h => Int.mul_neg_of_neg_of_pos h hpos⟩
  exact Int.not_le.mp fun hi => Int.not_le.mpr h (Int.mul_nonneg hi (Int.le_of_lt hpos))

theorem key?_whole {i : Int} (h : IsExact i) : (Arithmetic.whole i : Binary64).key? = some (i * unitsPerOne) := by
  obtain ⟨m, hw, hu⟩ := whole_of_isExact h
  rw [hw, key?, hu, signed_mul, signed_natAbs]

theorem eq_of_keys {x y : Binary64} {i j : Int} (hx : x.key? = some i) (hy : y.key? = some j) :
    x.eq y = decide (i = j) := by
  rw [eq, compareWith, hx, hy]

/-- An integer below those that are exact is rounded to a number that is not above them. -/
theorem key?_whole_le {i : Int} (h : i ≤ -2 ^ 53) :
    ∃ k, (Arithmetic.whole i : Binary64).key? = some k ∧ k ≤ -2 ^ 53 * unitsPerOne := by
  have hneg : decide (i < 0) = true := decide_eq_true (by omega)
  rw [whole_eq, ratio, hneg, round]
  cases hm : Magnitude.ofRatio? (i.natAbs * unitsPerOne) 1 with
  | none =>
    refine ⟨_, rfl, ?_⟩
    have hlimit : 2 ^ 53 * unitsPerOne ≤ magnitudeLimit := Nat.le_of_lt (representable_whole (Nat.le_refl _)).1
    have hcast : ((2 ^ 53 * unitsPerOne : Nat) : Int) ≤ (magnitudeLimit : Int) := by exact_mod_cast hlimit
    simp only [signed, if_true]
    omega
  | some m =>
    refine ⟨_, rfl, ?_⟩
    have hunits := Magnitude.le_units_of_large (by omega) hm
    have hcast : ((2 ^ 53 * unitsPerOne : Nat) : Int) ≤ (m.units : Int) := by exact_mod_cast hunits
    simp only [signed, if_true]
    omega

theorem nearest_whole {i : Int} (h : IsExact i) : (Arithmetic.whole i : Binary64).nearest = .ok i := by
  obtain ⟨m, hw, hu⟩ := whole_of_isExact h
  have hkey : signed (decide (i < 0)) m.units = i * unitsPerOne := by rw [hu, signed_mul, signed_natAbs]
  rw [hw]
  show Except.ok (signed (decide (signed _ m.units < 0)) (roundHalfEven (signed _ m.units).natAbs unitsPerOne)) = _
  rw [hkey, decide_units_neg, Int.natAbs_mul, Int.natAbs_natCast, roundHalfEven_mul _ unitsPerOne_pos,
    signed_natAbs]

/-- The difference of two integers is rounded as the difference itself is. -/
theorem key?_whole_sub {i j : Int} (hi : IsExact i) (hj : IsExact j) :
    (Arithmetic.whole i - Arithmetic.whole j : Binary64).key? = (Arithmetic.whole (i - j) : Binary64).key? := by
  obtain ⟨m, hm, hmu⟩ := whole_of_isExact hi
  obtain ⟨n, hn, hnu⟩ := whole_of_isExact hj
  have hsum : signed (decide (i < 0)) m.units + signed (!decide (j < 0)) n.units = (i - j) * unitsPerOne := by
    rw [signed_not, hmu, hnu, signed_mul, signed_mul, signed_natAbs, signed_natAbs, Int.sub_mul,
      Int.sub_eq_add_neg]
  have hpos : (0 : Int) < unitsPerOne := by exact_mod_cast unitsPerOne_pos
  rw [hm, hn]
  show (if signed _ m.units + signed _ n.units = 0 then finite _ .zero
    else round (decide (signed _ m.units + signed _ n.units < 0)) (signed _ m.units + signed _ n.units).natAbs 1
      : Binary64).key? = _
  rw [hsum]
  by_cases hz : i = j
  · rw [hz, Int.sub_self, Int.zero_mul, if_pos rfl, key?_whole (by decide), Int.zero_mul]
    unfold key? signed Magnitude.zero
    simp
  · have hne : (i - j) * (unitsPerOne : Int) ≠ 0 := Int.mul_ne_zero (by omega) (by omega)
    rw [if_neg hne, decide_units_neg, Int.natAbs_mul, Int.natAbs_natCast, whole_eq, ratio]

/-! ## Results that are finite -/

theorem isFinite_of_add {x y : Binary64} (h : (x + y).isFinite = true) : x.isFinite = true := by
  cases x with
  | finite s m => rfl
  | nan => cases y <;> cases h
  | infinite s =>
    cases y with
    | finite t m => cases h
    | nan => cases h
    | infinite t =>
      have hsum : (infinite s + infinite t).isFinite = false := by cases s <;> cases t <;> rfl
      rw [hsum] at h
      cases h

theorem isFinite_of_mul {x y : Binary64} (h : (x * y).isFinite = true) : x.isFinite = true := by
  cases x with
  | finite s m => rfl
  | nan => cases y <;> cases h
  | infinite s =>
    cases y with
    | nan => cases h
    | infinite t => cases h
    | finite t m =>
      change (if m.units = 0 then nan else infinite (s ^^ t)).isFinite = true at h
      split at h <;> cases h

theorem nan_mul (y : Binary64) : nan * y = nan := by
  cases y <;> rfl

end Binary64

/-- A finite number below an integer is cut to one that is not above it. -/
theorem Number.truncate_le_of_lt {x : Binary64} {i : Int} (hx : x.isFinite = true)
    (h : (Number.real x).lt (.int i) = true) : ∃ k, x.truncate = .ok k ∧ k ≤ i := by
  cases x with
  | finite s m =>
    have hlt : Binary64.signed s m.units < i * unitsPerOne := of_decide_eq_true h
    have hpos : (0 : Int) < unitsPerOne := by exact_mod_cast unitsPerOne_pos
    exact ⟨_, rfl, tdiv_le_of_lt hpos hlt⟩
  | _ => cases hx

theorem Binary64.isNaN_of_isFinite {x : Binary64} (h : x.isFinite = true) : x.isNaN = false := by
  cases x with
  | nan => cases h
  | infinite s | finite s m => rfl

/-- Of two numbers one is at most the other unless it is above it. -/
theorem Binary64.le_of_not_lt {x y : Binary64} (hx : x.isNaN = false) (hy : y.isNaN = false)
    (h : x.lt y = false) : y.le x = true := by
  have compare : ∀ a b : Int, decide (a < b) = false → decide (b ≤ a) = true := by
    intro a b hab
    simp only [decide_eq_false_iff_not, decide_eq_true_eq] at hab ⊢
    omega
  cases x with
  | nan => cases hx
  | infinite s | finite s m =>
    cases y with
    | nan => cases hy
    | infinite t | finite t n => exact compare _ _ h

theorem Binary64.not_lt_of_le {x y : Binary64} (h : x.le y = true) : y.lt x = false := by
  have compare : ∀ a b : Int, decide (a ≤ b) = true → decide (b < a) = false := by
    intro a b hab
    simp only [decide_eq_false_iff_not, decide_eq_true_eq] at hab ⊢
    omega
  cases x with
  | nan => cases h
  | infinite s | finite s m =>
    cases y with
    | nan => rfl
    | infinite t | finite t n => exact compare _ _ h

theorem Binary64.not_le_of_lt {x y : Binary64} (h : x.lt y = true) : y.le x = false := by
  rw [Bool.eq_false_iff]
  intro hle
  rw [not_lt_of_le hle] at h
  cases h

theorem Binary64.key?_zero : (0 : Binary64).key? = some 0 := by decide +kernel

theorem Binary64.not_negative_of_lt {s : Bool} {m : Magnitude} (h : (0 : Binary64).lt (.finite s m) = true) :
    s = false := by
  unfold Binary64.lt Binary64.compareWith at h
  rw [key?_zero] at h
  have hlt : 0 < Binary64.signed s m.units := of_decide_eq_true h
  cases s with
  | false => rfl
  | true =>
    unfold Binary64.signed at hlt
    rw [if_pos rfl] at hlt
    omega

end HashrateChart
