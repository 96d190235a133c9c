/-
Rounding keeps the order of numbers.

A larger ratio has no smaller nearest magnitude: either both are rounded at one place,
or a power of two lies between what they are rounded to (`rounded_mono`). With the sign
beside it that is an order of signed counts of units (`signed_mono`), so integers and
numbers that stand in order stay in order as binary64 numbers (`toReal_le`), and so do
the whole numbers that are made of them. What rounding adds to a ratio of 53 bits or more is
at most one part in `2^53` (`rounded_le_mul`).
-/
import Mathlib.Tactic.SplitIfs
import HashrateChart.Proofs.Binary64

namespace HashrateChart

theorem roundHalfEven_mono {n m d : Nat} (h : n ≤ m) : roundHalfEven n d ≤ roundHalfEven m d := by
  rcases Nat.lt_or_eq_of_le (Nat.div_le_div_right (c := d) h) with hlt | heq
  · exact Nat.le_trans (roundHalfEven_le n d) (Nat.le_trans hlt (le_roundHalfEven m d))
  · -- one whole part: the larger rest is rounded up first
    have hrest : n % d ≤ m % d := by
      have hn := Nat.div_add_mod n d
      have hm := Nat.div_add_mod m d
      rw [heq] at hn
      omega
    unfold roundHalfEven
    dsimp only
    rw [heq]
    split_ifs <;> omega

/-- Rounding moves by at most a half. -/
theorem two_mul_roundHalfEven_le (n d : Nat) : 2 * (d * roundHalfEven n d) ≤ 2 * n + d := by
  have hn := Nat.div_add_mod n d
  unfold roundHalfEven
  dsimp only
  split_ifs with hlt heq
  · omega
  · have hle : d * (n / d + n / d % 2) ≤ d * (n / d) + d := by
      calc d * (n / d + n / d % 2) ≤ d * (n / d + 1) := Nat.mul_le_mul_left d (by omega)
        _ = d * (n / d) + d := Nat.mul_succ d _
    omega
  · rw [Nat.mul_succ]
    omega

namespace Magnitude

variable {n m d : Nat}

/-- The count of units that a ratio is rounded to, also where that is out of range. -/
def rounded (n d : Nat) : Nat := roundHalfEven n (d * 2 ^ shift n d) * 2 ^ shift n d

theorem ofRatio?_of_rounded_lt (h : rounded n d < magnitudeLimit) :
    ∃ r : Magnitude, ofRatio? n d = some r ∧ r.units = rounded n d :=
  ⟨_, dif_pos h, rfl⟩

theorem ofRatio?_of_le_rounded (h : magnitudeLimit ≤ rounded n d) : ofRatio? n d = none :=
  dif_neg (Nat.not_lt.mpr h)

theorem rounded_units (r : Magnitude) : rounded r.units 1 = r.units := by
  have hr := ofRatio?_units r
  rcases Nat.lt_or_ge (rounded r.units 1) magnitudeLimit with h | h
  · obtain ⟨s, hs, hunits⟩ := ofRatio?_of_rounded_lt h
    rw [hs] at hr
    rw [← hunits, Option.some.inj hr]
  · rw [ofRatio?_of_le_rounded h] at hr
    cases hr

theorem units_eq_rounded {m : Magnitude} (h : ofRatio? n d = some m) : m.units = rounded n d := by
  rcases Nat.lt_or_ge (rounded n d) magnitudeLimit with hlt | hge
  · obtain ⟨r, hr, hunits⟩ := ofRatio?_of_rounded_lt hlt
    cases hr.symm.trans h
    exact hunits
  · rw [ofRatio?_of_le_rounded hge] at h
    cases h

/-- Rounding does not go beyond the next power of two. -/
theorem rounded_le (n d : Nat) : rounded n d ≤ 2 ^ ((n / d).log2 + 1) := by
  unfold rounded
  by_cases h : 52 ≤ (n / d).log2
  · calc roundHalfEven n (d * 2 ^ shift n d) * 2 ^ shift n d
        ≤ 2 ^ 53 * 2 ^ shift n d := Nat.mul_le_mul_right _ (significand_le n d)
      _ = 2 ^ ((n / d).log2 + 1) := by
        rw [← Nat.pow_add]
        congr 1
        unfold shift
        omega
  · have hshift : shift n d = 0 := by
      unfold shift
      omega
    rw [hshift, Nat.pow_zero, Nat.mul_one, Nat.mul_one]
    exact Nat.le_trans (roundHalfEven_le n d) Nat.lt_log2_self

/-- A larger ratio is rounded to no smaller count. -/
theorem rounded_mono (h : n ≤ m) : rounded n d ≤ rounded m d := by
  have hdiv : n / d ≤ m / d := Nat.div_le_div_right h
  rcases Nat.lt_or_ge (n / d).log2 (m / d).log2 with hlog | hlog
  · have hne : m / d ≠ 0 := by
      intro hzero
      rw [hzero] at hlog
      exact Nat.not_lt_zero _ hlog
    calc rounded n d ≤ 2 ^ ((n / d).log2 + 1) := rounded_le n d
      _ ≤ 2 ^ (m / d).log2 := Nat.pow_le_pow_right (by decide) hlog
      _ ≤ rounded m d := two_pow_log2_le_rounded hne
  · -- both are rounded at the same place
    have heq : (n / d).log2 = (m / d).log2 := by
      refine Nat.le_antisymm ?_ hlog
      by_cases hzero : n / d = 0
      · rw [hzero]
        exact Nat.zero_le _
      · have hlow : 2 ^ (n / d).log2 ≤ m / d := Nat.le_trans (Nat.log2_self_le hzero) hdiv
        exact (Nat.le_log2 (Nat.ne_of_gt (Nat.lt_of_lt_of_le (Nat.two_pow_pos _) hlow))).mpr hlow
    have hshift : shift n d = shift m d := by
      unfold shift
      rw [heq]
    unfold rounded
    rw [hshift]
    exact Nat.mul_le_mul_right _ (roundHalfEven_mono h)

theorem rounded_zero (d : Nat) : rounded 0 d = 0 := by
  rw [rounded, roundHalfEven_zero, Nat.zero_mul]

/-- A ratio of at least 53 bits is rounded with a relative error of at most `2 ^ -53`. -/
theorem rounded_le_mul (h : 2 ^ 52 ≤ n / d) : rounded n d * d * 2 ^ 53 ≤ n * (2 ^ 53 + 1) := by
  have hne : n / d ≠ 0 := by omega
  have hlog : 52 ≤ (n / d).log2 := (Nat.le_log2 hne).mpr h
  have hplace : d * 2 ^ shift n d * 2 ^ 52 ≤ n := by
    calc d * 2 ^ shift n d * 2 ^ 52 = d * 2 ^ (n / d).log2 := by
          rw [Nat.mul_assoc, ← Nat.pow_add]
          unfold shift
          rw [Nat.sub_add_cancel hlog]
      _ ≤ d * (n / d) := Nat.mul_le_mul_left d (Nat.log2_self_le hne)
      _ ≤ n := Nat.mul_div_le n d
  have hhalf := two_mul_roundHalfEven_le n (d * 2 ^ shift n d)
  have hform : d * 2 ^ shift n d * roundHalfEven n (d * 2 ^ shift n d) = rounded n d * d := by
    rw [rounded, Nat.mul_comm (d * 2 ^ shift n d), Nat.mul_comm d, ← Nat.mul_assoc]
  rw [hform] at hhalf
  calc rounded n d * d * 2 ^ 53 = 2 * (rounded n d * d) * 2 ^ 52 := by
        rw [Nat.mul_comm 2, Nat.mul_assoc _ 2]
    _ ≤ (2 * n + d * 2 ^ shift n d) * 2 ^ 52 := Nat.mul_le_mul_right _ hhalf
    _ = n * 2 ^ 53 + d * 2 ^ shift n d * 2 ^ 52 := by
        rw [Nat.add_mul, Nat.mul_comm 2, Nat.mul_assoc n 2]
    _ ≤ n * 2 ^ 53 + n := Nat.add_le_add_left hplace _
    _ = n * (2 ^ 53 + 1) := (Nat.mul_succ n _).symm

/-- A ratio well below the limit has a magnitude. -/
theorem exists_ofRatio?_of_lt {a : Nat} (ha : a + 1 < 2098) (h : n / d < twoPow a) :
    ∃ r : Magnitude, ofRatio? n d = some r := by
  have hlog : (n / d).log2 ≤ a := by
    by_cases hzero : n / d = 0
    · rw [hzero]
      exact Nat.zero_le a
    · rw [twoPow_eq] at h
      exact Nat.le_of_lt ((Nat.log2_lt hzero).mpr h)
  have hlt : rounded n d < magnitudeLimit :=
    calc rounded n d ≤ 2 ^ ((n / d).log2 + 1) := rounded_le n d
      _ ≤ twoPow (a + 1) := by
        rw [twoPow_eq]
        exact Nat.pow_le_pow_right (by decide) (Nat.succ_le_succ hlog)
      _ < magnitudeLimit := twoPow_lt ha
  obtain ⟨r, hr, -⟩ := ofRatio?_of_rounded_lt hlt
  exact ⟨r, hr⟩

end Magnitude

namespace Binary64

open Magnitude (rounded rounded_mono rounded_units)

variable {x y : Binary64}

/-! ## Signed counts -/

/-- A rule for magnitudes that keeps their order keeps the order of signed counts. -/
theorem signed_mono {f : Nat → Nat} (hf : ∀ {a b : Nat}, a ≤ b → f a ≤ f b) {k l : Int} (h : k ≤ l) :
    signed (decide (k < 0)) (f k.natAbs) ≤ signed (decide (l < 0)) (f l.natAbs) := by
  unfold signed
  by_cases hk : k < 0
  · by_cases hl : l < 0
    · have hle : f l.natAbs ≤ f k.natAbs := hf (by omega)
      simp only [hk, hl, decide_true, if_true]
      omega
    · simp only [hk, hl, decide_true, decide_false, if_true, Bool.false_eq_true, if_false]
      omega
  · have hle : f k.natAbs ≤ f l.natAbs := hf (by omega)
    have hl : ¬ l < 0 := by omega
    simp only [hk, hl, decide_false, Bool.false_eq_true, if_false]
    omega

theorem signed_decide (s : Bool) (u : Nat) :
    signed (decide (signed s u < 0)) (signed s u).natAbs = signed s u := signed_natAbs _

/-- Where the binary64 number nearest to a signed count of units stands. -/
def nearestKey (k : Int) : Int := signed (decide (k < 0)) (min (rounded k.natAbs 1) magnitudeLimit)

theorem nearestKey_mono {k l : Int} (h : k ≤ l) : nearestKey k ≤ nearestKey l := by
  have hmono {a b : Nat} (hab : a ≤ b) :
      min (rounded a 1) magnitudeLimit ≤ min (rounded b 1) magnitudeLimit := by
    have hle : rounded a 1 ≤ rounded b 1 := rounded_mono hab
    omega
  exact signed_mono hmono h

theorem natAbs_signed (s : Bool) (u : Nat) : (signed s u).natAbs = u := by
  unfold signed
  split
  · rw [Int.natAbs_neg, Int.natAbs_natCast]
  · rw [Int.natAbs_natCast]

/-- A number is the nearest one to itself. -/
theorem nearestKey_units (s : Bool) (m : Magnitude) : nearestKey (signed s m.units) = signed s m.units := by
  rw [nearestKey, natAbs_signed, rounded_units, Nat.min_eq_left (Nat.le_of_lt m.representable.1)]
  have hsign := signed_decide s m.units
  rwa [natAbs_signed] at hsign

theorem nearestKey_le (k : Int) : -magnitudeLimit ≤ nearestKey k ∧ nearestKey k ≤ magnitudeLimit := by
  have hmin := Nat.min_le_right (rounded k.natAbs 1) magnitudeLimit
  unfold nearestKey signed
  split <;> omega

theorem key?_round (s : Bool) (n d : Nat) :
    (round s n d).key? = some (signed s (min (rounded n d) magnitudeLimit)) := by
  unfold round
  rcases Nat.lt_or_ge (rounded n d) magnitudeLimit with h | h
  · obtain ⟨m, hm, hunits⟩ := Magnitude.ofRatio?_of_rounded_lt h
    rw [hm, Nat.min_eq_left (Nat.le_of_lt h), ← hunits]
    rfl
  · rw [Magnitude.ofRatio?_of_le_rounded h, Nat.min_eq_right h]
    rfl

theorem key?_of_ofInt? {i : Int} (h : Arithmetic.ofInt? i = .ok x) :
    x.key? = some (nearestKey (i * unitsPerOne)) := by
  rw [Arithmetic.ofInt?_eq, whole_eq] at h
  split at h
  · cases h
    rw [ratio, key?_round, nearestKey, decide_units_neg, Int.natAbs_mul, Int.natAbs_natCast]
  · cases h

/-- An integer up to a count of units that is rounded to one in range is in range. -/
theorem exists_ofInt?_of_le {i : Int} {n : Nat} (hn : rounded n 1 < magnitudeLimit)
    (h : i.natAbs * unitsPerOne ≤ n) : ∃ x : Binary64, Arithmetic.ofInt? i = .ok x := by
  obtain ⟨m, hm, -⟩ := Magnitude.ofRatio?_of_rounded_lt (Nat.lt_of_le_of_lt (rounded_mono h) hn)
  refine ⟨.finite (decide (i < 0)) m, ?_⟩
  rw [Arithmetic.ofInt?_eq, whole_eq, ratio, round, hm]
  rfl

theorem le_of_key? {k l : Int} (hx : x.key? = some k) (hy : y.key? = some l) (h : k ≤ l) : x.le y = true := by
  rw [le, compareWith, hx, hy]
  exact decide_eq_true h

theorem exists_key?_of_compareWith {p : Int → Int → Bool} (h : compareWith p x y = true) :
    ∃ k l, x.key? = some k ∧ y.key? = some l ∧ p k l = true := by
  unfold compareWith at h
  split at h
  · next k l hk hl => exact ⟨k, l, hk, hl, h⟩
  · cases h

theorem exists_key?_of_le (h : x.le y = true) : ∃ k l, x.key? = some k ∧ y.key? = some l ∧ k ≤ l := by
  obtain ⟨k, l, hk, hl, hle⟩ := exists_key?_of_compareWith h
  exact ⟨k, l, hk, hl, of_decide_eq_true hle⟩

/-- The magnitude of a number below a whole one. -/
theorem units_lt_of_lt {m : Magnitude} {k : Nat} (hk : IsExact k)
    (h : (finite false m).lt (Arithmetic.whole k) = true) : m.units < k * unitsPerOne := by
  obtain ⟨i, j, hi, hj, hij⟩ := exists_key?_of_compareWith h
  rw [key?_whole hk] at hj
  cases hi
  cases hj
  have hlt : (m.units : Int) < (k : Int) * unitsPerOne := of_decide_eq_true hij
  exact_mod_cast hlt

/-- A product well below the limit is finite. -/
theorem isFinite_mul_of_lt (s t : Bool) {m n : Magnitude} {a : Nat} (ha : a + 1 < 2098)
    (h : m.units * n.units < twoPow a * unitsPerOne) : (finite s m * finite t n).isFinite = true := by
  obtain ⟨r, hr⟩ := Magnitude.exists_ofRatio?_of_lt ha ((Nat.div_lt_iff_lt_mul unitsPerOne_pos).mpr h)
  show (round (s ^^ t) (m.units * n.units) unitsPerOne).isFinite = true
  rw [round, hr]
  rfl

theorem le_trans {x y z : Binary64} (hxy : x.le y = true) (hyz : y.le z = true) : x.le z = true := by
  obtain ⟨a, b, ha, hb, hab⟩ := exists_key?_of_le hxy
  obtain ⟨b', c, hb', hc, hbc⟩ := exists_key?_of_le hyz
  cases hb.symm.trans hb'
  exact le_of_key? ha hc (Int.le_trans hab hbc)

theorem exists_key?_of_isNaN (h : x.isNaN = false) : ∃ k, x.key? = some k := by
  cases x with
  | nan => cases h
  | infinite s | finite s m => exact ⟨_, rfl⟩

theorem le_refl (h : x.isNaN = false) : x.le x = true := by
  obtain ⟨k, hk⟩ := exists_key?_of_isNaN h
  exact le_of_key? hk hk (Int.le_refl k)

theorem le_of_lt (h : x.lt y = true) : x.le y = true := by
  obtain ⟨k, l, hk, hl, hlt⟩ := exists_key?_of_compareWith h
  exact le_of_key? hk hl (Int.le_of_lt (of_decide_eq_true hlt))

/-- The smaller of two numbers is one of them, and above neither. -/
theorem smaller_le (hx : x.isNaN = false) (hy : y.isNaN = false) :
    (Arithmetic.smaller x y = x ∨ Arithmetic.smaller x y = y) ∧ (Arithmetic.smaller x y).le x = true ∧
      (Arithmetic.smaller x y).le y = true := by
  have hlt : Arithmetic.lt y x = y.lt x := rfl
  rw [Arithmetic.smaller, hlt]
  split
  · next h => exact ⟨.inr rfl, le_of_lt h, le_refl hy⟩
  · next h => exact ⟨.inl rfl, le_refl hx, le_of_not_lt hy hx (Bool.eq_false_iff.mpr h)⟩

/-- The larger of two numbers is one of them, and below neither. -/
theorem le_larger (hx : x.isNaN = false) (hy : y.isNaN = false) :
    (Arithmetic.larger x y = x ∨ Arithmetic.larger x y = y) ∧ x.le (Arithmetic.larger x y) = true ∧
      y.le (Arithmetic.larger x y) = true := by
  have hlt : Arithmetic.lt x y = x.lt y := rfl
  rw [Arithmetic.larger, hlt]
  split
  · next h => exact ⟨.inr rfl, le_of_lt h, le_refl hy⟩
  · next h => exact ⟨.inl rfl, le_refl hx, le_of_not_lt hx hy (Bool.eq_false_iff.mpr h)⟩

/-- Choosing between two at a time leads to one of all that stands to all as the choice between two does. -/
theorem foldl_choice {r : Binary64 → Binary64 → Prop} {pick : Binary64 → Binary64 → Binary64}
    (htrans : ∀ {x y z}, r x y → r y z → r x z) (hrefl : ∀ {x}, x.isNaN = false → r x x)
    (hpick : ∀ {x y}, x.isNaN = false → y.isNaN = false →
      (pick x y = x ∨ pick x y = y) ∧ r (pick x y) x ∧ r (pick x y) y)
    {xs : List Binary64} (hx : x.isNaN = false) (hxs : ∀ y ∈ xs, y.isNaN = false) :
    xs.foldl pick x ∈ x :: xs ∧ ∀ y ∈ x :: xs, r (xs.foldl pick x) y := by
  induction xs generalizing x with
  | nil => exact ⟨List.mem_cons_self, List.forall_mem_singleton.mpr (hrefl hx)⟩
  | cons y xs ih =>
    obtain ⟨hy, hrest⟩ := List.forall_mem_cons.mp hxs
    obtain ⟨hone, hfirst, hsecond⟩ := hpick hx hy
    have hnext : (pick x y).isNaN = false := by
      rcases hone with h | h <;> rw [h] <;> assumption
    obtain ⟨hmem, hall⟩ := ih hnext hrest
    obtain ⟨hhead, htail⟩ := List.forall_mem_cons.mp hall
    refine ⟨?_, List.forall_mem_cons.mpr ⟨htrans hhead hfirst,
      List.forall_mem_cons.mpr ⟨htrans hhead hsecond, htail⟩⟩⟩
    rcases List.mem_cons.mp hmem with h | h
    · rw [List.foldl_cons, h]
      rcases hone with hsame | hsame <;> rw [hsame]
      · exact List.mem_cons_self
      · exact List.mem_cons_of_mem _ List.mem_cons_self
    · exact List.mem_cons_of_mem _ (List.mem_cons_of_mem _ h)

theorem foldl_smaller_le {xs : List Binary64} (hx : x.isNaN = false) (hxs : ∀ y ∈ xs, y.isNaN = false) :
    xs.foldl Arithmetic.smaller x ∈ x :: xs ∧ ∀ y ∈ x :: xs, (xs.foldl Arithmetic.smaller x).le y = true :=
  foldl_choice (r := fun a b => a.le b = true) le_trans le_refl smaller_le hx hxs

theorem le_foldl_larger {xs : List Binary64} (hx : x.isNaN = false) (hxs : ∀ y ∈ xs, y.isNaN = false) :
    xs.foldl Arithmetic.larger x ∈ x :: xs ∧ ∀ y ∈ x :: xs, y.le (xs.foldl Arithmetic.larger x) = true :=
  foldl_choice (r := fun a b => b.le a = true) (fun hxy hyz => le_trans hyz hxy) le_refl le_larger hx hxs

/-! ## Whole numbers -/

/-- A rule for counts of units that keeps their order gives whole numbers in order. -/
theorem toIntBy_le {rule : Int → Int} (hrule : ∀ {k l : Int}, k ≤ l → rule k ≤ rule l) {i j : Int}
    (h : x.le y = true) (hx : x.toIntBy rule = .ok i) (hy : y.toIntBy rule = .ok j) : i ≤ j := by
  cases x with
  | finite s m =>
    cases y with
    | finite t n =>
      cases hx
      cases hy
      exact hrule (of_decide_eq_true h)
    | _ => cases hy
  | _ => cases hx

theorem truncate_le {i j : Int} (h : x.le y = true) (hx : x.truncate = .ok i) (hy : y.truncate = .ok j) :
    i ≤ j :=
  toIntBy_le (fun hkl => Int.tdiv_le_tdiv (by exact_mod_cast unitsPerOne_pos) hkl) h hx hy

theorem nearest_le {i j : Int} (h : x.le y = true) (hx : x.nearest = .ok i) (hy : y.nearest = .ok j) : i ≤ j :=
  toIntBy_le (fun hkl => signed_mono roundHalfEven_mono hkl) h hx hy

end Binary64

namespace Number

theorem lt_real (x y : Binary64) : (real x).lt (real y) = x.lt y := by
  unfold lt Binary64.lt Binary64.compareWith
  cases x <;> cases y <;> rfl

theorem le_real (x y : Binary64) : (real x).le (real y) = x.le y := by
  unfold le Binary64.le Binary64.compareWith
  cases x <;> cases y <;> rfl

theorem keys?_swap (a b : Number) : keys? b a = (keys? a b).map Prod.swap := by
  cases a with
  | int i =>
    cases b with
    | int j => rfl
    | real y => cases y <;> rfl
  | real x =>
    cases b with
    | int j => cases x <;> rfl
    | real y => cases x <;> cases y <;> rfl

theorem not_lt_of_le {a b : Number} (h : a.le b = true) : b.lt a = false := by
  unfold le at h
  unfold lt
  rw [keys?_swap a b]
  cases hk : keys? a b with
  | none => rfl
  | some k =>
    rw [hk] at h
    exact decide_eq_false (Int.not_lt.mpr (of_decide_eq_true h))

/-- An integer is at most a number unless the number is below it. -/
theorem int_le_eq {a : Number} (h : a.isUndefined = false) (i : Int) : (int i).le a = !a.lt (int i) := by
  obtain ⟨k, hk⟩ : ∃ k, keys? (int i) a = some k := by
    cases a with
    | int j => exact ⟨_, rfl⟩
    | real x =>
      cases x with
      | nan => cases h
      | infinite s | finite s m => exact ⟨_, rfl⟩
  unfold le lt
  rw [keys?_swap (int i) a, hk]
  show decide (k.1 ≤ k.2) = !decide (k.2 < k.1)
  rw [← decide_not, decide_eq_decide]
  exact Int.not_lt.symm

open Binary64 (nearestKey_mono nearestKey_units nearestKey_le key?_of_ofInt? le_of_key?)

variable {a b : Number} {x y : Binary64}

/-- Numbers in order are in order as binary64 numbers. -/
theorem toReal_le (h : a.le b = true) (hx : a.toReal = .ok x) (hy : b.toReal = .ok y) : x.le y = true := by
  cases a with
  | int i =>
    have hi := key?_of_ofInt? hx
    obtain ⟨hlow, hhigh⟩ := nearestKey_le (i * unitsPerOne)
    cases b with
    | int j =>
      have hij : i ≤ j := of_decide_eq_true h
      exact le_of_key? hi (key?_of_ofInt? hy)
        (nearestKey_mono (Int.mul_le_mul_of_nonneg_right hij (Int.natCast_nonneg _)))
    | real y =>
      cases hy
      cases y with
      | nan => cases h
      | infinite s =>
        cases s with
        | true => cases h
        | false => exact le_of_key? hi rfl hhigh
      | finite s m =>
        refine le_of_key? hi rfl ?_
        rw [← nearestKey_units s m]
        exact nearestKey_mono (of_decide_eq_true h)
  | real x =>
    cases hx
    cases b with
    | real y =>
      cases hy
      rw [le_real] at h
      exact h
    | int j =>
      have hj := key?_of_ofInt? hy
      obtain ⟨hlow, hhigh⟩ := nearestKey_le (j * unitsPerOne)
      cases x with
      | nan => cases h
      | infinite s =>
        cases s with
        | false => cases h
        | true => exact le_of_key? rfl hj hlow
      | finite s m =>
        refine le_of_key? rfl hj ?_
        rw [← nearestKey_units s m]
        exact nearestKey_mono (of_decide_eq_true h)

end Number

end HashrateChart
