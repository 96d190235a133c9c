/-
The hashrate axis, without rounding.

Over rational numbers every rule of the axis is a formula: the outer values that are
left out are counted (`robustExtremes?_number`), the room and the live hashrate make
the range wider (`padded_number`), the step is positive (`pickStep_number`), and
alignment only moves outward (`aligned_number`). So what one rule grants stands after
the next ones, and the axis frames its values (`hashrateBounds_frames`).
-/
import Mathlib.Data.List.Sort
import Mathlib.Tactic.Linarith
import Mathlib.Tactic.Positivity
import HashrateChart.Proofs.Axis.Step

namespace HashrateChart

open Arithmetic

open Exact (number)

/-- Room by rational shares. -/
def Padding.exact (pad : Padding ℚ) : Padding Exact where
  share := number pad.share
  shareTop := pad.shareTop.map number
  shareBottom := pad.shareBottom.map number
  least := number pad.least
  flatShare := number pad.flatShare
  mostShare := number pad.mostShare

namespace Axis

/-! ## Values that are left out -/

variable {xs : List ℚ}

/-- Of values in order, at most as many are below one as stand in front of it. -/
theorem countP_lt_getElem_le (h : xs.Pairwise (· ≤ ·)) {i : ℕ} (hi : i < xs.length) :
    xs.countP (· < xs[i]) ≤ i := by
  have hrest : (xs.drop i).countP (· < xs[i]) = 0 := by
    rw [List.countP_eq_zero]
    intro x hx
    rw [List.drop_eq_getElem_cons hi] at hx
    have hsorted : (xs[i] :: xs.drop (i + 1)).Pairwise (· ≤ ·) := by
      rw [← List.drop_eq_getElem_cons hi]
      exact h.drop
    rcases List.mem_cons.mp hx with rfl | hx
    · simp
    · simpa using (List.pairwise_cons.mp hsorted).1 x hx
  calc xs.countP (· < xs[i])
      = (xs.take i).countP (· < xs[i]) + (xs.drop i).countP (· < xs[i]) := by
        rw [← List.countP_append, List.take_append_drop]
    _ ≤ (xs.take i).length := by
        rw [hrest, Nat.add_zero]
        exact List.countP_le_length
    _ ≤ i := List.length_take_le i xs

/-- Of values in order, at most as many are above one as stand behind it. -/
theorem countP_getElem_lt_le (h : xs.Pairwise (· ≤ ·)) {i : ℕ} (hi : i < xs.length) :
    xs.countP (xs[i] < ·) ≤ xs.length - 1 - i := by
  have hfront : (xs.take (i + 1)).countP (xs[i] < ·) = 0 := by
    rw [List.countP_eq_zero]
    intro x hx
    obtain ⟨j, hj, rfl⟩ := List.getElem_of_mem hx
    rw [List.length_take] at hj
    rw [List.getElem_take]
    have hle : xs[j] ≤ xs[i] := by
      rcases Nat.lt_or_eq_of_le (Nat.le_of_lt_succ (lt_min_iff.mp hj).1) with hlt | rfl
      · exact List.pairwise_iff_getElem.mp h j i _ hi hlt
      · exact le_refl _
    simpa using hle
  calc xs.countP (xs[i] < ·)
      = (xs.take (i + 1)).countP (xs[i] < ·) + (xs.drop (i + 1)).countP (xs[i] < ·) := by
        rw [← List.countP_append, List.take_append_drop]
    _ ≤ (xs.drop (i + 1)).length := by
        rw [hfront, Nat.zero_add]
        exact List.countP_le_length
    _ = xs.length - 1 - i := by
        rw [List.length_drop]
        omega

theorem trimCount_eq (n : ℕ) : trimCount (α := Exact) n = .ok ((n / 50 : ℕ) : ℤ) := by
  have hshare : ((n : ℤ) : ℚ) * ((2 : ℤ) / (100 : ℕ)) = (n : ℚ) / (50 : ℕ) := by
    push_cast
    ring
  rw [trimCount, Exact.whole_eq, Exact.ratio_eq, Exact.number_mul, Exact.floor_number, hshare,
    Rat.floor_natCast_div_natCast]
  rfl

/-- The extremes are values, with at most one value in fifty outside on either side. -/
theorem robustExtremes?_number (hne : xs ≠ []) :
    ∃ lo hi : ℚ, robustExtremes? (xs.map number) = .ok (some (number lo, number hi)) ∧
      lo ∈ xs ∧ hi ∈ xs ∧ lo ≤ hi ∧
      xs.countP (· < lo) ≤ xs.length / 50 ∧ xs.countP (hi < ·) ≤ xs.length / 50 := by
  let sorted := xs.mergeSort (· ≤ ·)
  have hperm : sorted.Perm xs := List.mergeSort_perm xs _
  have hlen : sorted.length = xs.length := hperm.length_eq
  have hsorted : sorted.Pairwise (· ≤ ·) := List.pairwise_mergeSort' (· ≤ ·) xs
  have hpos : 0 < xs.length := List.length_pos_iff.mpr hne
  have hmap : (xs.map number).mergeSort le = sorted.map number :=
    (List.map_mergeSort fun a _ b _ => (Exact.le_number a b).symm).symm
  let first := min (xs.length - 1) (xs.length / 50)
  let last := xs.length - 1 - xs.length / 50
  have hfirst : first < sorted.length := by omega
  have hlast : last < sorted.length := by omega
  refine ⟨sorted[first], sorted[last], ?_, hperm.mem_iff.mp (List.getElem_mem _),
    hperm.mem_iff.mp (List.getElem_mem _), ?_, ?_, ?_⟩
  · have hempty : (xs.map number).isEmpty = false := by simpa using hne
    have hget (i : ℕ) (hi : i < sorted.length) :
        (sorted.map number).getD i zero = number sorted[i] := by
      rw [List.getD_eq_getElem?_getD, List.getElem?_map, List.getElem?_eq_getElem hi]
      rfl
    rw [robustExtremes?, hempty, hmap]
    simp only [List.length_map, hlen, trimCount_eq, bind, Except.bind, Bool.false_eq_true, if_false,
      Int.toNat_natCast]
    rw [hget _ hfirst, hget _ hlast]
    rfl
  · rcases Nat.lt_or_eq_of_le (show first ≤ last by omega) with hlt | heq
    · exact List.pairwise_iff_getElem.mp hsorted first last hfirst hlast hlt
    · simp only [heq, le_refl]
  · rw [← hperm.countP_eq]
    exact Nat.le_trans (countP_lt_getElem_le hsorted hfirst) (Nat.min_le_right _ _)
  · rw [← hperm.countP_eq]
    exact Nat.le_trans (countP_getElem_lt_le hsorted hlast) (by omega)

/-! ## Room -/

/-- The room on one side. -/
def roomOf (pad : Padding ℚ) (share : Option ℚ) (lo hi : ℚ) : ℚ :=
  let range := max 1000000 (hi - lo)
  let largest := max 1 |hi|
  min (max (max (max (range * share.getD pad.share) (pad.least * 1000000000000)) (largest * pad.flatShare)) 0)
    (largest * pad.mostShare)

variable {pad : Padding ℚ} {share : Option ℚ} {lo hi : ℚ}

theorem room_number (pad : Padding ℚ) (share : Option ℚ) (lo hi : ℚ) :
    room pad.exact (share.map number) (number lo) (number hi) = number (roomOf pad share lo hi) := by
  cases share <;> simp [room, roomOf, hsPerThs, Padding.exact]

theorem roomOf_nonneg (h : 0 ≤ pad.mostShare) : 0 ≤ roomOf pad share lo hi :=
  le_min (le_max_right _ _) (mul_nonneg (by positivity) h)

theorem roomOf_pos (h : 0 < pad.mostShare) (hsome : 0 < pad.least ∨ 0 < pad.flatShare) :
    0 < roomOf pad share lo hi := by
  have hlargest : 0 < max 1 |hi| := by positivity
  refine lt_min (lt_max_of_lt_left ?_) (mul_pos hlargest h)
  rcases hsome with hleast | hflat
  · exact lt_max_of_lt_left (lt_max_of_lt_right (by positivity))
  · exact lt_max_of_lt_right (mul_pos hlargest hflat)

/-! ## The live hashrate -/

/-- The rational number that an edge is, when it is finite. -/
def Edge.value? : Edge Exact → Option ℚ
  | .number x => x.value?
  | .exact i => some i

variable {e : Edge Exact} {x : ℚ}

/-- A finite edge is met by a rational number, or by an integer that is one. -/
theorem Edge.eq_of_value (h : e.value? = some x) :
    e = .number (.number x) ∨ ∃ i : ℤ, e = .exact i ∧ (i : ℚ) = x := by
  cases e with
  | number y => exact .inl (congrArg Edge.number (Exact.eq_number_of_value h))
  | exact i => exact .inr ⟨i, rfl, Option.some.inj h⟩

theorem Edge.toNumber_of_value (h : e.value? = some x) : e.toNumber = .ok (.number x) := by
  obtain rfl | ⟨i, rfl, rfl⟩ := Edge.eq_of_value h
  · rfl
  · exact Exact.ofInt?_eq i

theorem Edge.exceeds_of_value (h : e.value? = some x) (q : ℚ) : e.exceeds (.number q) = decide (q < x) := by
  obtain rfl | ⟨i, rfl, rfl⟩ := Edge.eq_of_value h
  · exact Exact.lt_number q x
  · rw [Bool.eq_iff_iff]
    simp [Edge.exceeds]

theorem Edge.isExceededBy_of_value (h : e.value? = some x) (q : ℚ) :
    e.isExceededBy (.number q) = decide (x < q) := by
  obtain rfl | ⟨i, rfl, rfl⟩ := Edge.eq_of_value h
  · exact Exact.lt_number x q
  · rw [Bool.eq_iff_iff]
    simp [Edge.isExceededBy]

theorem Edge.toNumber_of_no_value (h : e.value? = none) : ∃ y, e.toNumber = .ok y ∧ isFinite y = false := by
  cases e with
  | exact i => cases h
  | number y => exact ⟨y, rfl, Exact.isFinite_of_no_value h⟩

/-- The range with room on both sides and a live hashrate in it. -/
def paddedOf (pad : Padding ℚ) (live : Option ℚ) (lo hi : ℚ) : ℚ × ℚ :=
  let above := roomOf pad pad.shareTop lo hi
  let below := roomOf pad pad.shareBottom lo hi
  let least := max 0 (lo - below)
  let most := hi + above
  match live with
  | none => (least, most)
  | some x =>
    if 0 < x then (if x < least then max 0 (x - below) else least, if most < x then x + above else most)
    else (least, most)

theorem padded_number (pad : Padding ℚ) (live : Option (Edge Exact)) (lo hi : ℚ) :
    padded pad.exact live (number lo) (number hi) =
      .ok (number (paddedOf pad (live.bind Edge.value?) lo hi).1,
        number (paddedOf pad (live.bind Edge.value?) lo hi).2) := by
  have habove : room pad.exact pad.exact.shareTop (number lo) (number hi) =
      number (roomOf pad pad.shareTop lo hi) := room_number pad pad.shareTop lo hi
  have hbelow : room pad.exact pad.exact.shareBottom (number lo) (number hi) =
      number (roomOf pad pad.shareBottom lo hi) := room_number pad pad.shareBottom lo hi
  simp only [padded, habove, hbelow, Exact.zero_eq, Exact.number_sub, Exact.number_add,
    Exact.larger_number]
  cases live with
  | none => rfl
  | some e =>
    simp only [Option.bind_some]
    cases hx : e.value? with
    | none =>
      obtain ⟨y, hy, hfinite⟩ := Edge.toNumber_of_no_value hx
      rw [hy]
      simp only [bind, Except.bind, hfinite, Bool.false_and, Bool.false_eq_true, if_false]
      rfl
    | some x =>
      rw [Edge.toNumber_of_value hx]
      simp only [bind, Except.bind, Exact.isFinite_number, Edge.exceeds_of_value hx,
        Edge.isExceededBy_of_value hx, Bool.true_and, decide_eq_true_eq, Exact.number_sub,
        Exact.number_add, Exact.larger_number, paddedOf]
      split
      · simp only [apply_ite number]
        rfl
      · rfl

theorem paddedOf_nonneg (pad : Padding ℚ) (live : Option ℚ) (lo hi : ℚ) :
    0 ≤ (paddedOf pad live lo hi).1 := by
  have hzero (q : ℚ) : 0 ≤ max 0 q := le_max_left 0 q
  unfold paddedOf
  cases live with
  | none => exact hzero _
  | some x =>
    dsimp only
    split_ifs <;> exact hzero _

/-- The range only grows. -/
theorem paddedOf_encloses (h : 0 ≤ pad.mostShare) (live : Option ℚ) (hlo : 0 ≤ lo) (hi : ℚ) :
    (paddedOf pad live lo hi).1 ≤ lo ∧ hi + roomOf pad pad.shareTop lo hi ≤ (paddedOf pad live lo hi).2 := by
  have hbelow : 0 ≤ roomOf pad pad.shareBottom lo hi := roomOf_nonneg h
  have habove : 0 ≤ roomOf pad pad.shareTop lo hi := roomOf_nonneg h
  have hleast : max 0 (lo - roomOf pad pad.shareBottom lo hi) ≤ lo := max_le hlo (by linarith)
  unfold paddedOf
  cases live with
  | none => exact ⟨hleast, le_refl _⟩
  | some x =>
    dsimp only
    split
    · next hx =>
      dsimp only
      constructor
      · split
        · next hlt => exact max_le hlo (by linarith)
        · exact hleast
      · split
        · next hlt => linarith
        · exact le_refl _
    · exact ⟨hleast, le_refl _⟩

/-- A positive live hashrate is in the range. -/
theorem paddedOf_live (h : 0 ≤ pad.mostShare) (hx : 0 < x) (lo hi : ℚ) :
    (paddedOf pad (some x) lo hi).1 ≤ x ∧ x ≤ (paddedOf pad (some x) lo hi).2 := by
  have hbelow : 0 ≤ roomOf pad pad.shareBottom lo hi := roomOf_nonneg h
  have habove : 0 ≤ roomOf pad pad.shareTop lo hi := roomOf_nonneg h
  simp only [paddedOf, if_pos hx]
  constructor
  · split
    · exact max_le hx.le (by linarith)
    · next hle => exact not_lt.mp hle
  · split
    · linarith
    · next hle => exact not_lt.mp hle

/-! ## Alignment -/

theorem floor_mul_le (a : ℚ) {step : ℚ} (h : 0 < step) : ⌊a / step⌋ * step ≤ a :=
  (le_div_iff₀ h).mp (Int.floor_le _)

theorem le_ceil_mul (b : ℚ) {step : ℚ} (h : 0 < step) : b ≤ ⌈b / step⌉ * step :=
  (div_le_iff₀ h).mp (Int.le_ceil _)

/-- A start that is not below zero is on the step also when zero bounds it. -/
theorem exists_floor_mul {a step : ℚ} (ha : 0 ≤ a) (h : 0 < step) :
    ∃ k : ℤ, max 0 (⌊a / step⌋ * step) = k * step := by
  have hfloor : 0 ≤ ⌊a / step⌋ := Int.floor_nonneg.mpr (div_nonneg ha h.le)
  exact ⟨_, max_eq_right (mul_nonneg (Int.cast_nonneg hfloor) h.le)⟩

/-- Of few values none is left out. -/
theorem not_of_countP_le {p : ℚ → Bool} (h : xs.countP p ≤ xs.length / 50) (hfew : xs.length < 50) :
    ∀ v ∈ xs, ¬ p v := by
  rw [Nat.div_eq_of_lt hfew, Nat.le_zero] at h
  exact List.countP_eq_zero.mp h

/-! ## The axis -/

/-- The axis of some values is the range of theirs with room, aligned to a positive step. -/
theorem hashrateBounds_number (hne : xs ≠ []) (pad : Padding ℚ) (maxTicks : ℤ) (minStep : ℚ)
    (live : Option (Edge Exact)) :
    ∃ lo hi step : ℚ, lo ∈ xs ∧ hi ∈ xs ∧ lo ≤ hi ∧
      xs.countP (· < lo) ≤ xs.length / 50 ∧ xs.countP (hi < ·) ≤ xs.length / 50 ∧
      0 < step ∧ minStep * 1000000000000 ≤ step ∧
      hashrateBounds (xs.map number) pad.exact maxTicks (.ok (number minStep)) (.ok live) =
        .ok (some {
          min := number (max 0 (⌊(paddedOf pad (live.bind Edge.value?) lo hi).1 / step⌋ * step))
          max := number (⌈(paddedOf pad (live.bind Edge.value?) lo hi).2 / step⌉ * step)
          step := some (number step)
          maxTicks := some maxTicks }) := by
  obtain ⟨lo, hi, hextremes, hlo, hhi, hle, hbelow, habove⟩ := robustExtremes?_number hne
  let range := paddedOf pad (live.bind Edge.value?) lo hi
  obtain ⟨step, hstep, hpos, hmin⟩ :=
    pickStep_number (max 0 (range.2 - range.1) / 1000000000000) maxTicks minStep
  have hunit : (0 : ℚ) < 1000000000000 := by norm_num
  refine ⟨lo, hi, step * 1000000000000, hlo, hhi, hle, hbelow, habove, mul_pos hpos hunit,
    mul_le_mul_of_nonneg_right hmin hunit.le, ?_⟩
  have hspan : larger zero (number range.2 - number range.1) / (hsPerThs : Exact) =
      number (max 0 (range.2 - range.1) / 1000000000000) := by
    rw [hsPerThs, Exact.whole_eq, Exact.zero_eq, Exact.number_sub, Exact.larger_number]
    exact Exact.number_div _ hunit.ne'
  rw [hashrateBounds, bind_of_ok hextremes]
  simp only [bind, Except.bind]
  rw [padded_number]
  simp only [hspan, hstep, number_mul_hsPerThs, range]
  rw [aligned_number _ _ (mul_pos hpos hunit)]
  rfl

/-- An axis frames the values of a window: it starts at zero or above, its ends are on its step, all but
a few values are in it, and so is a positive live hashrate. -/
structure Frames (xs : List ℚ) (pad : Padding ℚ) (minStep : ℚ) (live : Option ℚ) (least most step : ℚ) :
    Prop where
  nonneg : 0 ≤ least
  step_pos : 0 < step
  minStep_le : minStep * 1000000000000 ≤ step
  least_on_step : ∃ k : ℤ, least = k * step
  most_on_step : ∃ k : ℤ, most = k * step
  few_below : xs.countP (· < least) ≤ xs.length / 50
  few_above : xs.countP (most < ·) ≤ xs.length / 50
  all_of_few : xs.length < 50 → ∀ v ∈ xs, least ≤ v ∧ v ≤ most
  live_between : ∀ x ∈ live, 0 < x → least ≤ x ∧ x ≤ most
  lt : 0 < pad.mostShare → 0 < pad.least ∨ 0 < pad.flatShare → least < most

/-- **The hashrate axis frames its values.** Hashrates that are not negative have an axis, and it frames
them, for every wanted number of ticks, least step and live hashrate. -/
theorem hashrateBounds_frames (hne : xs ≠ []) (hxs : ∀ v ∈ xs, 0 ≤ v) (hpad : 0 ≤ pad.mostShare)
    (maxTicks : ℤ) (minStep : ℚ) (live : Option (Edge Exact)) :
    ∃ least most step : ℚ,
      hashrateBounds (xs.map number) pad.exact maxTicks (.ok (number minStep)) (.ok live) =
        .ok (some ⟨number least, number most, some (number step), some maxTicks⟩) ∧
      Frames xs pad minStep (live.bind Edge.value?) least most step := by
  obtain ⟨lo, hi, step, hlo, -, hle, hbelow, habove, hpos, hmin, hbounds⟩ :=
    hashrateBounds_number hne pad maxTicks minStep live
  obtain ⟨hfirst, hlast⟩ := paddedOf_encloses hpad (live.bind Edge.value?) (hxs lo hlo) hi
  have hroom : 0 ≤ roomOf pad pad.shareTop lo hi := roomOf_nonneg hpad
  generalize hrange : paddedOf pad (live.bind Edge.value?) lo hi = range at hfirst hlast hbounds
  have hstart : 0 ≤ range.1 := hrange ▸ paddedOf_nonneg pad _ lo hi
  have hleast : max 0 (⌊range.1 / step⌋ * step) ≤ range.1 := max_le hstart (floor_mul_le _ hpos)
  have hmost : range.2 ≤ ⌈range.2 / step⌉ * step := le_ceil_mul _ hpos
  refine ⟨_, _, step, hbounds, ?_⟩
  have hfewBelow : xs.countP (· < max 0 (⌊range.1 / step⌋ * step)) ≤ xs.length / 50 := by
    refine Nat.le_trans (List.countP_mono_left fun v _ hv => ?_) hbelow
    simp only [decide_eq_true_eq] at hv ⊢
    linarith
  have hfewAbove : xs.countP ((⌈range.2 / step⌉ * step : ℚ) < ·) ≤ xs.length / 50 := by
    refine Nat.le_trans (List.countP_mono_left fun v _ hv => ?_) habove
    simp only [decide_eq_true_eq] at hv ⊢
    linarith
  exact {
    nonneg := le_max_left _ _
    step_pos := hpos
    minStep_le := hmin
    least_on_step := exists_floor_mul hstart hpos
    most_on_step := ⟨_, rfl⟩
    few_below := hfewBelow
    few_above := hfewAbove
    all_of_few := by
      intro hfew v hv
      have hge := not_of_countP_le hfewBelow hfew v hv
      have hle := not_of_countP_le hfewAbove hfew v hv
      simp only [decide_eq_true_eq, not_lt] at hge hle
      exact ⟨hge, hle⟩
    live_between := by
      intro x hx hxpos
      rw [Option.mem_def] at hx
      rw [hx] at hrange
      obtain ⟨hge, hle⟩ := paddedOf_live hpad hxpos lo hi
      rw [hrange] at hge hle
      exact ⟨by linarith, by linarith⟩
    lt := by
      intro hshare hsome
      have hpositive : 0 < roomOf pad pad.shareTop lo hi := roomOf_pos hshare hsome
      linarith }

/-- Two hashrates that agree, with a little room and a live hashrate above them. -/
theorem hashrateBounds_frames_of_flat :
    (∀ v ∈ [1000000000000, 1000000000000], (0 : ℚ) ≤ v) ∧
    ∃ least most step : ℚ,
      hashrateBounds ([1000000000000, 1000000000000].map number)
          (Padding.exact ⟨1 / 20, none, some (1 / 10), 0, 1 / 200, 1 / 4⟩) 2 (.ok (number (1 / 10)))
          (.ok (some (.exact 3000000000000))) =
        .ok (some ⟨number least, number most, some (number step), some 2⟩) ∧
      Frames [1000000000000, 1000000000000] ⟨1 / 20, none, some (1 / 10), 0, 1 / 200, 1 / 4⟩ (1 / 10)
        (some ((3000000000000 : ℤ) : ℚ)) least most step := by
  have hxs : ∀ v ∈ [1000000000000, 1000000000000], (0 : ℚ) ≤ v := by
    intro v hv
    simp only [List.mem_cons, List.not_mem_nil, or_false, or_self] at hv
    rw [hv]
    norm_num
  exact ⟨hxs, hashrateBounds_frames (List.cons_ne_nil _ _) hxs (by norm_num) 2 (1 / 10)
    (some (.exact 3000000000000))⟩

end Axis

end HashrateChart
