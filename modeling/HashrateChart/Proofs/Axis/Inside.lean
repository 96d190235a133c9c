/-
The axes depend on the window alone.

Bisection gives the positions whose labels are in the closed interval between the ends of
the window: a test that holds at the front of the labels only fails where the labels that
pass it end (`Leads.bisect_eq_length`), and labels in order pass "before the start"
and "not after the end" at the front. So the values at those positions are the ones that a
filter keeps (`part_indicesBetween`), whatever the ends are and however long the series is.

Ends and labels are compared by where they stand, in units of the smallest number, also an
end that is an integer beyond all numbers. An undefined end stands after every label.
-/
import HashrateChart.Proofs.Axis.Toggle

namespace HashrateChart

open Arithmetic

namespace Binary64

/-- Zero less a finite number is the number with the other sign. -/
theorem zero_sub_finite (s : Bool) (m : Magnitude) :
    ∃ t n, (Arithmetic.zero : Binary64) - finite s m = finite t n ∧ signed t n.units = -signed s m.units := by
  obtain ⟨z, hz, hunits⟩ := whole_of_isExact (i := 0) (by decide)
  have hsum : signed (decide ((0 : Int) < 0)) z.units + signed (!s) m.units = -signed s m.units := by
    rw [hunits, signed_not]
    simp [signed]
  rw [Arithmetic.zero, hz]
  show ∃ t n, add (finite _ z) (finite (!s) m) = _ ∧ _
  unfold add
  dsimp only
  rw [hsum]
  by_cases h0 : -signed s m.units = 0
  · rw [if_pos h0, h0]
    exact ⟨_, _, rfl, by cases s <;> rfl⟩
  · have habs : (-signed s m.units).natAbs = m.units := by
      unfold signed
      split <;> omega
    have hsigned := signed_natAbs (-signed s m.units)
    rw [habs] at hsigned
    exact ⟨_, m, by rw [if_neg h0, habs, round_units], hsigned⟩

end Binary64

namespace Axis

/-! ## Labels in the window -/

namespace Edge

/-- The number that labels are compared with. -/
def bound : Edge Binary64 → Number
  | number x => .real x
  | exact i => .int i

/-- Where an edge stands among the labels; an undefined one stands after all of them. -/
def place? : Edge Binary64 → Option Int
  | number x => x.key?
  | exact i => some (i * unitsPerOne)

variable (e : Edge Binary64) (s : Bool) (m : Magnitude)

theorem isAfter_finite :
    e.isAfter (.finite s m) = e.place?.all fun k => decide (Binary64.signed s m.units < k) := by
  cases e with
  | number x =>
    cases x with
    | nan => rfl
    | infinite t | finite t n => exact before_of_keys rfl rfl
  | exact i =>
    obtain ⟨t, n, hneg, hunits⟩ := Binary64.zero_sub_finite s m
    show (!leInt ((Arithmetic.zero : Binary64) - .finite s m) (-i)) = _
    rw [hneg]
    show (!decide (Binary64.signed t n.units ≤ -i * unitsPerOne)) = decide (_ < i * unitsPerOne)
    rw [hunits, ← decide_not, Int.neg_mul]
    exact decide_eq_decide.mpr (by omega)

theorem isBefore_finite :
    e.isBefore (.finite s m) = e.place?.any fun k => decide (k < Binary64.signed s m.units) := by
  cases e with
  | number x =>
    cases x with
    | nan => rfl
    | infinite t | finite t n => exact before_of_keys rfl rfl
  | exact i =>
    show (!decide (Binary64.signed s m.units ≤ i * unitsPerOne)) = decide (i * unitsPerOne < _)
    rw [← decide_not]
    exact decide_eq_decide.mpr (by omega)

theorem bound_le_finite :
    e.bound.le (.real (.finite s m)) = e.place?.any fun k => decide (k ≤ Binary64.signed s m.units) := by
  cases e with
  | number x => cases x <;> rfl
  | exact i => rfl

theorem finite_le_bound :
    (Number.real (.finite s m)).le e.bound = e.place?.any fun k => decide (Binary64.signed s m.units ≤ k) := by
  cases e with
  | number x => cases x <;> rfl
  | exact i => rfl

theorem isUndefined_bound : e.bound.isUndefined = e.place?.isNone := by
  cases e with
  | number x => cases x <;> rfl
  | exact i => rfl

end Edge

/-- Whether a label is in the closed interval between two ends. An undefined end is after every label. -/
def isInside (xMin xMax : Edge Binary64) (t : Binary64) : Bool :=
  xMin.bound.le (.real t) && (xMax.bound.isUndefined || (Number.real t).le xMax.bound)

/-- A label is in the interval when it stands neither before its start nor after its end. -/
theorem isInside_eq (xMin xMax : Edge Binary64) {t : Binary64} (ht : t.isFinite = true) :
    isInside xMin xMax t = (!xMin.isAfter t && !xMax.isBefore t) := by
  cases t with
  | nan | infinite s => cases ht
  | finite s m =>
    rw [isInside, Edge.bound_le_finite, Edge.finite_le_bound, Edge.isUndefined_bound, Edge.isAfter_finite,
      Edge.isBefore_finite]
    congr 1
    · cases xMin.place? with
      | none => rfl
      | some k => simp [← decide_not]
    · cases xMax.place? with
      | none => rfl
      | some k => simp [← decide_not]

/-! ## Values in the window -/

variable {β γ : Type}

/-- The values of a series at the labels that pass a test. The series may be shorter than the labels, or
longer. -/
def valuesWhere (test : β → Bool) (labels : List β) (values : List γ) : List γ :=
  ((labels.zip values).filter fun row => test row.1).map Prod.snd

theorem valuesWhere_cons (test : β → Bool) (t : β) (labels : List β) (v : γ) (values : List γ) :
    valuesWhere test (t :: labels) (v :: values) =
      if test t then v :: valuesWhere test labels values else valuesWhere test labels values := by
  cases ht : test t <;> simp [valuesWhere, ht]

theorem valuesWhere_of_none {test : β → Bool} {labels : List β} (h : ∀ t ∈ labels, test t = false)
    (values : List γ) : valuesWhere test labels values = [] := by
  rw [valuesWhere, List.map_eq_nil_iff, List.filter_eq_nil_iff]
  intro row hrow
  simp [h row.1 (List.of_mem_zip hrow).1]

/-- The positions between two fronts of the labels are those of the labels that pass the second test and
not the first. -/
theorem part_fronts {left right : β → Bool} {labels : List β} (hleft : Leads left labels)
    (hright : Leads right labels) (values : List γ) :
    part ((labels.takeWhile left).length, max (labels.takeWhile left).length (labels.takeWhile right).length)
        values = valuesWhere (fun t => !left t && right t) labels values := by
  induction labels generalizing values with
  | nil => exact part_zero values
  | cons t rest ih =>
    have hrest := ih (List.pairwise_cons.mp hleft).2 (List.pairwise_cons.mp hright).2
    cases hr : right t with
    | false =>
      -- nothing is before the end of the window
      have hnone : (t :: rest).takeWhile right = [] := List.takeWhile_cons_of_neg (by simp [hr])
      rw [hnone, List.length_nil, Nat.max_zero, part_of_le (Nat.le_refl _), valuesWhere_of_none]
      intro a ha
      rw [hright.not_of_head hr a ha, Bool.and_false]
    | true =>
      cases values with
      | nil => simp [part, valuesWhere]
      | cons v values =>
        rw [valuesWhere_cons, ← hrest values, List.takeWhile_cons_of_pos hr, hr]
        cases hl : left t with
        | true =>
          rw [List.takeWhile_cons_of_pos hl, List.length_cons, List.length_cons, Nat.add_max_add_right]
          rfl
        | false =>
          rw [List.takeWhile_cons_of_neg (by simp [hl]), hleft.takeWhile_of_head hl, List.length_nil,
            Nat.zero_max, Nat.zero_max]
          rfl

/-- Labels that pass a test and the values at them belong together. -/
theorem zip_valuesWhere (test : β → Bool) (labels : List β) (values : List γ) :
    (labels.filter test).zip (valuesWhere test labels values) =
      (labels.zip values).filter fun row => test row.1 := by
  induction labels generalizing values with
  | nil => rfl
  | cons t rest ih =>
    cases values with
    | nil => simp [valuesWhere]
    | cons v values =>
      have hrest := ih values
      rw [valuesWhere_cons]
      cases ht : test t <;> simp [ht, hrest]

theorem valuesWhere_self (test : β → Bool) (labels : List β) (values : List γ) :
    valuesWhere test (labels.filter test) (valuesWhere test labels values) = valuesWhere test labels values := by
  rw [valuesWhere, zip_valuesWhere, List.filter_filter]
  simp only [Bool.and_self]
  rfl

/-! ## The window -/

/-- Labels that are finite and in order. -/
structure Increasing (labels : List Binary64) : Prop where
  finite : ∀ t ∈ labels, t.isFinite = true
  ascending : labels.Pairwise fun a b => a.lt b = true

variable {labels : List Binary64}

theorem Increasing.filter (h : Increasing labels) (test : Binary64 → Bool) : Increasing (labels.filter test) where
  finite t ht := h.finite t (List.mem_of_mem_filter ht)
  ascending := h.ascending.filter test

/-- A fact about labels that holds of every two numbers in order holds in the list. -/
theorem Increasing.leads (h : Increasing labels) {test : Binary64 → Bool}
    (htest : ∀ s m t n, Binary64.signed s m.units < Binary64.signed t n.units →
      test (.finite t n) = true → test (.finite s m) = true) : Leads test labels := by
  refine h.ascending.imp_of_mem fun {a b} ha hb hab => ?_
  have hfa := h.finite a ha
  have hfb := h.finite b hb
  cases a with
  | nan | infinite s => cases hfa
  | finite s m =>
    cases b with
    | nan | infinite t => cases hfb
    | finite t n => exact htest s m t n (of_decide_eq_true hab)

theorem Increasing.leads_isAfter (h : Increasing labels) (e : Edge Binary64) : Leads e.isAfter labels := by
  refine h.leads fun s m t n hlt htest => ?_
  rw [Edge.isAfter_finite] at htest ⊢
  cases he : e.place? with
  | none => rfl
  | some k =>
    rw [he] at htest
    exact decide_eq_true (Int.lt_trans hlt (of_decide_eq_true htest))

theorem Increasing.leads_isBefore (h : Increasing labels) (e : Edge Binary64) :
    Leads (fun t => !e.isBefore t) labels := by
  refine h.leads fun s m t n hlt htest => ?_
  rw [Edge.isBefore_finite] at htest ⊢
  cases he : e.place? with
  | none => rfl
  | some k =>
    rw [he] at htest
    simp only [Option.any_some, Bool.not_eq_true', decide_eq_false_iff_not] at htest ⊢
    omega

section Window

variable (h : Increasing labels) (xMin xMax : Edge Binary64)

include h

/-- The positions of a window hold the values at the labels in it. -/
theorem part_indicesBetween (values : List γ) :
    part (indicesBetween labels xMin xMax) values = valuesWhere (isInside xMin xMax) labels values := by
  have hpart := part_fronts (h.leads_isAfter xMin) (h.leads_isBefore xMax) values
  rw [← (h.leads_isAfter xMin).bisect_eq_length, ← (h.leads_isBefore xMax).bisect_eq_length] at hpart
  refine hpart.trans (congrArg (List.map Prod.snd) (List.filter_congr fun row hrow => ?_))
  exact (isInside_eq xMin xMax (h.finite row.1 (List.of_mem_zip hrow).1)).symm

/-- A window shows of every series the values at the labels in it, as it does when there are no others. -/
theorem windowed_inside (series : List (SeriesLike Binary64)) :
    windowed series (indicesBetween labels xMin xMax) =
      windowed (series.map (Option.map (valuesWhere (isInside xMin xMax) labels)))
        (indicesBetween (labels.filter (isInside xMin xMax)) xMin xMax) := by
  have hseries : (series.map (Option.map (valuesWhere (isInside xMin xMax) labels))).filterMap id =
      (series.filterMap id).map (valuesWhere (isInside xMin xMax) labels) := by
    rw [List.filterMap_map, List.map_filterMap]
    rfl
  have hpart (values : List (Raw Binary64)) :
      part (indicesBetween labels xMin xMax) values =
        part (indicesBetween (labels.filter (isInside xMin xMax)) xMin xMax)
          (valuesWhere (isInside xMin xMax) labels values) := by
    rw [part_indicesBetween h, part_indicesBetween (h.filter _), valuesWhere_self]
  have hread (values : List (Raw Binary64)) :
      readAll ((values.take (indicesBetween labels xMin xMax).2).drop (indicesBetween labels xMin xMax).1) =
        readAll (part (indicesBetween (labels.filter (isInside xMin xMax)) xMin xMax)
          (valuesWhere (isInside xMin xMax) labels values)) := congrArg readAll (hpart values)
  rw [windowed, windowed, hseries, List.mapM_map]
  simp only [hread]
  rfl

/-- **The axes of a window.** For labels in order, every window and every setting, the axes are those of
the labels in the closed interval between its ends and of the values that each series has at them. So
labels and values outside the window never change an axis. -/
theorem chartBounds_of_window (rates degrees : List (SeriesLike Binary64)) (pad : Padding Binary64)
    (maxTicks : Json) (minStep below above : Raw Binary64) (live : Raw (Option (Edge Binary64))) :
    let axes (labels : List Binary64) (rates degrees : List (SeriesLike Binary64)) :=
      chartBounds (labels.map .ok) rates degrees (.ok xMin) (.ok xMax) pad maxTicks minStep below above live
    let inside (labels : List Binary64) (series : List (SeriesLike Binary64)) :=
      series.map (Option.map (valuesWhere (isInside xMin xMax) labels))
    axes labels rates degrees =
        axes (labels.filter (isInside xMin xMax)) (inside labels rates) (inside labels degrees) ∧
      ∀ labels' rates' degrees', Increasing labels' →
        labels'.filter (isInside xMin xMax) = labels.filter (isInside xMin xMax) →
        inside labels' rates' = inside labels rates → inside labels' degrees' = inside labels degrees →
        axes labels' rates' degrees' = axes labels rates degrees := by
  intro axes inside
  have heq {labels : List Binary64} (h : Increasing labels) (rates degrees : List (SeriesLike Binary64)) :
      axes labels rates degrees =
        axes (labels.filter (isInside xMin xMax)) (inside labels rates) (inside labels degrees) := by
    simp only [axes, chartBounds, windowIndices_ok, bind, Except.bind]
    rw [windowed_inside h xMin xMax rates, windowed_inside h xMin xMax degrees]
  refine ⟨heq h rates degrees, fun labels' rates' degrees' h' hlabels hrates hdegrees => ?_⟩
  rw [heq h' rates' degrees', heq h rates degrees, hlabels, hrates, hdegrees]

end Window

/-- Four labels, of which a window shows the second and the third: one series is missing, one is shorter
than the labels and one is longer. -/
theorem chartBounds_of_window_of_four :
    let axes (labels : List Binary64) (rates degrees : List (SeriesLike Binary64)) :=
      chartBounds (labels.map .ok) rates degrees (.ok (.number 2)) (.ok (.exact 3))
        ⟨0.05, none, none, 0, 0.005, 0.25⟩ (.int 5) (.ok 0) (.ok 1) (.ok 2) (.ok none)
    Increasing [1, 2, 3, 4] ∧
    axes [1, 2, 3, 4] [none, some [.ok 10, .ok 20]] [some [.ok 50, .ok 60, .ok .nan, .ok 61, .ok 90]] =
      axes [2, 3] [none, some [.ok 20]] [some [.ok 60, .ok .nan]] := by
  intro axes
  have h : Increasing [1, 2, 3, 4] := ⟨by decide +kernel, by decide +kernel⟩
  have hinside : [1, 2, 3, 4].map (isInside (.number 2) (.exact 3)) = [false, true, true, false] := by
    decide +kernel
  simp only [List.map_cons, List.map_nil, List.cons.injEq, and_true] at hinside
  obtain ⟨h1, h2, h3, h4⟩ := hinside
  refine ⟨h, (chartBounds_of_window h (.number 2) (.exact 3) _ _ _ _ _ _ _ _).1.trans ?_⟩
  simp [valuesWhere, h1, h2, h3, h4, axes]

end Axis

end HashrateChart
