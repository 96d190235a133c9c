/-
Showing and hiding curves.

What is visible decides two things of the axes: which curve the hashrate axis follows,
and for which others it is widened. So with one base curve everything else is settled
(`chartScales_of_base`), and what is left is the widening, which on rational numbers
goes at most a share of the range beyond the base axis and never inside it
(`softened_number`).
-/
import HashrateChart.Proofs.Axis.Bounds
import HashrateChart.Proofs.Axis.Scales

namespace HashrateChart

open Arithmetic

open Exact (number)

namespace Axis

variable {α : Type} [Arithmetic α]

/-! ## One base curve -/

/-- The finite values of a curve at the positions of a window. -/
def shown (range : Nat × Nat) (values : List α) : List α := (part range values).filter isFinite

/-- The visible hashrate channels beside the base. -/
def otherChannels (visibility : List Bool) : List Channel :=
  Channel.hashrates.filter fun c => c ≠ baseChannel visibility && isVisible visibility c

/-- The base axis widened for the other visible curves. -/
def softened (labels : List α) (data : PerChannel (List α)) (range : Nat × Nat) (share : α)
    (visibility : List Bool) (base : AxisBounds α) : AxisBounds α :=
  if eq share zero || (otherChannels visibility).isEmpty || labels.isEmpty then base
  else widened base share ((otherChannels visibility).flatMap fun c => shown range (data.get c))

variable (labels : List α) (xMin xMax : Edge α)

theorem windowIndices_ok :
    windowIndices (labels.map .ok) (.ok xMin) (.ok xMax) = .ok (indicesBetween labels xMin xMax) := by
  cases labels with
  | nil =>
    have hnone (goesRight : α → Bool) : bisect goesRight #[] 0 0 = 0 := by
      rw [bisect]
      rfl
    rw [List.map_nil, windowIndices_nil, indicesBetween]
    simp only [List.size_toArray, List.length_nil, hnone]
    rfl
  | cons t rest =>
    rw [windowIndices, readAll_ok]
    rfl

theorem windowed_channelSeries (data : PerChannel (List α)) (channels : List Channel) (range : Nat × Nat) :
    windowed (channelSeries data channels) range =
      .ok (channels.flatMap fun c => shown range (data.get c)) := by
  have hseries : channelSeries data channels = (channels.map data.get).map readable := by
    rw [channelSeries, List.map_map]
    rfl
  rw [hseries, windowed_readable, List.map_map, List.filter_flatten, List.map_map, ← List.flatMap_def]
  rfl

theorem shown_of_windowed (values : List α) (range : Nat × Nat) :
    windowed [readable values] range = .ok (shown range values) := by
  have hone := windowed_readable [values] range
  rw [List.map_singleton, List.map_singleton, List.flatten_singleton] at hone
  exact hone

/-- The axis of the base curve alone. -/
theorem chartBounds_base (base : List α) (pad : Padding α) {ticks : Json} {n : ℤ}
    (hticks : normalizeTicks ticks = .ok n) (minStep below above : Raw α) (live : Raw (Option (Edge α))) :
    chartBounds (labels.map .ok) [readable base] [] (.ok xMin) (.ok xMax) pad ticks minStep below above live =
      (hashrateBounds (shown (indicesBetween labels xMin xMax) base) pad n minStep live).map
        fun hashrate => ⟨hashrate, none⟩ := by
  have hnone : windowed ([] : List (SeriesLike α)) (indicesBetween labels xMin xMax) = .ok [] := rfl
  rw [chartBounds, bind_of_ok (windowIndices_ok labels xMin xMax), bind_of_ok hticks,
    bind_of_ok (shown_of_windowed base _), bind_of_ok hnone]
  cases hashrateBounds (shown (indicesBetween labels xMin xMax) base) pad n minStep live <;> rfl

theorem softInclude_base (data : PerChannel (List α)) (base : SeriesLike α) (pad : Padding α) (ticks : Json)
    (minStep : Raw α) (visibility : List Bool) (live : Raw (Option (Edge α))) (share : α)
    (bounds : AxisBounds α) :
    softInclude (labels.map .ok) (.ok xMin) (.ok xMax) pad ticks minStep base
        (channelSeries data (otherChannels visibility)) live (.ok share) (some bounds) =
      .ok (some (softened labels data (indicesBetween labels xMin xMax) share visibility bounds)) := by
  have hothers : (channelSeries data (otherChannels visibility)).isEmpty = (otherChannels visibility).isEmpty := by
    rw [channelSeries, List.isEmpty_map]
  simp only [softInclude, softened, bind, Except.bind, pure, Except.pure, windowIndices_ok,
    windowed_channelSeries, List.isEmpty_map, hothers]
  split <;> rfl

theorem sensorBounds_ok (vreg asic : List α) {ticks : Json} {n : ℤ} (hticks : normalizeTicks ticks = .ok n)
    (below above : α) :
    ∃ axis, sensorBounds (labels.map .ok) (readable vreg) (readable asic) (.ok xMin) (.ok xMax) ticks
      (.ok below) (.ok above) = .ok axis := by
  have hwindowed := windowed_readable [vreg, asic] (indicesBetween labels xMin xMax)
  rw [List.map_cons, List.map_singleton] at hwindowed
  rw [sensorBounds, bind_of_ok (windowIndices_ok labels xMin xMax), bind_of_ok hwindowed, bind_of_ok hticks]
  unfold temperatureBounds
  split
  · exact ⟨_, rfl⟩
  · exact ⟨_, rfl⟩

/-- A remembered range that can be read. -/
def remembered (previous : Option (α × α)) : Option (Raw α × Raw α) :=
  previous.map fun range => (.ok range.1, .ok range.2)

theorem sticky_ok (newMin newMax : α) (previous : Option (α × α)) (hysteresis : α) :
    ∃ range, sticky newMin newMax (remembered previous) (.ok hysteresis) = .ok range := by
  cases previous with
  | none => exact ⟨_, rfl⟩
  | some range =>
    simp only [sticky, stickyBounds, remembered, Option.map_some, bind, Except.bind]
    by_cases hlo : isFinite range.1
    · by_cases hhi : isFinite range.2
      · simp only [hlo, hhi]
        exact ⟨_, rfl⟩
      · simp only [hlo, hhi]
        exact ⟨_, rfl⟩
    · simp only [hlo]
      exact ⟨_, rfl⟩

/-- A picture with a hashrate axis, for the temperature axis that the data have. -/
def pictured (rates : Option (AxisBounds α)) (previous : Option (Raw α × Raw α)) (hysteresis : Raw α)
    (axis : Option (AxisBounds α)) : Result (ChartScales α) :=
  axis.elim (.ok ⟨⟨rates, none⟩, none⟩) fun t =>
    (sticky t.min t.max previous hysteresis).map fun range =>
      ⟨⟨rates, some { t with min := range.1, max := range.2 }⟩, some range⟩

theorem pictured_ok (previous : Option (α × α)) (hysteresis : α) (axis : Option (AxisBounds α)) :
    ∃ temperature memory, ∀ rates,
      pictured rates (remembered previous) (.ok hysteresis) axis = .ok ⟨⟨rates, temperature⟩, memory⟩ := by
  cases axis with
  | none => exact ⟨none, none, fun rates => rfl⟩
  | some t =>
    obtain ⟨range, hrange⟩ := sticky_ok t.min t.max previous hysteresis
    refine ⟨some { t with min := range.1, max := range.2 }, some range, fun rates => ?_⟩
    rw [pictured, Option.elim_some, hrange]
    rfl

/-- The picture of a choice of what is visible: what is visible is in its hashrate axis only. -/
theorem chartScales_eq_pictured {data : PerChannel (List α)} {visibility : List Bool} {s : ScaleSettings α}
    {n : ℤ} {hashrate axis : Option (AxisBounds α)} {share : α} (hticks : normalizeTicks s.maxTicks = .ok n)
    (hbase : hashrateBounds (shown (indicesBetween labels xMin xMax) (data.get (baseChannel visibility))) s.pad n
      s.minStep s.live = .ok hashrate)
    (hshare : s.softShare = .ok share)
    (haxis : sensorBounds (labels.map .ok) (readable (data.get .vregTemp)) (readable (data.get .asicTemp))
      (.ok xMin) (.ok xMax) s.maxTicks s.padBelow s.padAbove = .ok axis)
    (previous : Option (Raw α × Raw α)) :
    chartScales (labels.map .ok) (.ok xMin) (.ok xMax) (allSeries data) visibility s previous =
      pictured (hashrate.map (softened labels data (indicesBetween labels xMin xMax) share visibility))
        previous s.hysteresis axis := by
  have hvreg : (allSeries data).vregTemp = .ok (readable (data.get .vregTemp)) := rfl
  have hasic : (allSeries data).asicTemp = .ok (readable (data.get .asicTemp)) := rfl
  have hfirst := chartBounds_base labels xMin xMax (data.get (baseChannel visibility)) s.pad hticks
    s.minStep (.ok (whole 1)) (.ok (whole 2)) s.live
  have hsoft (bounds : AxisBounds α) := softInclude_base labels xMin xMax data
    (readable (data.get (baseChannel visibility))) s.pad s.maxTicks s.minStep visibility s.live share bounds
  rw [hbase] at hfirst
  rw [otherChannels] at hsoft
  unfold chartScales
  simp only [get_allSeries, readAll_otherSeries, hvreg, hasic, hshare, bind, Except.bind]
  rw [hfirst]
  simp only [Except.map, List.isEmpty_map, haxis]
  have hrest (rates : Option (AxisBounds α)) (t : AxisBounds α) :
      pictured rates previous s.hysteresis (some t) = (do
        let range ← sticky t.min t.max previous s.hysteresis
        return ⟨⟨rates, some { t with min := range.1, max := range.2 }⟩, some range⟩) := by
    rw [pictured, Option.elim_some]
    cases sticky t.min t.max previous s.hysteresis <;> rfl
  cases hashrate with
  | none =>
    cases axis with
    | none => rfl
    | some t => exact (hrest none t).symm
  | some bounds =>
    simp only [Option.isSome_some, Bool.true_and, hsoft, Option.map_some]
    cases hempty : labels.isEmpty with
    | false =>
      cases axis with
      | none => rfl
      | some t => exact (hrest _ t).symm
    | true =>
      have hsame : softened labels data (indicesBetween labels xMin xMax) share visibility bounds = bounds := by
        rw [softened, hempty, Bool.or_true, if_pos rfl]
      rw [hsame]
      cases axis with
      | none => rfl
      | some t => exact (hrest _ t).symm

/-- **One base curve.** With the same base curve the temperature axis and the range to remember are the
same, and the hashrate axis is the base axis, widened for what is visible. -/
theorem chartScales_of_base {data : PerChannel (List α)} {base : Channel} {s : ScaleSettings α} {n : ℤ}
    {hashrate : Option (AxisBounds α)} {share below above hysteresis : α}
    (hticks : normalizeTicks s.maxTicks = .ok n)
    (hbase : hashrateBounds (shown (indicesBetween labels xMin xMax) (data.get base)) s.pad n s.minStep s.live =
      .ok hashrate)
    (hshare : s.softShare = .ok share) (hbelow : s.padBelow = .ok below) (habove : s.padAbove = .ok above)
    (hhysteresis : s.hysteresis = .ok hysteresis) (previous : Option (α × α)) :
    ∃ temperature memory, ∀ visibility, baseChannel visibility = base →
      chartScales (labels.map .ok) (.ok xMin) (.ok xMax) (allSeries data) visibility s (remembered previous) =
        .ok ⟨⟨hashrate.map (softened labels data (indicesBetween labels xMin xMax) share visibility),
          temperature⟩, memory⟩ := by
  obtain ⟨axis, haxis⟩ := sensorBounds_ok labels xMin xMax (data.get .vregTemp) (data.get .asicTemp) hticks below
    above
  rw [← hbelow, ← habove] at haxis
  obtain ⟨temperature, memory, hpictured⟩ := pictured_ok previous hysteresis axis
  refine ⟨temperature, memory, fun visibility hv => ?_⟩
  rw [← hv] at hbase
  rw [chartScales_eq_pictured labels xMin xMax hticks hbase hshare haxis, hhysteresis, hpictured]

/-! ## Widening by rational numbers -/

theorem mem_foldl_extremes (rest : List ℚ) (lo hi : ℚ) :
    ∃ l h : ℚ, (rest.map number).foldl (fun r x => (smaller r.1 x, larger r.2 x)) (number lo, number hi) =
        (number l, number h) ∧ l ∈ lo :: rest ∧ h ∈ hi :: rest := by
  induction rest generalizing lo hi with
  | nil => exact ⟨lo, hi, rfl, List.mem_cons_self, List.mem_cons_self⟩
  | cons x rest ih =>
    obtain ⟨l, h, hfold, hl, hh⟩ := ih (min lo x) (max hi x)
    refine ⟨l, h, ?_, ?_, ?_⟩
    · rw [List.map_cons, List.foldl_cons, Exact.smaller_number, Exact.larger_number, hfold]
    · rcases List.mem_cons.mp hl with rfl | hl
      · rcases min_choice lo x with hmin | hmin <;> simp [hmin]
      · exact List.mem_cons_of_mem _ (List.mem_cons_of_mem _ hl)
    · rcases List.mem_cons.mp hh with rfl | hh
      · rcases max_choice hi x with hmax | hmax <;> simp [hmax]
      · exact List.mem_cons_of_mem _ (List.mem_cons_of_mem _ hh)

/-- The extremes of rational numbers are among them. -/
theorem extremes?_number {qs : List ℚ} (hne : qs ≠ []) :
    ∃ lo hi : ℚ, extremes? (qs.map number) = some (number lo, number hi) ∧ lo ∈ qs ∧ hi ∈ qs := by
  cases qs with
  | nil => exact absurd rfl hne
  | cons q rest =>
    obtain ⟨lo, hi, hfold, hlo, hhi⟩ := mem_foldl_extremes rest q q
    exact ⟨lo, hi, congrArg some hfold, hlo, hhi⟩

/-- The rational numbers that a window shows of a curve. -/
def shownNumbers (range : Nat × Nat) (values : List Exact) : List ℚ :=
  (part range values).filterMap Exact.value?

theorem shown_eq (range : Nat × Nat) (values : List Exact) :
    shown range values = (shownNumbers range values).map number := Exact.filter_isFinite _

/-- A range encloses another one and goes beyond it by at most some room on either side. -/
structure Widens (lo hi room least most : ℚ) : Prop where
  least_le : least ≤ lo
  le_most : hi ≤ most
  sub_le : lo - room ≤ least
  le_add : most ≤ hi + room

variable {lo hi room : ℚ}

theorem Widens.self (h : 0 ≤ room) : Widens lo hi room lo hi :=
  ⟨le_refl lo, le_refl hi, by linarith, by linarith⟩

/-- Two ranges around one are close to each other. -/
theorem Widens.close {least most least' most' : ℚ} (h : Widens lo hi room least most)
    (h' : Widens lo hi room least' most') : |least - least'| ≤ room ∧ |most - most'| ≤ room := by
  obtain ⟨h₁, h₂, h₃, h₄⟩ := h
  obtain ⟨h₁', h₂', h₃', h₄'⟩ := h'
  exact ⟨abs_sub_le_iff.mpr ⟨by linarith, by linarith⟩, abs_sub_le_iff.mpr ⟨by linarith, by linarith⟩⟩

theorem room_nonneg {share : ℚ} (h : 0 ≤ share) (lo hi : ℚ) : 0 ≤ max 1 (hi - lo) * share :=
  mul_nonneg (le_max_of_le_left zero_le_one) h

/-- What the bounds of an axis that is softly widened are: around the bounds that it had, and not below
zero for numbers that are not. -/
theorem widened_number (lo hi : ℚ) (step : Option Exact) (ticks : Option ℤ) {share : ℚ} (h : 0 ≤ share)
    (qs : List ℚ) :
    ∃ least most : ℚ, widened ⟨number lo, number hi, step, ticks⟩ (number share) (qs.map number) =
        ⟨number least, number most, step, ticks⟩ ∧
      Widens lo hi (max 1 (hi - lo) * share) least most ∧
      (0 ≤ lo → (∀ q ∈ qs, 0 ≤ q) → 0 ≤ least) := by
  have hroom := room_nonneg h lo hi
  by_cases hne : qs = []
  · exact ⟨lo, hi, by rw [hne]; rfl, .self hroom, fun hlo _ => hlo⟩
  · obtain ⟨l, g, hextremes, hl, -⟩ := extremes?_number hne
    refine ⟨max (lo - max 1 (hi - lo) * share) (min lo l),
      min (hi + max 1 (hi - lo) * share) (max hi g), ?_, ?_, ?_⟩
    · simp only [widened, hextremes, Exact.whole_eq, Int.cast_one, Exact.number_sub, Exact.larger_number,
        Exact.smaller_number, Exact.number_mul, Exact.number_add]
    · exact ⟨max_le (by linarith) (min_le_left _ _), le_min (by linarith) (le_max_left _ _), le_max_left _ _,
        min_le_left _ _⟩
    · exact fun hlo hqs => le_max_of_le_right (le_min hlo (hqs l hl))

/-- The values that a window shows of the visible hashrate curves are not negative. -/
def NoneNegative (data : PerChannel (List Exact)) (range : Nat × Nat) (visibility : List Bool) : Prop :=
  ∀ c ∈ Channel.hashrates, isVisible visibility c → ∀ q ∈ shownNumbers range (data.get c), 0 ≤ q

theorem softened_number (labels : List Exact) (data : PerChannel (List Exact)) (range : Nat × Nat) {share : ℚ}
    (h : 0 ≤ share) (visibility : List Bool) (lo hi : ℚ) (step : Option Exact) (ticks : Option ℤ) :
    ∃ least most : ℚ,
      softened labels data range (number share) visibility ⟨number lo, number hi, step, ticks⟩ =
        ⟨number least, number most, step, ticks⟩ ∧
      Widens lo hi (max 1 (hi - lo) * share) least most ∧
      (0 ≤ lo → NoneNegative data range visibility → 0 ≤ least) := by
  unfold softened
  split
  · exact ⟨lo, hi, rfl, .self (room_nonneg h lo hi), fun hlo _ => hlo⟩
  · have hothers : ((otherChannels visibility).flatMap fun c => shown range (data.get c)) =
        ((otherChannels visibility).flatMap fun c => shownNumbers range (data.get c)).map number := by
      simp only [shown_eq, List.map_flatMap]
    rw [hothers]
    obtain ⟨least, most, hwidened, hwidens, hzero⟩ := widened_number lo hi step ticks h
      ((otherChannels visibility).flatMap fun c => shownNumbers range (data.get c))
    refine ⟨least, most, hwidened, hwidens, fun hlo hnone => hzero hlo fun q hq => ?_⟩
    obtain ⟨c, hc, hq⟩ := List.mem_flatMap.mp hq
    obtain ⟨hmem, hvisible⟩ := List.mem_filter.mp hc
    exact hnone c hmem (Bool.and_eq_true_iff.mp hvisible).2 q hq

/-! ## Toggling -/

/-- Settings that are finite numbers, but for the live hashrate and the room of the temperature axis,
which may be anything. -/
def exactSettings (pad : Padding ℚ) (maxTicks : Json) (minStep share : ℚ) (live : Option (Edge Exact))
    (below above hysteresis : Exact) : ScaleSettings Exact where
  pad := pad.exact
  maxTicks := maxTicks
  minStep := .ok (number minStep)
  live := .ok live
  softShare := .ok (number share)
  padBelow := .ok below
  padAbove := .ok above
  hysteresis := .ok hysteresis

/-- Two pictures have one scale: the same temperature axis, and hashrate axes with the same ticks that
are both around the axis of the base curve. -/
structure SameScale (share : ℚ) (base : Option (AxisBounds Exact)) (first second : ChartScales Exact) :
    Prop where
  temperature : first.bounds.temperature = second.bounds.temperature
  memory : first.memory = second.memory
  hashrate : (base = none ∧ first.bounds.hashrate = none ∧ second.bounds.hashrate = none) ∨
    ∃ (lo hi step least most least' most' : ℚ) (ticks : ℤ),
      base = some ⟨number lo, number hi, some (number step), some ticks⟩ ∧
      first.bounds.hashrate = some ⟨number least, number most, some (number step), some ticks⟩ ∧
      second.bounds.hashrate = some ⟨number least', number most', some (number step), some ticks⟩ ∧
      Widens lo hi (max 1 (hi - lo) * share) least most ∧ Widens lo hi (max 1 (hi - lo) * share) least' most' ∧
      |least - least'| ≤ max 1 (hi - lo) * share ∧ |most - most'| ≤ max 1 (hi - lo) * share

/-- The hashrate axis of a picture does not start below zero. -/
def StartsAtZero (scales : ChartScales Exact) : Prop :=
  ∀ axis ∈ scales.bounds.hashrate, ∃ least : ℚ, axis.min = number least ∧ 0 ≤ least

/-- The axis of a curve of exact numbers starts at zero or above; a curve without finite numbers in the
window has none. -/
theorem hashrateBounds_shown (values : List Exact) (range : Nat × Nat) (pad : Padding ℚ) (n : ℤ) (minStep : ℚ)
    (live : Option (Edge Exact)) :
    hashrateBounds (shown range values) pad.exact n (.ok (number minStep)) (.ok live) = .ok none ∨
    ∃ lo hi step : ℚ, 0 ≤ lo ∧
      hashrateBounds (shown range values) pad.exact n (.ok (number minStep)) (.ok live) =
        .ok (some ⟨number lo, number hi, some (number step), some n⟩) := by
  rw [shown_eq]
  by_cases hne : shownNumbers range values = []
  · rw [hne]
    exact .inl rfl
  · obtain ⟨lo, hi, step, -, -, -, -, -, -, -, hbounds⟩ := hashrateBounds_number hne pad n minStep live
    exact .inr ⟨_, _, step, le_max_left _ _, hbounds⟩

theorem eq_zero_whole {i : ℤ} (h : Binary64.IsExact i) (hi : i ≠ 0) : (whole i : Binary64).eq 0 = false := by
  have hunits : (0 : ℤ) < unitsPerOne := by exact_mod_cast unitsPerOne_pos
  rw [Binary64.eq_of_keys (Binary64.key?_whole h) Binary64.key?_zero]
  exact decide_eq_false (Int.mul_ne_zero hi (Int.ne_of_gt hunits))

-- The number is any here: the number that an integer is would be computed, digit by digit.
theorem normalizeTicks_of_nearest {ticks : Json} {x : Binary64} {n : ℤ} (hreal : ticks.toReal = .ok x)
    (hzero : x.eq 0 = false) (hn : x.nearest = .ok n) (h : 2 ≤ n) : normalizeTicks ticks = .ok n := by
  rw [normalizeTicks, hreal]
  simp only [pure, Except.pure, bind, Except.bind, hzero, Bool.false_eq_true, if_false, hn]
  rw [max_eq_right h]

/-- A wanted number of ticks that is a whole number, two or more. -/
theorem normalizeTicks_int {i : ℤ} (h : Binary64.IsExact i) (hi : 2 ≤ i) : normalizeTicks (.int i) = .ok i :=
  normalizeTicks_of_nearest (Binary64.ofInt?_whole h) (eq_zero_whole h (by omega)) (Binary64.nearest_whole h) hi

theorem chartScales_of_no_ticks {labels : List Exact} {data : PerChannel (List Exact)} {xMin xMax : Edge Exact}
    {s : ScaleSettings Exact} {e : Fault} (h : normalizeTicks s.maxTicks = .error e) (visibility : List Bool)
    (previous : Option (Raw Exact × Raw Exact)) :
    chartScales (labels.map .ok) (.ok xMin) (.ok xMax) (allSeries data) visibility s previous = .error e := by
  unfold chartScales
  simp only [get_allSeries, chartBounds, windowIndices_ok, h, bind, Except.bind]

/-- **Toggling a curve never rescales the chart.** Two choices of what is visible that have one base
curve fail alike, for ticks that are no number, or give pictures on one scale, neither of which starts
below zero for visible hashrates that are not negative. -/
theorem chartScales_of_toggle (labels : List Exact) (data : PerChannel (List Exact)) (xMin xMax : Edge Exact)
    (pad : Padding ℚ) (maxTicks : Json) (minStep : ℚ) {share : ℚ} (hshare : 0 ≤ share)
    (live : Option (Edge Exact)) (below above hysteresis : Exact) (previous : Option (Exact × Exact))
    {v w : List Bool} (hbase : baseChannel v = baseChannel w) :
    let scales (visibility : List Bool) :=
      chartScales (labels.map .ok) (.ok xMin) (.ok xMax) (allSeries data) visibility
        (exactSettings pad maxTicks minStep share live below above hysteresis) (remembered previous)
    (∀ e, normalizeTicks maxTicks = .error e → scales v = .error e ∧ scales w = .error e) ∧
    ∀ n, normalizeTicks maxTicks = .ok n → ∃ base first second,
      chartBounds (labels.map .ok) [readable (data.get (baseChannel v))] [] (.ok xMin) (.ok xMax) pad.exact
        maxTicks (.ok (number minStep)) (.ok (whole 1)) (.ok (whole 2)) (.ok live) = .ok ⟨base, none⟩ ∧
      scales v = .ok first ∧ scales w = .ok second ∧ SameScale share base first second ∧
      (NoneNegative data (indicesBetween labels xMin xMax) v → StartsAtZero first) ∧
      (NoneNegative data (indicesBetween labels xMin xMax) w → StartsAtZero second) := by
  intro scales
  refine ⟨fun e he => ⟨chartScales_of_no_ticks he v _, chartScales_of_no_ticks he w _⟩, fun n hn => ?_⟩
  let range := indicesBetween labels xMin xMax
  have hfirst := chartBounds_base labels xMin xMax (data.get (baseChannel v))
    pad.exact hn (.ok (number minStep)) (.ok (whole 1)) (.ok (whole 2)) (.ok live)
  have hscales (hashrate : Option (AxisBounds Exact))
      (hrates : hashrateBounds (shown range (data.get (baseChannel v))) pad.exact n (.ok (number minStep))
        (.ok live) = .ok hashrate) :=
    chartScales_of_base labels xMin xMax
      (s := exactSettings pad maxTicks minStep share live below above hysteresis) hn hrates rfl rfl rfl rfl previous
  rcases hashrateBounds_shown (data.get (baseChannel v)) range pad n minStep live with
    hrates | ⟨lo, hi, step, hlo, hrates⟩
  · rw [hrates] at hfirst
    obtain ⟨temperature, memory, hall⟩ := hscales _ hrates
    refine ⟨none, _, _, hfirst, hall v rfl, hall w hbase.symm, ⟨rfl, rfl, .inl ⟨rfl, rfl, rfl⟩⟩, ?_, ?_⟩
    · exact fun _ axis haxis => nomatch haxis
    · exact fun _ axis haxis => nomatch haxis
  · rw [hrates] at hfirst
    obtain ⟨temperature, memory, hall⟩ := hscales _ hrates
    obtain ⟨least, most, hsoft, hwidens, hzero⟩ :=
      softened_number labels data range hshare v lo hi (some (number step)) (some n)
    obtain ⟨least', most', hsoft', hwidens', hzero'⟩ :=
      softened_number labels data range hshare w lo hi (some (number step)) (some n)
    obtain ⟨hleast, hmost⟩ := hwidens.close hwidens'
    refine ⟨_, _, _, hfirst, hall v rfl, hall w hbase.symm, ⟨rfl, rfl, .inr ?_⟩, ?_, ?_⟩
    · exact ⟨lo, hi, step, least, most, least', most', n, rfl, congrArg some hsoft, congrArg some hsoft',
        hwidens, hwidens', hleast, hmost⟩
    · intro hnone axis haxis
      cases (congrArg some hsoft).symm.trans haxis
      exact ⟨least, rfl, hzero hlo hnone⟩
    · intro hnone axis haxis
      cases (congrArg some hsoft').symm.trans haxis
      exact ⟨least', rfl, hzero' hlo hnone⟩

/-- Two samples of two curves, one of them shown or not. -/
theorem chartScales_of_toggle_second :
    let data : PerChannel (List Exact) :=
      { hashrate1m := [number 1000000000000, number 2000000000000], hashrate10m := [number 0, .gap],
        hashrate1h := [], hashrate1d := [], vregTemp := [number 60, number 61], asicTemp := [] }
    let scales (visibility : List Bool) :=
      chartScales ([number 0, number 1].map .ok) (.ok (.exact 0)) (.ok (.number (number 1))) (allSeries data)
        visibility (exactSettings ⟨1 / 20, none, none, 0, 1 / 200, 1 / 4⟩ (.int 5) (1 / 10) (1 / 10) none
          (number 1) (number 2) (number 0)) (remembered none)
    baseChannel [true] = baseChannel [true, true] ∧ (0 : ℚ) ≤ 1 / 10 ∧
    ∃ base first second, scales [true] = .ok first ∧ scales [true, true] = .ok second ∧
      SameScale (1 / 10) base first second := by
  intro data scales
  refine ⟨rfl, by norm_num, ?_⟩
  obtain ⟨base, first, second, -, hfirst, hsecond, hsame, -⟩ :=
    (chartScales_of_toggle [number 0, number 1] data (.exact 0) (.number (number 1))
      ⟨1 / 20, none, none, 0, 1 / 200, 1 / 4⟩ (.int 5) (1 / 10) (by norm_num : (0 : ℚ) ≤ 1 / 10) none
      (number 1) (number 2) (number 0) none (v := [true]) (w := [true, true]) rfl).2 5
      (normalizeTicks_int (by decide) (by decide))
  exact ⟨base, first, second, hfirst, hsecond, hsame⟩

end Axis

end HashrateChart
