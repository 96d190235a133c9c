/-
What a picture shows and what a commit drops.

A commit drops the rows before the longest window, a picture shows the rows of a
window that is brought between the limits of the zoom. When these limits are in
order no window is longer than the longest one, so a commit drops nothing that a
picture of the same moment would show: the picture has the same window and the
same axes with and without it. When they are not, the longest window is shorter
than the only one that is shown, and rows disappear in front of the viewer.
-/
import HashrateChart.Proofs.Axis.Scales
import HashrateChart.Proofs.Chart.Order
import HashrateChart.Proofs.Zoom

namespace HashrateChart

open Binary64 (IsExact)

/-- A number that is an integer compares with integers as that integer. -/
theorem Number.real_le_int {x : Binary64} {y t : Int} (hy : IsExact y) (hx : x.key? = some (y * unitsPerOne)) :
    (Number.real x).le (.int t) = decide (y ≤ t) := by
  have hpos : (0 : Int) < unitsPerOne := by exact_mod_cast unitsPerOne_pos
  cases x with
  | nan => cases hx
  | infinite s =>
    exfalso
    have hlimit : y.natAbs * unitsPerOne < magnitudeLimit := (Binary64.representable_whole hy).1
    have hkey : Binary64.signed s magnitudeLimit = y * unitsPerOne := Option.some.inj hx
    have habs := congrArg Int.natAbs hkey
    rw [Int.natAbs_mul, Int.natAbs_natCast] at habs
    cases s <;> simp only [Binary64.signed, Bool.false_eq_true, if_false, if_true, Int.natAbs_neg,
      Int.natAbs_natCast] at habs <;> omega
  | finite s m =>
    have hkey : Binary64.signed s m.units = y * unitsPerOne := Option.some.inj hx
    have hle : (Number.real (.finite s m)).le (.int t) =
        decide (Binary64.signed s m.units ≤ t * unitsPerOne) := rfl
    rw [hle, hkey]
    exact decide_eq_decide.mpr (Int.mul_le_mul_right hpos)

namespace Chart

/-- The stretch of time that a picture shows now: its length and its ends. -/
def span (p : Chart) (now : Int) (window : Json) : Result (Int × Number × Number) := do
  let zoom := p.config.zoom
  let window ← Zoom.clamp (if window.isNull then .int zoom.minWindow else window) zoom
  let (xMin, xMax) ← Axis.xWindow (p.series.lastLabel?.map Arithmetic.ofInt?) (.int window) (.ok (.int now))
  return (window, xMin, xMax)

/-- The axes of a picture. -/
def scales (p : Chart) (now : Int) (window : Json) (visibility : Option (List Bool)) :
    Result (ChartScales Binary64) := do
  let (_, xMin, xMax) ← p.span now window
  Axis.chartScales (p.series.labels.map Arithmetic.ofInt?) (.ok (.ofNumber xMin)) (.ok (.ofNumber xMax))
    (Axis.allSeries p.series.data) (visibility.getD p.defaultVisibility) (← p.scaleSettings)
    (p.tempMemory.map fun (lo, hi) => (.ok lo, .ok hi))

variable {p q : Chart} {now : Int} {window : Json} {visibility : Option (List Bool)}

/-- A picture has this stretch of time and these axes. -/
theorem frame_ok {f : Frame} (h : (frame now window visibility).runOn p = (.ok f, q)) :
    p.span now window = .ok (f.window, f.xMin, f.xMax) ∧
      ∃ memory, p.scales now window visibility = .ok ⟨f.bounds, memory⟩ := by
  obtain ⟨_, _, hget, h⟩ := Action.exists_of_runOn_bind h
  cases hget
  obtain ⟨w, hw, h⟩ := Action.exists_of_runOn_liftM_bind h
  obtain ⟨⟨xMin, xMax⟩, hx, h⟩ := Action.exists_of_runOn_liftM_bind h
  obtain ⟨scales, hscales, h⟩ := Action.exists_of_runOn_liftM_bind h
  obtain ⟨_, _, -, h⟩ := Action.exists_of_runOn_bind h
  obtain ⟨options, -, h⟩ := Action.exists_of_runOn_liftM_bind h
  obtain ⟨curve, -, h⟩ := Action.exists_of_runOn_liftM_bind h
  obtain ⟨label, -, h⟩ := Action.exists_of_runOn_liftM_bind h
  cases h
  have hspan : p.span now window = .ok (w, xMin, xMax) := (bind_of_ok hw _).trans (bind_of_ok hx _)
  exact ⟨hspan, scales.memory, (bind_of_ok hspan _).trans hscales⟩

theorem span_ok {w : Int} {xMin xMax : Number} (h : p.span now window = .ok (w, xMin, xMax)) :
    Zoom.clamp (if window.isNull then .int p.config.zoom.minWindow else window) p.config.zoom = .ok w ∧
      Axis.xWindow (p.series.lastLabel?.map Arithmetic.ofInt?) (.int w) (.ok (.int now)) = .ok (xMin, xMax) := by
  obtain ⟨_, hw, h⟩ := exists_of_bind h
  obtain ⟨_, hx, h⟩ := exists_of_bind h
  cases h
  exact ⟨hw, hx⟩

/-! ## Trimming -/

/-- How many rows a commit drops. -/
def trimmed (p : Chart) (now : Int) : Nat := p.series.olderCount (now - max 0 p.config.zoom.maxWindow)

theorem series_trim (p : Chart) (now : Int) :
    (p.trim now).series =
      ⟨p.series.labels.drop (p.trimmed now), p.series.data.map (·.drop (p.trimmed now))⟩ := rfl

theorem lt_of_mem_trimmed {t : Int} (h : t ∈ p.series.labels.take (p.trimmed now)) :
    t < now - max 0 p.config.zoom.maxWindow := by
  have htake : p.series.labels.take (p.trimmed now) =
      p.series.labels.takeWhile (· < now - max 0 p.config.zoom.maxWindow) :=
    (List.prefix_iff_eq_take.mp (List.takeWhile_prefix _)).symm
  rw [htake] at h
  simpa using List.all_eq_true.mp List.all_takeWhile t h

/-- What is dropped is before the window. -/
theorem not_visible_of_trimmed {w t : Int} {xMin xMax : Number} (hin : p.config.zoom.InOrder)
    (hexact : p.config.zoom.IsExact) (hlabels : ∀ t ∈ p.series.labels, IsExact t)
    (hspan : p.span now window = .ok (w, xMin, xMax)) (ht : t ∈ p.series.labels.take (p.trimmed now)) :
    xMin.le (.int t) = false := by
  obtain ⟨hw, hx⟩ := span_ok hspan
  obtain ⟨hlow, hhigh⟩ := Zoom.clamp_of_inOrder hin hexact hw
  have hexactw := Zoom.isExact_of_clamp hin hexact hw
  have htrim := lt_of_mem_trimmed ht
  have hlt : t < now - w := by omega
  have hle : decide (now - w ≤ t) = false := decide_eq_false (by omega)
  cases hl : p.series.lastLabel? with
  | none =>
    rw [hl, Option.map_none, Axis.xWindow_of_no_label hexactw (by omega)] at hx
    cases hx
    exact hle
  | some last =>
    have hlast : IsExact last := hlabels last (List.mem_of_getLast? hl)
    rw [hl, Option.map_some, Axis.xWindow_of_label hexactw (by omega) hlast] at hx
    split at hx
    · next hlater =>
      cases hx
      have htlabel : IsExact t := hlabels t (List.mem_of_mem_take ht)
      have hdiff : IsExact (last - w) := by
        unfold IsExact at *
        omega
      have hkey := (Binary64.key?_whole_sub hlast hexactw).trans (Binary64.key?_whole hdiff)
      rw [Number.real_le_int hdiff hkey]
      exact decide_eq_false (by omega)
    · cases hx
      exact hle

theorem lastLabel?_trim (p : Chart) (now : Int) :
    (p.trim now).series.lastLabel? =
      if p.series.labels.length ≤ p.trimmed now then none else p.series.lastLabel? := by
  rw [series_trim]
  exact List.getLast?_drop

/-- Dropping rows does not move the window: when the last one goes, it was before now. -/
theorem xWindow_trim {w : Int} (hw : 0 ≤ w) (hexact : IsExact w) (hlabels : ∀ t ∈ p.series.labels, IsExact t) :
    Axis.xWindow ((p.trim now).series.lastLabel?.map Arithmetic.ofInt?) (.int w) (.ok (.int now)) =
      Axis.xWindow (p.series.lastLabel?.map Arithmetic.ofInt?) (.int w) (.ok (.int now)) := by
  rw [lastLabel?_trim]
  split
  · next hall =>
    cases hl : p.series.lastLabel? with
    | none => rfl
    | some last =>
      have hmem : last ∈ p.series.labels := List.mem_of_getLast? hl
      have hlt : last < now - max 0 p.config.zoom.maxWindow := by
        refine lt_of_mem_trimmed ?_
        rw [List.take_of_length_le hall]
        exact hmem
      rw [Option.map_none, Option.map_some, Axis.xWindow_of_no_label hexact hw,
        Axis.xWindow_of_label hexact hw (hlabels last hmem), if_neg (by omega)]
  · rfl

/-- A picture shows the same stretch of time after a commit. -/
theorem span_trim (hin : p.config.zoom.InOrder) (hexact : p.config.zoom.IsExact)
    (hlabels : ∀ t ∈ p.series.labels, IsExact t) (window : Json) :
    (p.trim now).span now window = p.span now window :=
  bind_congr_of_ok fun _ hw => congrArg (· >>= _) (xWindow_trim
    (Int.le_of_lt (Zoom.clamp_of_inOrder hin hexact hw).1) (Zoom.isExact_of_clamp hin hexact hw) hlabels)

/-- Between which positions the rows of a chart from one time to another stand. -/
def rowsBetween (p : Chart) (xMin xMax : Number) : Result (Nat × Nat) :=
  Axis.windowIndices (p.series.labels.map Arithmetic.ofInt?) (.ok (.ofNumber xMin))
    (.ok (.ofNumber xMax) : Result (Axis.Edge Binary64))

/-- Two charts show the same rows from one time to another, and one is empty only when the other is or
shows none. -/
def ShowsSameRows (p q : Chart) (xMin xMax : Number) : Prop :=
  ∃ range range', Axis.ShowSame (p.series.labels.map Arithmetic.ofInt?)
      (q.series.labels.map Arithmetic.ofInt?) p.series.data q.series.data
      (.ok (.ofNumber xMin)) (.ok (.ofNumber xMax)) range range' ∧
    ((p.series.labels.map (Arithmetic.ofInt? : Int → Result Binary64)).isEmpty =
        (q.series.labels.map (Arithmetic.ofInt? : Int → Result Binary64)).isEmpty ∨
      ∀ c, Axis.part range (p.series.data.get c) = [])

section Rows

variable {xMin xMax : Number} {first : Nat}

/-- A commit that drops every row drops none that is shown. -/
theorem showsSameRows_of_all_dropped (hall : p.series.labels.length ≤ p.trimmed now)
    (hrange : p.rowsBetween xMin xMax = .ok (first, p.series.labels.length))
    (hdropped : p.trimmed now ≤ first) : ShowsSameRows p (p.trim now) xMin xMax := by
  have hnothing (c : Channel) : Axis.part (first, p.series.labels.length) (p.series.data.get c) = [] :=
    Axis.part_of_le (Nat.le_trans hall hdropped) _
  refine ⟨_, (0, 0), ⟨hrange, ?_, fun c => ?_⟩, .inr hnothing⟩
  · rw [series_trim, List.drop_eq_nil_iff.mpr hall]
    exact Axis.windowIndices_nil _ _
  · rw [hnothing, Axis.part_zero]

/-- A commit that leaves a row moves the rows that are shown to the front. -/
theorem showsSameRows_of_some_kept (hkept : ¬ p.series.labels.length ≤ p.trimmed now)
    (hrange : p.rowsBetween xMin xMax = .ok (first, p.series.labels.length))
    (hrest : (p.trim now).rowsBetween xMin xMax =
      .ok (first - p.trimmed now, p.series.labels.length - p.trimmed now))
    (hdropped : p.trimmed now ≤ first) : ShowsSameRows p (p.trim now) xMin xMax := by
  refine ⟨_, _, ⟨hrange, hrest, fun c => ?_⟩, .inl ?_⟩
  · rw [series_trim, PerChannel.get_map, Axis.part_drop hdropped]
  · have hrows : p.series.labels.drop (p.trimmed now) ≠ [] := fun hnil => hkept (List.drop_eq_nil_iff.mp hnil)
    have hall : p.series.labels ≠ [] := fun hnil => hrows (by rw [hnil, List.drop_nil])
    rw [series_trim, List.isEmpty_map, List.isEmpty_map, List.isEmpty_eq_false_iff.mpr hall,
      List.isEmpty_eq_false_iff.mpr hrows]

/-- A picture shows the same rows after a commit. -/
theorem showsSameRows_trim {w : Int} (hin : p.config.zoom.InOrder)
    (hexact : p.config.zoom.IsExact) (hlabels : ∀ t ∈ p.series.labels, IsExact t)
    (hasc : p.series.labels.Pairwise (· < ·)) (hnow : now ≤ 2 ^ 53)
    (hspan : p.span now window = .ok (w, xMin, xMax)) : ShowsSameRows p (p.trim now) xMin xMax := by
  obtain ⟨hw, hx⟩ := span_ok hspan
  obtain ⟨hlow, hhigh⟩ := Zoom.clamp_of_inOrder hin hexact hw
  have hexactw := Zoom.isExact_of_clamp hin hexact hw
  cases hl : p.series.lastLabel? with
  | none =>
    have hnil : p.series.labels = [] := List.getLast?_eq_none_iff.mp hl
    refine ⟨(0, 0), (0, 0), ?_, .inl ?_⟩
    · rw [series_trim, hnil, List.drop_nil]
      exact ⟨Axis.windowIndices_nil _ _, Axis.windowIndices_nil _ _, fun c => rfl⟩
    · rw [series_trim, hnil, List.drop_nil]
  | some last =>
    have hrange := Axis.windowIndices_of_xWindow hl hasc hlabels hnow hexactw (Int.le_of_lt hlow) hx
    have hdropped : p.trimmed now ≤ (p.series.labels.takeWhile (· < max now last - w)).length :=
      Series.length_takeWhile_le (by omega)
    by_cases hall : p.series.labels.length ≤ p.trimmed now
    · exact showsSameRows_of_all_dropped hall hrange hdropped
    · have hlast : (p.series.labels.drop (p.trimmed now)).getLast? = some last := by
        rw [List.getLast?_drop, if_neg hall]
        exact hl
      have hxrest : Axis.xWindow ((p.series.labels.drop (p.trimmed now)).getLast?.map Arithmetic.ofInt?)
          (.int w) (.ok (.int now)) = .ok (xMin, xMax) := by
        rw [hlast, ← hl]
        exact hx
      have hrest := Axis.windowIndices_of_xWindow hlast (hasc.sublist (List.drop_sublist _ _))
        (fun t ht => hlabels t (List.mem_of_mem_drop ht)) hnow hexactw (Int.le_of_lt hlow) hxrest
      rw [Series.length_takeWhile_drop hdropped, List.length_drop] at hrest
      exact showsSameRows_of_some_kept hall hrange hrest hdropped

end Rows

/-- A picture has the same axes after a commit. -/
theorem scales_trim (hin : p.config.zoom.InOrder) (hexact : p.config.zoom.IsExact)
    (hlabels : ∀ t ∈ p.series.labels, IsExact t) (hasc : p.series.labels.Pairwise (· < ·))
    (hnow : now ≤ 2 ^ 53) (window : Json) (visibility : Option (List Bool)) :
    (p.trim now).scales now window visibility = p.scales now window visibility := by
  unfold scales
  rw [span_trim hin hexact hlabels]
  refine bind_congr_of_ok fun ⟨w, xMin, xMax⟩ hspan => bind_congr_of_ok fun s _ => ?_
  obtain ⟨range, range', hshow, hempty⟩ := showsSameRows_trim hin hexact hlabels hasc hnow hspan
  exact (hshow.chartScales hempty _ s _).symm

/-! ## Committing -/

/-- What a commit leaves for the eye: the rows that trimming leaves, whatever happens to the storage. -/
theorem seen_commit (p : Chart) (now clock : Int) (persist : Bool) :
    let q := ((commit now clock persist).runOn p).2
    q.series = (p.trim now).series ∧ (∀ window, q.span now window = (p.trim now).span now window) ∧
      ∀ window visibility, q.scales now window visibility = (p.trim now).scales now window visibility := by
  intro q
  have hq := eq_onto_of_unstored (commit_runOn p now clock persist)
  rw [show q = (p.trim now).onto q.storage from hq]
  exact ⟨rfl, fun _ => rfl, fun _ _ => rfl⟩

/-- **Trimming drops nothing that is shown.** With zoom limits in order, and times that are exact as
binary64 numbers, a commit drops some rows at the front, none of which is in the window of a picture of the
same moment, whatever window is asked for. The picture has the same window after the commit, and when the
labels are in order the same axes, or it fails to have them for the same cause. -/
theorem commit_keeps_visible (hin : p.config.zoom.InOrder) (hexact : p.config.zoom.IsExact)
    (hlabels : ∀ t ∈ p.series.labels, IsExact t) (clock : Int) (persist : Bool) :
    let q := ((commit now clock persist).runOn p).2
    ∃ n, q.series = ⟨p.series.labels.drop n, p.series.data.map (·.drop n)⟩ ∧
      ∀ window,
        (∀ w xMin xMax, p.span now window = .ok (w, xMin, xMax) →
          ∀ t ∈ p.series.labels.take n, ¬ (xMin.le (.int t) = true ∧ (Number.int t).le xMax = true)) ∧
        q.span now window = p.span now window ∧
        (p.series.labels.Pairwise (· < ·) → now ≤ 2 ^ 53 →
          ∀ visibility, q.scales now window visibility = p.scales now window visibility ∧
            ∀ f f' r r', (frame now window visibility).runOn p = (.ok f, r) →
              (frame now window visibility).runOn q = (.ok f', r') → f'.bounds = f.bounds) := by
  intro q
  obtain ⟨hseries, hspan, hscales⟩ := seen_commit p now clock persist
  refine ⟨p.trimmed now, hseries.trans (series_trim p now), fun window => ⟨?_, ?_, ?_⟩⟩
  · intro w xMin xMax hw t ht hshown
    rw [not_visible_of_trimmed hin hexact hlabels hw ht] at hshown
    cases hshown.1
  · exact (hspan window).trans (span_trim hin hexact hlabels window)
  · intro hasc hnow visibility
    have hsame := (hscales window visibility).trans (scales_trim hin hexact hlabels hasc hnow window visibility)
    refine ⟨hsame, fun f f' r r' hf hf' => ?_⟩
    obtain ⟨-, memory, hp⟩ := frame_ok hf
    obtain ⟨-, memory', hq⟩ := frame_ok hf'
    rw [hsame, hp] at hq
    exact (ChartScales.mk.inj (Except.ok.inj hq)).1.symm

/-- A batch of one sample. -/
def sampleAt (seconds : Binary64) : HistoryBatch := ⟨0, [seconds], .replicate [6000]⟩

/-- A chart that took a sample at 20 s and one at 20000 s. -/
def farApart : Chart :=
  (Chart.new {} none).afterAll [.importBatch (some (sampleAt 20)) true, .importBatch (some (sampleAt 20000)) true]

/-- The first of two samples is more than three hours old: it is dropped, and the axes stay. -/
theorem commit_keeps_visible_of_two :
    let q := ((commit 20000000 20000000 true).runOn farApart).2
    farApart.series.labels = [20000, 20000000] ∧ q.series.labels = [20000000] ∧
      q.scales 20000000 .null none = farApart.scales 20000000 .null none := by
  intro q
  have hlabels : farApart.series.labels = [20000, 20000000] := by decide +kernel
  have hexact : ∀ t ∈ farApart.series.labels, IsExact t := by
    rw [hlabels]
    decide
  obtain ⟨n, -, hpicture⟩ := @commit_keeps_visible farApart 20000000 (by decide +kernel) (by decide +kernel)
    hexact 20000000 true
  refine ⟨hlabels, ?_, ((hpicture .null).2.2 (by rw [hlabels]; decide) (by decide) none).1⟩
  rw [(seen_commit farApart 20000000 20000000 true).1]
  decide +kernel

/-- Limits that leave only windows that are longer than the longest one. -/
def narrowConfig : Config := { zoom := { minWindow := 3600000, maxWindow := 60000 } }

/-- With limits out of order a sample of an hour ago is shown, and one of a minute ago is dropped. -/
theorem not_commit_keeps_visible :
    ¬ ∀ (p : Chart) (now clock : Int) (persist : Bool) (window : Json) (w : Int) (xMin xMax : Number),
      Reachable p → p.config.zoom.IsExact → p.span now window = .ok (w, xMin, xMax) →
      ∀ t ∈ p.series.labels, xMin.le (.int t) = true → (Number.int t).le xMax = true →
        t ∈ ((commit now clock persist).runOn p).2.series.labels := by
  intro h
  let p := (Chart.new narrowConfig none).after (.importBatch (some (sampleAt 10)) true)
  have hreach : Reachable p := (Reachable.new narrowConfig none).call _
  have hspan : p.span 100000 .null = .ok (3600000, .int (-3500000), .int 100000) :=
    ok_of_toOption (by decide +kernel)
  have hkept := h p 100000 100000 true .null _ _ _ hreach (by decide +kernel) hspan 10000 (by decide +kernel)
    (by decide +kernel) (by decide +kernel)
  rw [(seen_commit p 100000 100000 true).1] at hkept
  exact absurd hkept (by decide +kernel)

end Chart

end HashrateChart
