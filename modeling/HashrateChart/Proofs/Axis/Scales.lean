/-
The axes depend on what the window shows.

Of the labels and the series nothing is read but the values in the window, and
whether there are labels at all; and without values in the window that does not
matter either. So curves that show the same have the same axes, or fail to have
them for the same cause.
-/
import HashrateChart.Axis.Scales
import HashrateChart.Proofs.Axis.Window

namespace HashrateChart

open Arithmetic

namespace Axis

variable {α : Type}

/-- What there is of some channels. -/
def channelSeries (data : PerChannel (List α)) (channels : List Channel) : List (SeriesLike α) :=
  channels.map fun c => readable (data.get c)

/-- The series of all channels. -/
def allSeries (data : PerChannel (List α)) : PerChannel (Raw (SeriesLike α)) :=
  data.map fun values => .ok (readable values)

theorem get_allSeries (data : PerChannel (List α)) (c : Channel) :
    (allSeries data).get c = .ok (readable (data.get c)) := PerChannel.get_map _ _ c

theorem readAll_otherSeries (data : PerChannel (List α)) (visibility : List Bool) (base : Channel) :
    readAll (otherSeries (allSeries data) visibility base) =
      .ok (channelSeries data (Channel.hashrates.filter fun c => c ≠ base && isVisible visibility c)) := by
  have hget : (allSeries data).get = Except.ok ∘ fun c => readable (data.get c) :=
    funext fun c => get_allSeries data c
  rw [otherSeries, hget, ← List.map_map, readAll_ok, channelSeries]

variable [Arithmetic α]

/-- Two charts show the same: the same values of each channel are in the window. -/
structure ShowSame (labels labels' : List (Raw α)) (data data' : PerChannel (List α))
    (xMin xMax : Raw (Edge α)) (range range' : Nat × Nat) : Prop where
  indices : windowIndices labels xMin xMax = .ok range
  indices' : windowIndices labels' xMin xMax = .ok range'
  parts : ∀ c, part range (data.get c) = part range' (data'.get c)

variable {labels labels' : List (Raw α)} {data data' : PerChannel (List α)} {xMin xMax : Raw (Edge α)}
  {range range' : Nat × Nat}

theorem ShowSame.windowed (h : ShowSame labels labels' data data' xMin xMax range range')
    (channels : List Channel) :
    windowed (channelSeries data channels) range = windowed (channelSeries data' channels) range' := by
  have hseries (data : PerChannel (List α)) :
      channelSeries data channels = (channels.map data.get).map readable := by
    rw [channelSeries, List.map_map]
    rfl
  rw [hseries, hseries, windowed_readable, windowed_readable, List.map_map, List.map_map]
  simp only [Function.comp_def, h.parts]

theorem ShowSame.chartBounds (h : ShowSame labels labels' data data' xMin xMax range range')
    (rates degrees : List Channel) (pad : Padding α) (ticks : Json) (minStep below above : Raw α)
    (live : Raw (Option (Edge α))) :
    chartBounds labels (channelSeries data rates) (channelSeries data degrees) xMin xMax pad ticks minStep
        below above live =
      chartBounds labels' (channelSeries data' rates) (channelSeries data' degrees) xMin xMax pad ticks minStep
        below above live := by
  unfold Axis.chartBounds
  rw [h.indices, h.indices']
  simp only [bind, Except.bind]
  rw [h.windowed rates, h.windowed degrees]

theorem ShowSame.sensorBounds (h : ShowSame labels labels' data data' xMin xMax range range')
    (vreg asic : Channel) (ticks : Json) (below above : Raw α) :
    sensorBounds labels (readable (data.get vreg)) (readable (data.get asic)) xMin xMax ticks below above =
      sensorBounds labels' (readable (data'.get vreg)) (readable (data'.get asic)) xMin xMax ticks below
        above := by
  have hwindowed := h.windowed [vreg, asic]
  simp only [channelSeries, List.map_cons, List.map_nil] at hwindowed
  unfold Axis.sensorBounds
  rw [h.indices, h.indices']
  simp only [bind, Except.bind]
  rw [hwindowed]

theorem ShowSame.softInclude (h : ShowSame labels labels' data data' xMin xMax range range')
    (hempty : labels.isEmpty = labels'.isEmpty) (base : Channel) (others : List Channel) (pad : Padding α)
    (ticks : Json) (minStep share : Raw α) (live : Raw (Option (Edge α))) (bounds : Option (AxisBounds α)) :
    softInclude labels xMin xMax pad ticks minStep (readable (data.get base)) (channelSeries data others) live
        share bounds =
      softInclude labels' xMin xMax pad ticks minStep (readable (data'.get base)) (channelSeries data' others)
        live share bounds := by
  have hbounds := h.chartBounds [base] [] pad ticks minStep (.ok (whole 1)) (.ok (whole 2)) live
  have hothers : (channelSeries data others).isEmpty = (channelSeries data' others).isEmpty := by
    rw [channelSeries, channelSeries, List.isEmpty_map, List.isEmpty_map]
  simp only [channelSeries, List.map_cons, List.map_nil] at hbounds
  unfold Axis.softInclude
  rw [hbounds, hothers, hempty, h.indices, h.indices']
  simp only [bind, Except.bind]
  rw [h.windowed others]

/-- Without values in the window there is no hashrate axis. -/
theorem hashrate_of_nothing (rates degrees : List Channel) {pad : Padding α} {ticks : Json}
    {minStep below above : Raw α} {live : Raw (Option (Edge α))} {bounds : ChartBounds α}
    (hi : windowIndices labels xMin xMax = .ok range) (hn : ∀ c, part range (data.get c) = [])
    (hb : chartBounds labels (channelSeries data rates) (channelSeries data degrees) xMin xMax pad ticks minStep
      below above live = .ok bounds) : bounds.hashrate = none := by
  have hwindowed : windowed (channelSeries data rates) range = .ok [] := by
    have hparts : (rates.map data.get).map (part range) = rates.map fun _ => [] := by
      rw [List.map_map]
      exact List.map_congr_left fun c _ => hn c
    have hseries : channelSeries data rates = (rates.map data.get).map readable := by
      rw [channelSeries, List.map_map]
      rfl
    rw [hseries, windowed_readable, hparts, List.map_const']
    simp
  obtain ⟨range', hrange, hb⟩ := exists_of_bind hb
  obtain rfl : range = range' := Except.ok.inj (hi.symm.trans hrange)
  obtain ⟨n, -, hb⟩ := exists_of_bind hb
  obtain ⟨values, hvalues, hb⟩ := exists_of_bind hb
  obtain rfl : [] = values := Except.ok.inj (hwindowed.symm.trans hvalues)
  obtain ⟨heat, -, hb⟩ := exists_of_bind hb
  obtain ⟨hashrate, hnone, hb⟩ := exists_of_bind hb
  obtain rfl : none = hashrate := Except.ok.inj hnone
  obtain ⟨temperature, -, hb⟩ := exists_of_bind hb
  cases hb
  rfl

/-- **The axes of a window.** Curves that show the same have the same axes, when both have labels or
nothing is in the window. -/
theorem ShowSame.chartScales (h : ShowSame labels labels' data data' xMin xMax range range')
    (hempty : labels.isEmpty = labels'.isEmpty ∨ ∀ c, part range (data.get c) = []) (visibility : List Bool)
    (s : ScaleSettings α) (previous : Option (Raw α × Raw α)) :
    chartScales labels xMin xMax (allSeries data) visibility s previous =
      chartScales labels' xMin xMax (allSeries data') visibility s previous := by
  have hfirst := h.chartBounds [baseChannel visibility] [] s.pad s.maxTicks s.minStep (.ok (whole 1))
    (.ok (whole 2)) s.live
  simp only [channelSeries, List.map_cons, List.map_nil] at hfirst
  have hvreg (data : PerChannel (List α)) : (allSeries data).vregTemp = .ok (readable (data.get .vregTemp)) := rfl
  have hasic (data : PerChannel (List α)) : (allSeries data).asicTemp = .ok (readable (data.get .asicTemp)) := rfl
  unfold Axis.chartScales
  simp only [get_allSeries, readAll_otherSeries, hvreg, hasic, h.sensorBounds, bind, Except.bind]
  rw [hfirst]
  cases hb : Axis.chartBounds labels' [readable (data'.get (baseChannel visibility))] [] xMin xMax s.pad
    s.maxTicks s.minStep (.ok (whole 1)) (.ok (whole 2)) s.live with
  | error e => rfl
  | ok first =>
    rcases hempty with he | hn
    · simp only [h.softInclude he, he]
    · have hnone : first.hashrate = none :=
        hashrate_of_nothing [baseChannel visibility] [] h.indices hn (hfirst.trans hb)
      simp only [hnone, Option.isSome_none, Bool.false_and, Bool.false_eq_true, if_false]

end Axis

end HashrateChart
