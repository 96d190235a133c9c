/-
Reloading: what is left of the curves after a history of the longest window.

A history that is added on top of the curves keeps every label. One that replaces
them has dropped them before it is known to give a sample, and what it gives is
decided at its first sample: a sample that is skipped or cut leaves a locked chart,
which skips all others. So the new curves start where that sample makes them start
(`startsAt`), and the old ones are lost when it makes them start nowhere.
-/
import HashrateChart.Proofs.Chart.Order

namespace HashrateChart

namespace Chart

variable {p q : Chart} {importing : Bool} {s : History.Sample}

/-! ## Labels are never taken back -/

theorem prefix_insertBreak (p : Chart) (t : Int) :
    p.series.labels <+: (p.insertBreak t).series.labels := by
  rw [series_insertBreak]
  by_cases ht : t ≤ 0
  · simp only [Series.insertBreak_of_le ht, List.prefix_refl]
  · rw [Series.insertBreak_of_pos (by omega)]
    exact List.prefix_append _ _

theorem labels_stored (importing : Bool) (p : Chart) (s : History.Sample) :
    ((p.filtered importing s).2.storeRow (p.lifted s.time) (p.filtered importing s).1).series.labels =
      Series.stamped p.series.labels (p.lifted s.time) := by
  show ((p.filtered importing s).2.series.upsert _ _).labels = _
  rw [Series.labels_upsert, filtered_series]

theorem prefix_take (importing : Bool) (p : Chart) (s : History.Sample) :
    p.series.labels <+: (p.take importing s).series.labels := by
  unfold take
  rcases p.importSample_cases importing s with ⟨-, hi⟩ | ⟨-, -, hi⟩ | ⟨-, -, hi⟩
  · simp only [hi, List.prefix_refl]
  · have hp := prefix_insertBreak (p.relocked importing s) (p.lifted s.time - 1)
    rw [relocked_series] at hp
    rw [hi]
    exact hp
  · rw [hi, labels_stored]
    exact Series.prefix_stamped _ _

theorem prefix_importAll (importing : Bool) (p : Chart) (samples : List History.Sample) :
    p.series.labels <+: (p.importAll importing samples).2.series.labels :=
  importAll_induction (I := fun q => p.series.labels <+: q.series.labels) (List.prefix_refl _)
    fun q s _ hq => hq.trans (prefix_take importing q s)

theorem prefix_opened (p : Chart) (t : Int) :
    p.series.labels <+: (p.opened t).series.labels := by
  cases hb : p.warmup.breakPending with
  | true =>
    rw [opened_of_pending hb]
    exact prefix_insertBreak { p with warmup := p.warmup.consumeBreak.2 } (t - 1)
  | false =>
    simp only [opened_of_not_pending hb, List.prefix_refl]

/-- A batch only adds to the labels. -/
theorem prefix_imported (p : Chart) (batch : Option HistoryBatch) (importing : Bool) :
    p.series.labels <+: (p.imported batch importing).series.labels :=
  imported_induction (I := fun q => p.series.labels <+: q.series.labels) (List.prefix_refl _)
    (prefix_opened p) fun q s _ _ hq => hq.trans (prefix_take importing q s)

theorem head?_of_prefix {xs ys : List Int} {t : Int} (h : xs <+: ys) (ht : xs.head? = some t) :
    ys.head? = some t := by
  obtain ⟨zs, rfl⟩ := h
  rw [List.head?_append, ht, Option.some_or]

/-! ## Where empty curves start -/

/-- Where a gap asked for just before a sample starts empty curves. -/
def gapBefore (s : History.Sample) : Option Int := if 1 < s.time then some (s.time - 1) else none

/-- Where a sample that no pending gap comes before starts empty curves. -/
def opensAt (p : Chart) (s : History.Sample) : Option Int :=
  if p.warmup.isLocked then none
  else if p.showsRestart s then gapBefore s
  else some s.time

/-- Where the first sample of a history starts empty curves, if anywhere. -/
def startsAt (p : Chart) (s : History.Sample) : Option Int :=
  if p.warmup.breakPending then (gapBefore s).or (p.opensAt s) else p.opensAt s

/-- The chart has no label and no gap. -/
def IsBlank (p : Chart) : Prop := p.series.labels = [] ∧ p.lastBreak = none

theorem IsBlank.lifted (h : p.IsBlank) (t : Int) : p.lifted t = t := by
  unfold Chart.lifted
  rw [h.2]

/-- Empty curves begin with the gap that is asked for, unless its time is none. -/
theorem IsBlank.head?_insertBreak (h : p.IsBlank) (s : History.Sample) :
    (p.insertBreak (s.time - 1)).series.labels.head? = gapBefore s := by
  rw [series_insertBreak, gapBefore]
  by_cases ht : 1 < s.time
  · have hl : p.series.lastLabel? = none := by
      rw [Series.lastLabel?, h.1]
      rfl
    have hg : p.series.gapTime (s.time - 1) = s.time - 1 := by
      unfold Series.gapTime
      rw [hl]
    rw [if_pos ht, Series.insertBreak_of_pos (by omega), hg, Series.labels_append, h.1]
    rfl
  · rw [if_neg ht, Series.insertBreak_of_le (by omega), h.1]
    rfl

theorem isLocked_insertBreak (p : Chart) (t : Int) :
    (p.insertBreak t).warmup.isLocked = p.warmup.isLocked := by rw [insertBreak_eq]

/-- The first sample decides where empty curves start; if it does not start them, no other does. -/
theorem IsBlank.head?_importAll (h : p.IsBlank) (importing : Bool) (s : History.Sample)
    (rest : List History.Sample) :
    (p.importAll importing (s :: rest)).2.series.labels.head? = p.opensAt s := by
  unfold opensAt
  have hlift := h.lifted s.time
  rcases p.importSample_cases importing s with ⟨hl, -⟩ | ⟨hl, hr, hi⟩ | ⟨hl, hr, hi⟩
  · rw [series_importAll_of_locked importing _ hl, if_pos hl, h.1]
    rfl
  · -- the chart is locked by the restart that the sample shows
    have ht : p.take importing s =
        { (p.relocked importing s).insertBreak (s.time - 1) with lastSeen := some s.time } := by
      rw [take, hi, hlift]
    have hlocked : (p.take importing s).warmup.isLocked = true := by
      rw [ht]
      refine (isLocked_insertBreak (p.relocked importing s) (s.time - 1)).trans ?_
      rw [relocked_eq]
      simp [Warmup.isLocked, Warmup.reset, Warmup.consumeBreak, Warmup.transition]
    have hblank : (p.relocked importing s).IsBlank := by
      rw [IsBlank, relocked_series, relocked_lastBreak]
      exact h
    rw [hl, hr, if_neg Bool.false_ne_true, if_pos rfl, importAll_cons,
      series_importAll_of_locked importing rest hlocked, ht]
    exact hblank.head?_insertBreak s
  · have ht : (p.take importing s).series.labels = [s.time] := by
      rw [take, hi, labels_stored, hlift, h.1]
      rfl
    rw [hl, hr, if_neg Bool.false_ne_true, if_neg Bool.false_ne_true, importAll_cons]
    exact head?_of_prefix (prefix_importAll importing _ rest) (by rw [ht]; rfl)

theorem showsRestart_of_unimported (h : q.unimported = p.unimported) (s : History.Sample) :
    q.showsRestart s = p.showsRestart s := by
  have hs : q.unimported.showsRestart s = p.unimported.showsRestart s := by rw [h]
  exact hs

theorem isLocked_opened (p : Chart) (t : Int) : (p.opened t).warmup.isLocked = p.warmup.isLocked := by
  cases hb : p.warmup.breakPending with
  | true =>
    rw [opened_of_pending hb, isLocked_insertBreak]
    rfl
  | false => rw [opened_of_not_pending hb]

/-- Empty curves that take any sample start where the first one makes them start. -/
theorem IsBlank.head?_importSamples (h : p.IsBlank) (hm : p.historyMin = none) (importing : Bool)
    (samples : List History.Sample) :
    (p.importSamples importing samples).2.series.labels.head? = samples.head?.bind p.startsAt := by
  have haccepts : ∀ s, p.accepts s = true := fun s => by
    rw [accepts_iff, hm, Series.lastLabel?, h.1]
    exact ⟨fun _ hl => (by cases hl), fun _ hl => (by cases hl)⟩
  have hall : samples.filter p.accepts = samples := List.filter_eq_self.mpr fun s _ => haccepts s
  cases samples with
  | nil =>
    rw [importSamples_of_nil hall, h.1]
    rfl
  | cons s rest =>
    rw [importSamples_of_cons hall]
    show _ = p.startsAt s
    unfold startsAt
    have hopens : (p.opened s.time).opensAt s = p.opensAt s := by
      unfold opensAt
      rw [isLocked_opened, showsRestart_of_unimported (opened_unimported p s.time)]
    cases hb : p.warmup.breakPending with
    | false =>
      rw [if_neg Bool.false_ne_true, opened_of_not_pending hb]
      exact h.head?_importAll importing s rest
    | true =>
      have hblank : ({ p with warmup := p.warmup.consumeBreak.2 } : Chart).IsBlank := h
      have hhead : (p.opened s.time).series.labels.head? = gapBefore s := by
        rw [opened_of_pending hb]
        exact hblank.head?_insertBreak s
      rw [if_pos rfl]
      cases hg : gapBefore s with
      | some gap =>
        rw [Option.some_or]
        exact head?_of_prefix (prefix_importAll importing _ _) (hhead.trans hg)
      | none =>
        -- the gap has no time, and the chart stays blank
        have htime : ¬ 1 < s.time := fun ht => by
          rw [gapBefore, if_pos ht] at hg
          cases hg
        have hstill : (p.opened s.time).IsBlank := by
          rw [opened_of_pending hb, IsBlank, series_insertBreak, lastBreak_insertBreak,
            Series.insertBreak_of_le (by omega)]
          exact h
        rw [Option.none_or, ← hopens]
        exact hstill.head?_importAll importing s rest

theorem isBlank_emptied (p : Chart) : p.emptied.IsBlank := ⟨rfl, rfl⟩

/-- The curves after a reload that replaces them start where its first sample makes them start. -/
theorem head?_of_replaced (p : Chart) (batch : Option HistoryBatch) :
    (p.emptied.imported batch true).series.labels.head? = (History.samples batch).head?.bind p.startsAt := by
  cases hd : History.decode batch with
  | error e =>
    rw [imported_of_error hd, History.samples, hd]
    rfl
  | ok samples =>
    rw [imported_of_ok hd, History.samples_of_ok hd, (isBlank_emptied p).head?_importSamples rfl]
    rfl

/-! ## Reloading -/

theorem reloadBatch_ok (p : Chart) {batch : Option HistoryBatch} {oldest : Option Binary64}
    {samples : List History.Sample} (ho : History.oldest batch = .ok oldest)
    (hd : History.decode batch = .ok samples) : ∃ n, ((reloadBatch batch).runOn p).1 = .ok n := by
  cases batch with
  | none => exact ⟨0, rfl⟩
  | some b =>
    cases ht : b.times.isEmpty with
    | true =>
      rw [reloadBatch_of_no_times ht]
      exact ⟨0, rfl⟩
    | false =>
      have himport : ∀ q : Chart, ∃ n, ((importBatch (some b) true).runOn q).1 = .ok n := fun q => by
        simp only [importBatch, Action.runOn_bind, Action.runOn_liftM, hd]
        exact ⟨_, rfl⟩
      rw [reloadBatch_of_times ht ho]
      split
      · obtain ⟨storage, hs⟩ := replaceBy_runOn p (some b)
        rw [hs]
        exact himport _
      · exact himport p

theorem series_after_reload (p : Chart) (batch : Option HistoryBatch) :
    (p.after (.reload batch)).series =
      ((if p.isReplacedBy batch then p.emptied else p).imported batch true).series := by
  obtain ⟨storage, hs⟩ := after_eq p (.reload batch)
  rw [hs]
  rfl

/-- A reload that does not replace the curves keeps all labels. -/
theorem prefix_after_reload {batch : Option HistoryBatch} (h : p.isReplacedBy batch = false) :
    p.series.labels <+: (p.after (.reload batch)).series.labels := by
  rw [series_after_reload, h]
  exact prefix_imported p batch true

/-- **When a reload keeps the chart.** After a reload of a chart with samples its curves start no
later than before exactly when the history does not replace them, or its first sample starts them
anew no later than before. -/
theorem reload_keeps_first (p : Chart) (batch : Option HistoryBatch) (first : Int)
    (h : p.series.labels.head? = some first) :
    (∃ t, (p.after (.reload batch)).series.labels.head? = some t ∧ t ≤ first) ↔
      (p.isReplacedBy batch = true →
        ∃ s t, (History.samples batch).head? = some s ∧ p.startsAt s = some t ∧ t ≤ first) := by
  cases hr : p.isReplacedBy batch with
  | false =>
    have hkept := head?_of_prefix (prefix_after_reload hr) h
    exact iff_of_true ⟨first, hkept, Int.le_refl _⟩ fun hn => (by cases hn)
  | true =>
    rw [series_after_reload, hr, if_pos rfl, head?_of_replaced]
    constructor
    · rintro ⟨t, ht, hle⟩ -
      obtain ⟨s, hs, hst⟩ := Option.bind_eq_some_iff.mp ht
      exact ⟨s, t, hs, hst, hle⟩
    · intro hk
      obtain ⟨s, t, hs, hst, hle⟩ := hk rfl
      exact ⟨t, Option.bind_eq_some_iff.mpr ⟨s, hs, hst⟩, hle⟩

/-! ## Histories with lists of one length -/

theorem oldest_of_replaced {b : HistoryBatch} {first : Int} (h : p.isReplacedBy (some b) = true)
    (hfirst : p.series.labels.head? = some first) :
    ∃ t, History.oldest (some b) = .ok (some t) ∧
      (Number.real t).lt (.int (first - replaceMargin)) = true := by
  cases ho : History.oldest (some b) with
  | error e => simp [isReplacedBy, ho] at h
  | ok oldest =>
    simp only [isReplacedBy, ho, hfirst, Bool.and_eq_true] at h
    cases oldest with
    | none => cases h.2
    | some t => exact ⟨t, rfl, h.2⟩

theorem startsAt_le {t : Int} (h : p.startsAt s = some t) : t ≤ s.time := by
  have hgap : ∀ {t : Int}, gapBefore s = some t → t ≤ s.time := fun ht => by
    unfold gapBefore at ht
    split at ht
    · cases ht
      omega
    · cases ht
  have hopen : ∀ {t : Int}, p.opensAt s = some t → t ≤ s.time := fun ht => by
    unfold opensAt at ht
    split at ht
    · cases ht
    · split at ht
      · exact hgap ht
      · cases ht
        exact Int.le_refl _
  unfold startsAt at h
  split at h
  · rcases Option.or_eq_some_iff.mp h with hg | ⟨-, ho⟩
    · exact hgap hg
    · exact hopen ho
  · exact hopen h

/-- **A reload never shortens the chart.** When the lists of a history are as long as its times, the
curves that a reload leaves start no later than before, if it leaves any. -/
theorem first_after_reload_le {b : HistoryBatch} {first t : Int} (hfull : b.rowCount = b.times.length)
    (hfirst : p.series.labels.head? = some first)
    (ht : (p.after (.reload (some b))).series.labels.head? = some t) : t ≤ first := by
  cases hr : p.isReplacedBy (some b) with
  | false =>
    have hkept := head?_of_prefix (prefix_after_reload hr) hfirst
    rw [hkept] at ht
    cases ht
    exact Int.le_refl _
  | true =>
    obtain ⟨oldest, ho, hlt⟩ := oldest_of_replaced hr hfirst
    obtain ⟨s, hs, hle⟩ := History.exists_sample_of_oldest hfull ho hlt
    obtain ⟨s₀, hhead, hle₀⟩ := History.head?_le_of_mem hs
    rw [series_after_reload, hr, if_pos rfl, head?_of_replaced, hhead] at ht
    have hstart : t ≤ s₀.time := startsAt_le ht
    unfold replaceMargin at hle
    omega

/-! ## A restart at the end of the curves -/

/-- A batch of two samples, the second with no 1m hashrate. -/
def cutBatch : HistoryBatch :=
  ⟨0, [100, 200], { PerChannel.replicate [6000, 6000] with hashrate1m := [6000, 0] }⟩

def cutSamples : List History.Sample :=
  let values : PerChannel Binary64 := .ofFn fun c => if c.isHashrate then 60000000000 else 60
  [⟨100000, values⟩, ⟨200000, { values with hashrate1m := 0 }⟩]

theorem decode_cutBatch : History.decode (some cutBatch) = .ok cutSamples :=
  History.decode_of_rows (by decide +kernel) (by decide +kernel) (by simp [cutSamples])

/-- A batch of one sample at 10 s. -/
def olderBatch : HistoryBatch := ⟨0, [10], .replicate [6000]⟩

def olderSamples : List History.Sample :=
  [⟨10000, .ofFn fun c => if c.isHashrate then 60000000000 else 60⟩]

theorem decode_olderBatch : History.decode (some olderBatch) = .ok olderSamples :=
  History.decode_of_rows (by decide +kernel) (by decide +kernel) (List.pairwise_singleton _ _)

/-- A chart that starts at 100 s takes a sample at 10 s, which starts it earlier. -/
theorem reload_keeps_first_of_older :
    let p := ((Chart.new {} none).importSamples true (cutSamples.take 1)).2
    p.series.labels.head? = some 100000 ∧
      ∃ t, (p.after (.reload (some olderBatch))).series.labels.head? = some t ∧ t ≤ 100000 := by
  intro p
  have hfirst : p.series.labels.head? = some 100000 := by decide +kernel
  refine ⟨hfirst, (reload_keeps_first p (some olderBatch) 100000 hfirst).mpr fun _ => ?_⟩
  refine ⟨olderSamples.head (by simp [olderSamples]), 10000, ?_, by decide +kernel, by decide⟩
  rw [History.samples_of_ok decode_olderBatch]
  rfl

/-- The restart that the last sample shows has locked the chart when an older history comes: the curves
are dropped for it, and none of its samples is taken. -/
theorem not_reload_keeps_first :
    ¬ ∀ (p : Chart) (batch : Option HistoryBatch) (first : Int), Reachable p →
      (∃ n, ((reloadBatch batch).runOn p).1 = .ok n) → p.series.labels.head? = some first →
      ∃ t, (p.after (.reload batch)).series.labels.head? = some t ∧ t ≤ first := by
  intro h
  have hp : (Chart.new {} none).after (.importBatch (some cutBatch) true) =
      ((Chart.new {} none).importSamples true cutSamples).2 := by
    rw [after_importBatch, imported_of_ok decode_cutBatch]
  have hreach := (Reachable.new {} none).call (.importBatch (some cutBatch) true)
  rw [hp] at hreach
  obtain ⟨oldest, ho⟩ := History.oldest_of_base (b := olderBatch)
    (History.ofInt?_of_finite (by decide +kernel))
  obtain ⟨t, ht, -⟩ := h _ (some olderBatch) 100000 hreach (reloadBatch_ok _ ho decode_olderBatch)
    (by decide +kernel)
  have hr : ((Chart.new {} none).importSamples true cutSamples).2.isReplacedBy (some olderBatch) = true := by
    decide +kernel
  rw [series_after_reload, hr, if_pos rfl, head?_of_replaced, History.samples_of_ok decode_olderBatch] at ht
  have hnone : olderSamples.head?.bind ((Chart.new {} none).importSamples true cutSamples).2.startsAt = none := by
    decide +kernel
  rw [hnone] at ht
  cases ht

end Chart

end HashrateChart
