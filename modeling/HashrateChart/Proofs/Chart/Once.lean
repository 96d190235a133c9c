/-
Batches that overlap: every sample that is new enough is counted, and its time is
one label.

While no sample shows a restart and none comes up to the last gap, an open chart
stays open, and each sample is stored at its own time. So what a batch does to the
labels is what its times do one after the other, and these come in order and not
before the last label, whatever order the batch has them in and however often.
-/
import HashrateChart.Proofs.Chart.Redelivery

namespace HashrateChart

namespace Chart

variable {p : Chart}

/-- The samples of a batch that are new enough to be taken. -/
def fresh (p : Chart) (batch : Option HistoryBatch) : List History.Sample :=
  (History.samples batch).filter p.accepts

/-- Samples that show no restart and come after the last gap are all stored, each at its time. -/
theorem importAll_of_quiet (importing : Bool) {samples : List History.Sample} (hl : p.warmup.isLocked = false)
    (hgap : ∀ s ∈ samples, ∀ gap, p.lastBreak = some gap → gap < s.time)
    (hquiet : ∀ s ∈ samples, p.showsRestart s = false) :
    (p.importAll importing samples).1 = samples.length ∧
      (p.importAll importing samples).2.series.labels =
        (samples.map (·.time)).foldl Series.stamped p.series.labels := by
  induction samples generalizing p with
  | nil => exact ⟨rfl, rfl⟩
  | cons s rest ih =>
    have hs : p.importSample importing s = (.stored, p.stored importing s) := by
      rw [importSample_of_unlocked hl, hquiet s List.mem_cons_self, if_neg Bool.false_ne_true]
      rfl
    have ho : (p.stored importing s).outlook = p.outlook := stored_outlook
    have hb : (p.stored importing s).lastBreak = p.lastBreak := congrArg (·.2.2.2.2) ho
    have hlabels : (p.stored importing s).series.labels = Series.stamped p.series.labels s.time := by
      rw [stored_series, Series.labels_upsert, lifted_of_gap_lt (hgap s List.mem_cons_self)]
    obtain ⟨hcount, hrest⟩ := ih (p := p.stored importing s) (stored_isLocked.trans hl)
      (fun u hu gap hg => hgap u (List.mem_cons_of_mem _ hu) gap (hb ▸ hg))
      fun u hu => (showsRestart_of_outlook ho).trans (hquiet u (List.mem_cons_of_mem _ hu))
    rw [importAll_cons, take, hs, hcount, hrest, hlabels]
    exact ⟨Nat.add_comm 1 rest.length, rfl⟩

theorem importSamples_of_quiet (importing : Bool) {samples : List History.Sample} (hl : p.warmup.isLocked = false)
    (hpending : p.warmup.breakPending = false)
    (hgap : ∀ s ∈ samples.filter p.accepts, ∀ gap, p.lastBreak = some gap → gap < s.time)
    (hquiet : ∀ s ∈ samples.filter p.accepts, p.showsRestart s = false) :
    (p.importSamples importing samples).1 = (samples.filter p.accepts).length ∧
      (p.importSamples importing samples).2.series.labels =
        ((samples.filter p.accepts).map (·.time)).foldl Series.stamped p.series.labels := by
  cases hf : samples.filter p.accepts with
  | nil =>
    rw [importSamples_of_nil hf]
    exact ⟨rfl, rfl⟩
  | cons s rest =>
    rw [hf] at hgap hquiet
    rw [importSamples_of_cons hf, opened_of_not_pending hpending]
    exact importAll_of_quiet importing hl hgap hquiet

/-- A batch that cannot be read has no samples, and importing it fails and changes nothing. -/
theorem fresh_of_error {batch : Option HistoryBatch} {e : Fault} (h : History.decode batch = .error e) :
    p.fresh batch = [] := by
  rw [fresh, History.samples, h]
  rfl

theorem importBatch_runOn_error (p : Chart) {batch : Option HistoryBatch} {e : Fault}
    (h : History.decode batch = .error e) (importing : Bool) :
    (importBatch batch importing).runOn p = (.error e, p) := by
  simp only [importBatch, Action.runOn_bind, Action.runOn_liftM, h]

/-- The samples that are new enough come in order, and none before the last label. -/
theorem times_fresh (p : Chart) (batch : Option HistoryBatch) :
    ((p.fresh batch).map (·.time)).Pairwise (· ≤ ·) ∧
      ∀ last, p.series.lastLabel? = some last → ∀ t ∈ (p.fresh batch).map (·.time), last ≤ t := by
  refine ⟨List.pairwise_map.mpr (List.Pairwise.sublist List.filter_sublist ?_), fun last hl t ht => ?_⟩
  · unfold History.samples
    cases hd : History.decode batch with
    | error e => exact .nil
    | ok samples => exact History.decode_pairwise hd
  · obtain ⟨s, hs, rfl⟩ := List.mem_map.mp ht
    exact (accepts_iff.mp (List.mem_filter.mp hs).2).1 last hl

/-- **Every sample is taken once.** Let a chart be ready with no gap pending, and let the samples of a
batch that are new enough come after the last gap and show no restart. Then the import counts
them all, unless the base of the times is beyond the range of numbers, and to the labels it adds
their times after the last label, in order and each once; so the labels strictly increase if they
did before. -/
theorem importBatch_once (p : Chart) (batch : Option HistoryBatch) (importing : Bool)
    (hready : p.warmup.stage = .ready) (hpending : p.warmup.breakPending = false)
    (hgap : ∀ s ∈ p.fresh batch, ∀ gap, p.lastBreak = some gap → gap < s.time)
    (hquiet : ∀ s ∈ p.fresh batch, p.showsRestart s = false) :
    (((importBatch batch importing).runOn p).1 = .ok (p.fresh batch).length ∨
        (((importBatch batch importing).runOn p).1 = .error .overflow ∧
          ∃ b, batch = some b ∧ (Arithmetic.ofInt? b.base : Result Binary64) = .error .overflow)) ∧
      ∃ new, ((importBatch batch importing).runOn p).2.series.labels = p.series.labels ++ new ∧
        new.Pairwise (· < ·) ∧
        (∀ t, t ∈ new ↔ (∃ s ∈ p.fresh batch, s.time = t) ∧
          ∀ last, p.series.lastLabel? = some last → last < t) ∧
        (p.series.labels.Pairwise (· < ·) → (p.series.labels ++ new).Pairwise (· < ·)) := by
  have hl : p.warmup.isLocked = false := by simp [Warmup.isLocked, hready]
  obtain ⟨hsorted, hlast⟩ := times_fresh p batch
  obtain ⟨new, hnew, hasc, hmem⟩ := Series.foldl_stamped_of_pairwise hsorted hlast
  simp only [List.mem_map] at hmem
  have hmore : p.series.labels.Pairwise (· < ·) → (p.series.labels ++ new).Pairwise (· < ·) := by
    intro h
    refine List.pairwise_append.mpr ⟨h, hasc, fun u hu t ht => ?_⟩
    cases hp : p.series.lastLabel? with
    | none =>
      rw [List.getLast?_eq_none_iff.mp hp] at hu
      cases hu
    | some last =>
      exact Int.lt_of_le_of_lt (Series.le_getLast_of_mem h hu hp) (((hmem t).mp ht).2 last hp)
  rcases History.decode_cases batch with ⟨samples, hd⟩ | ⟨hd, hbase⟩
  · have hfresh : p.fresh batch = samples.filter p.accepts := by
      rw [fresh, History.samples_of_ok hd]
    obtain ⟨hcount, hlabels⟩ := importSamples_of_quiet importing hl hpending
      (hfresh ▸ hgap) (hfresh ▸ hquiet)
    rw [importBatch_runOn_ok p hd importing, hlabels, hcount, ← hfresh]
    exact ⟨.inl rfl, new, hnew, hasc, hmem, hmore⟩
  · rw [fresh_of_error hd] at hnew
    rw [importBatch_runOn_error p hd importing]
    exact ⟨.inr ⟨rfl, hbase⟩, new, hnew, hasc, hmem, hmore⟩

/-- A chart with one sample, and a batch that brings it again, with two later ones of one time in
front of and behind it. -/
def firstPoll : Chart := (Chart.new {} none).after (.importBatch (some ⟨0, [10], .replicate [6000]⟩) true)

def overlappingBatch : HistoryBatch := ⟨0, [20, 10, 20], .replicate [6000, 6000, 6100]⟩

/-- The sample that comes again updates its row, and the two of one time make one row. -/
theorem importBatch_once_of_overlap :
    firstPoll.warmup.stage = .ready ∧ firstPoll.warmup.breakPending = false ∧
    (∀ s ∈ firstPoll.fresh (some overlappingBatch), ∀ gap, firstPoll.lastBreak = some gap → gap < s.time) ∧
    (∀ s ∈ firstPoll.fresh (some overlappingBatch), firstPoll.showsRestart s = false) ∧
    ((importBatch (some overlappingBatch) false).runOn firstPoll).1 = .ok 3 ∧
    ∃ new, ((importBatch (some overlappingBatch) false).runOn firstPoll).2.series.labels = [10000] ++ new ∧
      new.Pairwise (· < ·) ∧ ∀ t, t ∈ new ↔ t = 20000 := by
  let values (x : Binary64) : PerChannel Binary64 :=
    .ofFn fun c => if c.isHashrate then x * 10000000 else x / 100
  have hfirst : firstPoll = ((Chart.new {} none).importSamples true [⟨10000, values 6000⟩]).2 := by
    rw [firstPoll, after_importBatch]
    exact imported_of_ok (History.decode_of_rows (by decide +kernel) (by decide +kernel)
      (List.pairwise_singleton _ _))
  have hrows : History.rows overlappingBatch (Arithmetic.whole overlappingBatch.base) =
      [⟨20000, values 6000⟩, ⟨10000, values 6000⟩, ⟨20000, values 6100⟩] := by decide +kernel
  have hd : History.decode (some overlappingBatch) =
      .ok [⟨10000, values 6000⟩, ⟨20000, values 6000⟩, ⟨20000, values 6100⟩] := by
    rw [History.decode_of_base (History.ofInt?_of_finite (by decide +kernel)), hrows]
    simp [History.inTime, List.mergeSort, List.MergeSort.Internal.splitInTwo]
  have hfresh : firstPoll.fresh (some overlappingBatch) =
      [⟨10000, values 6000⟩, ⟨20000, values 6000⟩, ⟨20000, values 6100⟩] := by
    rw [fresh, History.samples_of_ok hd, hfirst]
    decide +kernel
  have hready : firstPoll.warmup.stage = .ready ∧ firstPoll.warmup.breakPending = false ∧
      firstPoll.lastBreak = none ∧ firstPoll.series.labels = [10000] := by
    rw [hfirst]
    decide +kernel
  obtain ⟨hstage, hpending, hbreak, hlabels⟩ := hready
  have hgap : ∀ s ∈ firstPoll.fresh (some overlappingBatch), ∀ gap, firstPoll.lastBreak = some gap →
      gap < s.time := fun _ _ gap hg => by cases hbreak.symm.trans hg
  have hquiet : ∀ s ∈ firstPoll.fresh (some overlappingBatch), firstPoll.showsRestart s = false := by
    rw [hfresh, hfirst]
    decide +kernel
  obtain ⟨hcount, new, hnew, hasc, hmem, -⟩ :=
    importBatch_once firstPoll (some overlappingBatch) false hstage hpending hgap hquiet
  refine ⟨hstage, hpending, hgap, hquiet, ?_, new, hlabels ▸ hnew, hasc, fun t => ?_⟩
  · rcases hcount with hcount | ⟨-, b, hb, hover⟩
    · rw [hcount, hfresh]
      rfl
    · cases hb
      cases (History.ofInt?_of_finite (by decide +kernel)).symm.trans hover
  · have hlast : firstPoll.series.lastLabel? = some 10000 := by
      rw [Series.lastLabel?, hlabels]
      rfl
    rw [hmem, hfresh, hlast]
    simp
    omega

/-- A sample at a time that has many digits. -/
def farBatch (k : Nat) : HistoryBatch := ⟨(10 ^ k : Nat), [10], .replicate [6000]⟩

theorem decode_farBatch {k : Nat} (hk : 342 ≤ k) : History.decode (some (farBatch k)) = .error .overflow :=
  History.decode_of_no_base Nat.one_ne_zero (Binary64.ofInt?_ten_pow hk)

/-- A time of 401 digits is not dropped as one that is not finite is: the import fails. -/
theorem not_importBatch_once :
    ¬ ∀ p : Chart, Reachable p → p.warmup.stage = .ready → p.warmup.breakPending = false →
      ∀ batch : Option HistoryBatch,
        (∀ s ∈ p.fresh batch, ∀ gap, p.lastBreak = some gap → gap < s.time) →
        (∀ s ∈ p.fresh batch, p.showsRestart s = false) →
        ((importBatch batch true).runOn p).1 = .ok (p.fresh batch).length := by
  intro h
  have hd : History.decode (some (farBatch 400)) = .error .overflow := decode_farBatch (by decide)
  have hnone : (Chart.new {} none).fresh (some (farBatch 400)) = [] := fresh_of_error hd
  have hcount := h _ (.new {} none) rfl rfl (some (farBatch 400)) (by simp [hnone]) (by simp [hnone])
  rw [importBatch_runOn_error _ hd] at hcount
  cases hcount

end Chart

end HashrateChart
