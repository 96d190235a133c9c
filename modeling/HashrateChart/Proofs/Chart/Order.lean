/-
The order of the curves: whatever is asked of a chart and whatever batches it
is given, the labels strictly increase and the six lists stay as long as them.

Storing a sample does not look at the labels before the last one. What keeps
them in order is that samples come sorted and not before the last label, that
a time up to the last gap is lifted behind it, and that the last gap is never
behind the last label. The last gap may outlive its own row: once all rows are
trimmed it can lie beyond every sample, and the samples are lifted to one label.
-/
import HashrateChart.Proofs.Chart.Run
import HashrateChart.Proofs.Series

namespace HashrateChart

namespace Chart

variable {p q : Chart} {t u : Int} {importing : Bool} {s : History.Sample}

/-- The curves are in order, and the last gap is not behind them. -/
structure InOrder (p : Chart) : Prop where
  curves : p.series.InOrder
  gap_le : ∀ last gap, p.series.lastLabel? = some last → p.lastBreak = some gap → gap ≤ last

/-- A sample at a time would not be stored before the last label. -/
def Reaches (p : Chart) (t : Int) : Prop :=
  ∀ last, p.series.lastLabel? = some last → last ≤ p.lifted t

theorem InOrder.congr (h : p.InOrder) (hs : q.series = p.series) (hb : q.lastBreak = p.lastBreak) :
    q.InOrder := ⟨hs ▸ h.curves, by rw [hs, hb]; exact h.gap_le⟩

/-! ## Lifted times -/

theorem lifted_congr (h : q.lastBreak = p.lastBreak) (t : Int) : q.lifted t = p.lifted t := by
  unfold lifted; rw [h]

theorem le_lifted (p : Chart) (t : Int) : t ≤ p.lifted t := by
  unfold lifted
  split
  · split <;> omega
  · exact Int.le_refl t

theorem lt_lifted {gap : Int} (h : p.lastBreak = some gap) (t : Int) : gap < p.lifted t := by
  simp only [lifted, h]
  split <;> omega

theorem lifted_mono (p : Chart) (h : t ≤ u) : p.lifted t ≤ p.lifted u := by
  unfold lifted
  split
  · split <;> split <;> omega
  · exact h

theorem Reaches.congr (h : p.Reaches t) (hs : q.series = p.series) (hb : q.lastBreak = p.lastBreak) :
    q.Reaches t := by
  intro last hl
  rw [lifted_congr hb]
  exact h last (hs ▸ hl)

theorem Reaches.mono (h : p.Reaches t) (htu : t ≤ u) : p.Reaches u := fun last hl =>
  Int.le_trans (h last hl) (p.lifted_mono htu)

/-- The time is after the last label and after the last gap. -/
def Clears (p : Chart) (t : Int) : Prop :=
  (∀ last, p.series.lastLabel? = some last → last < t) ∧ ∀ gap, p.lastBreak = some gap → gap < t

theorem Clears.mono (h : p.Clears t) (htu : t ≤ u) : p.Clears u :=
  ⟨fun last hl => Int.lt_of_lt_of_le (h.1 last hl) htu,
    fun gap hg => Int.lt_of_lt_of_le (h.2 gap hg) htu⟩

theorem Clears.new (config : Config) (storage : Option Storage) (t : Int) :
    (Chart.new config storage).Clears t := ⟨fun _ hl => (by cases hl), fun _ hg => (by cases hg)⟩

theorem Clears.congr (h : p.Clears t) (hs : q.series = p.series) (hb : q.lastBreak = p.lastBreak) :
    q.Clears t := ⟨hs ▸ h.1, hb ▸ h.2⟩

theorem lifted_of_gap_lt (h : ∀ gap, p.lastBreak = some gap → gap < t) : p.lifted t = t := by
  unfold lifted
  split
  · next gap hg => exact if_neg (Int.not_le.mpr (h gap hg))
  · rfl

theorem lifted_of_clears (h : p.Clears t) : p.lifted t = t := lifted_of_gap_lt h.2

/-! ## Steps -/

theorem lastBreak_insertBreak (p : Chart) (t : Int) :
    (p.insertBreak t).lastBreak = (p.series.insertBreak t).1.or p.lastBreak := by rw [insertBreak_eq]

theorem series_insertBreak (p : Chart) (t : Int) :
    (p.insertBreak t).series = (p.series.insertBreak t).2 := by rw [insertBreak_eq]

/-- A gap is asked for in vain, or it is the last label and the last gap. -/
theorem insertBreak_cases (p : Chart) (t : Int) :
    ((p.insertBreak t).series = p.series ∧ (p.insertBreak t).lastBreak = p.lastBreak) ∨
      ((p.insertBreak t).series.lastLabel? = some (p.series.gapTime t) ∧
        (p.insertBreak t).lastBreak = some (p.series.gapTime t)) := by
  rw [series_insertBreak, lastBreak_insertBreak]
  by_cases ht : t ≤ 0
  · rw [Series.insertBreak_of_le ht]; exact .inl ⟨rfl, rfl⟩
  · rw [Series.insertBreak_of_pos (by omega)]
    exact .inr ⟨Series.lastLabel?_append _ _ _, rfl⟩

theorem InOrder.insertBreak (h : p.InOrder) (t : Int) : (p.insertBreak t).InOrder where
  curves := by rw [series_insertBreak]; exact h.curves.insertBreak t
  gap_le last gap hl hb := by
    rcases p.insertBreak_cases t with ⟨hs, hn⟩ | ⟨hp, hn⟩
    · exact h.gap_le last gap (hs ▸ hl) (hn ▸ hb)
    · rw [hp] at hl; rw [hn] at hb
      cases hl; cases hb
      exact Int.le_refl _

theorem Reaches.insertBreak (h : p.Reaches u) (t : Int) : (p.insertBreak t).Reaches u := by
  rcases p.insertBreak_cases t with ⟨hs, hn⟩ | ⟨hp, hn⟩
  · exact h.congr hs hn
  · intro last hl
    rw [hp] at hl
    cases hl
    exact Int.le_of_lt (lt_lifted hn u)

theorem InOrder.storeRow (h : p.InOrder) (hr : p.Reaches t) {row : PerChannel Binary64} :
    (p.storeRow (p.lifted t) row).InOrder where
  curves := h.curves.upsert hr
  gap_le last gap hl hb := by
    have hl' : (p.series.upsert (p.lifted t) row).lastLabel? = some last := hl
    rw [Series.lastLabel?_upsert] at hl'
    cases hl'
    exact Int.le_of_lt (lt_lifted hb t)

/-- A sample leaves room for all that are not before it. -/
theorem Reaches.take (importing : Bool) (hr : p.Reaches s.time) (hu : s.time ≤ u) :
    (p.take importing s).Reaches u := by
  unfold Chart.take
  rcases p.importSample_cases importing s with ⟨-, hi⟩ | ⟨-, -, hi⟩ | ⟨-, -, hi⟩ <;> rw [hi]
  · exact (hr.mono hu).congr rfl rfl
  · exact (((hr.mono hu).congr relocked_series relocked_lastBreak).insertBreak _).congr rfl rfl
  · intro last hl
    cases (Series.lastLabel?_upsert _ _ _).symm.trans hl
    refine Int.le_trans (p.lifted_mono hu) (Int.le_of_eq (lifted_congr ?_ u).symm)
    exact filtered_lastBreak

/-- A sample keeps the order and leaves room for all that are not before it. -/
theorem InOrder.take (importing : Bool) (h : p.InOrder) (hr : p.Reaches s.time) :
    (p.take importing s).InOrder ∧ ∀ u, s.time ≤ u → (p.take importing s).Reaches u := by
  refine ⟨?_, fun u hu => hr.take importing hu⟩
  unfold Chart.take
  rcases p.importSample_cases importing s with ⟨-, hi⟩ | ⟨-, -, hi⟩ | ⟨-, -, hi⟩ <;> rw [hi]
  · exact h.congr rfl rfl
  · have hq : (p.relocked importing s).InOrder := h.congr relocked_series relocked_lastBreak
    exact (hq.insertBreak _).congr rfl rfl
  · have hq : (p.filtered importing s).2.InOrder := h.congr filtered_series filtered_lastBreak
    have ht : (p.filtered importing s).2.lifted s.time = p.lifted s.time :=
      lifted_congr filtered_lastBreak _
    rw [← ht]
    exact hq.storeRow (hr.congr filtered_series filtered_lastBreak)

theorem InOrder.importAll {samples : List History.Sample} (h : p.InOrder)
    (hr : ∀ s ∈ samples, p.Reaches s.time) (hs : samples.Pairwise (·.time ≤ ·.time)) :
    (p.importAll importing samples).2.InOrder := by
  induction samples generalizing p with
  | nil => exact h
  | cons s rest ih =>
    rw [importAll_cons]
    obtain ⟨hlater, hrest⟩ := List.pairwise_cons.mp hs
    obtain ⟨ht, hu⟩ := h.take importing (hr s List.mem_cons_self)
    exact ih ht (fun x hx => hu _ (hlater x hx)) hrest

/-! ## Batches and other calls -/

theorem accepts_iff : p.accepts s = true ↔
    (∀ last, p.series.lastLabel? = some last → last ≤ s.time) ∧
      ∀ least, p.historyMin = some least → least.le (.int s.time) = true := by
  unfold accepts
  rw [Bool.and_eq_true]
  refine and_congr ?_ ?_
  · cases p.series.lastLabel? <;> simp
  · cases p.historyMin <;> simp

theorem reaches_of_accepts (h : p.accepts s = true) : p.Reaches s.time := fun _ hl =>
  Int.le_trans ((accepts_iff.mp h).1 _ hl) (p.le_lifted s.time)

theorem InOrder.opened (h : p.InOrder) (t : Int) : (p.opened t).InOrder := by
  cases hb : p.warmup.breakPending with
  | true =>
    rw [opened_of_pending hb]
    exact (h.congr rfl rfl : InOrder { p with warmup := p.warmup.consumeBreak.2 }).insertBreak _
  | false => rw [opened_of_not_pending hb]; exact h

theorem Reaches.opened (h : p.Reaches u) (t : Int) : (p.opened t).Reaches u := by
  cases hb : p.warmup.breakPending with
  | true =>
    rw [opened_of_pending hb]
    exact (h.congr rfl rfl : Reaches { p with warmup := p.warmup.consumeBreak.2 } u).insertBreak _
  | false => rw [opened_of_not_pending hb]; exact h

theorem InOrder.importSamples {samples : List History.Sample} (h : p.InOrder)
    (hs : samples.Pairwise (·.time ≤ ·.time)) : (p.importSamples importing samples).2.InOrder := by
  cases hf : samples.filter p.accepts with
  | nil => rw [importSamples_of_nil hf]; exact h
  | cons s rest =>
    rw [importSamples_of_cons hf]
    rw [← hf]
    refine (h.opened _).importAll (fun x hx => ?_) (hs.sublist List.filter_sublist)
    exact (reaches_of_accepts (List.mem_filter.mp hx).2).opened _

theorem InOrder.imported (h : p.InOrder) (batch : Option HistoryBatch) (importing : Bool) :
    (p.imported batch importing).InOrder := by
  cases hd : History.decode batch with
  | ok samples => rw [imported_of_ok hd]; exact h.importSamples (History.decode_pairwise hd)
  | error e => rw [imported_of_error hd]; exact h

theorem InOrder.dropped (p : Chart) : p.dropCurves.InOrder := ⟨Series.InOrder.empty, fun _ _ hl => by cases hl⟩

theorem InOrder.trim (h : p.InOrder) (now : Int) : (p.trim now).InOrder where
  curves := h.curves.trim now _
  gap_le last gap hl hb := h.gap_le last gap (Series.lastLabel?_trim hl) hb

theorem InOrder.effect (h : p.InOrder) (call : Call) : (p.effect call).InOrder := by
  cases call with
  | observe now info => rw [Chart.effect, observe_eq]; exact h.congr rfl rfl
  | importBatch batch importing => exact h.imported batch importing
  | reload batch =>
    refine InOrder.imported ?_ batch true
    split
    · exact (InOrder.dropped p).congr rfl rfl
    · exact h
  | commit now clock persist => exact h.trim now
  | clear now => exact (InOrder.dropped p).congr rfl rfl
  | frame now window visibility => exact h.congr rfl rfl
  | pollDeferred now => rw [Chart.effect, pollDeferred_eq]; exact h.congr rfl rfl
  | takeReload => exact h.congr rfl rfl

theorem InOrder.new (config : Config) (storage : Option Storage) : (Chart.new config storage).InOrder :=
  ⟨Series.InOrder.empty, fun _ _ hl => by cases hl⟩

theorem InOrder.afterAll (h : p.InOrder) (calls : List Call) : (p.afterAll calls).InOrder :=
  afterAll_induction calls h (fun _ call _ hp => hp.effect call) fun _ _ hp => hp.congr rfl rfl

/-- **The curves stay in order.** After any calls of a chart that started empty, with any batches
of history and also when calls fail, the labels strictly increase and each of the six lists has
one value for each of them. -/
theorem series_inOrder_of_run (config : Config) (storage : Option Storage) (calls : List Call) :
    ((Chart.new config storage).afterAll calls).series.InOrder :=
  ((InOrder.new config storage).afterAll calls).curves

end Chart

end HashrateChart
