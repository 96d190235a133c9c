/-
The stored form of curves, and curves that are written and read again.

Labels that are exact as binary64 numbers are whole numbers there, so the stored form
gives them back. What is written is cut to the newest rows by one rule for the labels
and for the six lists, which have one length: so a row stays together, and the
curves that are cut first have the same stored form (`toStored_latest`). What is
lost is what has no digits in a text: a value that is not finite comes back as a gap.
-/
import HashrateChart.Proofs.Series
import HashrateChart.Proofs.Storage

namespace HashrateChart

namespace Series

variable {s : Series} {st : StoredSeries}

/-! ## Stored form -/

theorem of_toStored (h : s.toStored = .ok st) :
    (s.labels.mapM fun t => Arithmetic.ofInt? t) = .ok st.labels ∧ st.data = s.data := by
  unfold toStored at h
  simp only [bind, Except.bind] at h
  split at h
  · cases h
  · next xs hxs =>
    cases h
    exact ⟨hxs, rfl⟩

/-- The stored form of curves in order is regular. -/
theorem regular_toStored (hs : s.Aligned) (h : s.toStored = .ok st) : st.Regular := by
  obtain ⟨hlabels, hdata⟩ := of_toStored h
  refine ⟨fun c => ?_, fun x hx => ?_⟩
  · rw [hdata, hs c, length_of_mapM hlabels]
  · obtain ⟨k, hk⟩ := List.mem_iff_getElem?.mp hx
    obtain ⟨t, -, ht⟩ := getElem?_of_mapM hlabels hk
    exact Arithmetic.isFinite_of_ofInt? ht

theorem mapM_truncate {labels : List Binary64} (h : ∀ t ∈ labels, t.isFinite = true) :
    ∃ ts, labels.mapM Binary64.truncate = .ok ts ∧ ts.length = labels.length := by
  induction labels with
  | nil => exact ⟨[], rfl, rfl⟩
  | cons x labels ih =>
    obtain ⟨ts, hts, hlen⟩ := ih fun t ht => h t (List.mem_cons_of_mem _ ht)
    obtain ⟨t, ht⟩ := Binary64.truncate_of_isFinite (h x List.mem_cons_self)
    refine ⟨t :: ts, ?_, by rw [List.length_cons, List.length_cons, hlen]⟩
    rw [List.mapM_cons, ht, hts]
    rfl

/-- Regular curves have whole labels, and a value of each channel for each of them. -/
theorem ofStored_of_regular (h : st.Regular) :
    ∃ stored, ofStored st = .ok stored ∧ stored.Aligned ∧ stored.labels.length = st.labels.length := by
  obtain ⟨ts, hts, hlen⟩ := mapM_truncate h.finite
  refine ⟨⟨ts, st.data.map (fitLength st.labels.length)⟩, ?_, fun c => ?_, hlen⟩
  · rw [ofStored, hts]
    rfl
  · rw [PerChannel.get_map, StoredSeries.length_fitLength, hlen]

/-- Labels that are all binary64 numbers are stored as such numbers, which give them back. -/
theorem mapM_ofInt? {labels : List Int} (h : ∀ t ∈ labels, Binary64.IsExact t) :
    ∃ xs : List Binary64, (labels.mapM fun t => Arithmetic.ofInt? t) = .ok xs ∧
      (∀ x ∈ xs, x.isFinite = true) ∧ xs.length = labels.length ∧ xs.mapM Binary64.truncate = .ok labels := by
  induction labels with
  | nil => exact ⟨[], rfl, nofun, rfl, rfl⟩
  | cons t labels ih =>
    obtain ⟨xs, hxs, hfin, hlen, hback⟩ := ih fun u hu => h u (List.mem_cons_of_mem _ hu)
    obtain ⟨x, hx, hf, ht⟩ := Binary64.ofInt?_of_isExact (h t List.mem_cons_self)
    refine ⟨x :: xs, ?_, ?_, ?_, ?_⟩
    · rw [List.mapM_cons, hx, hxs]
      rfl
    · rw [List.forall_mem_cons]
      exact ⟨hf, hfin⟩
    · rw [List.length_cons, List.length_cons, hlen]
    · rw [List.mapM_cons, ht, hback]
      rfl

/-- The curves with a gap for every value that has no digits. -/
def withGaps (s : Series) : Series :=
  { s with data := s.data.map fun values => values.map StoredSeries.gapped }

theorem InOrder.withGaps (h : s.InOrder) : s.withGaps.InOrder :=
  ⟨h.ascending, fun c => by simp [Series.withGaps, h.aligned c]⟩

/-- Curves with exact labels have a stored form, and it gives them back. -/
theorem toStored_of_exact (hs : s.Aligned) (hexact : ∀ t ∈ s.labels, Binary64.IsExact t) :
    ∃ st, s.toStored = .ok st ∧ st.Regular ∧ st.labels.length = s.labels.length ∧
      ofStored st.withGaps = .ok s.withGaps := by
  obtain ⟨xs, hxs, hfin, hlen, hback⟩ := mapM_ofInt? hexact
  refine ⟨⟨xs, s.data⟩, ?_, ⟨fun c => by rw [hs c, hlen], hfin⟩, hlen, ?_⟩
  · rw [toStored, hxs]
    rfl
  · have hfit : s.withGaps.data.map (fitLength xs.length) = s.withGaps.data :=
      PerChannel.ext_get fun c => by
        rw [PerChannel.get_map, StoredSeries.fitLength_of_length (by simp [withGaps, hs c, hlen])]
    have hgaps : (⟨xs, s.data⟩ : StoredSeries).withGaps = ⟨xs, s.withGaps.data⟩ := rfl
    rw [hgaps, ofStored]
    dsimp only
    rw [hback, hfit]
    rfl

/-! ## The newest rows -/

/-- The last rows, at most a number of them. -/
def latest (most : Int) (s : Series) : Series :=
  let older := s.labels.length - most.toNat
  ⟨s.labels.drop older, s.data.map (·.drop older)⟩

theorem length_latest (most : Int) (s : Series) :
    (s.latest most).labels.length = min s.labels.length most.toNat := by
  simp only [latest, List.length_drop]
  omega

theorem Aligned.latest (h : s.Aligned) (most : Int) : (s.latest most).Aligned := fun c => by
  simp [Series.latest, h c]

/-- Curves that are cut have the stored form that is cut the same way. -/
theorem toStored_latest (hs : s.Aligned) (h : s.toStored = .ok st) (most : Int) :
    (s.latest most).toStored = .ok (StoredSeries.normalize st.labels st.data most) := by
  obtain ⟨hlabels, hdata⟩ := of_toStored h
  have hlen : st.labels.length = s.labels.length := length_of_mapM hlabels
  have hcut : (s.data.map fun values => values.drop (s.labels.length - most.toNat)) =
      st.data.map (StoredSeries.newest most) := PerChannel.ext_get fun c => by
    rw [hdata, PerChannel.get_map, PerChannel.get_map, StoredSeries.newest, hs c]
  rw [StoredSeries.normalize_eq_newest (regular_toStored hs h), toStored, latest]
  dsimp only
  rw [mapM_drop hlabels, hcut, StoredSeries.newest, hlen]
  rfl

end Series

namespace Storage

/-! ## Written and read -/

/-- Curves that were cut and written are what the storage holds. -/
theorem held_saved {storage : Storage} {most clock : Int} (horder : storage.InOrder)
    (hmost : storage.maxPoints = .ok most)
    (hclock : (Decimal.digits clock.natAbs).length ≤ Decimal.maxIntDigits)
    (labels : List Binary64) (data : PerChannel (List Binary64)) :
    (storage.written StorageKeys.chartData ((StoredSeries.normalize labels data most).print clock)).held =
      .ok (some (StoredSeries.normalize labels data most).withGaps) := by
  generalize hsaved : StoredSeries.normalize labels data most = saved
  have hget := (get?_written horder StorageKeys.chartData (saved.print clock) _).trans (if_pos rfl)
  have hmost' : (storage.written StorageKeys.chartData (saved.print clock)).maxPoints = .ok most := hmost
  rw [(horder.written _ _).held hget, hmost', ← hsaved]
  exact StoredSeries.ofText_print_regular (StoredSeries.regular_normalize ..)
    (StoredSeries.length_normalize ..) hclock

/-- Stores curves at a time, and reads them again. -/
def keep (series : Series) (clock : Int) : Action Storage (Option Series) := do
  saveSeries (← liftM (m := Except Fault) series.toStored) clock
  match ← loadSeries with
  | none => return none
  | some stored => return some (← liftM (m := Except Fault) (Series.ofStored stored))

/-- **What is stored is read again.** In a store that does not fail, curves with exact labels that are
written at some time come back as their newest rows, as many as are kept at most: under the same
labels each channel has the same finite values, and a gap for every other value. -/
theorem keep_latest {storage : Storage} {s : Series} {most clock : Int} {time : Binary64}
    (horder : storage.InOrder) (hmost : storage.maxPoints = .ok most) (hclock : time.truncate = .ok clock)
    (hs : s.Aligned) (hexact : ∀ t ∈ s.labels, Binary64.IsExact t) :
    ∃ back, ((keep s clock).runOn storage).1 = .ok (some back) ∧
      back.labels = s.labels.drop (s.labels.length - most.toNat) ∧
      back.labels.length = min s.labels.length most.toNat ∧
      ∀ c, back.data.get c =
        ((s.data.get c).drop (s.labels.length - most.toNat)).map fun x => if x.isFinite then x else .nan := by
  obtain ⟨st, hst, -⟩ := Series.toStored_of_exact hs hexact
  -- the curves as they are cut, whose stored form is what is written
  have hcut := Series.toStored_latest hs hst most
  obtain ⟨st', hst', -, -, hback⟩ := Series.toStored_of_exact (hs.latest most)
    fun t ht => hexact t (List.mem_of_mem_drop ht)
  obtain rfl : StoredSeries.normalize st.labels st.data most = st' := Except.ok.inj (hcut.symm.trans hst')
  have hheld := held_saved horder hmost (Decimal.few_digits_of_truncate hclock) st.labels st.data
  refine ⟨(s.latest most).withGaps, ?_, rfl, Series.length_latest most s, fun c => ?_⟩
  · rw [keep, Action.runOn_bind, Action.runOn_liftM, hst]
    dsimp only
    rw [Action.runOn_bind, saveSeries_runOn hmost]
    dsimp only
    rw [Action.runOn_bind, loadSeries_runOn, hheld]
    dsimp only
    rw [Action.runOn_bind, Action.runOn_liftM, hback]
    rfl
  · simp only [Series.withGaps, Series.latest, PerChannel.get_map]
    rfl

/-- Three rows; the last two have gaps, infinite values and a negative zero. -/
def mixedRows : Series :=
  ⟨[10, 20, 30],
    .ofFn fun c => if c.isHashrate then [6000, .nan, .infinite true] else [60, -0, 61]⟩

theorem keep_latest_of_mixed_rows :
    (⟨.ofItems [], {}, .ok 2⟩ : Storage).InOrder ∧ (∃ time : Binary64, time.truncate = .ok 50000) ∧
    mixedRows.Aligned ∧ (∀ t ∈ mixedRows.labels, Binary64.IsExact t) ∧
    ∃ back, ((keep mixedRows 50000).runOn ⟨.ofItems [], {}, .ok 2⟩).1 = .ok (some back) ∧
      back = ⟨[20, 30], .ofFn fun c => if c.isHashrate then [.nan, .nan] else [-0, 61]⟩ := by
  have horder : (⟨.ofItems [], {}, .ok 2⟩ : Storage).InOrder := fun _ => rfl
  obtain ⟨time, -, -, hclock⟩ := Binary64.ofInt?_of_isExact (i := 50000) (by decide)
  have haligned : mixedRows.Aligned := fun c => by cases c <;> rfl
  have hexact : ∀ t ∈ mixedRows.labels, Binary64.IsExact t := by decide
  obtain ⟨back, hback, hlabels, -, hdata⟩ := keep_latest horder rfl hclock haligned hexact
  refine ⟨horder, ⟨time, hclock⟩, haligned, hexact, back, hback, ?_⟩
  obtain ⟨labels, data⟩ := back
  refine congr (congrArg Series.mk hlabels) (PerChannel.ext_get fun c => (hdata c).trans ?_)
  cases c <;> decide +kernel

end Storage

end HashrateChart
