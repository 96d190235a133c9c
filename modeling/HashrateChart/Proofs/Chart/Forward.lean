/-
The last label of a chart only moves forward while history is imported, whatever the batches are
and whatever the chart was loaded from: a sample that is taken is not before it, and a gap finds a
place after it. Once it is past every time that a batch can have, the batch changes nothing.
-/
import HashrateChart.Proofs.Chart.Order

namespace HashrateChart

namespace Chart

variable {p q r : Chart} {last t : Int} {importing : Bool} {s : History.Sample}

/-- The last label of one chart is not before that of another, when that has one. -/
def Follows (q p : Chart) : Prop :=
  ∀ last, p.series.lastLabel? = some last → ∃ next, q.series.lastLabel? = some next ∧ last ≤ next

theorem Follows.of_eq (h : q.series = p.series) : q.Follows p := fun last hl =>
  ⟨last, h ▸ hl, Int.le_refl last⟩

theorem Follows.trans (h : r.Follows q) (hq : q.Follows p) : r.Follows p := by
  intro last hl
  obtain ⟨next, hn, hle⟩ := hq last hl
  obtain ⟨third, ht, hle'⟩ := h next hn
  exact ⟨third, ht, Int.le_trans hle hle'⟩

theorem follows_insertBreak (p : Chart) (t : Int) : (p.insertBreak t).Follows p := by
  rcases p.insertBreak_cases t with ⟨hs, -⟩ | ⟨hg, -⟩
  · exact .of_eq hs
  · exact fun last hl => ⟨_, hg, Int.le_of_lt (Series.lt_gapTime t hl)⟩

theorem follows_opened (p : Chart) (t : Int) : (p.opened t).Follows p := by
  cases hb : p.warmup.breakPending with
  | true =>
    rw [opened_of_pending hb]
    exact (follows_insertBreak _ _).trans (.of_eq rfl)
  | false =>
    rw [opened_of_not_pending hb]
    exact .of_eq rfl

/-- A sample that is not stored before the last label does not take it back. -/
theorem follows_take (importing : Bool) (h : p.Reaches s.time) : (p.take importing s).Follows p := by
  unfold Chart.take
  rcases p.importSample_cases importing s with ⟨-, hi⟩ | ⟨-, -, hi⟩ | ⟨-, -, hi⟩ <;> rw [hi]
  · exact .of_eq rfl
  · exact Follows.trans (.of_eq rfl) ((follows_insertBreak _ _).trans (.of_eq relocked_series))
  · exact fun last hl => ⟨_, Series.lastLabel?_upsert _ _ _, h last hl⟩

theorem follows_importAll {samples : List History.Sample} (hr : ∀ s ∈ samples, p.Reaches s.time)
    (hs : samples.Pairwise (·.time ≤ ·.time)) : (p.importAll importing samples).2.Follows p := by
  induction samples generalizing p with
  | nil => exact .of_eq rfl
  | cons s rest ih =>
    rw [importAll_cons]
    obtain ⟨hlater, hrest⟩ := List.pairwise_cons.mp hs
    have hfirst := hr s List.mem_cons_self
    exact (ih (fun u hu => hfirst.take importing (hlater u hu)) hrest).trans (follows_take importing hfirst)

/-- No batch takes the last label back. -/
theorem follows_imported (p : Chart) (batch : Option HistoryBatch) (importing : Bool) :
    (p.imported batch importing).Follows p := by
  cases hd : History.decode batch with
  | error e =>
    rw [imported_of_error hd]
    exact .of_eq rfl
  | ok samples =>
    rw [imported_of_ok hd]
    cases hf : samples.filter p.accepts with
    | nil =>
      rw [importSamples_of_nil hf]
      exact .of_eq rfl
    | cons s rest =>
      rw [importSamples_of_cons hf, ← hf]
      refine (follows_importAll (fun x hx => ?_) ?_).trans (follows_opened p s.time)
      · exact (reaches_of_accepts (List.mem_filter.mp hx).2).opened _
      · exact (History.decode_pairwise hd).sublist List.filter_sublist

/-- A batch whose samples are all before the last label changes nothing. -/
theorem imported_of_past {batch : Option HistoryBatch} (hl : p.series.lastLabel? = some last)
    (hpast : ∀ x ∈ History.samples batch, x.time < last) : p.imported batch importing = p := by
  cases hd : History.decode batch with
  | error e => exact imported_of_error hd
  | ok samples =>
    rw [History.samples_of_ok hd] at hpast
    have hnone : samples.filter p.accepts = [] := by
      refine List.filter_eq_nil_iff.mpr fun x hx ha => ?_
      have hle := (accepts_iff.mp ha).1 last hl
      have hlt := hpast x hx
      omega
    rw [imported_of_ok hd, importSamples_of_nil hnone]

end Chart

end HashrateChart
