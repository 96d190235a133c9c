/-
Chunks: importing a batch in two parts is importing it at once, in all of the
state and in the counts, when the first part is of earlier times.

An import begins with steps that a second one makes again: it drops the samples
that are not new, and it draws a gap that is pending. After samples that are at
least two apart neither makes a difference. A gap or a sample is stored at most
one after the time of a sample, so what has been stored never reaches the next
one; and an import leaves no gap pending.

The parts of a batch are those of its arrays, while its samples are in order of
time. When the arrays are not, the second part may hold samples that are older
than those of the first, and these are no longer new.
-/
import HashrateChart.Proofs.Chart.Order

namespace HashrateChart

namespace Chart

variable {p : Chart} {t u : Int} {s : History.Sample} {xs ys : List History.Sample}

/-- Samples are at least two apart. -/
def Spaced (samples : List History.Sample) : Prop := samples.Pairwise (·.time + 2 ≤ ·.time)

/-! ## How far an import reaches -/

/-- A gap is placed no further than just after the last label. -/
theorem Clears.insertBreak (h : p.Clears u) (ht : t ≤ u) : (p.insertBreak t).Clears (u + 1) := by
  rcases p.insertBreak_cases t with ⟨hs, hb⟩ | ⟨hl, hb⟩
  · exact ⟨fun last hl => Int.lt_of_lt_of_le (h.1 last (hs ▸ hl)) (by omega),
      fun gap hg => Int.lt_of_lt_of_le (h.2 gap (hb ▸ hg)) (by omega)⟩
  · have hgap : p.series.gapTime t ≤ u := Series.gapTime_le ht h.1
    refine ⟨fun last hl' => ?_, fun gap hg => ?_⟩
    · rw [hl] at hl'; cases hl'; omega
    · rw [hb] at hg; cases hg; omega

theorem Clears.lifted_le (h : p.Clears (t + 1)) : p.lifted t ≤ t + 1 := by
  unfold lifted
  split
  · next gap hg =>
    have := h.2 gap hg
    split <;> omega
  · omega

/-- A sample reaches at most one beyond its time. -/
theorem Clears.take (importing : Bool) (h : p.Clears (s.time + 1)) :
    (p.take importing s).Clears (s.time + 2) := by
  have ht := h.lifted_le
  unfold Chart.take
  rcases p.importSample_cases importing s with ⟨-, hi⟩ | ⟨-, -, hi⟩ | ⟨-, -, hi⟩ <;> rw [hi]
  · exact h.mono (by omega)
  · have hq : (p.relocked importing s).Clears (s.time + 1) := h.congr relocked_series relocked_lastBreak
    exact ((hq.insertBreak (t := p.lifted s.time - 1) (by omega)).congr rfl rfl).mono (by omega)
  · rw [filtered_eq]
    refine ⟨fun last hl => ?_, fun gap hg => ?_⟩
    · have hl : (p.series.upsert (p.lifted s.time) (p.filtered importing s).1).lastLabel? = some last := hl
      rw [Series.lastLabel?_upsert] at hl
      cases hl
      omega
    · have := h.2 gap hg
      omega

theorem Clears.opened (h : p.Clears t) : (p.opened t).Clears (t + 1) := by
  cases hb : p.warmup.breakPending with
  | true =>
    rw [opened_of_pending hb]
    have hq : ({ p with warmup := p.warmup.consumeBreak.2 } : Chart).Clears t := h.congr rfl rfl
    exact hq.insertBreak (by omega)
  | false =>
    rw [opened_of_not_pending hb]
    exact h.mono (by omega)

/-- Samples leave room for all times that are two after them. -/
theorem Clears.importAll (importing : Bool) (h : ∀ s ∈ xs, p.Clears (s.time + 1)) (hs : Spaced xs)
    (hu : ∀ s ∈ xs, s.time + 2 ≤ u) (hp : p.Clears u) : (p.importAll importing xs).2.Clears u := by
  induction xs generalizing p with
  | nil => exact hp
  | cons s rest ih =>
    obtain ⟨hlater, hrest⟩ := List.pairwise_cons.mp hs
    have ht : (p.take importing s).Clears (s.time + 2) :=
      Clears.take importing (h s List.mem_cons_self)
    rw [importAll_cons]
    refine ih (fun x hx => ht.mono ?_) hrest (fun x hx => hu x (List.mem_cons_of_mem _ hx))
      (ht.mono (hu s List.mem_cons_self))
    have := hlater x hx
    omega

/-! ## Two parts -/

/-- What is new decides on an import. -/
theorem importSamples_congr (importing : Bool) (h : xs.filter p.accepts = ys.filter p.accepts) :
    p.importSamples importing xs = p.importSamples importing ys := by
  unfold importSamples
  rw [h]

/-- An import that found new samples leaves no gap pending, and the least time as it was. -/
theorem importSamples_of_new (importing : Bool) (hnew : xs.filter p.accepts ≠ []) :
    (p.importSamples importing xs).2.warmup.breakPending = false ∧
      (p.importSamples importing xs).2.historyMin = p.historyMin := by
  cases hf : xs.filter p.accepts with
  | nil => exact absurd hf hnew
  | cons s rest =>
    rw [importSamples_of_cons hf]
    refine ⟨importAll_breakPending importing _ (opened_breakPending p s.time), ?_⟩
    have hm : ((p.opened s.time).importAll importing (s :: rest)).2.unimported.historyMin =
        p.unimported.historyMin := by rw [importAll_unimported, opened_unimported]
    exact hm

/-- An import leaves room for all times that are two after its samples. -/
theorem Clears.importSamples (importing : Bool) (hp : p.Clears u) (hs : Spaced xs)
    (hc : ∀ s ∈ xs, p.Clears s.time) (hu : ∀ s ∈ xs, s.time + 2 ≤ u) :
    (p.importSamples importing xs).2.Clears u := by
  cases hf : xs.filter p.accepts with
  | nil => rw [importSamples_of_nil hf]; exact hp
  | cons s rest =>
    have hmem : ∀ x ∈ s :: rest, x ∈ xs := fun x hx => (List.mem_filter.mp (hf ▸ hx)).1
    have hspaced : Spaced (s :: rest) := hf ▸ hs.sublist List.filter_sublist
    have hopen : (p.opened s.time).Clears (s.time + 1) := (hc s (hmem s List.mem_cons_self)).opened
    rw [importSamples_of_cons hf]
    refine Clears.importAll importing (fun x hx => hopen.mono ?_) hspaced (fun x hx => hu x (hmem x hx))
      (hopen.mono ?_)
    · rcases List.mem_cons.mp hx with rfl | hx
      · exact Int.le_refl _
      · have := (List.pairwise_cons.mp hspaced).1 x hx
        omega
    · have := hu s (hmem s List.mem_cons_self)
      omega

theorem accepts_congr {q : Chart} (hp : p.Clears s.time) (hq : q.Clears s.time)
    (hm : q.historyMin = p.historyMin) : q.accepts s = p.accepts s := by
  rw [Bool.eq_iff_iff, accepts_iff, accepts_iff, hm]
  exact ⟨fun h => ⟨fun last hl => Int.le_of_lt (hp.1 last hl), h.2⟩,
    fun h => ⟨fun last hl => Int.le_of_lt (hq.1 last hl), h.2⟩⟩

/-- **Two imports are one.** Samples that are at least two apart, and after the last label and the
last gap, may be imported in two parts. -/
theorem importSamples_append (importing : Bool) (hs : Spaced (xs ++ ys))
    (hc : ∀ s ∈ xs ++ ys, p.Clears s.time) :
    p.importSamples importing (xs ++ ys) =
      ((p.importSamples importing xs).1 + ((p.importSamples importing xs).2.importSamples importing ys).1,
        ((p.importSamples importing xs).2.importSamples importing ys).2) := by
  obtain ⟨hxs, hys, hcross⟩ := List.pairwise_append.mp hs
  by_cases hnew : xs.filter p.accepts = []
  · have hsame : p.importSamples importing (xs ++ ys) = p.importSamples importing ys :=
      importSamples_congr importing (by rw [List.filter_append, hnew, List.nil_append])
    rw [hsame, importSamples_of_nil hnew, Nat.zero_add]
  · obtain ⟨hpend, hleast⟩ := importSamples_of_new importing hnew
    have hsame : ys.filter (p.importSamples importing xs).2.accepts = ys.filter p.accepts := by
      refine List.filter_congr fun y hy => ?_
      have hy' : p.Clears y.time := hc y (List.mem_append_right _ hy)
      exact accepts_congr hy' (hy'.importSamples importing hxs
        (fun x hx => hc x (List.mem_append_left _ hx)) fun x hx => hcross x hx y hy) hleast
    obtain ⟨s, rest, hf⟩ := List.exists_cons_of_ne_nil hnew
    cases hg : ys.filter p.accepts with
    | nil =>
      have hone : p.importSamples importing (xs ++ ys) = p.importSamples importing xs :=
        importSamples_congr importing (by rw [List.filter_append, hg, List.append_nil])
      rw [hone, importSamples_of_nil (hsame.trans hg), Nat.add_zero]
    | cons y rest' =>
      have hboth : (xs ++ ys).filter p.accepts = s :: (rest ++ y :: rest') := by
        rw [List.filter_append, hf, hg, List.cons_append]
      -- the second part starts where the first one has stopped, for no gap is pending
      rw [importSamples_of_cons (hsame.trans hg), opened_of_not_pending hpend,
        importSamples_of_cons hboth, importSamples_of_cons hf, ← List.cons_append, importAll_append]

/-! ## Parts of a batch -/

theorem importBatch_runOn_ok (p : Chart) {batch : Option HistoryBatch} {samples : List History.Sample}
    (h : History.decode batch = .ok samples) (importing : Bool) :
    (importBatch batch importing).runOn p =
      (.ok (p.importSamples importing samples).1, (p.importSamples importing samples).2) := by
  simp only [importBatch, Action.runOn_bind, Action.runOn_liftM, h, Action.runOn_modifyGet]

/-- **Chunks do not change the result.** A batch whose samples are at least two apart, and after the
last label and the last gap of a chart, may be cut anywhere into two parts, as long as all samples
of the first are before those of the second. Importing the parts one after the other leaves the
chart that importing the batch leaves, and the counts add up to that of the batch. -/
theorem importBatch_in_parts (p : Chart) (b : HistoryBatch) (k : Nat) (importing : Bool)
    (whole : List History.Sample) (hd : History.decode (some b) = .ok whole) (hs : Spaced whole)
    (hc : ∀ s ∈ whole, p.Clears s.time)
    (hparts : ∀ x ∈ History.samples (some (b.front k)), ∀ y ∈ History.samples (some (b.back k)),
      x.time < y.time) :
    ∃ n m q r,
      (importBatch (some (b.front k)) importing).runOn p = (.ok n, q) ∧
      (importBatch (some (b.back k)) importing).runOn q = (.ok m, r) ∧
      (importBatch (some b) importing).runOn p = (.ok (n + m), r) := by
  have hlt : whole.Pairwise (·.time < ·.time) := hs.imp fun h => by omega
  obtain ⟨xs, ys, hfront, hback, rfl⟩ := History.decode_split hd hlt hparts
  refine ⟨_, _, _, _, importBatch_runOn_ok p hfront importing, importBatch_runOn_ok _ hback importing, ?_⟩
  rw [importBatch_runOn_ok p hd importing, importSamples_append importing hs hc]

/-- A new chart and a batch of two samples in order. -/
theorem importBatch_in_two_samples :
    let b : HistoryBatch := ⟨0, [10, 20], .replicate [6000, 6000]⟩
    ∃ n m q r,
      (importBatch (some (b.front 1)) true).runOn (Chart.new {} none) = (.ok n, q) ∧
      (importBatch (some (b.back 1)) true).runOn q = (.ok m, r) ∧
      (importBatch (some b) true).runOn (Chart.new {} none) = (.ok (n + m), r) := by
  intro b
  let values : PerChannel Binary64 := .ofFn fun c => if c.isHashrate then 60000000000 else 60
  have hd : History.decode (some b) = .ok [⟨10000, values⟩, ⟨20000, values⟩] :=
    History.decode_of_rows (by decide +kernel) (by decide +kernel) (by simp)
  have hfront : History.decode (some (b.front 1)) = .ok [⟨10000, values⟩] :=
    History.decode_of_rows (by decide +kernel) (by decide +kernel) (List.pairwise_singleton _ _)
  have hback : History.decode (some (b.back 1)) = .ok [⟨20000, values⟩] :=
    History.decode_of_rows (by decide +kernel) (by decide +kernel) (List.pairwise_singleton _ _)
  refine importBatch_in_parts (Chart.new {} none) b 1 true _ hd (by simp [Spaced])
    (fun _ _ => .new {} none _) ?_
  rw [History.samples_of_ok hfront, History.samples_of_ok hback]
  simp

/-- The arrays have to be in order: of the samples at 20 s and at 10 s the second is no longer new
once the first is stored, but a batch of both stores both. -/
theorem not_importBatch_in_any_parts :
    ¬ ∀ (p : Chart) (b : HistoryBatch) (k : Nat) (importing : Bool) (whole : List History.Sample),
      Reachable p → History.decode (some b) = .ok whole → Spaced whole →
      (∀ s ∈ whole, p.Clears s.time) →
      ∃ n m q r,
        (importBatch (some (b.front k)) importing).runOn p = (.ok n, q) ∧
        (importBatch (some (b.back k)) importing).runOn q = (.ok m, r) ∧
        (importBatch (some b) importing).runOn p = (.ok (n + m), r) := by
  intro h
  let b : HistoryBatch := ⟨0, [20, 10], .replicate [6000, 6000]⟩
  let values : PerChannel Binary64 := .ofFn fun c => if c.isHashrate then 60000000000 else 60
  have hrows : History.rows b (Arithmetic.whole 0) = [⟨20000, values⟩, ⟨10000, values⟩] := by
    decide +kernel
  have hd : History.decode (some b) = .ok [⟨10000, values⟩, ⟨20000, values⟩] := by
    rw [History.decode_of_base (History.ofInt?_of_finite (by decide +kernel)), hrows]
    refine congrArg Except.ok (History.eq_of_perm_of_ordered ?_ (History.inTime_pairwise _) (by simp))
    exact (List.mergeSort_perm _ _).trans (.swap _ _ _)
  have hfront : History.decode (some (b.front 1)) = .ok [⟨20000, values⟩] :=
    History.decode_of_rows (by decide +kernel) (by decide +kernel) (List.pairwise_singleton _ _)
  have hback : History.decode (some (b.back 1)) = .ok [⟨10000, values⟩] :=
    History.decode_of_rows (by decide +kernel) (by decide +kernel) (List.pairwise_singleton _ _)
  obtain ⟨n, m, q, r, h₁, h₂, h₃⟩ := h (Chart.new {} none) b 1 true _ (.new {} none) hd
    (by simp [Spaced]) fun _ _ => .new {} none _
  rw [importBatch_runOn_ok _ hfront] at h₁
  rw [importBatch_runOn_ok _ hd] at h₃
  have hn : n = 1 := by
    cases h₁
    decide +kernel
  have hm : m = 0 := by
    cases h₁
    rw [importBatch_runOn_ok _ hback] at h₂
    cases h₂
    decide +kernel
  have hnm : n + m = 2 := by
    have hcount : ((Chart.new {} none).importSamples true [⟨10000, values⟩, ⟨20000, values⟩]).1 = 2 := by
      decide +kernel
    rw [← hcount]
    exact (Except.ok.inj (Prod.mk.inj h₃).1).symm
  omega

end Chart

end HashrateChart
