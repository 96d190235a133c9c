/-
Gaps at restarts: samples of before and after a restart are never joined by a
curve.

A restart is detected in two ways, and its gap is drawn at two other moments: a
live poll only raises `breakPending`, and the next import draws the gap before
its first sample; a sample that shows a restart draws it at once. While a gap is
pending the ledger need not be settled, but then nothing is stored either: the
gap comes first. It stays a gap, because `lastBreak` is at or behind every gap
of the curves and samples are lifted beyond it.

A gap asked for at a time of zero or before is not drawn, so the times of all
samples have to be at least two.
-/
import HashrateChart.Proofs.Chart.Ledger
import HashrateChart.Proofs.Chart.Order

namespace HashrateChart

namespace Chart

/-! ## Events -/

/-- Drawing a gap, unless its time has no place. -/
def gapEvents (p : Chart) (t : Int) : List Event := (p.series.insertBreak t).1.toList.map .gap

/-- What becomes of a sample. -/
def sampleEvents (importing : Bool) (p : Chart) (s : History.Sample) : List Event :=
  let t := p.lifted s.time
  match (p.importSample importing s).1 with
  | .seen => []
  | .cut => .detected :: p.gapEvents (t - 1)
  | .stored =>
    [.stored t (if p.series.lastLabel? = some t then .updated else .appended) p.warmup.stage]

def allEvents (importing : Bool) : Chart → List History.Sample → List Event
  | _, [] => []
  | p, s :: rest => p.sampleEvents importing s ++ (p.take importing s).allEvents importing rest

/-- The gap of a restart that a live poll has detected. -/
def openedEvents (p : Chart) (t : Int) : List Event :=
  if p.warmup.breakPending then p.gapEvents (t - 1) else []

def samplesEvents (importing : Bool) (p : Chart) (samples : List History.Sample) : List Event :=
  match samples.filter p.accepts with
  | [] => []
  | s :: rest => p.openedEvents s.time ++ (p.opened s.time).allEvents importing (s :: rest)

def batchEvents (p : Chart) (batch : Option HistoryBatch) (importing : Bool) : List Event :=
  match History.decode batch with
  | .ok samples => p.samplesEvents importing samples
  | .error _ => []

/-- What a call does to the rows. A live poll detects a restart when it locks the chart. -/
def events (p : Chart) : Call → List Event
  | .observe now info =>
    if p.warmup.stage = .ready ∧ (p.observe now info).warmup.stage ≠ .ready then [.detected] else []
  | .importBatch batch importing => p.batchEvents batch importing
  | .reload batch =>
    if p.isReplacedBy batch then .emptied :: p.emptied.batchEvents batch true
    else p.batchEvents batch true
  | .commit now _ _ => [.trimmed (p.series.trim now p.config.zoom.maxWindow).1]
  | .clear _ => [.emptied]
  | .frame .. | .pollDeferred _ | .takeReload => []

/-- What a run does to the rows. -/
def eventsOf (p : Chart) : List Call → List Event
  | [] => []
  | call :: calls => p.events call ++ (p.after call).eventsOf calls

/-! ## The invariant -/

variable {p q : Chart} {l : Ledger} {t : Int} {importing : Bool} {s : History.Sample}

/-- The ledger is that of the chart. -/
structure Recorded (p : Chart) (l : Ledger) : Prop where
  inOrder : p.InOrder
  times : l.rows.map (·.time) = p.series.labels
  blank : ∀ k, l.GapAt k → p.series.IsGap k
  behind : ∀ row ∈ l.rows, row.isGap = true → ∃ gap, p.lastBreak = some gap ∧ row.time ≤ gap
  sound : l.Sound
  settled : p.warmup.breakPending = false → l.Settled
  counted : l.gaps + p.warmup.breakPending.toNat ≤ l.detections

theorem Recorded.congr (h : p.Recorded l) (hs : q.series = p.series) (hb : q.lastBreak = p.lastBreak)
    (hw : q.warmup.breakPending = p.warmup.breakPending) : q.Recorded l where
  inOrder := h.inOrder.congr hs hb
  times := hs ▸ h.times
  blank := hs ▸ h.blank
  behind := hb ▸ h.behind
  sound := h.sound
  settled := hw ▸ h.settled
  counted := hw ▸ h.counted

theorem Recorded.new (config : Config) (storage : Option Storage) :
    (Chart.new config storage).Recorded .empty where
  inOrder := InOrder.new config storage
  times := rfl
  blank k hk := by obtain ⟨row, hr, -⟩ := hk; simp [Ledger.empty] at hr
  behind row hr := by simp [Ledger.empty] at hr
  sound := .empty
  settled _ := .empty
  counted := Nat.le_refl 0

theorem Recorded.length (h : p.Recorded l) : l.rows.length = p.series.labels.length := by
  rw [← h.times, List.length_map]

/-- The last label is that of the last row. -/
theorem Recorded.getLast? (h : p.Recorded l) :
    p.series.lastLabel? = l.rows.getLast?.map (·.time) := by
  rw [Series.lastLabel?, ← h.times, List.getLast?_map]

theorem Recorded.detected (h : p.Recorded l) (hs : q.series = p.series) (hb : q.lastBreak = p.lastBreak)
    (hw : q.warmup.breakPending = true) : q.Recorded (l.note .detected) where
  inOrder := h.inOrder.congr hs hb
  times := hs ▸ h.times
  blank := hs ▸ h.blank
  behind := hb ▸ h.behind
  sound := h.sound.detected
  settled hn := by rw [hw] at hn; cases hn
  counted := by
    have := h.counted
    rw [hw]
    simp only [Ledger.note, Bool.toNat_true]
    omega

/-- A gap settles a restart: it goes behind all rows, and all later samples go behind it. -/
theorem Recorded.gap (h : p.Recorded l) (hp : p.warmup.breakPending = true) (hs : q.series = p.series)
    (hb : q.lastBreak = p.lastBreak) (hq : q.warmup.breakPending = false) (ht : 0 < t) :
    (q.insertBreak t).Recorded (l.replay (q.gapEvents t)) := by
  have hbreak : q.series.insertBreak t =
      (some (p.series.gapTime t), p.series.append (p.series.gapTime t) (.replicate .nan)) := by
    rw [hs]; exact Series.insertBreak_of_pos ht
  have hevents : q.gapEvents t = [.gap (p.series.gapTime t)] := by rw [gapEvents, hbreak]; rfl
  have horder : (q.insertBreak t).InOrder := (h.inOrder.congr hs hb).insertBreak t
  rw [hevents, Ledger.replay_cons, Ledger.replay_nil]
  rw [insertBreak_eq, hbreak] at horder ⊢
  refine ⟨horder, ?_, ?_, ?_, h.sound.gap _, fun _ => Ledger.settled_gap _ _, ?_⟩
  · simp [Ledger.note, Ledger.add, h.times]
  · rintro k ⟨row, hr, hg⟩
    rcases Ledger.getElem?_add hr with hr | ⟨rfl, -⟩
    · exact (h.blank k ⟨row, hr, hg⟩).append _ _
    · rw [h.length]
      exact Series.isGap_append h.inOrder.curves.aligned _
  · intro row hr hg
    refine ⟨p.series.gapTime t, rfl, ?_⟩
    rcases List.mem_append.mp hr with hr | hr
    · have hmem : row.time ∈ p.series.labels := h.times ▸ List.mem_map_of_mem hr
      exact Int.le_of_lt (Series.lt_gapTime_of_mem h.inOrder.curves.ascending hmem t)
    · obtain rfl := List.mem_singleton.mp hr
      exact Int.le_refl _
  · have := h.counted
    simp only [hp, hq, Bool.toNat_true, Bool.toNat_false, Ledger.note, Ledger.add] at this ⊢
    omega

/-! ## Samples -/

/-- A row that was drawn as a gap is not of the time of a sample. -/
theorem Recorded.not_gap {row : Ledger.Row} (h : p.Recorded l) (hl : l.rows.getLast? = some row)
    (ht : row.time = p.lifted t) : row.isGap = false := by
  cases hg : row.isGap with
  | false => rfl
  | true =>
    obtain ⟨gap, hb, hle⟩ := h.behind row (List.mem_of_getLast? hl) hg
    have := lt_lifted hb t
    omega

theorem Recorded.storeRow (h : p.Recorded l) (hn : p.warmup.breakPending = false) (hr : p.Reaches t)
    (row : PerChannel Binary64) (stage : Warmup.Stage) :
    (p.storeRow (p.lifted t) row).Recorded
      (l.note (.stored (p.lifted t)
        (if p.series.lastLabel? = some (p.lifted t) then .updated else .appended) stage)) := by
  have horder : (p.storeRow (p.lifted t) row).InOrder := h.inOrder.storeRow hr
  have hpend : (p.storeRow (p.lifted t) row).warmup.breakPending = p.warmup.breakPending := by
    simp only [Chart.storeRow]; split <;> rfl
  have hseries : (p.storeRow (p.lifted t) row).series = p.series.upsert (p.lifted t) row := rfl
  by_cases he : p.series.lastLabel? = some (p.lifted t)
  · obtain ⟨last, hl, ht⟩ := Option.map_eq_some_iff.mp (h.getLast?.symm.trans he)
    have hg := h.not_gap hl ht
    have hsame : l.note (.stored (p.lifted t) .updated stage) = l :=
      Ledger.rewrite_of_settled h.sound (h.settled hn) hl hg
    rw [if_pos he, hsame]
    refine ⟨horder, ?_, fun k hk => ?_, h.behind, h.sound, fun _ => h.settled hn, hpend ▸ h.counted⟩
    · rw [hseries, Series.upsert_of_eq he]; exact h.times
    · rw [hseries, Series.upsert_of_eq he]
      have hlt := Ledger.succ_lt_of_gapAt hk hl hg
      exact (h.blank k hk).replace h.inOrder.curves.aligned (h.length ▸ hlt) row
  · rw [if_neg he]
    refine ⟨horder, ?_, ?_, ?_, h.sound.sample (h.settled hn) _, fun _ => (h.settled hn).sample _,
      hpend ▸ h.counted⟩
    · rw [hseries, Series.upsert_of_ne he]
      simp [Ledger.note, Ledger.add, h.times]
    · rintro k ⟨row, hk, hg⟩
      rw [hseries, Series.upsert_of_ne he]
      rcases Ledger.getElem?_add hk with hk | ⟨-, rfl⟩
      · exact (h.blank k ⟨row, hk, hg⟩).append _ _
      · cases hg
    · exact Ledger.forall_mem_add (P := fun row => row.isGap = true → _) h.behind fun hg => by cases hg

theorem admitsAll_gapEvents (l : Ledger) (p : Chart) (t : Int) : l.AdmitsAll (p.gapEvents t) := by
  unfold gapEvents
  cases (p.series.insertBreak t).1 with
  | none => trivial
  | some t => exact ⟨trivial, trivial⟩

theorem ready_of_unlocked (h : p.warmup.isLocked = false) : p.warmup.stage = .ready := by
  simpa [Warmup.isLocked] using h

/-- A sample keeps the ledger and stores only what the ledger admits. -/
theorem Recorded.take (importing : Bool) (h : p.Recorded l) (hn : p.warmup.breakPending = false)
    (hr : p.Reaches s.time) (ht : 2 ≤ s.time) :
    l.AdmitsAll (p.sampleEvents importing s) ∧
      (p.take importing s).Recorded (l.replay (p.sampleEvents importing s)) := by
  unfold sampleEvents Chart.take
  rcases p.importSample_cases importing s with ⟨-, hi⟩ | ⟨-, -, hi⟩ | ⟨hl, -, hi⟩ <;> simp only [hi]
  · exact ⟨trivial, h.congr rfl rfl rfl⟩
  · refine ⟨⟨trivial, admitsAll_gapEvents _ p _⟩, ?_⟩
    have hd : ({ p with warmup := { p.warmup with breakPending := true } } : Chart).Recorded
        (l.note .detected) := h.detected rfl rfl rfl
    have hpos : 0 < p.lifted s.time - 1 := by have := p.le_lifted s.time; omega
    have hs : (p.relocked importing s).series = p.series := relocked_series
    have hg := hd.gap rfl hs relocked_lastBreak (by rw [relocked_eq]; rfl) hpos
    rw [gapEvents, hs] at hg
    exact hg.congr rfl rfl rfl
  · have hw : (p.filtered importing s).2.warmup = p.warmup := by rw [filtered_eq]
    have hq : (p.filtered importing s).2.Recorded l :=
      h.congr filtered_series filtered_lastBreak (by rw [hw])
    have hstore := hq.storeRow (hw ▸ hn) (hr.congr filtered_series filtered_lastBreak)
      (p.filtered importing s).1 p.warmup.stage
    rw [filtered_series, lifted_congr filtered_lastBreak] at hstore
    refine ⟨⟨⟨ready_of_unlocked hl, fun hu => ?_⟩, trivial⟩, hstore⟩
    have he : p.series.lastLabel? = some (p.lifted s.time) := by
      split at hu
      · next he => exact he
      · cases hu
    obtain ⟨last, hlast, ht⟩ := Option.map_eq_some_iff.mp (h.getLast?.symm.trans he)
    exact ⟨last, hlast, ht, h.not_gap hlast ht⟩

/-! ## Batches and other calls -/

theorem Recorded.importAll {samples : List History.Sample} (importing : Bool) (h : p.Recorded l)
    (hn : p.warmup.breakPending = false) (hr : ∀ s ∈ samples, p.Reaches s.time)
    (hs : samples.Pairwise (·.time ≤ ·.time)) (ht : ∀ s ∈ samples, 2 ≤ s.time) :
    l.AdmitsAll (p.allEvents importing samples) ∧
      (p.importAll importing samples).2.Recorded (l.replay (p.allEvents importing samples)) := by
  induction samples generalizing p l with
  | nil => exact ⟨trivial, h⟩
  | cons s rest ih =>
    obtain ⟨hlater, hrest⟩ := List.pairwise_cons.mp hs
    obtain ⟨-, hroom⟩ := h.inOrder.take importing (hr s List.mem_cons_self)
    obtain ⟨hadm, hrec⟩ := h.take importing hn (hr s List.mem_cons_self) (ht s List.mem_cons_self)
    obtain ⟨hadms, hrecs⟩ := ih hrec (take_breakPending importing s hn)
      (fun x hx => hroom _ (hlater x hx)) hrest fun x hx => ht x (List.mem_cons_of_mem _ hx)
    rw [allEvents, Ledger.admitsAll_append, Ledger.replay_append, importAll_cons]
    exact ⟨⟨hadm, hadms⟩, hrecs⟩

/-- Before its first sample an import draws the gap that is pending. -/
theorem Recorded.opened (h : p.Recorded l) (ht : 2 ≤ t) :
    (p.opened t).Recorded (l.replay (p.openedEvents t)) := by
  cases hb : p.warmup.breakPending with
  | true =>
    rw [opened_of_pending hb, openedEvents, if_pos hb]
    exact h.gap (q := { p with warmup := p.warmup.consumeBreak.2 }) hb rfl rfl rfl (by omega)
  | false =>
    rw [opened_of_not_pending hb, openedEvents, if_neg (by simp [hb])]
    exact h

theorem Recorded.importSamples {samples : List History.Sample} (importing : Bool) (h : p.Recorded l)
    (hs : samples.Pairwise (·.time ≤ ·.time)) (ht : ∀ s ∈ samples, 2 ≤ s.time) :
    l.AdmitsAll (p.samplesEvents importing samples) ∧
      (p.importSamples importing samples).2.Recorded
        (l.replay (p.samplesEvents importing samples)) := by
  cases hf : samples.filter p.accepts with
  | nil =>
    rw [importSamples_of_nil hf, samplesEvents, hf]
    exact ⟨trivial, h⟩
  | cons s rest =>
    have hmem : ∀ x ∈ s :: rest, x ∈ samples ∧ p.accepts x = true := fun x hx =>
      List.mem_filter.mp (hf ▸ hx)
    have hsorted : (s :: rest).Pairwise (·.time ≤ ·.time) := hf ▸ hs.sublist List.filter_sublist
    have hopen := h.opened (ht s (hmem s List.mem_cons_self).1)
    obtain ⟨hadm, hrec⟩ := hopen.importAll importing (opened_breakPending p s.time)
      (fun x hx => (reaches_of_accepts (hmem x hx).2).opened _) hsorted fun x hx => ht x (hmem x hx).1
    have hgap : l.AdmitsAll (p.openedEvents s.time) := by
      unfold openedEvents
      split
      · exact admitsAll_gapEvents _ _ _
      · trivial
    rw [importSamples_of_cons hf, samplesEvents, hf]
    dsimp only
    rw [Ledger.admitsAll_append, Ledger.replay_append]
    exact ⟨⟨hgap, hadm⟩, hrec⟩

theorem Recorded.imported {batch : Option HistoryBatch} (importing : Bool) (h : p.Recorded l)
    (ht : ∀ s ∈ History.samples batch, 2 ≤ s.time) :
    l.AdmitsAll (p.batchEvents batch importing) ∧
      (p.imported batch importing).Recorded (l.replay (p.batchEvents batch importing)) := by
  unfold batchEvents
  cases hd : History.decode batch with
  | ok samples =>
    rw [imported_of_ok hd]
    exact h.importSamples importing (History.decode_pairwise hd) (History.samples_of_ok hd ▸ ht)
  | error e =>
    rw [imported_of_error hd]
    exact ⟨trivial, h⟩

theorem Recorded.emptied (h : p.Recorded l) (hs : q.series = .empty)
    (hw : q.warmup.breakPending = p.warmup.breakPending) : q.Recorded (l.note .emptied) where
  inOrder := ⟨hs ▸ Series.InOrder.empty, fun _ _ hl => by rw [hs] at hl; cases hl⟩
  times := by rw [hs]; rfl
  blank k hk := by obtain ⟨row, hr, -⟩ := hk; simp [Ledger.note] at hr
  behind row hr := by simp [Ledger.note] at hr
  sound := Ledger.sound_emptied l
  settled _ := Ledger.settled_emptied l
  counted := hw ▸ h.counted

theorem Recorded.trim (h : p.Recorded l) (now : Int) :
    (p.trim now).Recorded (l.note (.trimmed (p.series.trim now p.config.zoom.maxWindow).1)) where
  inOrder := h.inOrder.trim now
  times := by
    simp only [Ledger.note, List.map_drop, h.times]
    rfl
  blank k hk := Series.isGap_trim.mpr (h.blank _ (Ledger.gapAt_trimmed.mp hk))
  behind row hr := h.behind row (List.mem_of_mem_drop hr)
  sound := h.sound.trimmed _
  settled hn := (h.settled hn).trimmed _
  counted := h.counted

/-- A live poll that locks the chart leaves a gap pending; any other leaves it as it was. -/
theorem Recorded.observe (h : p.Recorded l) (now : Int) (info : SystemInfo) :
    (p.observe now info).Recorded (l.replay (p.events (.observe now info))) := by
  have hs : (p.observe now info).series = p.series := by rw [observe_eq]
  have hb : (p.observe now info).lastBreak = p.lastBreak := by rw [observe_eq]
  rw [events]
  rcases p.observe_warmup now info with ⟨hready, hlocked, hpend⟩ | ⟨hno, hpend⟩
  · rw [if_pos ⟨hready, hlocked⟩]
    exact h.detected hs hb hpend
  · rw [if_neg hno]
    exact h.congr hs hb hpend

theorem Recorded.effect (h : p.Recorded l) (call : Call) (ht : ∀ s ∈ call.samples, 2 ≤ s.time) :
    l.AdmitsAll (p.events call) ∧ (p.effect call).Recorded (l.replay (p.events call)) := by
  cases call with
  | observe now info =>
    refine ⟨?_, h.observe now info⟩
    rw [events]
    split <;> simp [Ledger.AdmitsAll, Ledger.Admits]
  | importBatch batch importing => exact h.imported importing ht
  | reload batch =>
    rw [events, Chart.effect]
    by_cases hr : p.isReplacedBy batch = true
    · rw [if_pos hr, if_pos hr]
      have he : p.emptied.Recorded (l.note .emptied) := h.emptied rfl rfl
      obtain ⟨hadm, hrec⟩ := he.imported true ht
      exact ⟨⟨trivial, hadm⟩, hrec⟩
    · rw [if_neg hr, if_neg hr]
      exact h.imported true ht
  | commit now clock persist => exact ⟨⟨trivial, trivial⟩, h.trim now⟩
  | clear now => exact ⟨⟨trivial, trivial⟩, h.emptied rfl rfl⟩
  | frame now window visibility => exact ⟨trivial, h.congr rfl rfl rfl⟩
  | pollDeferred now =>
    refine ⟨trivial, ?_⟩
    rw [Chart.effect, pollDeferred_eq]
    exact h.congr rfl rfl rfl
  | takeReload => exact ⟨trivial, h.congr rfl rfl rfl⟩

theorem Recorded.afterAll {calls : List Call} (h : p.Recorded l)
    (ht : ∀ call ∈ calls, ∀ s ∈ call.samples, 2 ≤ s.time) :
    l.AdmitsAll (p.eventsOf calls) ∧ (p.afterAll calls).Recorded (l.replay (p.eventsOf calls)) := by
  induction calls generalizing p l with
  | nil => exact ⟨trivial, h⟩
  | cons call calls ih =>
    obtain ⟨hadm, hrec⟩ := h.effect call (ht call List.mem_cons_self)
    have hafter : (p.after call).Recorded (l.replay (p.events call)) := by
      obtain ⟨storage, hs⟩ := after_eq p call
      rw [hs]
      exact hrec.congr rfl rfl rfl
    obtain ⟨hadms, hrecs⟩ := ih hafter fun c hc => ht c (List.mem_cons_of_mem _ hc)
    rw [eventsOf, Ledger.admitsAll_append, Ledger.replay_append]
    exact ⟨⟨hadm, hadms⟩, hrecs⟩

/-! ## The result -/

/-- What a run of events has made of the curves. -/
structure CutAtRestarts (events : List Event) (series : Series) : Prop where
  /-- The ledger has a row for each label. -/
  times : (Ledger.empty.replay events).rows.map (·.time) = series.labels
  /-- Between a sample that was stored before the `n`th restart was detected and one that was
  stored after it is a row without values that was drawn as a gap. -/
  parted : ∀ i j n before after, (Ledger.empty.replay events).SampleAt i before →
    (Ledger.empty.replay events).SampleAt j after → before.added < n → n ≤ after.written →
    ∃ k, i < k ∧ k < j ∧ (Ledger.empty.replay events).GapAt k ∧ series.IsGap k
  /-- What is written again is a sample of the same time, and no gap. -/
  kept : ∀ before after t stage, events = before ++ .stored t .updated stage :: after →
    ∃ row, (Ledger.empty.replay before).rows.getLast? = some row ∧ row.time = t ∧ row.isGap = false
  /-- There are no more gaps than restarts. -/
  counted : (Ledger.empty.replay events).gaps ≤ (Ledger.empty.replay events).detections
  /-- Samples are stored only while the warmup is over. -/
  ready : ∀ t how stage, .stored t how stage ∈ events → stage = .ready

/-- **Every restart cuts the curves.** After any calls of a chart that started empty, whose samples
are all of times from two on, samples of before and after a restart have a gap between them that
nothing has written over; there are no more gaps than restarts, and while the chart warms up
nothing but a gap was added. -/
theorem cutAtRestarts_of_run (config : Config) (storage : Option Storage) (calls : List Call)
    (ht : ∀ call ∈ calls, ∀ s ∈ call.samples, 2 ≤ s.time) :
    CutAtRestarts ((Chart.new config storage).eventsOf calls)
      ((Chart.new config storage).afterAll calls).series := by
  obtain ⟨hadm, h⟩ := (Recorded.new config storage).afterAll ht
  generalize (Chart.new config storage).eventsOf calls = events at hadm h
  refine ⟨h.times, ?_, ?_, ?_, ?_⟩
  · intro i j n before after hi hj hbefore hafter
    have honce : after.written = after.added := h.sound.once after (List.mem_of_getElem? hj.1)
    obtain ⟨k, hik, hkj, hk⟩ := h.sound.parted i j before after hi hj (by omega)
    exact ⟨k, hik, hkj, hk, h.blank k hk⟩
  · intro before after t stage he
    rw [he] at hadm
    exact hadm.admits.2 rfl
  · have := h.counted
    omega
  · intro t how stage hmem
    obtain ⟨before, after, he⟩ := List.append_of_mem hmem
    rw [he] at hadm
    exact hadm.admits.1

/-- A sample, and then one that shows a restart. -/
theorem cutAtRestarts_of_two_samples :
    let sample (t x : Binary64) : HistoryBatch := ⟨0, [t], .replicate [x]⟩
    let calls := [Call.importBatch (some (sample 20 6000)) true, .importBatch (some (sample 30 0)) false]
    (∀ call ∈ calls, ∀ s ∈ call.samples, 2 ≤ s.time) ∧
      CutAtRestarts ((Chart.new {} none).eventsOf calls) ((Chart.new {} none).afterAll calls).series := by
  intro sample calls
  have hfirst : History.decode (some (sample 20 6000)) = .ok [⟨20000, .ofFn fun c =>
      if c.isHashrate then 60000000000 else 60⟩] :=
    History.decode_of_rows (by decide +kernel) (by decide +kernel) (List.pairwise_singleton _ _)
  have hsecond : History.decode (some (sample 30 0)) = .ok [⟨30000, .replicate 0⟩] :=
    History.decode_of_rows (by decide +kernel) (by decide +kernel) (List.pairwise_singleton _ _)
  have ht : ∀ call ∈ calls, ∀ s ∈ call.samples, 2 ≤ s.time := by
    intro call hc s hs
    simp only [calls, List.mem_cons, List.not_mem_nil, or_false] at hc
    rcases hc with rfl | rfl
    · rw [Call.samples, History.samples_of_ok hfirst] at hs
      obtain rfl := List.mem_singleton.mp hs
      decide
    · rw [Call.samples, History.samples_of_ok hsecond] at hs
      obtain rfl := List.mem_singleton.mp hs
      decide
  exact ⟨ht, cutAtRestarts_of_run {} none calls ht⟩

end Chart

end HashrateChart
