/-
Gaps of single curves: what is stored for a sample is a gap exactly where the
sample has no usable value, and in the 1m curve also until that curve has
started after the last gap of a restart. Whatever the filters do they neither
drop a value nor fill in one.

The filters may hold a value back, and then they give out an earlier one. That
this is a number rests on what they remember: `Healthy` says that all of it is
finite. It starts empty and after every gap it is empty again, and a filter
whose settings are those of the configuration adds only finite values.

A run is told by marks (`marksOf`): where the 1m curve starts and has to start
again, and for each sample that is stored what it brought and what is the last
row then.
-/
import HashrateChart.Proofs.Chart.Order
import HashrateChart.Proofs.Guard

namespace HashrateChart

namespace Sanitize

theorem sample_cases (cfg : SanitizeConfig) (c : Channel) (x : Binary64) :
    sample cfg c x = .nan ∨ (sample cfg c x = x ∧ x.isFinite = true) := by
  unfold sample hashrate temperature
  cases hx : x.isFinite with
  | false => left; split <;> rfl
  | true =>
    split
    · split
      · exact .inl rfl
      · exact .inr ⟨rfl, rfl⟩
    · split
      · exact .inl rfl
      · exact .inr ⟨rfl, rfl⟩

/-- A plausible value is finite or a gap. -/
theorem isFinite_sample (cfg : SanitizeConfig) (c : Channel) (x : Binary64) :
    (sample cfg c x).isFinite = true ↔ sample cfg c x ≠ .nan := by
  rcases sample_cases cfg c x with h | ⟨h, hx⟩
  · rw [h]; simp [Binary64.isFinite]
  · rw [h]
    refine ⟨fun _ hn => ?_, fun _ => hx⟩
    rw [hn] at hx
    cases hx

end Sanitize

/-- What an import does to the values of the curves. -/
inductive Mark where
  /-- The gap of a restart: the 1m curve has to start again. -/
  | broken
  /-- The 1m curve has started. -/
  | started
  /-- A sample was stored: its plausible values, and the last row then. -/
  | stored (clean : PerChannel Binary64) (row : Option (PerChannel Binary64))

namespace Mark

/-- Whether the 1m curve runs after a mark. -/
def runsAfter (runs : Bool) : Mark → Bool
  | broken => false
  | started => true
  | stored .. => runs

/-- The row has a gap where the sample has one, and in the 1m curve while that does not run, and
nowhere else; all its other values are finite. -/
def Kept (runs : Bool) (clean row : PerChannel Binary64) : Prop :=
  ∀ c, (row.get c = .nan ↔ clean.get c = .nan ∨ (c = .hashrate1m ∧ runs = false)) ∧
    (row.get c ≠ .nan → (row.get c).isFinite = true)

/-- Every sample was stored with the gaps that it has, and without its 1m value while that curve
does not run: from a gap of a restart on until it starts. -/
def Faithful (runs : Bool) : List Mark → Prop
  | [] => True
  | stored clean row :: rest => (∃ values, row = some values ∧ Kept runs clean values) ∧ Faithful runs rest
  | broken :: rest => Faithful false rest
  | started :: rest => Faithful true rest

theorem faithful_append {runs : Bool} {xs ys : List Mark} :
    Faithful runs (xs ++ ys) ↔ Faithful runs xs ∧ Faithful (xs.foldl runsAfter runs) ys := by
  induction xs generalizing runs with
  | nil => exact (and_iff_right trivial).symm
  | cons x xs ih =>
    cases x with
    | broken => exact ih
    | started => exact ih
    | stored clean row => exact (and_congr_right fun _ => ih).trans and_assoc.symm

end Mark

namespace Chart

/-! ## Marks -/

/-- Starting the 1m curve with a sample. -/
def startMarks (importing : Bool) (p : Chart) (s : History.Sample) : List Mark :=
  if !p.startup.started && p.mayStart (p.clean s).hashrate1m importing then [.started] else []

def sampleMarks (importing : Bool) (p : Chart) (s : History.Sample) : List Mark :=
  match (p.importSample importing s).1 with
  | .seen => []
  | .cut => p.startMarks importing s ++ [.broken]
  | .stored =>
    p.startMarks importing s ++ [.stored (p.clean s) (p.take importing s).series.lastRow?]

def allMarks (importing : Bool) : Chart → List History.Sample → List Mark
  | _, [] => []
  | p, s :: rest => p.sampleMarks importing s ++ (p.take importing s).allMarks importing rest

/-- The gap of a restart that a live poll has detected. -/
def openedMarks (p : Chart) : List Mark := if p.warmup.breakPending then [.broken] else []

def samplesMarks (importing : Bool) (p : Chart) (samples : List History.Sample) : List Mark :=
  match samples.filter p.accepts with
  | [] => []
  | s :: rest => p.openedMarks ++ (p.opened s.time).allMarks importing (s :: rest)

def batchMarks (p : Chart) (batch : Option HistoryBatch) (importing : Bool) : List Mark :=
  match History.decode batch with
  | .ok samples => p.samplesMarks importing samples
  | .error _ => []

/-- What a call does to the values. Only an import stores any. -/
def marks (p : Chart) : Call → List Mark
  | .importBatch batch importing => p.batchMarks batch importing
  | .reload batch => (if p.isReplacedBy batch then p.emptied else p).batchMarks batch true
  | .observe .. | .commit .. | .clear _ | .frame .. | .pollDeferred _ | .takeReload => []

/-- What a run does to the values. -/
def marksOf (p : Chart) : List Call → List Mark
  | [] => []
  | call :: calls => p.marks call ++ (p.after call).marksOf calls

/-! ## The invariant -/

variable {p q : Chart} {runs importing : Bool} {s : History.Sample}

/-- The filters run with the settings of the configuration and remember only finite values, and the
1m curve has started or not. -/
structure Healthy (p : Chart) (runs : Bool) : Prop where
  tuning : p.guard.tuning = .ofConfig p.config.guard.cfg
  memory : ∀ c, (p.guard.memory.get c).Finite
  aligned : p.series.Aligned
  started : p.startup.started = runs

theorem Healthy.new (config : Config) (storage : Option Storage) :
    (Chart.new config storage).Healthy false :=
  ⟨rfl, fun c => by simp [Chart.new, Guard.new, Guard.Memory.Finite.empty], .empty, rfl⟩

theorem Healthy.congr (h : p.Healthy runs) (hs : q.settings = p.settings)
    (hm : q.guard.memory = p.guard.memory) (ha : q.series.Aligned)
    (ht : q.startup.started = p.startup.started) : q.Healthy runs where
  tuning := tuning_of_settings hs h.tuning
  memory := hm ▸ h.memory
  aligned := ha
  started := ht.trans h.started

/-- What is forgotten leaves nothing that is not finite. -/
theorem Healthy.reset (h : p.Healthy runs) (hs : q.settings = p.settings)
    (hg : q.guard = p.guard.reset) (ha : q.series.Aligned) : q.Healthy q.startup.started where
  tuning := tuning_of_settings hs h.tuning
  memory c := by simp [hg, Guard.reset, Guard.Memory.Finite.empty]
  aligned := ha
  started := rfl

theorem Healthy.insertBreak (h : p.Healthy runs) (t : Int) : (p.insertBreak t).Healthy false := by
  have hq : (p.insertBreak t).startup.started = false := by rw [insertBreak_eq]
  rw [← hq]
  exact h.reset (by rw [insertBreak_eq]; rfl) (by rw [insertBreak_eq])
    (by rw [series_insertBreak]; exact h.aligned.insertBreak t)

/-! ## The start of the 1m curve -/

/-- Planning a reload changes nothing of the startup but that the next start is no first one. -/
theorem planReload_startup (p : Chart) (t : Int) :
    (p.planReload t).startup =
      { p.startup with smoothArmed := (p.planReload t).startup.smoothArmed } := by
  unfold planReload
  dsimp only
  split
  · rfl
  · split
    · split <;> rfl
    · rfl

theorem startHashrate_started (p : Chart) (t : Int) : (p.startHashrate t).startup.started = true := by
  rw [startHashrate_def]
  split
  · rw [planReload_startup]; rfl
  · rfl

/-- A sample offers its 1m value once the curve has started, and it may start the curve. -/
theorem offer_cases (importing : Bool) (p : Chart) (s : History.Sample) :
    (p.offer importing s).1 =
        (if (p.offer importing s).2.startup.started then (p.clean s).hashrate1m else .nan) ∧
      (p.offer importing s).2.startup.started =
        (p.startMarks importing s).foldl Mark.runsAfter p.startup.started := by
  unfold offer candidate startMarks
  cases hs : p.startup.started with
  | true => simp [hs]
  | false =>
    cases hm : p.mayStart (p.clean s).hashrate1m importing with
    | true => simp [startHashrate_started, Mark.runsAfter]
    | false => simp [hs]

theorem Healthy.offer (h : p.Healthy runs) (importing : Bool) (s : History.Sample) :
    (p.offer importing s).2.Healthy ((p.startMarks importing s).foldl Mark.runsAfter runs) where
  tuning := by rw [offer_eq]; exact h.tuning
  memory := by rw [offer_eq]; exact h.memory
  aligned := by rw [offer_eq]; exact h.aligned
  started := by rw [(offer_cases importing p s).2, h.started]

theorem faithful_startMarks (runs importing : Bool) (p : Chart) (s : History.Sample) :
    Mark.Faithful runs (p.startMarks importing s) := by
  unfold startMarks
  split <;> trivial

/-! ## Filtering -/

/-- A gap stays a gap, and any other value passes unfiltered or goes through the filter. -/
theorem filterValue_cases (p : Chart) (t : Int) (c : Channel) (x : Binary64) :
    (x.isFinite = false ∧ (p.filterValue t c x).value = .nan ∧
      (p.filterValue t c x).memory = p.guard.memory.get c) ∨
    (x.isFinite = true ∧ (p.filterValue t c x).value = x ∧
      (p.filterValue t c x).memory = p.guard.memory.get c) ∨
    (x.isFinite = true ∧ (c.isHashrate = true → p.config.guard.spikeGuard = true) ∧
      ∃ threshold live confirm, (live = none ∨ live = p.live) ∧
        ((p.filterValue t c x).value, (p.filterValue t c x).memory) =
          p.guard.sample c x threshold live confirm) := by
  unfold filterValue Channel.isHashrate
  cases hx : x.isFinite with
  | false => exact .inl ⟨rfl, rfl, rfl⟩
  | true =>
    refine .inr ?_
    simp only [Bool.not_true, Bool.false_eq_true, if_false]
    split
    · next ht => exact .inr ⟨trivial, by simp [ht], _, _, _, .inl rfl, rfl⟩
    · split
      · exact .inl ⟨trivial, rfl, rfl⟩
      · split
        · exact .inl ⟨trivial, rfl, rfl⟩
        · next hg => exact .inr ⟨trivial, fun _ => by simpa using hg, _, _, _, .inr rfl, rfl⟩

/-- A gap stays a gap and a number stays a number, filtered or not. -/
theorem Healthy.filterValue (h : p.Healthy runs) (t : Int) (c : Channel) (x : Binary64) :
    (p.filterValue t c x).value.isFinite = x.isFinite ∧
      (x.isFinite = false → (p.filterValue t c x).value = .nan) ∧
      (p.filterValue t c x).memory.Finite := by
  rcases p.filterValue_cases t c x with
    ⟨hx, hv, hm⟩ | ⟨hx, hv, hm⟩ | ⟨hx, -, threshold, live, confirm, -, hs⟩
  · rw [hv, hm, hx]
    exact ⟨rfl, fun _ => rfl, h.memory c⟩
  · rw [hv, hm]
    exact ⟨rfl, fun hn => absurd (hx.symm.trans hn) Bool.noConfusion, h.memory c⟩
  · obtain ⟨hfin, hmem⟩ := hs ▸ Guard.isFinite_sample h.tuning (h.memory c)
    exact ⟨hfin.trans hx.symm, fun hn => absurd (hx.symm.trans hn) Bool.noConfusion, hmem⟩

/-- The values of a sample that go into the filters. -/
def entering (importing : Bool) (p : Chart) (s : History.Sample) : PerChannel Binary64 :=
  { p.clean s with hashrate1m := (p.offer importing s).1 }

theorem filtered_get (importing : Bool) (p : Chart) (s : History.Sample) (c : Channel) :
    (p.filtered importing s).1.get c =
      ((p.offer importing s).2.filterValue (p.lifted s.time) c ((p.entering importing s).get c)).value := by
  simp only [filtered, filterRow, PerChannel.get_map, PerChannel.get_ofFn]
  rfl

theorem filtered_memory (importing : Bool) (p : Chart) (s : History.Sample) (c : Channel) :
    (p.filtered importing s).2.guard.memory.get c =
      ((p.offer importing s).2.filterValue (p.lifted s.time) c ((p.entering importing s).get c)).memory := by
  simp only [filtered, filterRow, PerChannel.get_map, PerChannel.get_ofFn]
  rfl

/-- A plausible value goes into its filter, but that of a 1m curve that does not run. -/
theorem entering_get (importing : Bool) (p : Chart) (s : History.Sample) (c : Channel) :
    (p.entering importing s).get c =
      if c = .hashrate1m ∧ (p.offer importing s).2.startup.started = false then .nan
      else (p.clean s).get c := by
  cases c with
  | hashrate1m =>
    refine (offer_cases importing p s).1.trans ?_
    cases (p.offer importing s).2.startup.started <;> rfl
  | hashrate10m | hashrate1h | hashrate1d | vregTemp | asicTemp => rfl

/-- What is stored for a sample has the gaps of the sample. -/
theorem Healthy.filtered (h : p.Healthy runs) (importing : Bool) (s : History.Sample) :
    let runs := (p.startMarks importing s).foldl Mark.runsAfter runs
    (p.filtered importing s).2.Healthy runs ∧ Mark.Kept runs (p.clean s) (p.filtered importing s).1 := by
  intro now
  have ho := h.offer importing s
  refine ⟨⟨?_, fun c => ?_, ?_, ?_⟩, fun c => ?_⟩
  · rw [filtered_eq]; exact h.tuning
  · rw [filtered_memory]; exact (ho.filterValue _ _ _).2.2
  · rw [filtered_eq]; exact h.aligned
  · exact ho.started
  · have hclean : ((p.clean s).get c).isFinite = true ↔ (p.clean s).get c ≠ .nan := by
      rw [clean, PerChannel.get_ofFn]
      exact Sanitize.isFinite_sample _ _ _
    obtain ⟨hfin, hgap, -⟩ := ho.filterValue (p.lifted s.time) c ((p.entering importing s).get c)
    rw [filtered_get]
    revert hfin hgap
    generalize ((p.offer importing s).2.filterValue _ c _).value = v
    rw [entering_get, ho.started]
    intro hfin hgap
    by_cases hoff : c = .hashrate1m ∧ now = false
    · rw [if_pos hoff] at hgap
      have hv : v = .nan := hgap rfl
      exact ⟨⟨fun _ => .inr hoff, fun _ => hv⟩, fun hn => absurd hv hn⟩
    · rw [if_neg hoff] at hfin hgap
      by_cases hn : (p.clean s).get c = .nan
      · rw [hn] at hgap
        have hv : v = .nan := hgap rfl
        exact ⟨⟨fun _ => .inl hn, fun _ => hv⟩, fun h => absurd hv h⟩
      · have hv : v.isFinite = true := hfin.trans (hclean.mpr hn)
        refine ⟨⟨fun h => ?_, fun h => absurd h (not_or_intro hn hoff)⟩, fun _ => hv⟩
        rw [h] at hv
        cases hv

/-! ## Samples -/

/-- A sample is stored with its gaps, and the filters stay healthy. -/
theorem Healthy.take (h : p.Healthy runs) (importing : Bool) (s : History.Sample) :
    Mark.Faithful runs (p.sampleMarks importing s) ∧
      (p.take importing s).Healthy ((p.sampleMarks importing s).foldl Mark.runsAfter runs) := by
  unfold sampleMarks Chart.take
  rcases p.importSample_cases importing s with ⟨-, hi⟩ | ⟨-, -, hi⟩ | ⟨-, -, hi⟩ <;> simp only [hi]
  · exact ⟨trivial, h.congr rfl rfl h.aligned rfl⟩
  · refine ⟨Mark.faithful_append.mpr ⟨faithful_startMarks _ _ _ _, trivial⟩, ?_⟩
    have hr : (p.relocked importing s).Healthy _ :=
      (h.offer importing s).congr rfl rfl (h.offer importing s).aligned rfl
    rw [List.foldl_append]
    exact (hr.insertBreak _).congr rfl rfl (hr.insertBreak _).aligned rfl
  · obtain ⟨hq, hkept⟩ := h.filtered importing s
    have hseries : ((p.filtered importing s).2.storeRow (p.lifted s.time) (p.filtered importing s).1).series =
        (p.filtered importing s).2.series.upsert (p.lifted s.time) (p.filtered importing s).1 := rfl
    rw [List.foldl_append]
    refine ⟨Mark.faithful_append.mpr ⟨faithful_startMarks _ _ _ _, ⟨_, ?_, hkept⟩, trivial⟩, ?_⟩
    · rw [hseries]
      exact Series.lastRow?_upsert hq.aligned _ _
    · exact hq.congr rfl rfl (by rw [hseries]; exact hq.aligned.upsert) rfl

theorem Healthy.importAll (h : p.Healthy runs) (importing : Bool) (samples : List History.Sample) :
    Mark.Faithful runs (p.allMarks importing samples) ∧
      (p.importAll importing samples).2.Healthy
        ((p.allMarks importing samples).foldl Mark.runsAfter runs) := by
  induction samples generalizing p runs with
  | nil => exact ⟨trivial, h⟩
  | cons s rest ih =>
    obtain ⟨hs, hq⟩ := h.take importing s
    obtain ⟨hrest, hr⟩ := ih hq
    rw [allMarks, Mark.faithful_append, List.foldl_append, importAll_cons]
    exact ⟨⟨hs, hrest⟩, hr⟩

/-! ## Batches and other calls -/

theorem Healthy.opened (h : p.Healthy runs) (t : Int) :
    Mark.Faithful runs p.openedMarks ∧
      (p.opened t).Healthy (p.openedMarks.foldl Mark.runsAfter runs) := by
  unfold openedMarks
  cases hb : p.warmup.breakPending with
  | true =>
    rw [opened_of_pending hb]
    have hq : ({ p with warmup := p.warmup.consumeBreak.2 } : Chart).Healthy runs :=
      h.congr rfl rfl h.aligned rfl
    exact ⟨trivial, hq.insertBreak _⟩
  | false => rw [opened_of_not_pending hb]; exact ⟨trivial, h⟩

theorem Healthy.importSamples (h : p.Healthy runs) (importing : Bool) (samples : List History.Sample) :
    Mark.Faithful runs (p.samplesMarks importing samples) ∧
      (p.importSamples importing samples).2.Healthy
        ((p.samplesMarks importing samples).foldl Mark.runsAfter runs) := by
  unfold samplesMarks
  cases hf : samples.filter p.accepts with
  | nil => rw [importSamples_of_nil hf]; exact ⟨trivial, h⟩
  | cons s rest =>
    obtain ⟨hopen, hq⟩ := h.opened s.time
    obtain ⟨hrest, hr⟩ := hq.importAll importing (s :: rest)
    rw [importSamples_of_cons hf]
    dsimp only
    rw [Mark.faithful_append, List.foldl_append]
    exact ⟨⟨hopen, hrest⟩, hr⟩

theorem Healthy.imported (h : p.Healthy runs) (batch : Option HistoryBatch) (importing : Bool) :
    Mark.Faithful runs (p.batchMarks batch importing) ∧
      (p.imported batch importing).Healthy
        ((p.batchMarks batch importing).foldl Mark.runsAfter runs) := by
  unfold batchMarks
  cases hd : History.decode batch with
  | ok samples => rw [imported_of_ok hd]; exact h.importSamples importing samples
  | error e => rw [imported_of_error hd]; exact ⟨trivial, h⟩

theorem Healthy.emptied (h : p.Healthy runs) : p.emptied.Healthy runs :=
  h.started ▸ h.reset (q := p.emptied) rfl rfl .empty

theorem observeLive_memory (g : Guard) (x : Binary64) : (g.observeLive x).memory = g.memory := by
  unfold Guard.observeLive
  split <;> rfl

theorem observe_started (p : Chart) (now : Int) (info : SystemInfo) :
    (p.observe now info).startup.started = p.startup.started := by
  unfold observe unlock
  dsimp only
  split <;> rfl

theorem Healthy.effect (h : p.Healthy runs) (call : Call) :
    Mark.Faithful runs (p.marks call) ∧
      (p.effect call).Healthy ((p.marks call).foldl Mark.runsAfter runs) := by
  cases call with
  | observe now info =>
    have hm : (p.observe now info).guard.memory = p.guard.memory := by
      rw [observe_eq]; exact observeLive_memory _ _
    exact ⟨trivial, h.congr (effect_settings p (.observe now info)) hm
      (by rw [Chart.effect, observe_eq]; exact h.aligned) (observe_started p now info)⟩
  | importBatch batch importing => exact h.imported batch importing
  | reload batch =>
    refine Healthy.imported ?_ batch true
    split
    · exact h.emptied
    · exact h
  | commit now clock persist => exact ⟨trivial, h.congr rfl rfl (h.aligned.trim now _) rfl⟩
  | clear now => exact ⟨trivial, h.emptied.congr rfl rfl .empty rfl⟩
  | frame now window visibility => exact ⟨trivial, h.congr rfl rfl h.aligned rfl⟩
  | pollDeferred now =>
    refine ⟨trivial, ?_⟩
    rw [Chart.effect, pollDeferred_eq]
    exact h.congr rfl rfl h.aligned rfl
  | takeReload => exact ⟨trivial, h.congr rfl rfl h.aligned rfl⟩

theorem Healthy.afterAll (h : p.Healthy runs) (calls : List Call) :
    Mark.Faithful runs (p.marksOf calls) := by
  induction calls generalizing p runs with
  | nil => trivial
  | cons call calls ih =>
    obtain ⟨hcall, hq⟩ := h.effect call
    have hafter : (p.after call).Healthy ((p.marks call).foldl Mark.runsAfter runs) := by
      obtain ⟨storage, hs⟩ := after_eq p call
      rw [hs]
      exact hq.congr rfl rfl hq.aligned rfl
    exact Mark.faithful_append.mpr ⟨hcall, ih hafter⟩

/-- **Gaps are those of the samples.** In every run of a chart that started empty, each sample that
an import stores has a gap exactly where its plausible values have one, and in the 1m curve also
from a gap of a restart until that curve starts; all other values of it are finite. No filter,
on or off, passed by or with a live hashrate, makes a gap or fills one. -/
theorem faithful_marksOf (config : Config) (storage : Option Storage) (calls : List Call) :
    Mark.Faithful false ((Chart.new config storage).marksOf calls) :=
  (Healthy.new config storage).afterAll calls

end Chart

end HashrateChart
