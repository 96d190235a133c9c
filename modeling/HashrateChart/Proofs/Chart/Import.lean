/-
An import step by step: what each sample can do to a chart, and how the steps
make up the import of a list.

Every step is written as an update of the chart it starts from, so what it
leaves alone can be read off: a sample of a locked chart only moves `lastSeen`,
a restart goes through `insertBreak`, and a stored sample is one `upsert`.
-/
import HashrateChart.Chart.Import

namespace HashrateChart

namespace Chart

variable (p : Chart)

/-! ## Gaps -/

theorem insertBreak_eq (t : Int) :
    p.insertBreak t =
      { p with
        series := (p.series.insertBreak t).2
        guard := p.guard.reset
        startup := { smoothArmed := true }
        reload := { p.reload with slot := .empty }
        tempMemory := none
        lastBreak := (p.series.insertBreak t).1.or p.lastBreak
        restartToken := (p.series.insertBreak t).1.or p.restartToken
        lastSeen := (p.series.insertBreak t).1.or p.lastSeen } := by
  unfold insertBreak
  dsimp only
  split
  · next h => rw [h]; rfl
  · next h => rw [h]; rfl

/-! ## The start of the 1m curve -/

/-- Planning a reload touches only the state of the startup and of the reload. -/
theorem planReload_eq (t : Int) :
    p.planReload t =
      { p with startup := (p.planReload t).startup, reload := (p.planReload t).reload } := by
  obtain ⟨_, _, _, _, _, _, _, _, _, _, _, _, _, token, _⟩ := p
  cases token with
  | none => rfl
  | some token =>
    simp only [planReload]
    split
    · split <;> rfl
    · rfl

/-- The chart whose 1m curve starts now. -/
def started (t : Int) : Chart :=
  { p with startup := { p.startup with
      started := true, startedAt := if p.startup.smoothArmed then some t else none } }

theorem startHashrate_def (t : Int) :
    p.startHashrate t =
      if p.startup.smoothArmed then (p.started t).planReload t else p.started t := rfl

theorem startHashrate_eq (t : Int) :
    p.startHashrate t =
      { p with startup := (p.startHashrate t).startup, reload := (p.startHashrate t).reload } := by
  rw [startHashrate_def]
  split
  · rw [planReload_eq]; rfl
  · rfl

/-- Offering a 1m value touches only the state of the startup and of the reload. -/
theorem candidate_eq (x : Binary64) (t : Int) (importing : Bool) :
    (p.candidate x t importing).2 =
      { p with
        startup := (p.candidate x t importing).2.startup
        reload := (p.candidate x t importing).2.reload } := by
  unfold candidate
  split
  · rfl
  · split
    · exact startHashrate_eq p t
    · rfl

/-! ## One sample -/

/-- The values of a sample without those out of range. -/
def clean (s : History.Sample) : PerChannel Binary64 :=
  .ofFn fun c => Sanitize.sample p.config.sanitize c (s.values.get c)

/-- Whether a sample shows a restart. -/
def showsRestart (s : History.Sample) : Bool :=
  Warmup.isRestartSample p.live.isSome (p.clean s).vregTemp (p.clean s).asicTemp
    s.values.hashrate1m p.config.warmup.tempMin

/-- The 1m value that a sample offers, and the chart whose 1m curve it may have started. -/
def offer (importing : Bool) (s : History.Sample) : Binary64 × Chart :=
  p.candidate (p.clean s).hashrate1m (p.lifted s.time) importing

/-- The row that is stored for a sample, and the chart with what the filters remember of it. -/
def filtered (importing : Bool) (s : History.Sample) : PerChannel Binary64 × Chart :=
  { (p.offer importing s).2 with lastSeen := some (p.lifted s.time) }.filterRow (p.lifted s.time)
    { p.clean s with hashrate1m := (p.offer importing s).1 }

/-- The chart locked again by the restart that a sample shows, just before its gap. -/
def relocked (importing : Bool) (s : History.Sample) : Chart :=
  { (p.offer importing s).2 with
    warmup := ((p.offer importing s).2.warmup.reset (p.lifted s.time)).consumeBreak.2 }

/-- The chart after a sample. -/
def take (importing : Bool) (s : History.Sample) : Chart := (p.importSample importing s).2

variable {p} {importing : Bool} {s : History.Sample}

theorem offer_eq :
    (p.offer importing s).2 =
      { p with
        startup := (p.offer importing s).2.startup
        reload := (p.offer importing s).2.reload } := candidate_eq p _ _ _

theorem filtered_eq :
    (p.filtered importing s).2 =
      { p with
        startup := (p.filtered importing s).2.startup
        reload := (p.offer importing s).2.reload
        guard := { p.guard with memory := (p.filtered importing s).2.guard.memory }
        lastSeen := some (p.lifted s.time) } := by
  unfold filtered filterRow
  rw [offer_eq]

theorem filtered_series : (p.filtered importing s).2.series = p.series := by rw [filtered_eq]

theorem filtered_lastBreak : (p.filtered importing s).2.lastBreak = p.lastBreak := by rw [filtered_eq]

theorem relocked_eq :
    p.relocked importing s =
      { p with
        startup := (p.offer importing s).2.startup
        reload := (p.offer importing s).2.reload
        warmup := (p.warmup.reset (p.lifted s.time)).consumeBreak.2 } := by
  unfold relocked
  rw [offer_eq]

theorem relocked_series : (p.relocked importing s).series = p.series := by rw [relocked_eq]

theorem relocked_lastBreak : (p.relocked importing s).lastBreak = p.lastBreak := by rw [relocked_eq]

theorem cutAt_offer :
    (p.offer importing s).2.cutAt (p.lifted s.time) =
      { (p.relocked importing s).insertBreak (p.lifted s.time - 1) with
        lastSeen := some (p.lifted s.time) } := rfl

theorem importSample_of_locked (h : p.warmup.isLocked = true) :
    p.importSample importing s = (.seen, { p with lastSeen := some (p.lifted s.time) }) := if_pos h

theorem importSample_of_unlocked (h : p.warmup.isLocked = false) :
    p.importSample importing s =
      if p.showsRestart s then (.cut, (p.offer importing s).2.cutAt (p.lifted s.time))
      else (.stored,
        (p.filtered importing s).2.storeRow (p.lifted s.time) (p.filtered importing s).1) := by
  have hc : (p.offer importing s).2.config = p.config := by rw [offer_eq]
  have hl : (p.offer importing s).2.live = p.live := by rw [offer_eq]
  rw [showsRestart, ← hl, ← hc]
  exact if_neg (by simp [h])

/-- What can become of a sample. -/
theorem importSample_cases (p : Chart) (importing : Bool) (s : History.Sample) :
    (p.warmup.isLocked = true ∧
      p.importSample importing s = (.seen, { p with lastSeen := some (p.lifted s.time) })) ∨
    (p.warmup.isLocked = false ∧ p.showsRestart s = true ∧
      p.importSample importing s =
        (.cut, { (p.relocked importing s).insertBreak (p.lifted s.time - 1) with
          lastSeen := some (p.lifted s.time) })) ∨
    (p.warmup.isLocked = false ∧ p.showsRestart s = false ∧
      p.importSample importing s =
        (.stored,
          (p.filtered importing s).2.storeRow (p.lifted s.time) (p.filtered importing s).1)) := by
  cases h : p.warmup.isLocked with
  | true => exact .inl ⟨rfl, importSample_of_locked h⟩
  | false =>
    rw [importSample_of_unlocked h]
    cases hr : p.showsRestart s with
    | true => exact .inr (.inl ⟨rfl, rfl, if_pos rfl⟩)
    | false => exact .inr (.inr ⟨rfl, rfl, if_neg Bool.false_ne_true⟩)

/-! ## Lists of samples -/

/-- One sample of an import that counts what it stores. -/
def countedStep (importing : Bool) (x : Nat × Chart) (s : History.Sample) : Nat × Chart :=
  (if (x.2.importSample importing s).1 = .stored then x.1 + 1 else x.1, x.2.take importing s)

theorem foldl_countedStep (importing : Bool) (n : Nat) (p : Chart) (samples : List History.Sample) :
    samples.foldl (countedStep importing) (n, p) =
      (n + (p.importAll importing samples).1, (p.importAll importing samples).2) := by
  have start : ∀ p samples, importAll importing p samples = samples.foldl (countedStep importing) (0, p) :=
    fun _ _ => rfl
  induction samples generalizing n p with
  | nil => rfl
  | cons s rest ih =>
    rw [start, List.foldl_cons, List.foldl_cons, countedStep, countedStep, ih, ih]
    split <;> simp [Nat.add_assoc]

@[simp] theorem importAll_nil (importing : Bool) (p : Chart) : p.importAll importing [] = (0, p) := rfl

theorem importAll_cons (importing : Bool) (p : Chart) (s : History.Sample) (rest : List History.Sample) :
    p.importAll importing (s :: rest) =
      ((if (p.importSample importing s).1 = .stored then 1 else 0) +
          ((p.take importing s).importAll importing rest).1,
        ((p.take importing s).importAll importing rest).2) := by
  have start : importAll importing p (s :: rest) =
      rest.foldl (countedStep importing) (countedStep importing (0, p) s) := rfl
  rw [start, countedStep, foldl_countedStep, Nat.zero_add]

/-- The import of two lists is the import of the first and then of the second. -/
theorem importAll_append (importing : Bool) (p : Chart) (xs ys : List History.Sample) :
    p.importAll importing (xs ++ ys) =
      ((p.importAll importing xs).1 + ((p.importAll importing xs).2.importAll importing ys).1,
        ((p.importAll importing xs).2.importAll importing ys).2) := by
  induction xs generalizing p with
  | nil => simp
  | cons s rest ih => rw [List.cons_append, importAll_cons, importAll_cons, ih, Nat.add_assoc]

/-- What each sample keeps is kept by the import of a list. -/
theorem importAll_induction {I : Chart → Prop} {samples : List History.Sample} (h : I p)
    (take : ∀ q, ∀ s ∈ samples, I q → I (q.take importing s)) : I (p.importAll importing samples).2 := by
  induction samples generalizing p with
  | nil => exact h
  | cons s rest ih =>
    rw [importAll_cons]
    exact ih (take p s List.mem_cons_self h) fun q r hr => take q r (List.mem_cons_of_mem _ hr)

/-- A locked chart takes no sample. -/
theorem series_importAll_of_locked (importing : Bool) (samples : List History.Sample)
    (h : p.warmup.isLocked = true) : (p.importAll importing samples).2.series = p.series := by
  induction samples generalizing p with
  | nil => rfl
  | cons s rest ih =>
    have ht : p.take importing s = { p with lastSeen := some (p.lifted s.time) } :=
      congrArg Prod.snd (importSample_of_locked h)
    rw [importAll_cons, ht]
    exact ih h

/-! ## Batches -/

/-- The chart at the first new sample: the gap of a restart that a live poll detected is drawn
just before it. -/
def opened (p : Chart) (t : Int) : Chart :=
  let q := { p with warmup := p.warmup.consumeBreak.2 }
  if p.warmup.breakPending then q.insertBreak (t - 1) else q

theorem opened_of_pending {t : Int} (h : p.warmup.breakPending = true) :
    p.opened t = { p with warmup := p.warmup.consumeBreak.2 }.insertBreak (t - 1) := if_pos h

theorem opened_of_not_pending {t : Int} (h : p.warmup.breakPending = false) : p.opened t = p := by
  have hw : p.warmup.consumeBreak.2 = p.warmup := by rw [Warmup.consumeBreak, ← h]
  simp only [opened, h, hw, Bool.false_eq_true, if_false]

theorem importSamples_of_nil {samples : List History.Sample} (h : samples.filter p.accepts = []) :
    p.importSamples importing samples = (0, p) := by
  unfold importSamples; rw [h]

theorem importSamples_of_cons {samples rest : List History.Sample}
    (h : samples.filter p.accepts = s :: rest) :
    p.importSamples importing samples = (p.opened s.time).importAll importing (s :: rest) := by
  unfold importSamples; rw [h]; rfl

/-- What holds at the first new sample and is kept by each that is accepted holds after a batch; it has
to hold before, too, for there may be none. -/
theorem importSamples_induction {I : Chart → Prop} {samples : List History.Sample} (h : I p)
    (opened : ∀ t, I (p.opened t))
    (take : ∀ q, ∀ s ∈ samples, p.accepts s = true → I q → I (q.take importing s)) :
    I (p.importSamples importing samples).2 := by
  cases hf : samples.filter p.accepts with
  | nil =>
    rw [importSamples_of_nil hf]
    exact h
  | cons s rest =>
    rw [importSamples_of_cons hf]
    refine importAll_induction (opened s.time) fun q r hr => ?_
    rw [← hf] at hr
    exact take q r (List.mem_filter.mp hr).1 (List.mem_filter.mp hr).2

/-! ## What an import leaves alone -/

/-- What no sample changes: the configuration and the settings of the filter, what is known of the
device, the least time of history, and the storage. -/
def unimported (p : Chart) : Chart :=
  { p with
    series := .empty, guard := p.guard.reset, warmup := .new p.config.warmup .ready
    startup := {}, reload := {}, lastSeen := none, lastBreak := none, restartToken := none
    tempMemory := none }

theorem insertBreak_unimported (p : Chart) (t : Int) : (p.insertBreak t).unimported = p.unimported := by
  rw [insertBreak_eq]; rfl

theorem take_unimported (p : Chart) (importing : Bool) (s : History.Sample) :
    (p.take importing s).unimported = p.unimported := by
  unfold take
  rcases p.importSample_cases importing s with ⟨-, hi⟩ | ⟨-, -, hi⟩ | ⟨-, -, hi⟩ <;> rw [hi]
  · rfl
  · refine (insertBreak_unimported _ _).trans ?_
    rw [relocked_eq]
    rfl
  · rw [filtered_eq]; rfl

theorem importAll_unimported (p : Chart) (importing : Bool) (samples : List History.Sample) :
    (p.importAll importing samples).2.unimported = p.unimported := by
  induction samples generalizing p with
  | nil => rfl
  | cons s rest ih => rw [importAll_cons, ih, take_unimported]

theorem opened_unimported (p : Chart) (t : Int) : (p.opened t).unimported = p.unimported := by
  cases hb : p.warmup.breakPending with
  | true => rw [opened_of_pending hb, insertBreak_unimported]; rfl
  | false => rw [opened_of_not_pending hb]

/-! ## The pending gap -/

/-- An import that has started leaves no gap pending. -/
theorem opened_breakPending (p : Chart) (t : Int) : (p.opened t).warmup.breakPending = false := by
  cases hb : p.warmup.breakPending with
  | true => rw [opened_of_pending hb, insertBreak_eq]; rfl
  | false => rw [opened_of_not_pending hb, hb]

theorem take_breakPending (importing : Bool) (s : History.Sample) (h : p.warmup.breakPending = false) :
    (p.take importing s).warmup.breakPending = false := by
  unfold take
  rcases p.importSample_cases importing s with ⟨-, hi⟩ | ⟨-, -, hi⟩ | ⟨-, -, hi⟩ <;> rw [hi]
  · exact h
  · rw [insertBreak_eq]; rfl
  · rw [filtered_eq]
    unfold storeRow
    dsimp only
    split <;> exact h

theorem importAll_breakPending (importing : Bool) (samples : List History.Sample)
    (h : p.warmup.breakPending = false) :
    (p.importAll importing samples).2.warmup.breakPending = false := by
  induction samples generalizing p with
  | nil => exact h
  | cons s rest ih =>
    rw [importAll_cons]
    exact ih (take_breakPending importing s h)

/-! ## Storage -/

/-- The chart over another storage. -/
def onto (p : Chart) (storage : Option Storage) : Chart := { p with storage := storage }

variable {storage : Option Storage}

theorem insertBreak_onto (p : Chart) (t : Int) :
    (p.onto storage).insertBreak t = (p.insertBreak t).onto storage := by
  rw [insertBreak_eq, insertBreak_eq]; rfl

theorem cutAt_onto (p : Chart) (t : Int) :
    (p.onto storage).cutAt t = (p.cutAt t).onto storage :=
  congrArg (fun q : Chart => { q with lastSeen := some t })
    (insertBreak_onto { p with warmup := (p.warmup.reset t).consumeBreak.2 } (t - 1))

theorem planReload_onto (p : Chart) (t : Int) :
    (p.onto storage).planReload t = (p.planReload t).onto storage := by
  have hc : (p.onto storage).config = p.config := rfl
  have hr : (p.onto storage).reload = p.reload := rfl
  have ht : (p.onto storage).restartToken = p.restartToken := rfl
  simp only [planReload, hc, hr, ht]
  cases p.restartToken with
  | none => rfl
  | some token =>
    simp only
    by_cases h : (p.config.startup.reloadAfterSmooth && decide (0 < p.config.startup.smoothWindow)) = true
    · rw [if_pos h, if_pos h]
      by_cases hn : p.reload.consumed = some token ∨ t < p.reload.cooldownUntil
      · rw [if_pos hn, if_pos hn]; rfl
      · rw [if_neg hn, if_neg hn]; rfl
    · rw [if_neg h, if_neg h]

theorem candidate_onto (p : Chart) (x : Binary64) (t : Int) :
    (p.onto storage).candidate x t importing =
      ((p.candidate x t importing).1, (p.candidate x t importing).2.onto storage) := by
  have hm : (p.onto storage).mayStart x importing = p.mayStart x importing := rfl
  have ha : (p.onto storage).startup = p.startup := rfl
  have hs : (p.onto storage).started t = (p.started t).onto storage := rfl
  simp only [candidate, startHashrate_def, hm, ha, hs, planReload_onto]
  split
  · rfl
  · split
    · split <;> rfl
    · rfl

/-- Storage never decides what becomes of a sample. -/
theorem importSample_onto (p : Chart) :
    (p.onto storage).importSample importing s =
      ((p.importSample importing s).1, (p.importSample importing s).2.onto storage) := by
  have ho : (p.onto storage).offer importing s =
      ((p.offer importing s).1, (p.offer importing s).2.onto storage) := candidate_onto p _ _
  have hr : (p.onto storage).showsRestart s = p.showsRestart s := rfl
  cases h : p.warmup.isLocked with
  | true => rw [importSample_of_locked h, importSample_of_locked (p := p.onto storage) h]; rfl
  | false =>
    rw [importSample_of_unlocked h, importSample_of_unlocked (p := p.onto storage) h, filtered, ho, hr]
    split
    · exact congrArg _ (cutAt_onto _ _)
    · rfl

theorem importAll_onto (p : Chart) (samples : List History.Sample) :
    (p.onto storage).importAll importing samples =
      ((p.importAll importing samples).1, (p.importAll importing samples).2.onto storage) := by
  induction samples generalizing p with
  | nil => rfl
  | cons s rest ih =>
    rw [importAll_cons, importAll_cons, take, importSample_onto, ih]
    rfl

theorem importSamples_onto (p : Chart) (samples : List History.Sample) :
    (p.onto storage).importSamples importing samples =
      ((p.importSamples importing samples).1, (p.importSamples importing samples).2.onto storage) := by
  have ha : (p.onto storage).accepts = p.accepts := rfl
  cases h : samples.filter p.accepts with
  | nil => rw [importSamples_of_nil h, importSamples_of_nil (p := p.onto storage) (ha ▸ h)]
  | cons s rest =>
    rw [importSamples_of_cons h, importSamples_of_cons (p := p.onto storage) (ha ▸ h), ← importAll_onto]
    congr 1
    cases hb : p.warmup.breakPending with
    | true =>
      rw [opened_of_pending hb, opened_of_pending (p := p.onto storage) hb]
      exact insertBreak_onto { p with warmup := p.warmup.consumeBreak.2 } (s.time - 1)
    | false => rw [opened_of_not_pending hb, opened_of_not_pending (p := p.onto storage) hb]

end Chart

end HashrateChart
