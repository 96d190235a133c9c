/-
Independence of what was before a restart: two charts that wait for the gap of
a restart, and agree on the device and on what has been heard of it, store the
same rows from the gap on. Their curves, what their filters remember, and how
far their startup has come may differ in any way.

The gap makes all of that void (`device`). What it leaves, such as the reload
and the times that were seen, never decides on a row: rows are decided by the
`core` of a chart, the last label and the last gap. From the gap on the two
charts share a core and the rows since then, and new samples come so late that
neither the older rows nor an older gap can reach them.
-/
import HashrateChart.Proofs.Chart.Order

namespace HashrateChart

namespace Chart

variable {p q : Chart} {t : Int} {s : History.Sample}

/-! ## What decides on rows -/

/-- What decides on the rows to come, besides the last label and the last gap. Once the 1m curve has
started, whether its start was the first one no longer counts. -/
def core (p : Chart) : Chart :=
  { p with
    storage := none, series := .empty, reload := {}, lastSeen := none, loaded := false
    lastBreak := none, restartToken := none, tempMemory := none
    startup := { p.startup with
      smoothArmed := if p.startup.started then false else p.startup.smoothArmed } }

/-- What a restart leaves of the core. -/
def device (p : Chart) : Chart :=
  { p.core with guard := p.guard.reset, startup := { smoothArmed := true } }

/-- What can be told from the core is the same for charts of the same core. -/
theorem congr_core {β : Type} {f : Chart → β} (g : Chart → β) (hf : ∀ r, f r = g r.core)
    (h : p.core = q.core) : f p = f q := by
  rw [hf, hf, h]

theorem device_of_core (h : p.core = q.core) : p.device = q.device :=
  congr_core device (fun _ => rfl) h

theorem core_insertBreak (p : Chart) (t : Int) : (p.insertBreak t).core = p.device := by
  rw [insertBreak_eq]; rfl

/-- A restart makes void whatever the offer of its sample has changed. -/
theorem device_relocked (p : Chart) (importing : Bool) (s : History.Sample) :
    (p.relocked importing s).device =
      { p.device with warmup := (p.warmup.reset (p.lifted s.time)).consumeBreak.2 } := by
  rw [relocked_eq]; rfl

/-- The start of the 1m curve, whether or not a reload is planned with it. -/
theorem core_startHashrate (hs : p.startup.started = false) (t : Int) :
    (p.startHashrate t).core =
      { p.core with startup := { p.core.startup with
          started := true
          startedAt := if p.core.startup.smoothArmed then some t else none
          smoothArmed := false } } := by
  have harmed : p.core.startup.smoothArmed = p.startup.smoothArmed := by simp [core, hs]
  have hplan : (p.started t).planReload t =
      { p.started t with
        startup := { (p.started t).startup with
          smoothArmed := ((p.started t).planReload t).startup.smoothArmed }
        reload := ((p.started t).planReload t).reload } := by
    unfold planReload
    dsimp only
    split
    · rfl
    · split
      · split <;> rfl
      · rfl
  rw [startHashrate_def, harmed]
  split
  · next h => rw [hplan]; simp [core, started, h]
  · next h => simp [core, started, h]

theorem core_candidate (importing : Bool) (h : p.core = q.core) (x : Binary64) (t : Int) :
    (p.candidate x t importing).1 = (q.candidate x t importing).1 ∧
      (p.candidate x t importing).2.core = (q.candidate x t importing).2.core := by
  have hstart : p.startup.started = q.startup.started :=
    congr_core (·.startup.started) (fun _ => rfl) h
  have hmay : p.mayStart x importing = q.mayStart x importing :=
    congr_core (·.mayStart x importing) (fun _ => rfl) h
  unfold candidate
  rw [← hstart, ← hmay]
  split
  · exact ⟨rfl, h⟩
  · next hs =>
    have hs : p.startup.started = false := by simpa using hs
    split
    · refine ⟨rfl, ?_⟩
      rw [core_startHashrate hs, core_startHashrate (hstart ▸ hs), h]
    · exact ⟨rfl, h⟩

theorem core_filterRow (h : p.core = q.core) (t : Int) (row : PerChannel Binary64) :
    (p.filterRow t row).1 = (q.filterRow t row).1 ∧
      (p.filterRow t row).2.core = (q.filterRow t row).2.core :=
  ⟨congr_core (fun r => (r.filterRow t row).1) (fun _ => rfl) h,
    congr_core (f := fun r => (r.filterRow t row).2.core)
      (fun r => { r with
        guard := (r.filterRow t row).2.guard, startup := (r.filterRow t row).2.startup })
      (fun _ => rfl) h⟩

/-- Charts of the same core filter a sample alike. -/
theorem core_filtered (importing : Bool) (h : p.core = q.core) (ht : p.lifted s.time = q.lifted s.time) :
    (p.filtered importing s).1 = (q.filtered importing s).1 ∧
      (p.filtered importing s).2.core = (q.filtered importing s).2.core := by
  have hclean : p.clean s = q.clean s := congr_core (·.clean s) (fun _ => rfl) h
  obtain ⟨hx, hc⟩ := core_candidate importing h (q.clean s).hashrate1m (q.lifted s.time)
  unfold filtered offer
  rw [hclean, ht, hx]
  exact core_filterRow hc _ _

theorem core_storeRow (h : p.core = q.core) (t : Int) (row : PerChannel Binary64) :
    (p.storeRow t row).core = (q.storeRow t row).core :=
  congr_core (f := fun r => (r.storeRow t row).core)
    (fun r => { r with warmup := (r.storeRow t row).warmup }) (fun _ => rfl) h

theorem core_unlock (h : p.core = q.core) (live : Binary64) : (p.unlock live).core = (q.unlock live).core := by
  have hunlocks : (!p.startup.unlocked && Warmup.isUnlockedAt live p.expected
        p.config.startup.unlockRatio p.guard.isSteady) =
      (!q.startup.unlocked && Warmup.isUnlockedAt live q.expected
        q.config.startup.unlockRatio q.guard.isSteady) :=
    congr_core (fun r => !r.startup.unlocked && Warmup.isUnlockedAt live r.expected
      r.config.startup.unlockRatio r.guard.isSteady) (fun _ => rfl) h
  unfold unlock
  dsimp only
  rw [hunlocks]
  split
  · exact congr_core (f := fun r => { r with startup := { r.startup with
        unlocked := true, bypass := bypassed r.config.startup.bypassSamples } : Chart }.core)
      (fun r => { r with startup := { r.startup with
        unlocked := true, bypass := bypassed r.config.startup.bypassSamples } }) (fun _ => rfl) h
  · exact h

/-- The last part of a live poll: the warmup moves on. -/
def polled (p : Chart) (now : Int) (info : SystemInfo) : Chart :=
  { p with
    warmup := p.warmup.poll now (.real (info.vregTemp.getD .nan)) (.real (info.temp.getD .nan))
      (.real info.liveHashrate) (Binary64.zero.lt p.expected) }

theorem observe_def (p : Chart) (now : Int) (info : SystemInfo) :
    p.observe now info =
      ((p.noteHashrates info.liveHashrate info.expectedHashrate).unlock info.liveHashrate).polled
        now info := rfl

/-- Charts of the same core hear a live poll alike. -/
theorem core_observe (h : p.core = q.core) (now : Int) (info : SystemInfo) :
    (p.observe now info).core = (q.observe now info).core := by
  have hnote : (p.noteHashrates info.liveHashrate info.expectedHashrate).core =
      (q.noteHashrates info.liveHashrate info.expectedHashrate).core :=
    congr_core (f := fun r => (r.noteHashrates info.liveHashrate info.expectedHashrate).core)
      (·.noteHashrates info.liveHashrate info.expectedHashrate) (fun _ => rfl) h
  rw [observe_def, observe_def]
  exact congr_core (f := fun r => (r.polled now info).core) (·.polled now info) (fun _ => rfl)
    (core_unlock hnote info.liveHashrate)

theorem device_noteHashrates (p : Chart) (live expected : Binary64) :
    (p.noteHashrates live expected).device =
      { p.device.noteHashrates live expected with guard := p.device.guard } := by
  have hreset : (p.guard.observeLive live).reset = p.guard.reset := by
    unfold Guard.observeLive
    split <;> rfl
  unfold device noteHashrates
  rw [hreset]
  rfl

theorem device_unlock (p : Chart) (live : Binary64) : (p.unlock live).device = p.device := by
  unfold unlock
  dsimp only
  split <;> rfl

/-- What a live poll tells of the device does not depend on the samples. -/
theorem device_observe (h : p.device = q.device) (now : Int) (info : SystemInfo) :
    (p.observe now info).device = (q.observe now info).device := by
  have key : ∀ r : Chart, (r.observe now info).device =
      { r.device.noteHashrates info.liveHashrate info.expectedHashrate with
        guard := r.device.guard : Chart }.polled now info := by
    intro r
    rw [← device_noteHashrates]
    exact congrArg (·.polled now info) (device_unlock _ info.liveHashrate)
  rw [key, key, h]

/-! ## Times beyond the older rows -/

/-- The curves are those of an earlier chart and rows after its last label and its last gap. -/
structure Since (p : Chart) (new s : Series) : Prop where
  series : s = p.series.concat new
  aligned : new.Aligned
  clears : ∀ last, new.lastLabel? = some last → p.Clears last

variable {new x : Series}

theorem Since.refl (p : Chart) : Since p .empty p.series :=
  ⟨(Series.concat_empty _).symm, .empty, fun _ hl => by cases hl⟩

theorem Since.upsert (h : Since p new x) (ht : p.Clears t) (row : PerChannel Binary64) :
    Since p (new.upsert t row) (x.upsert t row) where
  series := by
    rw [h.series]
    refine Series.upsert_concat h.aligned fun _ hl => ?_
    exact Int.lt_irrefl t (ht.1 t hl)
  aligned := h.aligned.upsert
  clears last hl := by
    rw [Series.lastLabel?_upsert] at hl
    cases hl
    exact ht

/-- A gap has the same place after the new rows as without the older ones. -/
theorem Since.insertBreak (h : Since p new x) (ht : p.Clears t) :
    (x.insertBreak t).1 = (new.insertBreak t).1 ∧
      Since p (new.insertBreak t).2 (x.insertBreak t).2 := by
  have hx : x.insertBreak t = ((new.insertBreak t).1, p.series.concat (new.insertBreak t).2) := by
    rw [h.series]
    exact Series.insertBreak_concat fun _ => ht.1
  rw [hx]
  refine ⟨rfl, rfl, h.aligned.insertBreak t, fun last hl => ?_⟩
  by_cases hpos : t ≤ 0
  · rw [Series.insertBreak_of_le hpos] at hl
    exact h.clears last hl
  · rw [Series.insertBreak_of_pos (by omega)] at hl
    cases (Series.lastLabel?_append _ _ _).symm.trans hl
    exact ht.mono (Series.le_gapTime _ _)

theorem Since.lastLabel? (h : Since p new x) :
    x.lastLabel? = new.lastLabel?.or p.series.lastLabel? := by
  rw [h.series, Series.lastLabel?_concat]

/-! ## Two charts with the same new rows -/

/-- Two charts that share all rows since two earlier ones. The last gaps are the same, or they are
still those of the earlier charts. -/
structure SameRows (p₀ q₀ : Chart) (new : Series) (p q : Chart) : Prop where
  left : Since p₀ new p.series
  right : Since q₀ new q.series
  gaps : p.lastBreak = q.lastBreak ∨ (p.lastBreak = p₀.lastBreak ∧ q.lastBreak = q₀.lastBreak)
  least : p.historyMin = p₀.historyMin ∧ q.historyMin = q₀.historyMin

/-- They share what decides on rows, too. -/
structure Twins (p₀ q₀ : Chart) (new : Series) (p q : Chart) : Prop extends
    SameRows p₀ q₀ new p q where
  core : p.core = q.core

variable {p₀ q₀ p' q' : Chart}

theorem SameRows.congr (h : SameRows p₀ q₀ new p q) (hp : p'.series = p.series)
    (hq : q'.series = q.series) (hbp : p'.lastBreak = p.lastBreak) (hbq : q'.lastBreak = q.lastBreak)
    (hmp : p'.historyMin = p.historyMin) (hmq : q'.historyMin = q.historyMin) :
    SameRows p₀ q₀ new p' q' :=
  ⟨hp ▸ h.left, hq ▸ h.right, by rw [hbp, hbq]; exact h.gaps,
    hmp.trans h.least.1, hmq.trans h.least.2⟩

theorem SameRows.lifted_eq (h : SameRows p₀ q₀ new p q) (hp : p₀.Clears t) (hq : q₀.Clears t) :
    p.lifted t = q.lifted t := by
  rcases h.gaps with hb | ⟨hbp, hbq⟩
  · exact lifted_congr hb t
  · rw [lifted_congr hbp, lifted_congr hbq, lifted_of_clears hp, lifted_of_clears hq]

/-- A gap is drawn at the same place, and makes all else the same that a restart makes void. -/
theorem SameRows.insertBreak (h : SameRows p₀ q₀ new p q) (hd : p.device = q.device)
    (hp : p₀.Clears t) (hq : q₀.Clears t) :
    Twins p₀ q₀ (new.insertBreak t).2 (p.insertBreak t) (q.insertBreak t) := by
  obtain ⟨hlp, hleft⟩ := h.left.insertBreak hp
  obtain ⟨hlq, hright⟩ := h.right.insertBreak hq
  refine ⟨⟨?_, ?_, ?_, ?_⟩, by rw [core_insertBreak, core_insertBreak, hd]⟩
  · rw [series_insertBreak]; exact hleft
  · rw [series_insertBreak]; exact hright
  · rw [lastBreak_insertBreak, lastBreak_insertBreak, hlp, hlq]
    cases (new.insertBreak t).1 with
    | none => exact h.gaps
    | some gap => exact .inl rfl
  · rw [insertBreak_eq, insertBreak_eq]; exact h.least

theorem SameRows.storeRow (h : SameRows p₀ q₀ new p q) (hp : p₀.Clears t) (hq : q₀.Clears t)
    (row : PerChannel Binary64) :
    SameRows p₀ q₀ (new.upsert t row) (p.storeRow t row) (q.storeRow t row) :=
  ⟨h.left.upsert hp row, h.right.upsert hq row, h.gaps, h.least⟩

/-- A sample after all older rows does the same to both charts. -/
theorem Twins.take (importing : Bool) (h : Twins p₀ q₀ new p q) (hp : p₀.Clears (s.time - 1))
    (hq : q₀.Clears (s.time - 1)) :
    ∃ new, Twins p₀ q₀ new (p.take importing s) (q.take importing s) := by
  have ht : p.lifted s.time = q.lifted s.time := h.lifted_eq (hp.mono (by omega)) (hq.mono (by omega))
  have hle := q.le_lifted s.time
  have hw : p.warmup = q.warmup := congr_core (·.warmup) (fun _ => rfl) h.core
  have hr : p.showsRestart s = q.showsRestart s := congr_core (·.showsRestart s) (fun _ => rfl) h.core
  unfold Chart.take
  cases hl : q.warmup.isLocked with
  | true =>
    rw [importSample_of_locked hl, importSample_of_locked (hw ▸ hl)]
    exact ⟨new, h.congr rfl rfl rfl rfl rfl rfl, h.core⟩
  | false =>
    rw [importSample_of_unlocked hl, importSample_of_unlocked (hw ▸ hl), hr]
    split
    · have hrows : SameRows p₀ q₀ new (p.relocked importing s) (q.relocked importing s) :=
        h.congr relocked_series relocked_series relocked_lastBreak relocked_lastBreak
          (by rw [relocked_eq]) (by rw [relocked_eq])
      have hd : (p.relocked importing s).device = (q.relocked importing s).device := by
        rw [device_relocked, device_relocked, device_of_core h.core, hw, ht]
      have hg := hrows.insertBreak hd (t := q.lifted s.time - 1) (hp.mono (by omega))
        (hq.mono (by omega))
      rw [cutAt_offer, cutAt_offer, ht]
      exact ⟨_, hg.congr rfl rfl rfl rfl rfl rfl, hg.core⟩
    · obtain ⟨hrow, hc⟩ := core_filtered importing h.core ht
      have hf : SameRows p₀ q₀ new (p.filtered importing s).2 (q.filtered importing s).2 :=
        h.congr filtered_series filtered_series filtered_lastBreak filtered_lastBreak
          (by rw [filtered_eq]) (by rw [filtered_eq])
      rw [hrow, ht]
      exact ⟨_, hf.storeRow (hp.mono (by omega)) (hq.mono (by omega)) _, core_storeRow hc _ _⟩

theorem Twins.importAll {samples : List History.Sample} (importing : Bool) (h : Twins p₀ q₀ new p q)
    (hs : ∀ s ∈ samples, p₀.Clears (s.time - 1) ∧ q₀.Clears (s.time - 1)) :
    ∃ new, Twins p₀ q₀ new (p.importAll importing samples).2 (q.importAll importing samples).2 := by
  induction samples generalizing p q new with
  | nil => exact ⟨new, h⟩
  | cons s rest ih =>
    obtain ⟨hp, hq⟩ := hs s List.mem_cons_self
    obtain ⟨new', h'⟩ := h.take importing hp hq
    rw [importAll_cons, importAll_cons]
    exact ih h' fun x hx => hs x (List.mem_cons_of_mem _ hx)

/-! ## Batches -/

/-- A sample that is new to one of the two earlier charts is after all older rows of both. -/
def IsLater (p₀ q₀ : Chart) (s : History.Sample) : Prop :=
  p₀.accepts s = true ∨ q₀.accepts s = true → p₀.Clears (s.time - 1) ∧ q₀.Clears (s.time - 1)

/-- What is new after the new rows is new without them. -/
theorem Since.accepts (h : Since p₀ new p.series) (hm : p.historyMin = p₀.historyMin)
    (ha : p.accepts s = true) : p₀.accepts s = true := by
  obtain ⟨hlabel, hleast⟩ := accepts_iff.mp ha
  refine accepts_iff.mpr ⟨fun last hl => ?_, hm ▸ hleast⟩
  rw [h.lastLabel?] at hlabel
  cases hn : new.lastLabel? with
  | none => exact hlabel last (by rw [hn, hl]; rfl)
  | some later =>
    have := (h.clears later hn).1 last hl
    have := hlabel later (by rw [hn]; rfl)
    omega

/-- What is new to the one chart is new to the other. -/
theorem SameRows.accepts (h : SameRows p₀ q₀ new p q) (hm : p.historyMin = q.historyMin)
    (ha : p.accepts s = true) (hs : q₀.Clears (s.time - 1)) : q.accepts s = true := by
  obtain ⟨hlabel, hleast⟩ := accepts_iff.mp ha
  refine accepts_iff.mpr ⟨fun last hl => ?_, hm ▸ hleast⟩
  rw [h.left.lastLabel?] at hlabel
  rw [h.right.lastLabel?] at hl
  cases hn : new.lastLabel? with
  | none =>
    rw [hn, Option.none_or] at hl
    have := hs.1 last hl
    omega
  | some later =>
    rw [hn, Option.some_or] at hl
    exact hlabel last (by rw [hn, Option.some_or, hl])

theorem SameRows.symm (h : SameRows p₀ q₀ new p q) : SameRows q₀ p₀ new q p :=
  ⟨h.right, h.left, h.gaps.imp Eq.symm And.symm, h.least.symm⟩

/-- The charts share their rows since two earlier ones. What decides on rows is the same, or the gap
that makes the rest void is still pending. -/
def Converging (p₀ q₀ p q : Chart) : Prop :=
  ∃ new, SameRows p₀ q₀ new p q ∧ p.device = q.device ∧
    (p.core = q.core ∨ p.warmup.breakPending = true)

theorem Twins.converging (h : Twins p₀ q₀ new p q) : Converging p₀ q₀ p q :=
  ⟨new, h.toSameRows, device_of_core h.core, .inl h.core⟩

theorem Converging.importSamples {samples : List History.Sample} (importing : Bool)
    (h : Converging p₀ q₀ p q) (hs : ∀ s ∈ samples, IsLater p₀ q₀ s) :
    Converging p₀ q₀ (p.importSamples importing samples).2 (q.importSamples importing samples).2 := by
  obtain ⟨new, hrows, hd, hc⟩ := h
  have hm : p.device.historyMin = q.device.historyMin := by rw [hd]
  have hw : p.device.warmup = q.device.warmup := by rw [hd]
  have hnew : ∀ s ∈ samples, p.accepts s = true → p₀.Clears (s.time - 1) ∧ q₀.Clears (s.time - 1) :=
    fun s hx ha => hs s hx (.inl (hrows.left.accepts hrows.least.1 ha))
  have hnew' : ∀ s ∈ samples, q.accepts s = true → p₀.Clears (s.time - 1) ∧ q₀.Clears (s.time - 1) :=
    fun s hx ha => hs s hx (.inr (hrows.right.accepts hrows.least.2 ha))
  have hsame : samples.filter q.accepts = samples.filter p.accepts := by
    refine List.filter_congr fun s hx => Bool.eq_iff_iff.mpr ⟨fun ha => ?_, fun ha => ?_⟩
    · exact hrows.symm.accepts hm.symm ha (hnew' s hx ha).1
    · exact hrows.accepts hm ha (hnew s hx ha).2
  cases hf : samples.filter p.accepts with
  | nil =>
    rw [importSamples_of_nil hf, importSamples_of_nil (hsame.trans hf)]
    exact ⟨new, hrows, hd, hc⟩
  | cons s rest =>
    have hall : ∀ x ∈ s :: rest, p₀.Clears (x.time - 1) ∧ q₀.Clears (x.time - 1) := fun x hx =>
      have hx : x ∈ samples ∧ p.accepts x = true := List.mem_filter.mp (hf ▸ hx)
      hnew x hx.1 hx.2
    rw [importSamples_of_cons hf, importSamples_of_cons (hsame.trans hf)]
    have hopen : ∃ new, Twins p₀ q₀ new (p.opened s.time) (q.opened s.time) := by
      cases hb : p.warmup.breakPending with
      | true =>
        have hb' : q.warmup.breakPending = true := by
          rw [← hb]; exact congrArg Warmup.breakPending hw.symm
        rw [opened_of_pending hb, opened_of_pending hb']
        have hdc : ({ p with warmup := p.warmup.consumeBreak.2 } : Chart).device =
            ({ q with warmup := q.warmup.consumeBreak.2 } : Chart).device :=
          congrArg (fun r : Chart => { r with warmup := r.warmup.consumeBreak.2 }) hd
        have hopen : SameRows p₀ q₀ new { p with warmup := p.warmup.consumeBreak.2 }
            { q with warmup := q.warmup.consumeBreak.2 } := hrows.congr rfl rfl rfl rfl rfl rfl
        obtain ⟨hp, hq⟩ := hall s List.mem_cons_self
        exact ⟨_, hopen.insertBreak hdc hp hq⟩
      | false =>
        have hb' : q.warmup.breakPending = false := by
          rw [← hb]; exact congrArg Warmup.breakPending hw.symm
        rw [opened_of_not_pending hb, opened_of_not_pending hb']
        exact ⟨new, hrows, hc.resolve_right (by simp [hb])⟩
    obtain ⟨new', ht⟩ := hopen
    obtain ⟨new'', ht⟩ := ht.importAll importing hall
    exact ht.converging

/-! ## Calls -/

/-- What two charts that converge have beside them does not count. -/
theorem Converging.congr (h : Converging p₀ q₀ p q) (hp : p'.core = p.core) (hq : q'.core = q.core)
    (hps : p'.series = p.series) (hqs : q'.series = q.series) (hbp : p'.lastBreak = p.lastBreak)
    (hbq : q'.lastBreak = q.lastBreak) : Converging p₀ q₀ p' q' := by
  obtain ⟨new, hrows, hd, hc⟩ := h
  have hmp : p'.core.historyMin = p.core.historyMin := by rw [hp]
  have hmq : q'.core.historyMin = q.core.historyMin := by rw [hq]
  have hw : p'.core.warmup = p.core.warmup := by rw [hp]
  refine ⟨new, hrows.congr hps hqs hbp hbq hmp hmq, ?_, ?_⟩
  · rw [device_of_core hp, device_of_core hq, hd]
  · exact hc.imp (fun hc => by rw [hp, hq, hc]) fun hb => (congrArg Warmup.breakPending hw).trans hb

theorem Converging.observe (h : Converging p₀ q₀ p q) (now : Int) (info : SystemInfo) :
    Converging p₀ q₀ (p.observe now info) (q.observe now info) := by
  obtain ⟨new, hrows, hd, hc⟩ := h
  have hrows' : SameRows p₀ q₀ new (p.observe now info) (q.observe now info) := by
    refine hrows.congr ?_ ?_ ?_ ?_ ?_ ?_ <;> rw [observe_eq]
  refine ⟨new, hrows', device_observe hd now info, ?_⟩
  refine hc.imp (fun hc => core_observe hc now info) fun hb => ?_
  -- a gap that is pending stays so until history comes
  rcases p.observe_warmup now info with ⟨-, -, hpend⟩ | ⟨-, hpend⟩
  · exact hpend
  · exact hpend.trans hb

/-- Whether a call leaves all older rows where they are. -/
def keepsRows : Call → Bool
  | .reload _ | .commit .. | .clear _ => false
  | .observe .. | .importBatch .. | .frame .. | .pollDeferred _ | .takeReload => true

theorem Converging.effect (h : Converging p₀ q₀ p q) (call : Call) (hk : keepsRows call = true)
    (hs : ∀ s ∈ call.samples, IsLater p₀ q₀ s) : Converging p₀ q₀ (p.effect call) (q.effect call) := by
  cases call with
  | observe now info => exact h.observe now info
  | importBatch batch importing =>
    cases hb : History.decode batch with
    | error e =>
      rw [Chart.effect, Chart.effect, imported_of_error hb, imported_of_error hb]
      exact h
    | ok samples =>
      rw [Call.samples, History.samples_of_ok hb] at hs
      rw [Chart.effect, Chart.effect, imported_of_ok hb, imported_of_ok hb]
      exact h.importSamples importing hs
  | frame now window visibility => exact h.congr rfl rfl rfl rfl rfl rfl
  | pollDeferred now =>
    rw [Chart.effect, Chart.effect, pollDeferred_eq p, pollDeferred_eq q]
    exact h.congr rfl rfl rfl rfl rfl rfl
  | takeReload => exact h.congr rfl rfl rfl rfl rfl rfl
  | reload _ | commit _ _ _ | clear _ => cases hk

theorem Converging.afterAll {calls : List Call} (h : Converging p₀ q₀ p q)
    (hk : ∀ call ∈ calls, keepsRows call = true)
    (hs : ∀ call ∈ calls, ∀ s ∈ call.samples, IsLater p₀ q₀ s) :
    Converging p₀ q₀ (p.afterAll calls) (q.afterAll calls) := by
  induction calls generalizing p q with
  | nil => exact h
  | cons call calls ih =>
    have he := h.effect call (hk call List.mem_cons_self) (hs call List.mem_cons_self)
    have ha : Converging p₀ q₀ (p.after call) (q.after call) := by
      obtain ⟨storage, hp⟩ := after_eq p call
      obtain ⟨storage', hq⟩ := after_eq q call
      rw [hp, hq]
      exact he.congr rfl rfl rfl rfl rfl rfl
    exact ih ha (fun c hc => hk c (List.mem_cons_of_mem _ hc)) fun c hc =>
      hs c (List.mem_cons_of_mem _ hc)

/-- **Nothing after a restart depends on what was before it.** Two charts that runs lead to wait for
the gap of a restart, and agree on the configuration, the warmup, the live and the expected hashrate
and the least time of history. Whatever live polls and batches they are given from then on, in which all that
is new to one of them is at least two after the last label and the last gap of both, the same rows
are added to both. -/
theorem same_rows_after_restart (hp : Reachable p) (hq : Reachable q) (hconfig : p.config = q.config)
    (hwarmup : p.warmup = q.warmup) (hpending : p.warmup.breakPending = true)
    (hlive : p.live = q.live) (hexpected : p.expected = q.expected)
    (hleast : p.historyMin = q.historyMin) (calls : List Call)
    (hkeeps : ∀ call ∈ calls, keepsRows call = true)
    (hlater : ∀ call ∈ calls, ∀ s ∈ call.samples, IsLater p q s) :
    ∃ new, (p.afterAll calls).series = p.series.concat new ∧
      (q.afterAll calls).series = q.series.concat new := by
  have hguard : p.guard.reset = q.guard.reset := by
    rw [Guard.reset, Guard.reset, hp.tuning, hq.tuning, hconfig]
  have hdevice : p.device = q.device := by
    simp only [device, core, hconfig, hwarmup, hlive, hexpected, hleast, hguard]
  have hstart : Converging p q p q :=
    ⟨.empty, ⟨.refl p, .refl q, .inr ⟨rfl, rfl⟩, ⟨rfl, rfl⟩⟩, hdevice, .inr hpending⟩
  obtain ⟨new, hrows, -⟩ := hstart.afterAll hkeeps hlater
  exact ⟨new, hrows.left.series, hrows.right.series⟩

theorem importBatch_after (p : Chart) {batch : Option HistoryBatch} {samples : List History.Sample}
    (h : History.decode batch = .ok samples) (importing : Bool) :
    p.after (.importBatch batch importing) = (p.importSamples importing samples).2 := by
  simp only [after, act, Action.runOn_discard, importBatch_runOn]
  exact imported_of_ok h

/-- A chart without samples and one with a sample, and a restart of the device. -/
theorem same_rows_of_empty_and_filled :
    let sample (t x : Binary64) : HistoryBatch := ⟨0, [t], .replicate [x]⟩
    let booting : SystemInfo := ⟨0, 0, 0, 0, none, none, none, none⟩
    let p := (Chart.new {} none).after (.observe 25000 booting)
    let q := ((Chart.new {} none).after (.importBatch (some (sample 20 6000)) true)).after
      (.observe 25000 booting)
    let calls := [Call.importBatch (some (sample 40 6000)) true]
    p.series ≠ q.series ∧
      ∃ new, (p.afterAll calls).series = p.series.concat new ∧
        (q.afterAll calls).series = q.series.concat new := by
  intro sample booting p q calls
  have hfirst : History.decode (some (sample 20 6000)) = .ok [⟨20000, .ofFn fun c =>
      if c.isHashrate then 60000000000 else 60⟩] :=
    History.decode_of_rows (by decide +kernel) (by decide +kernel) (List.pairwise_singleton _ _)
  have hsecond : History.decode (some (sample 40 6000)) = .ok [⟨40000, .ofFn fun c =>
      if c.isHashrate then 60000000000 else 60⟩] :=
    History.decode_of_rows (by decide +kernel) (by decide +kernel) (List.pairwise_singleton _ _)
  have hq : q = ((Chart.new {} none).importSamples true [⟨20000, .ofFn fun c =>
      if c.isHashrate then 60000000000 else 60⟩]).2.after (.observe 25000 booting) :=
    congrArg (·.after (.observe 25000 booting)) (importBatch_after _ hfirst true)
  have hempty : p.series.lastLabel? = none := by decide +kernel
  have hlabel : q.series.lastLabel? = some 20000 := by rw [hq]; decide +kernel
  have huncut : p.lastBreak = none := by decide +kernel
  have hgap : q.lastBreak = none := by rw [hq]; decide +kernel
  have hconfig : p.config = q.config := by rw [hq]; decide +kernel
  have hwarmup : p.warmup = q.warmup := by rw [hq]; decide +kernel
  have hlive : p.live = q.live := by rw [hq]; decide +kernel
  have hexpected : p.expected = q.expected := by rw [hq]; decide +kernel
  have hleast : p.historyMin = q.historyMin := by rw [hq]; decide +kernel
  have hlater : ∀ call ∈ calls, ∀ s ∈ call.samples, IsLater p q s := by
    intro call hc s hs _
    obtain rfl := List.mem_singleton.mp hc
    rw [Call.samples, History.samples_of_ok hsecond] at hs
    obtain rfl := List.mem_singleton.mp hs
    refine ⟨⟨fun _ hl => ?_, fun _ hg => ?_⟩, fun _ hl => ?_, fun _ hg => ?_⟩
    · rw [hempty] at hl; cases hl
    · rw [huncut] at hg; cases hg
    · rw [hlabel] at hl; cases hl; decide
    · rw [hgap] at hg; cases hg
  refine ⟨fun h => ?_, same_rows_after_restart ((Reachable.new {} none).call _)
    (((Reachable.new {} none).call _).call _) hconfig hwarmup (by decide +kernel) hlive hexpected
    hleast calls (by simp [calls, keepsRows]) hlater⟩
  rw [← h, hempty] at hlabel
  cases hlabel

end Chart

end HashrateChart
