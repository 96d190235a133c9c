/-
A batch that is delivered again: polls ask for history from the last sample on,
so the last sample comes twice.

What a batch has stored is no longer new but for the samples of the last time.
Of a chart that the batch has locked they are not stored at all; else they show
no restart now as they showed none before, and they come to the last row. So a
second delivery can only give the last sample other values (`SameButLast`).

It does where a filter holds a sample back. The sample is counted a second time
as one that confirms the step, and once there are enough of them the value that
was held back is stored. A channel keeps its values when its filter is settled:
it does not filter, or what it remembers is the sample itself.
-/
import HashrateChart.Proofs.Chart.Chunks
import HashrateChart.Proofs.Chart.Values

namespace HashrateChart

namespace Series

/-- The curves are the same up to the values of the last sample. -/
structure SameButLast (s t : Series) : Prop where
  labels : t.labels = s.labels
  length : ∀ c, (t.data.get c).length = (s.data.get c).length
  front : ∀ c, (t.data.get c).dropLast = (s.data.get c).dropLast

variable {s t u : Series}

theorem SameButLast.refl (s : Series) : s.SameButLast s := ⟨rfl, fun _ => rfl, fun _ => rfl⟩

theorem SameButLast.trans (h : s.SameButLast t) (h' : t.SameButLast u) : s.SameButLast u where
  labels := h'.labels.trans h.labels
  length c := (h'.length c).trans (h.length c)
  front c := (h'.front c).trans (h.front c)

theorem dropLast_replaceLast {β : Type} (xs : List β) (x : β) :
    (replaceLast xs x).dropLast = xs.dropLast := by
  unfold replaceLast
  split
  · next h => rw [List.isEmpty_iff.mp h]
  · exact List.dropLast_concat

theorem sameButLast_replace (s : Series) (row : PerChannel Binary64) : s.SameButLast (s.replace row) where
  labels := rfl
  length c := by rw [replace, PerChannel.get_ofFn, length_replaceLast]
  front c := by rw [replace, PerChannel.get_ofFn, dropLast_replaceLast]

/-- What replaces the last item does not depend on it. -/
theorem replaceLast_congr {β : Type} {xs ys : List β} (hl : ys.length = xs.length)
    (hd : ys.dropLast = xs.dropLast) (x : β) : replaceLast ys x = replaceLast xs x := by
  have he : ys.isEmpty = xs.isEmpty := by
    rw [Bool.eq_iff_iff, List.isEmpty_iff_length_eq_zero, List.isEmpty_iff_length_eq_zero, hl]
  rw [replaceLast, replaceLast, he, hd]

/-- The values of the last sample replace themselves. -/
theorem replaceLast_upsert (s : Series) (t : Int) (row : PerChannel Binary64) (c : Channel) :
    replaceLast ((s.upsert t row).data.get c) (row.get c) = (s.upsert t row).data.get c := by
  by_cases ht : s.lastLabel? = some t
  · rw [upsert_of_eq ht, replace, PerChannel.get_ofFn]
    exact replaceLast_congr (length_replaceLast _ _) (dropLast_replaceLast _ _) _
  · rw [upsert_of_ne ht, append, PerChannel.get_ofFn]
    simp [replaceLast]

end Series

namespace Chart

variable {p q : Chart} {importing : Bool} {s u : History.Sample} {c : Channel}

/-! ## A sample that was stored -/

/-- What decides about a sample besides the curves: the configuration, what is known of the device,
whether the startup is over, and the last gap. -/
def outlook (p : Chart) : Config × Option Binary64 × Binary64 × Bool × Option Int :=
  (p.config, p.live, p.expected, p.startup.unlocked, p.lastBreak)

theorem clean_of_outlook (h : q.outlook = p.outlook) : q.clean s = p.clean s := by
  simp only [outlook, Prod.mk.injEq] at h
  rw [clean, clean, h.1]

theorem showsRestart_of_outlook (h : q.outlook = p.outlook) : q.showsRestart s = p.showsRestart s := by
  rw [showsRestart, showsRestart, clean_of_outlook h]
  simp only [outlook, Prod.mk.injEq] at h
  rw [h.1, h.2.1]

theorem lifted_of_outlook (h : q.outlook = p.outlook) (t : Int) : q.lifted t = p.lifted t := by
  simp only [outlook, Prod.mk.injEq] at h
  exact lifted_congr h.2.2.2.2 t

theorem mayStart_of_outlook (h : q.outlook = p.outlook) (hs : q.startup.started = p.startup.started)
    (x : Binary64) : q.mayStart x importing = p.mayStart x importing := by
  simp only [outlook, Prod.mk.injEq] at h
  rw [mayStart, mayStart, reachesExpected, reachesExpected, hs, h.1, h.2.2.1, h.2.2.2.1]

theorem offer_unlocked (importing : Bool) (p : Chart) (s : History.Sample) :
    (p.offer importing s).2.startup.unlocked = p.startup.unlocked := by
  unfold offer candidate
  split
  · rfl
  · split
    · rw [startHashrate_def]
      split
      · rw [planReload_startup]; rfl
      · rfl
    · rfl

/-- The chart with a sample stored. -/
def stored (importing : Bool) (p : Chart) (s : History.Sample) : Chart :=
  (p.filtered importing s).2.storeRow (p.lifted s.time) (p.filtered importing s).1

/-- A chart that is not locked after a sample has stored it. -/
theorem take_of_unlocked (h : (p.take importing s).warmup.isLocked = false) :
    p.warmup.isLocked = false ∧ p.showsRestart s = false ∧ p.take importing s = p.stored importing s := by
  unfold Chart.take at h ⊢
  rcases p.importSample_cases importing s with ⟨hl, hi⟩ | ⟨-, -, hi⟩ | ⟨hl, hr, hi⟩ <;> rw [hi] at h ⊢
  · exact absurd (hl.symm.trans h) Bool.noConfusion
  · -- the gap of a restart locks the chart
    rw [insertBreak_eq, relocked_eq] at h
    exact absurd h (by simp [Warmup.consumeBreak, Warmup.reset, Warmup.isLocked, Warmup.transition])
  · exact ⟨hl, hr, rfl⟩

theorem stored_outlook : (p.stored importing s).outlook = p.outlook := by
  have hu : (p.filtered importing s).2.startup.unlocked = p.startup.unlocked :=
    offer_unlocked importing p s
  unfold stored storeRow outlook
  dsimp only
  rw [hu, filtered_eq]

theorem stored_series : (p.stored importing s).series =
    p.series.upsert (p.lifted s.time) (p.filtered importing s).1 := by
  rw [stored, storeRow, filtered_series]

theorem stored_isLocked : (p.stored importing s).warmup.isLocked = p.warmup.isLocked := by
  unfold stored storeRow
  rw [filtered_eq]
  dsimp only
  split <;> rfl

theorem stored_tuning : (p.stored importing s).guard.tuning = p.guard.tuning := by
  rw [stored, filtered_eq]; rfl

theorem stored_started :
    (p.stored importing s).startup.started = (p.offer importing s).2.startup.started := rfl

theorem stored_memory (c : Channel) :
    (p.stored importing s).guard.memory.get c =
      ((p.offer importing s).2.filterValue (p.lifted s.time) c ((p.entering importing s).get c)).memory :=
  filtered_memory importing p s c

/-! ## Delivered samples -/

/-- The chart has stored the sample, or one that came after it, and nothing since has locked it. -/
structure Delivered (importing : Bool) (p : Chart) (s : History.Sample) : Prop where
  unlocked : p.warmup.isLocked = false
  quiet : p.showsRestart s = false
  /-- It came to the last label or before. -/
  placed : ∃ last, p.series.lastLabel? = some last ∧ p.lifted s.time ≤ last
  /-- It did not start the 1m curve when that has not started by now. -/
  waits : p.startup.started = false → p.mayStart (p.clean s).hashrate1m importing = false

/-- Whether the 1m curve has started after a sample is offered to it. -/
theorem offer_started (importing : Bool) (p : Chart) (s : History.Sample) :
    (p.offer importing s).2.startup.started =
      (p.startup.started || p.mayStart (p.clean s).hashrate1m importing) := by
  rw [(offer_cases importing p s).2, startMarks]
  cases p.startup.started <;> cases p.mayStart (p.clean s).hashrate1m importing <;> rfl

/-- What was not started by a sample waits with it. -/
theorem waits_of_stored (ho : q.outlook = p.outlook) (hs : q.startup.started = false)
    (hp : p.startup.started = false) (hm : p.mayStart (p.clean s).hashrate1m importing = false) :
    q.mayStart (q.clean s).hashrate1m importing = false := by
  rw [clean_of_outlook ho, mayStart_of_outlook ho (hs.trans hp.symm), hm]

theorem Delivered.of_stored (hl : p.warmup.isLocked = false) (hr : p.showsRestart s = false) :
    Delivered importing (p.stored importing s) s where
  unlocked := stored_isLocked.trans hl
  quiet := (showsRestart_of_outlook stored_outlook).trans hr
  placed := by
    rw [stored_series, Series.lastLabel?_upsert, lifted_of_outlook stored_outlook]
    exact ⟨_, rfl, Int.le_refl _⟩
  waits hs := by
    rw [stored_started, offer_started, Bool.or_eq_false_iff] at hs
    have hn : (p.stored importing s).startup.started = false := by
      rw [stored_started, offer_started, hs.1, hs.2]; rfl
    exact waits_of_stored stored_outlook hn hs.1 hs.2

/-- Later samples that are stored leave a sample delivered. -/
theorem Delivered.stored (h : Delivered importing p s) (hu : p.Reaches u.time) :
    Delivered importing (p.stored importing u) s where
  unlocked := stored_isLocked.trans h.unlocked
  quiet := (showsRestart_of_outlook stored_outlook).trans h.quiet
  placed := by
    obtain ⟨last, hl, hle⟩ := h.placed
    rw [stored_series, Series.lastLabel?_upsert, lifted_of_outlook stored_outlook]
    exact ⟨_, rfl, Int.le_trans hle (hu last hl)⟩
  waits hs := by
    have hp : p.startup.started = false := by
      rw [stored_started, offer_started, Bool.or_eq_false_iff] at hs
      exact hs.1
    exact waits_of_stored stored_outlook hs hp (h.waits hp)

/-- A chart that is not locked after samples was not locked by the first of them. -/
theorem take_isLocked {samples : List History.Sample}
    (h : ((p.take importing s).importAll importing samples).2.warmup.isLocked = false) :
    (p.take importing s).warmup.isLocked = false := by
  generalize p.take importing s = q at h
  induction samples generalizing q with
  | nil => exact h
  | cons u rest ih =>
    rw [importAll_cons] at h
    exact (take_of_unlocked (ih _ h)).1

/-- A delivered sample stays delivered, and so does each that comes later, unless the chart is
locked in the end. -/
theorem Delivered.importAll {samples : List History.Sample} (h : Delivered importing p s)
    (hr : ∀ u ∈ samples, p.Reaches u.time) (hs : samples.Pairwise (·.time ≤ ·.time))
    (hl : (p.importAll importing samples).2.warmup.isLocked = false) :
    Delivered importing (p.importAll importing samples).2 s := by
  induction samples generalizing p with
  | nil => exact h
  | cons u rest ih =>
    rw [importAll_cons] at hl ⊢
    obtain ⟨hlater, hrest⟩ := List.pairwise_cons.mp hs
    have hu := hr u List.mem_cons_self
    obtain ⟨-, -, ht⟩ := take_of_unlocked (take_isLocked hl)
    refine ih ?_ (fun x hx => hu.take importing (hlater x hx)) hrest hl
    rw [ht]
    exact h.stored hu

theorem delivered_of_importAll {samples : List History.Sample}
    (hr : ∀ s ∈ samples, p.Reaches s.time) (hs : samples.Pairwise (·.time ≤ ·.time))
    (hl : (p.importAll importing samples).2.warmup.isLocked = false) :
    ∀ s ∈ samples, Delivered importing (p.importAll importing samples).2 s := by
  induction samples generalizing p with
  | nil => exact fun s hs => by cases hs
  | cons u rest ih =>
    rw [importAll_cons] at hl ⊢
    obtain ⟨hlater, hrest⟩ := List.pairwise_cons.mp hs
    have hroom := fun x hx => (hr u List.mem_cons_self).take importing (hlater x hx)
    obtain ⟨hpl, hpr, ht⟩ := take_of_unlocked (take_isLocked hl)
    rintro s (_ | ⟨_, hmem⟩)
    · refine Delivered.importAll ?_ hroom hrest hl
      rw [ht]
      exact .of_stored hpl hpr
    · exact ih hroom hrest hl s hmem

/-! ## The second delivery -/

/-- A chart to which samples of its last row come again: at most that row has other values. -/
structure Echo (p q : Chart) : Prop where
  outlook : q.outlook = p.outlook
  tuning : q.guard.tuning = p.guard.tuning
  unlocked : q.warmup.isLocked = false
  started : q.startup.started = p.startup.started
  curves : p.series.SameButLast q.series

theorem Echo.refl (h : p.warmup.isLocked = false) : p.Echo p := ⟨rfl, rfl, h, rfl, .refl _⟩

theorem entering_of_outlook (ho : q.outlook = p.outlook) (hs : q.startup.started = p.startup.started) :
    q.entering importing s = p.entering importing s := by
  refine PerChannel.ext_get fun c => ?_
  rw [entering_get, entering_get, offer_started, offer_started, clean_of_outlook ho, hs,
    mayStart_of_outlook ho hs]

/-- A delivered sample of the last row is stored again in that row. -/
theorem Echo.take_eq (h : p.Echo q) (hd : Delivered importing p s)
    (ht : p.series.lastLabel? = some s.time) :
    q.take importing s = q.stored importing s ∧
      (q.take importing s).series = q.series.replace (q.filtered importing s).1 := by
  have hr : q.showsRestart s = false := (showsRestart_of_outlook h.outlook).trans hd.quiet
  have htake : q.take importing s = q.stored importing s := by
    rw [Chart.take, importSample_of_unlocked h.unlocked, if_neg (by simp [hr])]
    rfl
  refine ⟨htake, ?_⟩
  have hlast : q.series.lastLabel? = some s.time := by
    rw [Series.lastLabel?, h.curves.labels]; exact ht
  obtain ⟨last, hl, hle⟩ := hd.placed
  rw [ht] at hl
  cases hl
  have hlift : q.lifted s.time = s.time := by
    rw [lifted_of_outlook h.outlook]
    exact Int.le_antisymm hle (p.le_lifted s.time)
  rw [htake, stored_series, hlift, Series.upsert_of_eq hlast]

theorem Echo.take (h : p.Echo q) (hd : Delivered importing p s)
    (ht : p.series.lastLabel? = some s.time) : p.Echo (q.take importing s) := by
  obtain ⟨htake, hseries⟩ := h.take_eq hd ht
  refine ⟨?_, ?_, ?_, ?_, ?_⟩
  · rw [htake, stored_outlook, h.outlook]
  · rw [htake, stored_tuning, h.tuning]
  · rw [htake, stored_isLocked, h.unlocked]
  · rw [htake, stored_started, offer_started, h.started]
    cases hs : p.startup.started with
    | true => rfl
    | false =>
      rw [Bool.false_or, clean_of_outlook h.outlook, mayStart_of_outlook h.outlook h.started]
      exact hd.waits hs
  · rw [hseries]
    exact h.curves.trans (Series.sameButLast_replace _ _)

theorem Echo.importAll {samples : List History.Sample} (h : p.Echo q)
    (hd : ∀ s ∈ samples, Delivered importing p s ∧ p.series.lastLabel? = some s.time) :
    p.Echo (q.importAll importing samples).2 := by
  induction samples generalizing q with
  | nil => exact h
  | cons s rest ih =>
    rw [importAll_cons]
    obtain ⟨hs, ht⟩ := hd s List.mem_cons_self
    exact ih (h.take hs ht) fun x hx => hd x (List.mem_cons_of_mem _ hx)

/-! ## Settled filters -/

/-- The filter of a channel leaves a value as it is: there is none, it does not filter, or it is
the value that the channel remembers. -/
def Settled (p : Chart) (c : Channel) (x : Binary64) : Prop :=
  x.isFinite = false ∨ (c.isHashrate = true ∧ p.config.guard.spikeGuard = false) ∨
    (p.guard.memory.get c).prev = some x

/-- What goes into a filter is finite or a gap. -/
theorem entering_eq_nan (importing : Bool) (p : Chart) (s : History.Sample) (c : Channel)
    (h : ((p.entering importing s).get c).isFinite = false) : (p.entering importing s).get c = .nan := by
  rw [entering_get] at h ⊢
  split at h
  · next hc => rw [if_pos hc]
  · next hc =>
    rw [if_neg hc]
    rw [clean, PerChannel.get_ofFn] at h ⊢
    rcases Sanitize.sample_cases p.config.sanitize c (s.values.get c) with hs | ⟨hs, hx⟩
    · exact hs
    · rw [hs, hx] at h
      cases h

variable {t : Int} {x : Binary64}

/-- A filter that is settled on a value afterwards has given that value. -/
theorem value_of_settled (hp : p.guard.tuning = .ofConfig p.config.guard.cfg)
    (hx : x.isFinite = false → x = .nan)
    (h : x.isFinite = false ∨ (c.isHashrate = true ∧ p.config.guard.spikeGuard = false) ∨
      (p.filterValue t c x).memory.prev = some x) : (p.filterValue t c x).value = x := by
  rcases p.filterValue_cases t c x with
    ⟨hn, hv, -⟩ | ⟨-, hv, -⟩ | ⟨hf, hg, threshold, live, confirm, -, hs⟩
  · rw [hv, hx hn]
  · exact hv
  · rcases h with hn | ⟨hc, hoff⟩ | hprev
    · rw [hf] at hn; cases hn
    · rw [hg hc] at hoff; cases hoff
    · have hmem := hs ▸ Guard.sample_remembers hp
      exact Option.some.inj (hmem.symm.trans hprev)

/-- A settled filter remembers what it has remembered. -/
theorem Settled.prev (hp : p.guard.tuning = .ofConfig p.config.guard.cfg) (h : p.Settled c x) :
    (p.filterValue t c x).memory.prev = (p.guard.memory.get c).prev := by
  rcases p.filterValue_cases t c x with
    ⟨-, -, hm⟩ | ⟨-, -, hm⟩ | ⟨hf, hg, threshold, live, confirm, -, hs⟩
  · rw [hm]
  · rw [hm]
  · rcases h with hn | ⟨hc, hoff⟩ | hprev
    · rw [hf] at hn; cases hn
    · rw [hg hc] at hoff; cases hoff
    · have hmem := hs ▸ Guard.sample_remembers hp
      have hsame := hs ▸ Guard.sample_of_same hp hprev
      exact hmem.trans ((congrArg some hsame).trans hprev.symm)

theorem config_of_outlook (h : q.outlook = p.outlook) : q.config = p.config := congrArg Prod.fst h

theorem Settled.congr (h : p.Settled c x) (hc : q.config = p.config)
    (hm : (q.guard.memory.get c).prev = (p.guard.memory.get c).prev) : q.Settled c x := by
  unfold Settled
  rw [hc, hm]
  exact h

theorem offer_tuning (hp : p.guard.tuning = .ofConfig p.config.guard.cfg) :
    (p.offer importing s).2.guard.tuning = .ofConfig (p.offer importing s).2.config.guard.cfg := by
  rw [offer_eq]; exact hp

/-- A sample on which a filter is settled afterwards was stored as it came. -/
theorem filtered_of_settled (hp : p.guard.tuning = .ofConfig p.config.guard.cfg)
    (h : (p.stored importing s).Settled c ((p.entering importing s).get c)) :
    (p.filtered importing s).1.get c = (p.entering importing s).get c := by
  have hc : (p.offer importing s).2.config = (p.stored importing s).config := by
    rw [config_of_outlook stored_outlook, offer_eq]
  rw [filtered_get]
  refine value_of_settled (offer_tuning hp) (entering_eq_nan importing p s c) ?_
  rw [hc, ← stored_memory]
  exact h

/-- A sample on which a filter is settled changes nothing of what it remembers. -/
theorem stored_prev (hp : p.guard.tuning = .ofConfig p.config.guard.cfg)
    (h : p.Settled c ((p.entering importing s).get c)) :
    ((p.stored importing s).guard.memory.get c).prev = (p.guard.memory.get c).prev := by
  have hm : (p.offer importing s).2.guard = p.guard := by rw [offer_eq]
  have hs : (p.offer importing s).2.Settled c ((p.entering importing s).get c) :=
    h.congr (by rw [offer_eq]) (by rw [hm])
  rw [stored_memory, hs.prev (offer_tuning hp), hm]

/-- What a sample offered when it was stored it offers again. -/
theorem entering_stored (hl : p.warmup.isLocked = false) (hr : p.showsRestart s = false) :
    (p.stored importing s).entering importing s = p.entering importing s := by
  have hd : Delivered importing (p.stored importing s) s := .of_stored hl hr
  have hw : ((p.stored importing s).offer importing s).2.startup.started =
      (p.offer importing s).2.startup.started := by
    rw [offer_started, ← stored_started]
    cases hs : (p.stored importing s).startup.started with
    | true => rfl
    | false => rw [Bool.false_or, hd.waits hs]
  refine PerChannel.ext_get fun c => ?_
  rw [entering_get, entering_get, hw, clean_of_outlook stored_outlook]

/-- Samples on which a filter is settled leave what it remembers. -/
theorem Echo.importAll_prev {samples : List History.Sample} (h : p.Echo q)
    (hp : p.guard.tuning = .ofConfig p.config.guard.cfg)
    (hm : (q.guard.memory.get c).prev = (p.guard.memory.get c).prev)
    (hd : ∀ s ∈ samples, Delivered importing p s ∧ p.series.lastLabel? = some s.time)
    (hc : ∀ s ∈ samples, p.Settled c ((p.entering importing s).get c)) :
    ((q.importAll importing samples).2.guard.memory.get c).prev = (p.guard.memory.get c).prev := by
  induction samples generalizing q with
  | nil => exact hm
  | cons s rest ih =>
    rw [importAll_cons]
    obtain ⟨hs, ht⟩ := hd s List.mem_cons_self
    refine ih (h.take hs ht) ?_ (fun x hx => hd x (List.mem_cons_of_mem _ hx))
      fun x hx => hc x (List.mem_cons_of_mem _ hx)
    have hq : q.guard.tuning = .ofConfig q.config.guard.cfg := by
      rw [h.tuning, hp, config_of_outlook h.outlook]
    have hset : q.Settled c ((q.entering importing s).get c) := by
      rw [entering_of_outlook h.outlook h.started]
      exact (hc s List.mem_cons_self).congr (config_of_outlook h.outlook) hm
    rw [(h.take_eq hs ht).1, stored_prev hq hset, hm]

/-! ## The same batch twice -/

theorem importSamples_of_locked (importing : Bool) (samples : List History.Sample)
    (hl : p.warmup.isLocked = true) (hb : p.warmup.breakPending = false) :
    (p.importSamples importing samples).2.series = p.series := by
  cases hf : samples.filter p.accepts with
  | nil => rw [importSamples_of_nil hf]
  | cons s rest =>
    rw [importSamples_of_cons hf, opened_of_not_pending hb, series_importAll_of_locked importing _ hl]

/-- The samples of a second delivery that are new once more are those of the last time. -/
theorem accepts_again {samples : List History.Sample} {first : History.Sample} {rest : List History.Sample}
    (hf : samples.filter p.accepts = first :: rest) (hm : q.historyMin = p.historyMin)
    (hd : ∀ s ∈ first :: rest, Delivered importing q s) :
    samples.filter q.accepts = (first :: rest).filter q.accepts ∧
      ∀ s ∈ samples.filter q.accepts, Delivered importing q s ∧ q.series.lastLabel? = some s.time := by
  have hfirst : p.accepts first = true :=
    (List.mem_filter.mp (hf ▸ List.mem_cons_self : first ∈ samples.filter p.accepts)).2
  obtain ⟨last, hlast, hle⟩ := (hd first List.mem_cons_self).placed
  have hboth : ∀ s ∈ samples, q.accepts s = true → p.accepts s = true := by
    intro s _ hq
    rw [accepts_iff] at hq hfirst ⊢
    refine ⟨fun before hb => ?_, fun least hl => hq.2 least (hm.trans hl)⟩
    have := hfirst.1 before hb
    have := hq.1 last hlast
    have := q.le_lifted first.time
    omega
  have hfilter : samples.filter q.accepts = (first :: rest).filter q.accepts := by
    rw [← hf, List.filter_filter]
    refine List.filter_congr fun s hs => ?_
    cases hq : q.accepts s with
    | true => rw [hboth s hs hq]; rfl
    | false => rfl
  refine ⟨hfilter, fun s hmem => ?_⟩
  rw [hfilter] at hmem
  obtain ⟨hin, hq⟩ := List.mem_filter.mp hmem
  have hds := hd s hin
  obtain ⟨last', hlast', hle'⟩ := hds.placed
  rw [hlast] at hlast'
  cases hlast'
  have := (accepts_iff.mp hq).1 last hlast
  have := q.le_lifted s.time
  exact ⟨hds, hlast.trans (congrArg some (by omega))⟩

/-- The last of some samples in order is new when another one is. -/
theorem accepts_last {samples : List History.Sample} {last : History.Sample}
    (hs : (samples ++ [last]).Pairwise (·.time ≤ ·.time)) (hu : u ∈ samples ++ [last])
    (hq : q.accepts u = true) (hl : p.accepts last = true) (hm : q.historyMin = p.historyMin) :
    q.accepts last = true := by
  rw [accepts_iff] at hq hl ⊢
  refine ⟨fun before hb => ?_, fun least h => hl.2 least (hm.symm.trans h)⟩
  have hle : u.time ≤ last.time := by
    rcases List.mem_append.mp hu with hu | hu
    · exact (List.pairwise_append.mp hs).2.2 u hu last (List.mem_singleton.mpr rfl)
    · exact Int.le_of_eq (congrArg _ (List.mem_singleton.mp hu))
  exact Int.le_trans (hq.1 before hb) hle

/-- When some of the samples come again, the last one does so after the others. -/
theorem filter_accepts_last {samples : List History.Sample} (hs : samples.Pairwise (·.time ≤ ·.time))
    (hp : ∀ s ∈ samples, p.accepts s = true) (hm : q.historyMin = p.historyMin)
    (hne : samples.filter q.accepts ≠ []) : ∃ before last, samples = before ++ [last] ∧
      samples.filter q.accepts = before.filter q.accepts ++ [last] := by
  obtain ⟨u, hu⟩ := List.exists_mem_of_ne_nil _ hne
  obtain ⟨hmem, hq⟩ := List.mem_filter.mp hu
  obtain ⟨before, last, rfl⟩ : ∃ before last, samples = before ++ [last] :=
    ⟨_, _, (List.dropLast_concat_getLast (List.ne_nil_of_mem hmem)).symm⟩
  have hlast : q.accepts last = true := accepts_last hs hmem hq (hp last (by simp)) hm
  refine ⟨before, last, rfl, ?_⟩
  rw [List.filter_append, List.filter_cons, hlast]
  rfl

/-- The sample that was stored last and others of its time come again: a filter that is settled on
them gives the value that is there. -/
theorem data_again {last : History.Sample} {again : List History.Sample}
    (hp : p.guard.tuning = .ofConfig p.config.guard.cfg) (hl : p.warmup.isLocked = false)
    (hr : p.showsRestart last = false)
    (hd : ∀ s ∈ again ++ [last], Delivered importing (p.stored importing last) s ∧
      (p.stored importing last).series.lastLabel? = some s.time)
    (hc : ∀ s ∈ again ++ [last], (p.stored importing last).Settled c
      (((p.stored importing last).entering importing s).get c)) :
    ((p.stored importing last).importAll importing (again ++ [last])).2.series.data.get c =
      (p.stored importing last).series.data.get c := by
  have hlast : last ∈ again ++ [last] := by simp
  have hfirst : (p.filtered importing last).1.get c = (p.entering importing last).get c :=
    filtered_of_settled hp (entering_stored hl hr ▸ hc last hlast)
  have hdata := Series.replaceLast_upsert p.series (p.lifted last.time) (p.filtered importing last).1 c
  rw [← stored_series, hfirst, ← entering_stored hl hr] at hdata
  have hq : (p.stored importing last).guard.tuning = .ofConfig (p.stored importing last).config.guard.cfg := by
    rw [stored_tuning, hp, config_of_outlook stored_outlook]
  generalize p.stored importing last = q at hd hc hdata hq ⊢
  have hfront : ∀ s ∈ again, s ∈ again ++ [last] := fun s hs => List.mem_append_left _ hs
  have hecho : q.Echo (q.importAll importing again).2 :=
    (Echo.refl (hd last hlast).1.unlocked).importAll fun s hs => hd s (hfront s hs)
  have hprev := (Echo.refl (hd last hlast).1.unlocked).importAll_prev hq rfl
    (fun s hs => hd s (hfront s hs)) fun s hs => hc s (hfront s hs)
  rw [importAll_append, importAll_cons, importAll_nil]
  generalize (q.importAll importing again).2 = r at hecho hprev ⊢
  obtain ⟨-, hseries⟩ := hecho.take_eq (hd last hlast).1 (hd last hlast).2
  have hset : r.Settled c ((r.entering importing last).get c) := by
    rw [entering_of_outlook hecho.outlook hecho.started]
    exact (hc last hlast).congr (config_of_outlook hecho.outlook) hprev
  have hrt : r.guard.tuning = .ofConfig r.config.guard.cfg := by
    rw [hecho.tuning, hq, config_of_outlook hecho.outlook]
  have hagain : (r.filtered importing last).1.get c = (q.entering importing last).get c := by
    rw [← entering_of_outlook hecho.outlook hecho.started]
    exact filtered_of_settled hrt (hset.congr (config_of_outlook stored_outlook) (stored_prev hrt hset))
  rw [hseries, Series.replace, PerChannel.get_ofFn, hagain,
    Series.replaceLast_congr (hecho.curves.length c) (hecho.curves.front c), hdata]

/-- The samples of the last time come again to a chart that was not locked by them. -/
theorem data_importAll_again {before again : List History.Sample} {last : History.Sample}
    (hp : p.guard.tuning = .ofConfig p.config.guard.cfg)
    (hq : (p.importAll importing (before ++ [last])).2 = q) (hl : q.warmup.isLocked = false)
    (hd : ∀ s ∈ again ++ [last], Delivered importing q s ∧ q.series.lastLabel? = some s.time)
    (hc : ∀ s ∈ again ++ [last], q.Settled c ((q.entering importing s).get c)) :
    (q.importAll importing (again ++ [last])).2.series.data.get c = q.series.data.get c := by
  rw [importAll_append, importAll_cons, importAll_nil] at hq
  dsimp only at hq
  rw [← hq] at hl
  obtain ⟨hunlocked, hshows, htake⟩ := take_of_unlocked hl
  have htuning : (p.importAll importing before).2.guard.tuning =
      .ofConfig (p.importAll importing before).2.config.guard.cfg :=
    tuning_of_settings (settings_of_unimported (importAll_unimported p importing before)) hp
  rw [htake] at hq
  subst hq
  exact data_again htuning hunlocked hshows hd hc

/-- **A second delivery.** Samples that are imported a second time give at most the last row other
values, and none in a channel whose filter is settled on those that come to it again. -/
theorem importSamples_again (importing : Bool) (samples : List History.Sample)
    (hs : samples.Pairwise (·.time ≤ ·.time)) (hp : p.guard.tuning = .ofConfig p.config.guard.cfg) :
    let q := (p.importSamples importing samples).2
    let r := (q.importSamples importing samples).2
    q.series.SameButLast r.series ∧
      ∀ c, (∀ s ∈ samples, q.series.lastLabel? = some s.time →
        q.Settled c ((q.entering importing s).get c)) → r.series.data.get c = q.series.data.get c := by
  dsimp only
  generalize hq : (p.importSamples importing samples).2 = q
  generalize hr : (q.importSamples importing samples).2 = r
  have same (h : r.series = q.series) : q.series.SameButLast r.series ∧
      ∀ c, (∀ s ∈ samples, q.series.lastLabel? = some s.time →
        q.Settled c ((q.entering importing s).get c)) → r.series.data.get c = q.series.data.get c := by
    rw [h]; exact ⟨.refl _, fun _ _ => rfl⟩
  cases hf : samples.filter p.accepts with
  | nil =>
    rw [importSamples_of_nil hf] at hq
    rw [← hq, importSamples_of_nil hf] at hr
    exact same (by rw [← hr, ← hq])
  | cons first rest =>
    have hin : ∀ s ∈ first :: rest, s ∈ samples ∧ p.accepts s = true := fun s hs =>
      List.mem_filter.mp (hf ▸ hs)
    have hsorted : (first :: rest).Pairwise (·.time ≤ ·.time) := hf ▸ hs.sublist List.filter_sublist
    have hroom : ∀ s ∈ first :: rest, (p.opened first.time).Reaches s.time := fun s hs =>
      (reaches_of_accepts (hin s hs).2).opened _
    have hnew : samples.filter p.accepts ≠ [] := by
      rw [hf]
      exact List.cons_ne_nil _ _
    obtain ⟨hpend, hmin⟩ := importSamples_of_new importing hnew
    rw [hq] at hpend hmin
    rw [importSamples_of_cons hf] at hq
    cases hl : q.warmup.isLocked with
    | true => exact same (by rw [← hr, importSamples_of_locked importing samples hl hpend])
    | false =>
      have hd : ∀ s ∈ first :: rest, Delivered importing q s := by
        rw [← hq] at hl ⊢
        exact delivered_of_importAll hroom hsorted hl
      obtain ⟨hfilter, hagain⟩ := accepts_again hf hmin hd
      cases hg : samples.filter q.accepts with
      | nil => exact same (by rw [← hr, importSamples_of_nil hg])
      | cons u us =>
        rw [importSamples_of_cons hg, opened_of_not_pending hpend] at hr
        have hne : (first :: rest).filter q.accepts ≠ [] := by
          rw [← hfilter, hg]
          exact List.cons_ne_nil _ _
        obtain ⟨before, last, hsplit, hlast⟩ :=
          filter_accepts_last hsorted (fun s hs => (hin s hs).2) hmin hne
        rw [← hfilter, hg] at hlast
        have hmem : ∀ s ∈ u :: us, s ∈ samples := fun s hs => (List.mem_filter.mp (hg ▸ hs)).1
        rw [hg] at hagain
        refine ⟨?_, fun c hc => ?_⟩
        · rw [← hr]
          exact ((Echo.refl hl).importAll hagain).curves
        · have htuning := tuning_of_settings (settings_of_unimported (opened_unimported p first.time)) hp
          rw [hsplit] at hq
          rw [hlast] at hagain hmem hr
          rw [← hr]
          exact data_importAll_again htuning hq hl hagain fun s hs => hc s (hmem s hs) (hagain s hs).2

/-- **A batch that is delivered again.** After any run, importing a batch a second time right after
the first time leaves all labels and all values but those of the last sample. These it leaves in a
channel whose filter is settled on the samples of that time. -/
theorem importBatch_again (h : Reachable p) (batch : Option HistoryBatch) (importing : Bool) :
    let q := p.after (.importBatch batch importing)
    let r := q.after (.importBatch batch importing)
    q.series.SameButLast r.series ∧
      ∀ c, (∀ s ∈ History.samples batch, q.series.lastLabel? = some s.time →
        q.Settled c ((q.entering importing s).get c)) → r.series.data.get c = q.series.data.get c := by
  simp only [after_importBatch]
  cases hd : History.decode batch with
  | error e =>
    simp only [imported_of_error hd]
    exact ⟨.refl _, fun _ _ => trivial⟩
  | ok samples =>
    simp only [imported_of_ok hd, History.samples_of_ok hd]
    exact importSamples_again importing samples (History.decode_pairwise hd) h.tuning

/-- A step of the 10m hashrate by a tenth in the last sample. -/
def stepBatch : HistoryBatch :=
  ⟨0, [10, 20], { PerChannel.replicate [6000, 6000] with hashrate10m := [6000, 6600] }⟩

/-- The samples of such a step. -/
def stepSamples : List History.Sample :=
  let values : PerChannel Binary64 := .ofFn fun c => if c.isHashrate then 60000000000 else 60
  [⟨10000, values⟩, ⟨20000, { values with hashrate10m := 66000000000 }⟩]

theorem decode_stepBatch : History.decode (some stepBatch) = .ok stepSamples :=
  History.decode_of_rows (by decide +kernel) (by decide +kernel) (by simp [stepSamples])

/-- The temperatures of a step come again as they are. -/
theorem temperature_of_step_again :
    let q := (Chart.new {} none).after (.importBatch (some stepBatch) true)
    let r := q.after (.importBatch (some stepBatch) true)
    (∀ s ∈ History.samples (some stepBatch), q.series.lastLabel? = some s.time →
      q.Settled .vregTemp ((q.entering true s).get .vregTemp)) ∧
    r.series.data.get .vregTemp = q.series.data.get .vregTemp := by
  intro q r
  have hq : q = ((Chart.new {} none).importSamples true stepSamples).2 := by
    show (Chart.new {} none).after _ = _
    rw [after_importBatch, imported_of_ok decode_stepBatch]
  have hset : ∀ s ∈ History.samples (some stepBatch), q.series.lastLabel? = some s.time →
      q.Settled .vregTemp ((q.entering true s).get .vregTemp) := by
    rw [History.samples_of_ok decode_stepBatch]
    intro s hs _
    refine .inr (.inr ?_)
    have hall : ∀ s ∈ stepSamples, (q.guard.memory.get .vregTemp).prev =
        some ((q.entering true s).get .vregTemp) := by rw [hq]; decide +kernel
    exact hall s hs
  exact ⟨hset, (importBatch_again (.new {} none) (some stepBatch) true).2 .vregTemp hset⟩

/-- A step that is held back counts again when it is delivered again: the value before is stored for
it first, and then the value of the step. -/
theorem not_importBatch_again_same :
    ¬ ∀ (p : Chart) (batch : Option HistoryBatch) (importing : Bool), Reachable p →
      ((p.after (.importBatch batch importing)).after (.importBatch batch importing)).series =
        (p.after (.importBatch batch importing)).series := by
  intro h
  have hsame := h (Chart.new {} none) (some stepBatch) true (.new {} none)
  simp only [after_importBatch, imported_of_ok decode_stepBatch] at hsame
  have hheld : ((Chart.new {} none).importSamples true stepSamples).2.series.data.hashrate10m =
      [60000000000, 60000000000] := by decide +kernel
  have hgiven : (((Chart.new {} none).importSamples true stepSamples).2.importSamples true
      stepSamples).2.series.data.hashrate10m = [60000000000, 66000000000] := by decide +kernel
  rw [hsame, hheld] at hgiven
  exact absurd hgiven (by decide +kernel)

end Chart

end HashrateChart
