/-
Where the values of the curves come from. A value that is stored for a sample is
plausible, for the samples were checked and a filter gives a sample or one that it
gave before. Only the first value of a channel can be another: the live hashrate of
a poll, or a zero for a sample that the filter itself finds out of range.

What a filter gave last it may give again, so the invariant is about the memories of
the filters as much as about the curves.
-/
import HashrateChart.Proofs.Chart.Values

namespace HashrateChart

namespace Series

variable {s : Series} {t : Int} {row : PerChannel Binary64} {c : Channel} {v : Binary64}

theorem mem_replaceLast {β : Type} {xs : List β} {x y : β} (h : y ∈ replaceLast xs x) : y ∈ xs ∨ y = x := by
  unfold replaceLast at h
  split at h
  · cases h
  · rcases List.mem_append.mp h with hy | hy
    · exact .inl ((List.dropLast_sublist xs).subset hy)
    · exact .inr (List.mem_singleton.mp hy)

theorem mem_append (h : v ∈ (s.append t row).data.get c) : v ∈ s.data.get c ∨ v = row.get c := by
  simp only [append, PerChannel.get_ofFn] at h
  rcases List.mem_append.mp h with hv | hv
  · exact .inl hv
  · exact .inr (List.mem_singleton.mp hv)

theorem mem_upsert (h : v ∈ (s.upsert t row).data.get c) : v ∈ s.data.get c ∨ v = row.get c := by
  unfold upsert at h
  split at h
  · simp only [replace, PerChannel.get_ofFn] at h
    exact mem_replaceLast h
  · exact mem_append h

theorem mem_insertBreak (h : v ∈ (s.insertBreak t).2.data.get c) : v ∈ s.data.get c ∨ v = .nan := by
  by_cases ht : t ≤ 0
  · rw [insertBreak_of_le ht] at h
    exact .inl h
  · rw [insertBreak_of_pos (by omega)] at h
    have hv := mem_append h
    rw [PerChannel.get_replicate] at hv
    exact hv

theorem mem_trim {now window : Int} (h : v ∈ (s.trim now window).2.data.get c) : v ∈ s.data.get c := by
  simp only [trim, PerChannel.get_map] at h
  exact List.mem_of_mem_drop h

theorem not_mem_empty : ¬ v ∈ empty.data.get c := by
  unfold empty
  rw [PerChannel.get_replicate]
  exact List.not_mem_nil

end Series

/-! ## Plausible values -/

/-- The value is not below a limit; a limit that is no number limits nothing. -/
def IsAtLeast (least x : Binary64) : Prop := least.isNaN = true ∨ least.le x = true

/-- The value is not above a limit; a limit that is no number limits nothing. -/
def IsAtMost (most x : Binary64) : Prop := most.isNaN = true ∨ x.le most = true

theorem isAtLeast_of_not_lt {least x : Binary64} (hx : x.isFinite = true) (h : x.lt least = false) :
    IsAtLeast least x := by
  cases hn : least.isNaN with
  | true => exact .inl hn
  | false => exact .inr (Binary64.le_of_not_lt (Binary64.isNaN_of_isFinite hx) hn h)

theorem isAtMost_of_not_lt {most x : Binary64} (hx : x.isFinite = true) (h : most.lt x = false) :
    IsAtMost most x := by
  cases hn : most.isNaN with
  | true => exact .inl hn
  | false => exact .inr (Binary64.le_of_not_lt hn (Binary64.isNaN_of_isFinite hx) h)

namespace Sanitize

/-- The value is one that a device of the configured range can have in a channel. -/
def Plausible (cfg : SanitizeConfig) (c : Channel) (x : Binary64) : Prop :=
  if c.isHashrate then IsAtLeast cfg.hashrateMin x
  else IsAtLeast cfg.tempMin x ∧ IsAtMost cfg.tempMax x

theorem plausible_sample {cfg : SanitizeConfig} {c : Channel} {x : Binary64}
    (h : (sample cfg c x).isFinite = true) : Plausible cfg c (sample cfg c x) := by
  unfold Plausible
  unfold sample hashrate temperature at h ⊢
  split
  · next hc =>
    rw [if_pos hc] at h
    split at h
    · cases h
    · next hn =>
      simp only [Bool.or_eq_true, Bool.not_eq_true', not_or, Bool.not_eq_true, Bool.not_eq_false] at hn
      rw [if_neg (by simp [hn.1, hn.2])]
      exact isAtLeast_of_not_lt hn.1 hn.2
  · next hc =>
    rw [if_neg hc] at h
    split at h
    · cases h
    · next hn =>
      simp only [Bool.or_eq_true, Bool.not_eq_true', not_or, Bool.not_eq_true, Bool.not_eq_false] at hn
      rw [if_neg (by simp [hn.1.1, hn.1.2, hn.2])]
      exact ⟨isAtLeast_of_not_lt hn.1.1 hn.1.2, isAtMost_of_not_lt hn.1.1 hn.2⟩

end Sanitize

/-! ## Where values come from -/

/-- A poll of the calls has given a live hashrate. -/
def Polled (calls : List Call) (x : Binary64) : Prop :=
  Binary64.zero.lt x = true ∧ ∃ now info, .observe now info ∈ calls ∧ info.liveHashrate = x

/-- A sample of the calls has a plausible value that its filter finds out of range. -/
def OutOfRange (config : Config) (calls : List Call) (c : Channel) : Prop :=
  ∃ call ∈ calls, ∃ s ∈ call.samples,
    (Sanitize.sample config.sanitize c (s.values.get c)).isFinite = true ∧
      Guard.inRange config.guard.cfg c (Sanitize.sample config.sanitize c (s.values.get c)) = false

/-- What a value of a channel can be: a plausible one, the live hashrate of a poll, or the zero that
stands for a sample out of the range of the filter. -/
def Explained (config : Config) (calls : List Call) (c : Channel) (x : Binary64) : Prop :=
  Sanitize.Plausible config.sanitize c x ∨ (c.isHashrate = true ∧ Polled calls x) ∨
    (x = 0 ∧ OutOfRange config calls c)

namespace Chart

variable {p q : Chart} {runs importing : Bool} {s : History.Sample} {config : Config}
  {calls : List Call} {c : Channel}

/-- All values of the curves and all that the filters gave last are explained. -/
structure Accounted (config : Config) (calls : List Call) (p : Chart) : Prop where
  config_eq : p.config = config
  live : ∀ x, p.live = some x → Polled calls x
  prev : ∀ c x, (p.guard.memory.get c).prev = some x → Explained config calls c x
  curves : ∀ c, ∀ x ∈ p.series.data.get c, x.isFinite = true → Explained config calls c x

namespace Accounted

theorem new (config : Config) (storage : Option Storage) (calls : List Call) :
    Accounted config calls (Chart.new config storage) where
  config_eq := rfl
  live _ h := by cases h
  prev c x h := by
    simp only [Chart.new, Guard.new, PerChannel.get_replicate] at h
    cases h
  curves c x h := absurd h Series.not_mem_empty

theorem congr (h : p.Accounted config calls) (hc : q.config = p.config) (hl : q.live = p.live)
    (hm : q.guard.memory = p.guard.memory) (hs : q.series = p.series) : q.Accounted config calls where
  config_eq := hc.trans h.config_eq
  live := hl ▸ h.live
  prev := hm ▸ h.prev
  curves := hs ▸ h.curves

/-- What is forgotten needs no explanation. -/
theorem reset (h : p.Accounted config calls) (hc : q.config = p.config) (hl : q.live = p.live)
    (hg : q.guard = p.guard.reset)
    (hs : ∀ c, ∀ x ∈ q.series.data.get c, x.isFinite = true → x ∈ p.series.data.get c) :
    q.Accounted config calls where
  config_eq := hc.trans h.config_eq
  live := hl ▸ h.live
  prev c x hx := by
    simp only [hg, Guard.reset, PerChannel.get_replicate] at hx
    cases hx
  curves c x hx hfin := h.curves c x (hs c x hx hfin) hfin

theorem insertBreak (h : p.Accounted config calls) (t : Int) : (p.insertBreak t).Accounted config calls := by
  refine h.reset (by rw [insertBreak_eq]) (by rw [insertBreak_eq]) (by rw [insertBreak_eq]) ?_
  intro c x hx hfin
  rw [series_insertBreak] at hx
  rcases Series.mem_insertBreak hx with hx | rfl
  · exact hx
  · cases hfin

/-! ## Filtering -/

/-- What is stored for a plausible value is explained, and so is what the filter gave last. -/
theorem filterValue (h : p.Accounted config calls) (hp : p.Healthy runs) (t : Int) {x : Binary64}
    (hx : x.isFinite = true → Sanitize.Plausible config.sanitize c x ∧
      (Guard.inRange config.guard.cfg c x = false → OutOfRange config calls c)) :
    ((p.filterValue t c x).value.isFinite = true → Explained config calls c (p.filterValue t c x).value) ∧
      ∀ y, (p.filterValue t c x).memory.prev = some y → Explained config calls c y := by
  rcases p.filterValue_cases t c x with
    ⟨-, hv, hm⟩ | ⟨hfin, hv, hm⟩ | ⟨hfin, -, threshold, live, confirm, hlive, hs⟩
  · rw [hv, hm]
    exact ⟨fun hn => (by cases hn), h.prev c⟩
  · rw [hv, hm]
    exact ⟨fun _ => .inl (hx hfin).1, h.prev c⟩
  · have hgiven : (p.filterValue t c x).value = (p.guard.sample c x threshold live confirm).1 :=
      congrArg Prod.fst hs
    have hmemory : (p.filterValue t c x).memory = (p.guard.sample c x threshold live confirm).2 :=
      congrArg Prod.snd hs
    have horigin := Guard.sample_origin hp.tuning (hp.memory c) x threshold live confirm
    have hprev : (p.filterValue t c x).memory.prev = some (p.filterValue t c x).value := by
      rw [hmemory, hgiven]
      exact Guard.sample_remembers hp.tuning
    rw [← hgiven] at horigin
    have hvalue : Explained config calls c (p.filterValue t c x).value := by
      rcases horigin with hv | hv | ⟨hr, hv⟩ | ⟨hc, hv⟩
      · rw [hv]
        exact .inl (hx hfin).1
      · exact h.prev c _ hv
      · rw [h.config_eq] at hr
        exact .inr (.inr ⟨hv, (hx hfin).2 hr⟩)
      · rcases hlive with hn | hl
        · rw [hn] at hv
          cases hv
        · exact .inr (.inl ⟨hc, h.live _ (hl ▸ hv)⟩)
    refine ⟨fun _ => hvalue, fun y hy => ?_⟩
    rw [hprev] at hy
    cases hy
    exact hvalue

/-! ## Samples -/

theorem offer (h : p.Accounted config calls) (importing : Bool) (s : History.Sample) :
    (p.offer importing s).2.Accounted config calls := by
  rw [offer_eq]
  exact h.congr rfl rfl rfl rfl

/-- A value that goes into its filter is one of the sample, and plausible. -/
theorem entering (h : p.Accounted config calls) (importing : Bool)
    (hs : ∃ call ∈ calls, s ∈ call.samples) (c : Channel)
    (hfin : ((p.entering importing s).get c).isFinite = true) :
    Sanitize.Plausible config.sanitize c ((p.entering importing s).get c) ∧
      (Guard.inRange config.guard.cfg c ((p.entering importing s).get c) = false →
        OutOfRange config calls c) := by
  rw [entering_get] at hfin ⊢
  split at hfin
  · cases hfin
  · next hon =>
    rw [if_neg hon]
    have hclean : (p.clean s).get c = Sanitize.sample config.sanitize c (s.values.get c) := by
      rw [clean, PerChannel.get_ofFn, h.config_eq]
    rw [hclean] at hfin ⊢
    obtain ⟨call, hcall, hmem⟩ := hs
    exact ⟨Sanitize.plausible_sample hfin, fun hr => ⟨call, hcall, s, hmem, hfin, hr⟩⟩

theorem take (h : p.Accounted config calls) (hp : p.Healthy runs) (importing : Bool)
    (hs : ∃ call ∈ calls, s ∈ call.samples) : (p.take importing s).Accounted config calls := by
  unfold Chart.take
  rcases p.importSample_cases importing s with ⟨-, hi⟩ | ⟨-, -, hi⟩ | ⟨-, -, hi⟩ <;> rw [hi]
  · exact h.congr rfl rfl rfl rfl
  · have hr : (p.relocked importing s).Accounted config calls := (h.offer importing s).congr rfl rfl rfl rfl
    exact (hr.insertBreak _).congr rfl rfl rfl rfl
  · have hfiltered := fun c => (h.offer importing s).filterValue (hp.offer importing s)
      (p.lifted s.time) (h.entering importing hs c)
    have hrest : (p.filtered importing s).2.config = p.config ∧
        (p.filtered importing s).2.live = p.live := by
      rw [filtered_eq]
      exact ⟨rfl, rfl⟩
    refine ⟨hrest.1.trans h.config_eq, hrest.2 ▸ h.live, fun c x hx => ?_, fun c x hx hfin => ?_⟩
    · have hx : ((p.filtered importing s).2.guard.memory.get c).prev = some x := hx
      rw [filtered_memory] at hx
      exact (hfiltered c).2 x hx
    · have hx : x ∈ ((p.filtered importing s).2.series.upsert (p.lifted s.time)
          (p.filtered importing s).1).data.get c := hx
      rw [filtered_series] at hx
      rcases Series.mem_upsert hx with hx | rfl
      · exact h.curves c x hx hfin
      · rw [filtered_get] at hfin ⊢
        exact (hfiltered c).1 hfin

/-! ## Batches and other calls -/

theorem opened (h : p.Accounted config calls) (t : Int) : (p.opened t).Accounted config calls := by
  cases hb : p.warmup.breakPending with
  | true =>
    rw [opened_of_pending hb]
    have hq : ({ p with warmup := p.warmup.consumeBreak.2 } : Chart).Accounted config calls :=
      h.congr rfl rfl rfl rfl
    exact hq.insertBreak _
  | false =>
    rw [opened_of_not_pending hb]
    exact h

theorem imported (h : p.Accounted config calls) (hp : p.Healthy runs) {batch : Option HistoryBatch}
    (importing : Bool) (hs : ∀ s ∈ History.samples batch, ∃ call ∈ calls, s ∈ call.samples) :
    (p.imported batch importing).Accounted config calls := by
  -- a sample is filtered with the settings that the chart has kept so far
  have hboth : (∃ runs, (p.imported batch importing).Healthy runs) ∧
      (p.imported batch importing).Accounted config calls := by
    refine imported_induction (I := fun q => (∃ runs, q.Healthy runs) ∧ q.Accounted config calls)
      ⟨⟨_, hp⟩, h⟩ (fun t => ⟨⟨_, (hp.opened t).2⟩, h.opened t⟩) ?_
    rintro q s hmem - ⟨⟨runs, hq⟩, ha⟩
    exact ⟨⟨_, (hq.take importing s).2⟩, ha.take hq importing (hs s hmem)⟩
  exact hboth.2

theorem dropped (h : p.Accounted config calls) : p.dropCurves.Accounted config calls :=
  h.reset rfl rfl rfl fun _ _ hx => absurd hx Series.not_mem_empty

theorem observe (h : p.Accounted config calls) {now : Int} {info : SystemInfo}
    (hmem : .observe now info ∈ calls) : (p.observe now info).Accounted config calls where
  config_eq := by
    rw [observe_eq]
    exact h.config_eq
  live x hx := by
    have hlive : (p.observe now info).live =
        if Binary64.zero.lt info.liveHashrate then some info.liveHashrate else none := by
      unfold Chart.observe unlock
      dsimp only
      split <;> rfl
    rw [hlive] at hx
    split at hx
    · next hpos =>
      cases hx
      exact ⟨hpos, now, info, hmem, rfl⟩
    · cases hx
  prev := by
    rw [observe_eq]
    simp only [observeLive_memory]
    exact h.prev
  curves := by
    rw [observe_eq]
    exact h.curves

theorem effect (h : p.Accounted config calls) (hp : p.Healthy runs) {call : Call} (hcall : call ∈ calls) :
    (p.effect call).Accounted config calls := by
  cases call with
  | observe now info => exact h.observe hcall
  | importBatch batch importing => exact h.imported hp importing fun s hs => ⟨_, hcall, hs⟩
  | reload batch =>
    have hs : ∀ s ∈ History.samples batch, ∃ call ∈ calls, s ∈ call.samples :=
      fun s hs => ⟨_, hcall, hs⟩
    rw [Chart.effect]
    split
    · have hq : p.emptied.Accounted config calls := h.dropped.congr rfl rfl rfl rfl
      exact hq.imported hp.emptied true hs
    · exact h.imported hp true hs
  | commit now clock persist =>
    exact ⟨h.config_eq, h.live, h.prev, fun c x hx => h.curves c x (Series.mem_trim hx)⟩
  | clear now => exact h.dropped.congr rfl rfl rfl rfl
  | frame now window visibility => exact h.congr rfl rfl rfl rfl
  | pollDeferred now =>
    rw [Chart.effect, pollDeferred_eq]
    exact h.congr rfl rfl rfl rfl
  | takeReload => exact h.congr rfl rfl rfl rfl

end Accounted

end Chart

end HashrateChart
