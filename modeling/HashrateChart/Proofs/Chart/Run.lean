/-
Runs of a chart: the calls that are made of it, in any order, and the charts
that they lead to.

`Chart.effect` says what a call does in memory, without the storage. Whatever
the storage holds and however often it fails, a call leaves what its effect
says, and only the storage can differ (`after_eq`).
-/
import HashrateChart.Chart.Frame
import HashrateChart.Chart.Keep
import HashrateChart.Chart.Live
import HashrateChart.Proofs.Action
import HashrateChart.Proofs.Chart.Import
import HashrateChart.Proofs.History
import HashrateChart.Proofs.Warmup

namespace HashrateChart

/-- Something that is asked of a chart. -/
inductive Call where
  | observe (now : Int) (info : SystemInfo)
  | importBatch (batch : Option HistoryBatch) (importing : Bool)
  | reload (batch : Option HistoryBatch)
  | commit (now clock : Int) (persist : Bool)
  | clear (now : Int)
  | frame (now : Int) (window : Json) (visibility : Option (List Bool))
  | pollDeferred (now : Int)
  | takeReload

/-- The samples that a call brings. -/
def Call.samples : Call → List History.Sample
  | .importBatch batch _ | .reload batch => History.samples batch
  | _ => []

namespace Chart

open HashrateChart.Action (Keeps)

/-- What a call does, without its answer. -/
def act : Call → Action Chart Unit
  | .observe now info => modify fun p => p.observe now info
  | .importBatch batch importing => discard (importBatch batch importing)
  | .reload batch => discard (reloadBatch batch)
  | .commit now clock persist => commit now clock persist
  | .clear now => clear now
  | .frame now window visibility => discard (frame now window visibility)
  | .pollDeferred now => modify fun p => (p.pollDeferred now).2
  | .takeReload => modify fun p => p.takeReload.2

/-- The chart that a call leaves, also one that fails. -/
def after (p : Chart) (call : Call) : Chart := ((act call).runOn p).2

/-- The chart that a run of calls leaves. -/
def afterAll (p : Chart) (calls : List Call) : Chart := calls.foldl after p

@[simp] theorem afterAll_nil (p : Chart) : p.afterAll [] = p := rfl

@[simp] theorem afterAll_cons (p : Chart) (call : Call) (calls : List Call) :
    p.afterAll (call :: calls) = (p.after call).afterAll calls := rfl

/-- A chart that some run leads to: a new one over any storage, with the stored curves taken back
at any time, and any calls. -/
inductive Reachable : Chart → Prop
  | new (config : Config) (storage : Option Storage) : Reachable (.new config storage)
  | load {p : Chart} : Reachable p → Reachable (load.runOn p).2
  | call {p : Chart} (call : Call) : Reachable p → Reachable (p.after call)

theorem Reachable.afterAll {p : Chart} (h : Reachable p) (calls : List Call) :
    Reachable (p.afterAll calls) := by
  induction calls generalizing p with
  | nil => exact h
  | cons call calls ih => exact ih (h.call call)

/-! ## Effects in memory -/

/-- The chart after a batch; one that cannot be read changes nothing. -/
def imported (p : Chart) (batch : Option HistoryBatch) (importing : Bool) : Chart :=
  match History.decode batch with
  | .ok samples => (p.importSamples importing samples).2
  | .error _ => p

/-- Whether a reload replaces the curves. -/
def isReplacedBy (p : Chart) (batch : Option HistoryBatch) : Bool :=
  match batch, History.oldest batch with
  | some b, .ok oldest =>
    !b.times.isEmpty &&
      match p.series.labels.head? with
      | some first => isLonger oldest first
      | none => true
  | _, _ => false

/-- The curves dropped for a longer history. -/
def emptied (p : Chart) : Chart := { p.dropCurves with historyMin := none }

/-- The curves dropped for good. -/
def cleared (p : Chart) (now : Int) : Chart :=
  { p.dropCurves with
    tempMemory := none
    historyMin := some (.int (now - seedMargin))
    lastSeen := some (now - seedMargin) }

/-- What a call does to all but the storage. -/
def effect (p : Chart) : Call → Chart
  | .observe now info => p.observe now info
  | .importBatch batch importing => p.imported batch importing
  | .reload batch => (if p.isReplacedBy batch then p.emptied else p).imported batch true
  | .commit now _ _ => p.trim now
  | .clear now => p.cleared now
  | .frame now window visibility =>
    { p with tempMemory := ((frame now window visibility).runOn p).2.tempMemory }
  | .pollDeferred now => (p.pollDeferred now).2
  | .takeReload => p.takeReload.2

/-- A live poll touches no curve, nothing planned and nothing seen. -/
theorem observe_eq (p : Chart) (now : Int) (info : SystemInfo) :
    p.observe now info =
      { p with
        guard := p.guard.observeLive info.liveHashrate
        live := (p.observe now info).live
        expected := (p.observe now info).expected
        startup := (p.observe now info).startup
        warmup := (p.observe now info).warmup } := by
  unfold observe unlock
  dsimp only
  split <;> rfl

/-- A live poll locks a chart that is ready and leaves a gap pending, or it leaves the pending gap
as it was. -/
theorem observe_warmup (p : Chart) (now : Int) (info : SystemInfo) :
    (p.warmup.stage = .ready ∧ (p.observe now info).warmup.stage ≠ .ready ∧
      (p.observe now info).warmup.breakPending = true) ∨
    (¬ (p.warmup.stage = .ready ∧ (p.observe now info).warmup.stage ≠ .ready) ∧
      (p.observe now info).warmup.breakPending = p.warmup.breakPending) := by
  have hw : ((p.noteHashrates info.liveHashrate info.expectedHashrate).unlock info.liveHashrate).warmup =
      p.warmup := by
    unfold unlock
    dsimp only
    split <;> rfl
  unfold observe
  dsimp only
  rw [hw]
  exact Warmup.poll_cases _ _ _ _ _ _

theorem pollDeferred_eq (p : Chart) (now : Int) :
    (p.pollDeferred now).2 = { p with reload := (p.pollDeferred now).2.reload } := by
  unfold pollDeferred
  split <;> rfl

/-! ## Storage stays aside -/

/-- The chart without its storage. -/
def unstored (p : Chart) : Chart := p.onto none

theorem unstored_onto (p : Chart) (storage : Option Storage) :
    (p.onto storage).unstored = p.unstored := rfl

theorem eq_onto_of_unstored {p q : Chart} (h : q.unstored = p.unstored) : q = p.onto q.storage := by
  cases p; cases q
  simp only [unstored, onto, Chart.mk.injEq, true_and] at h ⊢
  exact h

theorem imported_onto (p : Chart) (storage : Option Storage) (batch : Option HistoryBatch)
    (importing : Bool) :
    (p.onto storage).imported batch importing = (p.imported batch importing).onto storage := by
  unfold imported
  split
  · rw [importSamples_onto]
  · rfl

theorem onStorage_keeps {α γ : Type} {view : Chart → γ} (act : Action Storage α)
    (h : ∀ p storage, view (p.onto storage) = view p) : Keeps view (onStorage act) := by
  refine .bind .get fun p => ?_
  cases p.storage with
  | none => exact .pure _
  | some s => exact .bind (.modify fun p => h p _) fun _ => .bind (.liftM _) fun _ => .pure _

theorem onStorage_unstored {α : Type} (act : Action Storage α) : Keeps unstored (onStorage act) :=
  onStorage_keeps act fun _ _ => rfl

theorem importBatch_runOn (p : Chart) (batch : Option HistoryBatch) (importing : Bool) :
    ((importBatch batch importing).runOn p).2 = p.imported batch importing := by
  simp only [importBatch, Action.runOn_bind, Action.runOn_liftM, imported]
  cases History.decode batch <;> rfl

theorem commit_runOn (p : Chart) (now clock : Int) (persist : Bool) :
    ((commit now clock persist).runOn p).2.unstored = (p.trim now).unstored := by
  simp only [commit, Action.runOn_bind, Action.runOn_modify, Action.runOn_get]
  generalize p.trim now = q
  split
  · refine Keeps.bind (.liftM _) (fun _ => .bind ?_ fun _ => ?_) q
    · exact (onStorage_unstored _).map _
    · split
      · exact (onStorage_unstored _).map _
      · exact .pure _
  · rfl

theorem clear_runOn (p : Chart) (now : Int) :
    ((clear now).runOn p).2.unstored = (p.cleared now).unstored := by
  simp only [clear, Action.runOn_bind, Action.runOn_modify]
  exact (onStorage_unstored _).map _ _

/-- The chart without the temperature axis of its last picture. -/
def unframed (p : Chart) : Chart := { p with tempMemory := none }

theorem frame_keeps (now : Int) (window : Json) (visibility : Option (List Bool)) :
    Keeps unframed (frame now window visibility) := by
  refine .bind .get fun p => .bind (.liftM _) fun _ => .bind (.liftM _) fun _ => ?_
  refine .bind (.liftM _) fun scales => .bind (.modify fun _ => rfl) fun _ => ?_
  exact .bind (.liftM _) fun _ => .bind (.liftM _) fun _ => .bind (.liftM _) fun _ => .pure _

theorem frame_runOn (p : Chart) (now : Int) (window : Json) (visibility : Option (List Bool)) :
    ((frame now window visibility).runOn p).2 =
      { p with tempMemory := ((frame now window visibility).runOn p).2.tempMemory } := by
  have h := frame_keeps now window visibility p
  revert h
  generalize ((frame now window visibility).runOn p).2 = q
  intro h
  cases p; cases q
  simp only [unframed, Chart.mk.injEq, and_true] at h ⊢
  exact h

/-- An action on the storage fails only when the action itself does. -/
theorem onStorage_ok {α : Type} (act : Action Storage α) (h : ∀ s, ∃ a, (act.runOn s).1 = .ok a)
    (p : Chart) : ∃ a, ((onStorage act).runOn p).1 = .ok a := by
  simp only [onStorage, Action.runOn_bind, Action.runOn_get]
  cases p.storage with
  | none => exact ⟨none, rfl⟩
  | some s =>
    obtain ⟨a, ha⟩ := h s
    simp only [Action.runOn_bind, Action.runOn_modify, Action.runOn_liftM, ha]
    exact ⟨some a, rfl⟩

theorem imported_of_ok {p : Chart} {batch : Option HistoryBatch} {importing : Bool}
    {samples : List History.Sample} (h : History.decode batch = .ok samples) :
    p.imported batch importing = (p.importSamples importing samples).2 := by
  unfold imported; rw [h]

theorem imported_of_error {p : Chart} {batch : Option HistoryBatch} {importing : Bool} {e : Fault}
    (h : History.decode batch = .error e) : p.imported batch importing = p := by
  unfold imported; rw [h]

theorem imported_of_no_samples {p : Chart} {batch : Option HistoryBatch} {importing : Bool}
    (h : History.decode batch = .ok []) : p.imported batch importing = p := by
  rw [imported_of_ok h, importSamples_of_nil rfl]

/-- The same for a batch that may not be read. -/
theorem imported_induction {I : Chart → Prop} {p : Chart} {batch : Option HistoryBatch} {importing : Bool}
    (h : I p) (opened : ∀ t, I (p.opened t))
    (take : ∀ q, ∀ s ∈ History.samples batch, p.accepts s = true → I q → I (q.take importing s)) :
    I (p.imported batch importing) := by
  cases hd : History.decode batch with
  | error e =>
    rw [imported_of_error hd]
    exact h
  | ok samples =>
    rw [imported_of_ok hd]
    rw [History.samples_of_ok hd] at take
    exact importSamples_induction h opened take

/-- The last part of a reload: the curves and what is stored of them go, then a longer history is
imported. -/
def replaceBy (batch : Option HistoryBatch) : Action Chart Nat := do
  modify fun p => p.emptied
  discard <| onStorage (do
    Storage.clearSeries
    Storage.clearLast
    Storage.clearMin)
  importBatch batch true

theorem replaceBy_runOn (p : Chart) (batch : Option HistoryBatch) :
    ∃ storage, (replaceBy batch).runOn p = (importBatch batch true).runOn (p.emptied.onto storage) := by
  have hok := onStorage_ok (do
    Storage.clearSeries
    Storage.clearLast
    Storage.clearMin) (fun _ => ⟨(), rfl⟩) p.emptied
  have hkeep := onStorage_unstored (do
    Storage.clearSeries
    Storage.clearLast
    Storage.clearMin) p.emptied
  rw [replaceBy, Action.runOn_bind, Action.runOn_modify]
  dsimp only
  rw [Action.runOn_bind, Action.runOn_discard]
  revert hok hkeep
  generalize (onStorage _).runOn p.emptied = r
  rintro ⟨a, ha⟩ hkeep
  obtain ⟨r, q⟩ := r
  cases ha
  refine ⟨q.storage, ?_⟩
  rw [← eq_onto_of_unstored hkeep]
  rfl

theorem reloadBatch_of_no_times {b : HistoryBatch} (h : b.times.isEmpty = true) (p : Chart) :
    (reloadBatch (some b)).runOn p = (.ok 0, p) := by
  simp only [reloadBatch]
  rw [if_pos h]
  rfl

theorem reloadBatch_of_times {b : HistoryBatch} {oldest : Option Binary64}
    (h : b.times.isEmpty = false) (ho : History.oldest (some b) = .ok oldest) (p : Chart) :
    (reloadBatch (some b)).runOn p =
      if p.isReplacedBy (some b) then (replaceBy (some b)).runOn p
      else (importBatch (some b) true).runOn p := by
  simp only [reloadBatch]
  rw [if_neg (by simp [h]), Action.runOn_bind, Action.runOn_liftM, ho]
  simp only [Action.runOn_bind, Action.runOn_get]
  cases hh : p.series.labels.head? with
  | none =>
    have hr : p.isReplacedBy (some b) = true := by simp [isReplacedBy, ho, h, hh]
    rw [hr]
    rfl
  | some first =>
    have hr : p.isReplacedBy (some b) = isLonger oldest first := by simp [isReplacedBy, ho, h, hh]
    rw [hr]
    by_cases hl : isLonger oldest first = true
    · rw [if_pos hl, if_pos hl]
      rfl
    · rw [if_neg hl, if_neg hl]

/-- A reload that does not replace the curves is an import. -/
theorem reloadBatch_of_kept {p : Chart} {batch : Option HistoryBatch} (h : p.isReplacedBy batch = false) :
    ((reloadBatch batch).runOn p).2 = p.imported batch true := by
  cases batch with
  | none => rfl
  | some b =>
    cases ht : b.times.isEmpty with
    | true =>
      have hd := History.decode_of_no_rows (HistoryBatch.rowCount_of_isEmpty ht)
      rw [reloadBatch_of_no_times ht, imported_of_no_samples hd]
    | false =>
      cases ho : History.oldest (some b) with
      | error e =>
        simp only [reloadBatch]
        rw [if_neg (by simp [ht]), Action.runOn_bind, Action.runOn_liftM, ho]
        rcases History.decode_of_oldest_error ho with hd | ⟨e, hd⟩
        · rw [imported_of_no_samples hd]
        · rw [imported_of_error hd]
      | ok oldest => rw [reloadBatch_of_times ht ho, h, if_neg Bool.false_ne_true, importBatch_runOn]

/-- A history that replaces the curves has times, the oldest of which is known. -/
theorem of_isReplacedBy {p : Chart} {batch : Option HistoryBatch} (h : p.isReplacedBy batch = true) :
    ∃ b oldest, batch = some b ∧ b.times.isEmpty = false ∧ History.oldest batch = .ok oldest := by
  unfold isReplacedBy at h
  split at h
  · next b oldest ho =>
    rw [Bool.and_eq_true, Bool.not_eq_true'] at h
    exact ⟨b, oldest, rfl, h.1, ho⟩
  · cases h

theorem reloadBatch_runOn (p : Chart) (batch : Option HistoryBatch) :
    ((reloadBatch batch).runOn p).2.unstored =
      ((if p.isReplacedBy batch then p.emptied else p).imported batch true).unstored := by
  cases hr : p.isReplacedBy batch with
  | false => rw [reloadBatch_of_kept hr, if_neg Bool.false_ne_true]
  | true =>
    obtain ⟨b, oldest, rfl, ht, ho⟩ := of_isReplacedBy hr
    obtain ⟨storage, hs⟩ := replaceBy_runOn p (some b)
    rw [reloadBatch_of_times ht ho, hr, if_pos rfl, if_pos rfl, hs, importBatch_runOn, imported_onto,
      unstored_onto]

/-- A call leaves what its effect says; only the storage can differ. -/
theorem after_eq (p : Chart) (call : Call) : ∃ storage, p.after call = (p.effect call).onto storage := by
  refine ⟨_, eq_onto_of_unstored (p := p.effect call) ?_⟩
  cases call with
  | observe now info => rfl
  | importBatch batch importing =>
    simp only [after, act, Action.runOn_discard, importBatch_runOn]
    rfl
  | reload batch =>
    simp only [after, act, Action.runOn_discard]
    exact reloadBatch_runOn p batch
  | commit now clock persist => exact commit_runOn p now clock persist
  | clear now => exact clear_runOn p now
  | frame now window visibility =>
    simp only [after, act, Action.runOn_discard]
    exact congrArg unstored (frame_runOn p now window visibility)
  | pollDeferred now => rfl
  | takeReload => rfl

theorem after_importBatch (p : Chart) (batch : Option HistoryBatch) (importing : Bool) :
    p.after (.importBatch batch importing) = p.imported batch importing := by
  simp only [after, act, Action.runOn_discard, importBatch_runOn]

/-- What every call's effect keeps, and what the storage does not touch, holds after every run. -/
theorem afterAll_induction {I : Chart → Prop} {p : Chart} (calls : List Call) (h : I p)
    (effect : ∀ p, ∀ call ∈ calls, I p → I (p.effect call))
    (onto : ∀ p storage, I p → I (p.onto storage)) : I (p.afterAll calls) := by
  induction calls generalizing p with
  | nil => exact h
  | cons call calls ih =>
    obtain ⟨storage, hs⟩ := after_eq p call
    refine ih ?_ fun p c hc => effect p c (List.mem_cons_of_mem _ hc)
    rw [hs]
    exact onto _ storage (effect p call List.mem_cons_self h)

/-! ## Settings -/

/-- What no call changes: the configuration, and the settings that the filter was made with. -/
def settings (p : Chart) : Config × Guard.Tuning := (p.config, p.guard.tuning)

/-- Settings that stay are still those of the configuration. -/
theorem tuning_of_settings {p q : Chart} (h : q.settings = p.settings)
    (hp : p.guard.tuning = .ofConfig p.config.guard.cfg) :
    q.guard.tuning = .ofConfig q.config.guard.cfg := by
  obtain ⟨hc, ht⟩ := Prod.mk.inj h
  rw [ht, hc, hp]

theorem settings_of_unimported {p q : Chart} (h : q.unimported = p.unimported) :
    q.settings = p.settings := by
  have hs : q.unimported.settings = p.unimported.settings := by rw [h]
  exact hs

theorem imported_unimported (p : Chart) (batch : Option HistoryBatch) (importing : Bool) :
    (p.imported batch importing).unimported = p.unimported :=
  imported_induction (I := fun q => q.unimported = p.unimported) rfl (opened_unimported p)
    fun q s _ _ hq => (take_unimported q importing s).trans hq

theorem imported_settings (p : Chart) (batch : Option HistoryBatch) (importing : Bool) :
    (p.imported batch importing).settings = p.settings :=
  settings_of_unimported (imported_unimported p batch importing)

theorem observeLive_tuning (g : Guard) (x : Binary64) : (g.observeLive x).tuning = g.tuning := by
  unfold Guard.observeLive
  split <;> rfl

theorem effect_settings (p : Chart) (call : Call) : (p.effect call).settings = p.settings := by
  cases call with
  | observe now info =>
    rw [effect, observe_eq]
    exact congrArg (Prod.mk p.config) (observeLive_tuning _ _)
  | importBatch batch importing => exact imported_settings p batch importing
  | reload batch =>
    rw [effect, imported_settings]
    split <;> rfl
  | commit now clock persist => rfl
  | clear now => rfl
  | frame now window visibility => rfl
  | pollDeferred now => rw [effect, pollDeferred_eq]; rfl
  | takeReload => rfl

/-! ## Loading -/

/-- What a load never touches: all but the curves with their filter and their start, what the storage
says of their times, and the storage itself. -/
def unloaded (p : Chart) : Chart :=
  { p with
    storage := none, series := .empty, guard := p.guard.reset, startup := {}
    historyMin := none, lastSeen := none, loaded := false, lastBreak := none }

theorem settings_of_unloaded {p q : Chart} (h : q.unloaded = p.unloaded) : q.settings = p.settings := by
  have hs : q.unloaded.settings = p.unloaded.settings := by rw [h]
  exact hs

theorem restore_unloaded (p : Chart) (stored : Series) : (p.restore stored).unloaded = p.unloaded := by
  have step : ∀ (rows : List (Int × PerChannel Binary64)) (p : Chart),
      (rows.foldl (fun p row => p.restoreRow row.1 row.2) p).unloaded = p.unloaded := by
    intro rows
    induction rows with
    | nil => exact fun _ => rfl
    | cons row rows ih => exact fun p => ih _
  exact step (rows stored) { p with guard := p.guard.reset, series := .empty }

/-- The last part of loading: the stored curves are taken back. -/
def takeStored : Action Chart Bool := do
  match (← onStorage Storage.loadSeries).join with
  | none => return false
  | some stored =>
    let stored ← liftM (m := Except Fault) (Series.ofStored stored)
    modify fun p => p.restore stored
    return true

theorem takeStored_keeps : Keeps unloaded takeStored := by
  refine .bind (onStorage_keeps _ fun _ _ => rfl) fun stored => ?_
  cases stored.join with
  | none => exact .pure _
  | some stored =>
    exact .bind (.liftM _) fun stored => .bind (.modify (restore_unloaded · stored)) fun _ => .pure _

theorem load_keeps : Keeps unloaded load := by
  refine .bind (.modify fun _ => rfl) fun _ => .bind .get fun p => ?_
  split
  · exact .pure _
  · refine .bind (onStorage_keeps _ fun _ _ => rfl) fun _ => .bind (.modify fun _ => rfl) fun _ => ?_
    refine .bind (onStorage_keeps _ fun _ _ => rfl) fun last => ?_
    cases last.join with
    | none => exact takeStored_keeps
    | some last =>
      exact .bind (.liftM _) fun _ => .bind (.modify fun _ => rfl) fun _ => takeStored_keeps

/-- The filter of a chart has the settings of its configuration. -/
theorem Reachable.tuning {p : Chart} (h : Reachable p) :
    p.guard.tuning = .ofConfig p.config.guard.cfg := by
  induction h with
  | new config storage => rfl
  | load _ ih => exact tuning_of_settings (settings_of_unloaded (load_keeps _)) ih
  | call call _ ih =>
    obtain ⟨storage, ha⟩ := after_eq _ call
    rw [ha]
    exact tuning_of_settings (effect_settings _ call) ih

end Chart

end HashrateChart
