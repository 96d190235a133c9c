/-
The reload that a poll finds due, and what becomes of the request for it.

The request is raised and taken by the same poll, so none is pending between two moves
(`requested_of_reachable`), whatever the order of the moves. A request is served by the
poll that raises it or it is gone: a reload starts for it exactly when no task is at
work. A drain that waits for its next chunk has already taken the sample that planned
the reload, and then the request is dropped.
-/
import HashrateChart.Proofs.Chart.Reload
import HashrateChart.Proofs.Monitor.Moves

namespace HashrateChart

open HashrateChart.Action (Keeps)

/-! ## The request of a chart -/

namespace Chart

variable {p : Chart} {importing : Bool} {s : History.Sample}

/-- A reload was asked for and is not taken yet. -/
def requested (p : Chart) : Bool := p.reload.requested

theorem requested_planReload (p : Chart) (t : Int) :
    (p.planReload t).requested = p.requested := by
  unfold planReload
  split
  · rfl
  · dsimp only
    split
    · split <;> rfl
    · rfl

theorem requested_offer : (p.offer importing s).2.requested = p.requested := by
  unfold offer candidate
  split
  · rfl
  · split
    · rw [startHashrate_def]
      split
      · exact requested_planReload _ _
      · rfl
    · rfl

theorem requested_insertBreak (p : Chart) (t : Int) : (p.insertBreak t).requested = p.requested := by
  rw [insertBreak_eq]
  rfl

theorem requested_take (p : Chart) (importing : Bool) (s : History.Sample) :
    (p.take importing s).requested = p.requested := by
  unfold take
  rcases p.importSample_cases importing s with ⟨-, hi⟩ | ⟨-, -, hi⟩ | ⟨-, -, hi⟩ <;> rw [hi]
  · rfl
  · refine (requested_insertBreak (p.relocked importing s) _).trans ?_
    rw [relocked_eq]
    exact requested_offer
  · rw [filtered_eq]
    exact requested_offer

theorem requested_opened (p : Chart) (t : Int) : (p.opened t).requested = p.requested := by
  cases hb : p.warmup.breakPending with
  | true =>
    rw [opened_of_pending hb, requested_insertBreak]
    rfl
  | false => rw [opened_of_not_pending hb]

/-- No batch asks for a reload; it can only plan one. -/
theorem requested_imported (p : Chart) (batch : Option HistoryBatch) (importing : Bool) :
    (p.imported batch importing).requested = p.requested :=
  imported_induction (I := fun q => q.requested = p.requested) rfl (requested_opened p)
    fun q s _ _ hq => (requested_take q importing s).trans hq

theorem requested_of_unstored {p q : Chart} (h : q.unstored = p.unstored) :
    q.requested = p.requested := by
  have hr : q.unstored.requested = p.unstored.requested := by rw [h]
  exact hr

theorem requested_of_unloaded {p q : Chart} (h : q.unloaded = p.unloaded) :
    q.requested = p.requested := by
  have hr : q.unloaded.requested = p.unloaded.requested := by rw [h]
  exact hr

theorem requested_pollDeferred (p : Chart) (now : Int) :
    (p.pollDeferred now).2.requested = ((p.pollDeferred now).1 || p.requested) := by
  unfold pollDeferred
  split <;> rfl

end Chart

namespace Monitor

/-- Only serving a reload raises or takes a request. -/
theorem kept_requested : Kept Chart.requested where
  observe p now info := by
    rw [Chart.observe_eq]
    rfl
  importBatch batch importing p := by
    rw [Chart.importBatch_runOn]
    exact Chart.requested_imported p batch importing
  reloadBatch batch p := by
    rw [Chart.requested_of_unstored (Chart.reloadBatch_runOn p batch), Chart.requested_imported]
    split <;> rfl
  commit now clock p :=
    (Chart.requested_of_unstored (Chart.commit_runOn p now clock true)).trans rfl
  frame now window visibility p := by
    rw [Chart.frame_runOn]
    rfl
  load p := Chart.requested_of_unloaded (Chart.load_keeps p)
  onStorage act p := Chart.requested_of_unstored (Chart.onStorage_unstored act p)

variable {s : Moment}

theorem requested_answer (poll : Poll) (info : SystemInfo) (m : Monitor)
    (h : m.chart.requested = false) :
    ((answer poll info).runOn m).2.chart.requested = false := by
  have hseen : ((taking poll info).runOn m).2.chart.requested = m.chart.requested :=
    congrArg Prod.fst (kept_requested.taking poll info m)
  rw [answer_runOn]
  split
  · rw [serveReload_runOn]
    rfl
  · next e q he =>
    rw [he] at hseen
    exact hseen.trans h

/-- No request is pending between two moves. -/
theorem requested_of_reachable (h : Reachable s) : s.monitor.chart.requested = false := by
  induction h with
  | new hm =>
    unfold Monitor.new at hm
    split at hm
    · cases hm
    · cases hm
      rfl
  | @move s move _ ih =>
    cases move with
    | answer info =>
      simp only [Moment.move]
      cases s.asked with
      | some poll => exact requested_answer poll info _ ih
      | none => exact ih
    | _ => exact (kept_requested.move s fun _ h => by cases h).trans ih

/-- **A request is served at once or never.** In every order of the moves, when a poll has taken its
answer no request is pending, and it has started a reload exactly when one was due and neither a
drain nor a reload is at work. -/
theorem reload_of_answer (h : Reachable s) {poll : Poll} (hs : s.asked = some poll) (info : SystemInfo)
    {n : Nat} {q : Monitor} (hq : (taking poll info).runOn s.monitor = (.ok n, q)) :
    (s.move (.answer info)).monitor.chart.requested = false ∧
      (s.move (.answer info)).monitor.tasks =
        q.tasks ++ if (q.chart.pollDeferred poll.now).1 && s.monitor.isIdle then [.reload] else [] := by
  refine ⟨requested_of_reachable (h.move _), ?_⟩
  have hseen := kept_requested.taking poll info s.monitor
  rw [hq] at hseen
  have hidle : q.isIdle = s.monitor.isIdle := congrArg Prod.snd hseen
  have hpending : q.chart.requested = false :=
    (congrArg Prod.fst hseen).trans (requested_of_reachable h)
  have hmove : s.move (.answer info) = ⟨((answer poll info).runOn s.monitor).2, none⟩ := by
    unfold Moment.move
    rw [hs]
  rw [hmove, answer_runOn, hq]
  dsimp only
  rw [serveReload_runOn, ← Chart.requested, Chart.requested_pollDeferred, hpending, Bool.or_false, hidle]

/-! ## A reload that falls due -/

/-- A chart that is reloaded a second after a restart, drained in chunks of one sample. -/
def reloadingConfig : Config where
  warmup := { vregDelay := 0, asicDelay := 0, hashrateDelay := 0 }
  drain := { suppressed := true, chunkSize := 1 }
  startup := { reloadAfterSmooth := true, smoothWindow := 1000 }
  device := some ⟨"bitaxe", "10.0.0.1", 10⟩

def reloadingMonitor : Monitor where
  config := reloadingConfig
  device := ⟨"bitaxe", "10.0.0.1", 10⟩
  chart := .new reloadingConfig none
  window := reloadingConfig.zoom.maxWindow
  visibility := reloadingConfig.ui.legendHidden.map (!·)
  clock := 0

theorem reachable_reloadingMonitor : Reachable ⟨reloadingMonitor, none⟩ := by
  have hnew : Monitor.new reloadingConfig none 0 = .ok reloadingMonitor := rfl
  exact .new hnew

/-- What a device says while it boots, and once it works. -/
def bootingInfo : SystemInfo := ⟨0, 0, 0, 0, none, none, none, none⟩

def workingInfo : SystemInfo := ⟨500, 500, 2040, 1, some 60, some 60, none, none⟩

/-- The device boots at the first poll, which starts a sync, and works at the second; then the drain of
the sync gets a full chunk with the first sample since. -/
def plannedMoves : List Move :=
  [.ask, .answer bootingInfo, .start 0, .ask, .answer workingInfo, .deliver 0 (.ok (some Chart.olderBatch))]

/-- The next chunk does not come, which ends the sync; a poll at 20 s finds the reload due. -/
def freeMoves : List Move := plannedMoves ++ [.deliver 0 (.error .connection), .tick 20000, .ask]

/-- The poll at 20 s comes while the drain waits for the next chunk. -/
def busyMoves : List Move := plannedMoves ++ [.tick 20000, .ask]

def free : Moment := (⟨reloadingMonitor, none⟩ : Moment).moveAll freeMoves

def busy : Moment := (⟨reloadingMonitor, none⟩ : Moment).moveAll busyMoves

theorem reachable_free : Reachable free := reachable_reloadingMonitor.moveAll freeMoves

theorem reachable_busy : Reachable busy := reachable_reloadingMonitor.moveAll busyMoves

theorem eq_ok_of_toOption {α : Type} {r : Result α × Monitor} {a : α} (h : r.1.toOption = some a) :
    r = (.ok a, r.2) := Prod.ext (ok_of_toOption h) rfl

/-- No task is at work, and the reload starts. -/
theorem reload_of_answer_of_free :
    let q := ((taking ⟨20000, 10000⟩ workingInfo).runOn free.monitor).2
    (free.move (.answer workingInfo)).monitor.chart.reload.requested = false ∧
      (free.move (.answer workingInfo)).monitor.tasks = q.tasks ++ [.reload] := by
  intro q
  have hasked : free.asked = some ⟨20000, 10000⟩ := by decide +kernel
  have hidle : free.monitor.isIdle = true := by decide +kernel
  have htaken : ((taking ⟨20000, 10000⟩ workingInfo).runOn free.monitor).1.toOption = some 0 ∧
      (q.chart.pollDeferred 20000).1 = true := by decide +kernel
  have hq : (taking ⟨20000, 10000⟩ workingInfo).runOn free.monitor = (.ok 0, q) :=
    eq_ok_of_toOption htaken.1
  have hserved := reload_of_answer reachable_free hasked workingInfo hq
  rw [htaken.2, hidle, Bool.and_self, if_pos rfl] at hserved
  exact hserved

/-- The drain is at work, and the request is dropped: it is neither pending nor served. -/
theorem not_reload_of_answer :
    ¬ ∀ (s : Moment) (poll : Poll) (info : SystemInfo) (n : Nat) (q : Monitor), Reachable s →
      s.asked = some poll → (taking poll info).runOn s.monitor = (.ok n, q) →
      (q.chart.pollDeferred poll.now).1 = true →
      (s.move (.answer info)).monitor.chart.reload.requested = true ∨
        .reload ∈ (s.move (.answer info)).monitor.tasks := by
  intro h
  have hasked : busy.asked = some ⟨20000, 10000⟩ := by decide +kernel
  have htaken : ((taking ⟨20000, 10000⟩ workingInfo).runOn busy.monitor).1.toOption = some 0 ∧
      (((taking ⟨20000, 10000⟩ workingInfo).runOn busy.monitor).2.chart.pollDeferred 20000).1 = true := by
    decide +kernel
  have hdropped : (busy.move (.answer workingInfo)).monitor.chart.reload.requested = false ∧
      .reload ∉ (busy.move (.answer workingInfo)).monitor.tasks := by decide +kernel
  have hserved := h busy _ workingInfo 0 _ reachable_busy hasked (eq_ok_of_toOption htaken.1) htaken.2
  rcases hserved with hpending | hreload
  · rw [hdropped.1] at hpending
    cases hpending
  · exact hdropped.2 hreload

end Monitor

end HashrateChart
