/-
Trouble with the store stays in the storage.

What a chart gives and what it holds in memory depend on what it has in memory
alone (`Chart.answer_seesOnly`): no call reads from the store, and a write that fails
is dropped. So two charts that differ only in what their stores hold and when
these fail stay alike through any run, reply by reply.
-/
import HashrateChart.Proofs.Chart.Restore
import HashrateChart.Proofs.Chart.Run

namespace HashrateChart

open HashrateChart.Action (SeesOnly)

namespace Storage

/-- The storage over a store that holds nothing and never fails: its keys and its limit. -/
def blank (s : Storage) : Storage := { s with store := .ofItems [] }

/-- Whether the store takes a text or not, nobody learns of it. -/
theorem write_seesOnly (key : StorageKeys → String) (text : String) :
    SeesOnly blank (liftM (write key text) : Action Storage Unit) := fun _ _ h => ⟨rfl, h⟩

theorem remove_seesOnly (key : StorageKeys → String) :
    SeesOnly blank (liftM (remove key) : Action Storage Unit) := fun _ _ h => ⟨rfl, h⟩

theorem saveSeries_seesOnly (series : StoredSeries) (now : Int) : SeesOnly blank (saveSeries series now) := by
  refine .get_bind (fun s t h => ?_) fun s => ?_
  · have hmost : s.maxPoints = t.maxPoints := congrArg (·.maxPoints) h
    rw [hmost]
  · split
    · exact write_seesOnly _ _
    · exact .throw _
    · exact .pure _

theorem saveWhole_seesOnly (key : StorageKeys → String) (n : Number) : SeesOnly blank (saveWhole key n) :=
  .bind (.liftM _) fun _ => write_seesOnly _ _

theorem saveLast_seesOnly (n : Option Number) : SeesOnly blank (saveLast n) := by
  cases n with
  | none => exact .pure _
  | some n =>
    refine .bind (.liftM _) fun finite => ?_
    split
    · exact saveWhole_seesOnly _ n
    · exact .pure _

theorem saveMin_seesOnly (n : Option Number) : SeesOnly blank (saveMin n) := by
  cases n with
  | none => exact .pure _
  | some n =>
    refine .bind (.liftM _) fun finite => ?_
    split
    · exact saveWhole_seesOnly _ n
    · exact .pure _

end Storage

namespace Chart

/-- The chart as it is in memory: all but what its store holds and when it fails. -/
def inMemory (p : Chart) : Chart := p.onto (p.storage.map Storage.blank)

variable {p q : Chart} {α : Type}

theorem unstored_of_inMemory (h : q.inMemory = p.inMemory) : q.unstored = p.unstored := by
  have hu : q.inMemory.unstored = p.inMemory.unstored := by rw [h]
  exact hu

theorem eq_onto_of_inMemory (h : q.inMemory = p.inMemory) : q = p.onto q.storage :=
  eq_onto_of_unstored (unstored_of_inMemory h)

/-- What does not touch the storage sees only the memory. -/
theorem modifyGet_seesOnly {f : Chart → α × Chart}
    (h : ∀ p storage, f (p.onto storage) = ((f p).1, (f p).2.onto storage)) :
    SeesOnly inMemory (modifyGet f : Action Chart α) := by
  intro p q hpq
  have hblank : p.storage.map Storage.blank = q.storage.map Storage.blank := congrArg (·.storage) hpq
  have hp : f p = ((f p).1, (f p).2.onto p.storage) := h p p.storage
  have hq : f q = ((f p).1, (f p).2.onto q.storage) := by
    rw [← h, ← eq_onto_of_inMemory hpq.symm]
  rw [Action.runOn_modifyGet, Action.runOn_modifyGet, hq]
  refine ⟨rfl, ?_⟩
  rw [hp]
  exact congrArg (f p).2.onto hblank

theorem modify_seesOnly {f : Chart → Chart} (h : ∀ p storage, f (p.onto storage) = (f p).onto storage) :
    SeesOnly inMemory (modify f : Action Chart Unit) :=
  modifyGet_seesOnly (f := fun p => ((), f p)) fun p storage => congrArg (Prod.mk ()) (h p storage)

/-- What the storage does without reading from the store, the chart does without seeing it. -/
theorem onStorage_seesOnly {act : Action Storage α} (h : SeesOnly Storage.blank act) :
    SeesOnly inMemory (onStorage act) := by
  intro p q hpq
  have hblank : p.storage.map Storage.blank = q.storage.map Storage.blank := congrArg (·.storage) hpq
  cases hs : p.storage with
  | none =>
    have ht : q.storage = none := by
      rw [hs] at hblank
      exact Option.map_eq_none_iff.mp hblank.symm
    simp only [onStorage, Action.runOn_bind, Action.runOn_get, hs, ht]
    exact ⟨rfl, hpq⟩
  | some s =>
    obtain ⟨t, ht, hst⟩ : ∃ t, q.storage = some t ∧ t.blank = s.blank := by
      rw [hs] at hblank
      exact Option.map_eq_some_iff.mp hblank.symm
    obtain ⟨hr, hv⟩ := h s t hst.symm
    rw [onStorage_runOn hs, onStorage_runOn ht, hr]
    refine ⟨rfl, ?_⟩
    have hp : p.unstored.onto (some (act.runOn s).2.blank) = q.unstored.onto (some (act.runOn t).2.blank) := by
      rw [unstored_of_inMemory hpq, hv]
    exact hp

/-! ## Calls -/

theorem noteHashrates_onto (p : Chart) (storage : Option Storage) (live expected : Binary64) :
    (p.onto storage).noteHashrates live expected = (p.noteHashrates live expected).onto storage := rfl

theorem unlock_onto (p : Chart) (storage : Option Storage) (live : Binary64) :
    (p.onto storage).unlock live = (p.unlock live).onto storage := by
  have hstartup : (p.onto storage).startup = p.startup := rfl
  have hconfig : (p.onto storage).config = p.config := rfl
  have hguard : (p.onto storage).guard = p.guard := rfl
  have hexpected : (p.onto storage).expected = p.expected := rfl
  simp only [unlock, hstartup, hconfig, hguard, hexpected]
  split <;> rfl

theorem importBatch_seesOnly (batch : Option HistoryBatch) (importing : Bool) :
    SeesOnly inMemory (importBatch batch importing) :=
  .bind (.liftM _) fun samples => modifyGet_seesOnly fun p _ => p.importSamples_onto samples

theorem replaceBy_seesOnly (batch : Option HistoryBatch) : SeesOnly inMemory (replaceBy batch) := by
  have hclear : SeesOnly Storage.blank (do Storage.clearSeries; Storage.clearLast; Storage.clearMin) :=
    .bind (Storage.remove_seesOnly _) fun _ => .bind (Storage.remove_seesOnly _) fun _ =>
      Storage.remove_seesOnly _
  refine .bind (modify_seesOnly fun _ _ => rfl) fun _ => ?_
  exact .bind (.map _ (onStorage_seesOnly hclear)) fun _ => importBatch_seesOnly batch true

theorem reloadBatch_seesOnly (batch : Option HistoryBatch) : SeesOnly inMemory (reloadBatch batch) := by
  cases batch with
  | none => exact .pure _
  | some b =>
    unfold reloadBatch
    dsimp only
    split
    · exact .pure _
    · refine .bind (.liftM _) fun oldest => .get_bind (fun p q hpq => ?_) fun p => ?_
      · have hseries : p.series = q.series := congrArg (·.series) hpq
        rw [hseries]
      · split
        · split
          · exact replaceBy_seesOnly (some b)
          · exact importBatch_seesOnly (some b) true
        · exact replaceBy_seesOnly (some b)

theorem commit_seesOnly (now clock : Int) (persist : Bool) : SeesOnly inMemory (commit now clock persist) := by
  refine .bind (modify_seesOnly fun _ _ => rfl) fun _ => .get_bind (fun p q hpq => ?_) fun p => ?_
  · have hseries : p.series = q.series := congrArg (·.series) hpq
    have hlast : p.lastSeen = q.lastSeen := congrArg (·.lastSeen) hpq
    have hloaded : p.loaded = q.loaded := congrArg (·.loaded) hpq
    have hstorage : p.storage.isSome = q.storage.isSome := by
      have h := congrArg (·.storage.isSome) hpq
      simpa [inMemory, onto] using h
    rw [hseries, hlast, hloaded, hstorage]
  · split
    · refine .bind (.liftM _) fun stored => .bind ?_ fun _ => ?_
      · exact .map _ (onStorage_seesOnly (Storage.saveSeries_seesOnly _ _))
      · split
        · exact .map _ (onStorage_seesOnly (Storage.saveLast_seesOnly _))
        · exact .pure _
    · exact .pure _

theorem clear_seesOnly (now : Int) : SeesOnly inMemory (clear now) := by
  refine .bind (modify_seesOnly fun _ _ => rfl) fun _ => .map _ (onStorage_seesOnly ?_)
  exact .bind (Storage.remove_seesOnly _) fun _ => .bind (Storage.remove_seesOnly _) fun _ =>
    .bind (Storage.saveMin_seesOnly _) fun _ => Storage.saveLast_seesOnly _

theorem frame_seesOnly (now : Int) (window : Json) (visibility : Option (List Bool)) :
    SeesOnly inMemory (frame now window visibility) := by
  refine .get_bind (fun p q hpq => ?_) fun p => ?_
  · rw [eq_onto_of_inMemory hpq]
    rfl
  · refine .bind (.liftM _) fun _ => .bind (.liftM _) fun _ => .bind (.liftM _) fun _ => ?_
    refine .bind (modify_seesOnly fun _ _ => rfl) fun _ => .bind (.liftM _) fun _ => .bind (.liftM _) fun _ => ?_
    exact .bind (.liftM _) fun _ => .pure _

/-! ## Replies -/

/-- What a call gives back. -/
inductive Reply where
  | stage (stage : Warmup.Stage)
  | count (n : Nat)
  | done
  | frame (frame : Frame)
  | flag (b : Bool)

/-- Answers a call. -/
def answer : Call → Action Chart Reply
  | .observe now info => modifyGet fun p =>
    let q := p.observe now info
    (.stage q.warmup.stage, q)
  | .importBatch batch importing => .count <$> importBatch batch importing
  | .reload batch => .count <$> reloadBatch batch
  | .commit now clock persist => (fun _ => .done) <$> commit now clock persist
  | .clear now => (fun _ => .done) <$> clear now
  | .frame now window visibility => .frame <$> frame now window visibility
  | .pollDeferred now => .flag <$> modifyGet fun p => p.pollDeferred now
  | .takeReload => .flag <$> modifyGet fun p => p.takeReload

theorem after_eq_answer (p : Chart) (call : Call) : p.after call = ((answer call).runOn p).2 := by
  cases call <;> simp only [after, act, answer, Action.runOn_discard, Action.runOn_map] <;> rfl

/-- Nothing that a call gives or leaves in memory comes from the store. -/
theorem answer_seesOnly (call : Call) : SeesOnly inMemory (answer call) := by
  cases call with
  | observe now info =>
    refine modifyGet_seesOnly fun p storage => ?_
    have hobserve : (p.onto storage).observe now info = (p.observe now info).onto storage := by
      unfold observe
      dsimp only
      rw [noteHashrates_onto, unlock_onto]
      rfl
    simp only [hobserve]
    rfl
  | importBatch batch importing => exact .map _ (importBatch_seesOnly batch importing)
  | reload batch => exact .map _ (reloadBatch_seesOnly batch)
  | commit now clock persist => exact .map _ (commit_seesOnly now clock persist)
  | clear now => exact .map _ (clear_seesOnly now)
  | frame now window visibility => exact .map _ (frame_seesOnly now window visibility)
  | pollDeferred now =>
    refine .map _ (modifyGet_seesOnly fun p storage => ?_)
    have hreload : (p.onto storage).reload = p.reload := rfl
    unfold pollDeferred
    rw [hreload]
    split <;> rfl
  | takeReload => exact .map _ (modifyGet_seesOnly fun _ _ => rfl)

/-- What a run gives, reply by reply, each with the memory that it leaves. -/
def replies (p : Chart) : List Call → List (Result Reply × Chart)
  | [] => []
  | call :: calls => (((answer call).runOn p).1, (p.after call).inMemory) :: (p.after call).replies calls

theorem replies_congr (h : p.inMemory = q.inMemory) (calls : List Call) : p.replies calls = q.replies calls := by
  induction calls generalizing p q with
  | nil => rfl
  | cons call calls ih =>
    obtain ⟨hr, hv⟩ := answer_seesOnly call p q h
    rw [← after_eq_answer, ← after_eq_answer] at hv
    rw [replies, replies, hr, hv, ih hv]

/-- The chart over its store with other failures to come. -/
def withOutage (p : Chart) (outage : Nat → Bool) : Chart :=
  p.onto (p.storage.map fun s => { s with store := { s.store with outage := outage } })

/-- **Trouble with the store never shows.** However the calls of the store fail from now on, a run gives
the same values and the same faults, and leaves the same in memory after each call, as over a store
that never fails. -/
theorem replies_withOutage (p : Chart) (outage : Nat → Bool) (calls : List Call) :
    (p.withOutage outage).replies calls = (p.withOutage fun _ => false).replies calls := by
  refine replies_congr ?_ calls
  unfold inMemory withOutage
  cases p.storage <;> rfl

end Chart

end HashrateChart
