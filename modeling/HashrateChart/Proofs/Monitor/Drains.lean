/-
One drain at a time, however the jobs around a monitor are interleaved.

Whoever asks for a drain while one is at work is turned away at once, and a poll leaves the
chart to it. The count of the drains at work follows the one flag of the monitor from
stretch to stretch (`Loop.Serial`), and so does what each drain has done: nothing is
committed before its end.
-/
import HashrateChart.Proofs.Drain
import HashrateChart.Proofs.Monitor.Loop
import HashrateChart.Proofs.Monitor.Requests

namespace HashrateChart

open HashrateChart.Drain (Deed Uncommitted CommittedOnce)

/-- A drain that had been asked to stop has committed nothing, and one that came to its end otherwise has
committed once, after its last chunk. -/
def Ending.Sound (e : Ending) : Prop :=
  (e.stopping = true → Uncommitted e.deeds) ∧
    (e.stopping = false → ∀ total, e.result = some (.ok total) → CommittedOnce e.deeds)

namespace Loop

/-! ## Every moment -/

open HashrateChart.Monitor (Held)

theorem recordAfter_sound (t : Thread) (reply : Reply) (m : Monitor) (ht : Uncommitted t.deeds) :
    Uncommitted (recordAfter t reply m).1 ∧ ∀ e ∈ (recordAfter t reply m).2, e.Sound := by
  unfold recordAfter
  cases t.job.drain? with
  | none => exact ⟨Drain.uncommitted_nil, nofun⟩
  | some d =>
    dsimp only
    have hstopped (hs : m.stopping = true) :=
      Drain.uncommitted_of_stopping Monitor.heeds_drainHost m.config.drain d reply.history ht hs
    have htells {next : Drain.Next} (hs : m.stopping = false)
        (hr : ((Monitor.resumeDrain d reply.history).runOn m).1 = .ok next) :=
      Drain.tells_of_answered Monitor.heeds_drainHost ht hs
        ((Monitor.resumeDrain_fst d reply.history m).symm.trans hr)
    cases hr : ((Monitor.resumeDrain d reply.history).runOn m).1 with
    | error e =>
      refine ⟨Drain.uncommitted_nil, ?_⟩
      rintro _ ⟨⟩
      exact ⟨hstopped, nofun⟩
    | ok next =>
      cases next with
      | waiting e =>
        refine ⟨?_, nofun⟩
        cases hs : m.stopping with
        | true => exact hstopped hs
        | false => exact htells hs hr
      | finished total =>
        refine ⟨Drain.uncommitted_nil, ?_⟩
        rintro _ ⟨⟩
        exact ⟨hstopped, fun hs _ _ => htells hs hr⟩

/-- At each moment at most one drain is at work, and then the monitor knows of it. -/
structure Serial (s : Loop) : Prop where
  drains : s.drains = s.monitor.draining.toNat
  adopted : s.monitor.tasks = []
  uncommitted : ∀ t ∈ s.threads, Uncommitted t.deeds
  endings : ∀ e ∈ s.endings, e.Sound

variable {s : Loop} {k : Nat} {t : Thread}

/-- Other threads in the place of one change the number of drains by theirs. -/
theorem countP_replaced (h : s.threads[k]? = some t) (others : List Thread) :
    (s.replaced k others).countP (·.job.isDrain) + t.job.isDrain.toNat =
      s.drains + others.countP (·.job.isDrain) := by
  have hsplit : s.threads = s.threads.take k ++ t :: s.threads.drop (k + 1) := by
    obtain ⟨hk, rfl⟩ := List.getElem?_eq_some_iff.mp h
    rw [← List.drop_eq_getElem_cons hk, List.take_append_drop]
  have hdrains := congrArg (List.countP (·.job.isDrain)) hsplit
  rw [List.countP_append, List.countP_cons] at hdrains
  rw [drains, hdrains, replaced, List.countP_append, List.countP_append]
  cases t.job.isDrain with
  | true =>
    simp only [Bool.toNat_true, if_true]
    omega
  | false =>
    simp only [Bool.toNat_false, Bool.false_eq_true, if_false]
    omega

theorem mem_of_replaced {others : List Thread} {x : Thread} (h : x ∈ s.replaced k others) :
    x ∈ s.threads ∨ x ∈ others := by
  unfold replaced at h
  rw [List.mem_append, List.mem_append] at h
  rcases h with (h | h) | h
  · exact .inl (List.mem_of_mem_take h)
  · exact .inr h
  · exact .inl (List.mem_of_mem_drop h)

theorem countP_following (next : Result (Option Job)) (deeds : List Deed) :
    (following next deeds).countP (·.job.isDrain) = (Job.leadsToDrain next).toNat := by
  unfold following Job.leadsToDrain
  cases next.toOption.join with
  | none => rfl
  | some j => cases hj : j.isDrain <;> simp [hj]

theorem countP_tasks {tasks : List Monitor.Task} (h : ∀ t ∈ tasks, t.drain? = none) :
    (tasks.map (⟨.task ·, []⟩ : Monitor.Task → Thread)).countP (·.job.isDrain) = 0 := by
  rw [List.countP_eq_zero]
  intro t ht
  obtain ⟨task, htask, rfl⟩ := List.mem_map.mp ht
  rw [Job.isDrain, Job.drain?, h task htask]
  exact Bool.false_ne_true

namespace Serial

theorem held (h : Serial s) : Held s.monitor.draining s.monitor := ⟨rfl, by rw [h.adopted]; exact nofun⟩

theorem draining_of_mem (h : Serial s) (ht : t ∈ s.threads) (hj : t.job.isDrain = true) :
    s.monitor.draining = true := by
  have hpos : 0 < s.drains := List.countP_pos_iff.mpr ⟨t, ht, hj⟩
  rw [h.drains] at hpos
  cases hd : s.monitor.draining with
  | true => rfl
  | false =>
    rw [hd] at hpos
    exact absurd hpos (Nat.lt_irrefl 0)

theorem step (h : Serial s) (k : Nat) (reply : Reply) : Serial (s.step k reply) := by
  unfold Loop.step
  split
  · exact h
  · next t hk =>
    have hmem : t ∈ s.threads := List.mem_of_getElem? hk
    obtain ⟨after, hheld, hcount⟩ := Job.step_balanced t.job reply h.held (h.draining_of_mem hmem)
    obtain ⟨hdeeds, hending⟩ := recordAfter_sound t reply s.monitor (h.uncommitted t hmem)
    refine { drains := ?_, adopted := rfl, uncommitted := ?_, endings := ?_ }
    · have hreplaced := countP_replaced hk
        (following ((t.job.step reply).runOn s.monitor).1 (recordAfter t reply s.monitor).1)
      rw [countP_following, h.drains] at hreplaced
      show List.countP _ (_ ++ _) = ((t.job.step reply).runOn s.monitor).2.draining.toNat
      rw [List.countP_append, countP_tasks hheld.2, hheld.1]
      omega
    · intro x hx
      rcases List.mem_append.mp hx with hx | hx
      · rcases mem_of_replaced hx with hx | hx
        · exact h.uncommitted x hx
        · obtain ⟨j, -, rfl⟩ := List.mem_map.mp hx
          exact hdeeds
      · obtain ⟨task, -, rfl⟩ := List.mem_map.mp hx
        exact Drain.uncommitted_nil
    · intro e he
      rcases List.mem_append.mp he with he | he
      · exact h.endings e he
      · exact hending e (Option.mem_toList.mp he)

theorem cancel (h : Serial s) (k : Nat) : Serial (s.cancel k) := by
  unfold Loop.cancel
  split
  · exact h
  · next t hk =>
    have hmem : t ∈ s.threads := List.mem_of_getElem? hk
    obtain ⟨hcount, htasks⟩ := Job.cancel_balanced t.job (h.draining_of_mem hmem)
    refine { drains := ?_, adopted := ?_, uncommitted := ?_, endings := ?_ }
    · have hreplaced := countP_replaced hk []
      rw [h.drains, List.countP_nil] at hreplaced
      show List.countP _ (s.replaced k []) = (t.job.cancel.runOn s.monitor).2.draining.toNat
      omega
    · exact htasks.trans h.adopted
    · intro x hx
      rcases mem_of_replaced hx with hx | hx
      · exact h.uncommitted x hx
      · cases hx
    · intro e he
      rcases List.mem_append.mp he with he | he
      · exact h.endings e he
      · split at he
        · obtain rfl := List.mem_singleton.mp he
          exact ⟨fun _ => h.uncommitted t hmem, nofun⟩
        · cases he

/-- No move leads away from one drain at a time. -/
theorem move (h : Serial s) (move : Move) : Serial (s.move move) := by
  cases move with
  | tick now => exact ⟨h.drains, h.adopted, h.uncommitted, h.endings⟩
  | load =>
    have hreins := Monitor.load_reins s.monitor
    have hdraining : (Monitor.load.runOn s.monitor).2.draining = s.monitor.draining := congrArg (·.1) hreins
    have htasks : (Monitor.load.runOn s.monitor).2.tasks = s.monitor.tasks := congrArg (·.2.2) hreins
    refine ⟨?_, htasks.trans h.adopted, h.uncommitted, h.endings⟩
    exact h.drains.trans (congrArg Bool.toNat hdraining.symm)
  | call c =>
    refine ⟨?_, h.adopted, ?_, h.endings⟩
    · have hcall : c.job.isDrain = false := by cases c <;> rfl
      show List.countP _ (s.threads ++ [⟨c.job, []⟩]) = s.monitor.draining.toNat
      rw [List.countP_append, List.countP_singleton, hcall]
      exact h.drains
    · intro x hx
      rcases List.mem_append.mp hx with hx | hx
      · exact h.uncommitted x hx
      · obtain rfl := List.mem_singleton.mp hx
        exact Drain.uncommitted_nil
  | step k reply => exact h.step k reply
  | cancel k => exact h.cancel k
  | stop => exact ⟨h.drains, h.adopted, h.uncommitted, h.endings⟩

end Serial

theorem serial_of_reachable (h : Reachable s) : Serial s := by
  induction h with
  | new hm =>
    unfold Monitor.new at hm
    split at hm
    · cases hm
    · cases hm
      exact ⟨rfl, rfl, nofun, nofun⟩
  | move move _ ih => exact ih.move move

/-- **Drains are one at a time.** However polls, requests for drains, background tasks and requests to stop
are interleaved: at most one drain is at work, and the monitor knows whether one is. While it is, another
request leaves the monitor as it is and brings nothing, and a poll imports and commits nothing: it only
looks at the answer, and turns its own deferred reload away. A drain that had been asked to stop when its
loop ended has committed nothing; one that ended otherwise, and without a fault, has committed once, after
its last chunk. -/
theorem drains_serialized (h : Reachable s) :
    (s.drains ≤ 1 ∧ (s.drains = 1 ↔ s.monitor.draining = true)) ∧
    (s.drains = 1 →
      (∀ since, (Monitor.startDrain since).runOn s.monitor = (.ok (.finished 0), s.monitor)) ∧
      (Monitor.ask.runOn s.monitor).2.chart = s.monitor.chart ∧
      ∀ poll info, (Monitor.answer poll info).runOn s.monitor =
        (.ok 0, { s.monitor with
          chart := ((s.monitor.chart.observe poll.now info).pollDeferred poll.now).2.takeReload.2
          syncStarted := true
          tasks := if s.monitor.syncStarted then [] else [.sync poll.start] })) ∧
    ∀ e ∈ s.endings,
      (e.stopping = true → Uncommitted e.deeds) ∧
        (e.stopping = false → ∀ total, e.result = some (.ok total) → CommittedOnce e.deeds) := by
  have hserial := serial_of_reachable h
  have hdraining : s.drains = 1 ↔ s.monitor.draining = true := by
    rw [hserial.drains]
    cases s.monitor.draining <;> decide
  refine ⟨⟨?_, hdraining⟩, fun hone => ?_, hserial.endings⟩
  · rw [hserial.drains]
    exact Bool.toNat_le _
  · have hbusy := hdraining.mp hone
    refine ⟨fun since => Monitor.startDrain_of_draining since hbusy, rfl, fun poll info => ?_⟩
    rw [Monitor.answer_of_draining poll info hbusy, hserial.adopted, List.nil_append]

/-! ## A loop at work -/

open HashrateChart.Monitor (reloadingMonitor reloadingConfig)

/-- A sample at 20 s. -/
def nextChunk : HistoryBatch := ⟨0, [20], .replicate [6000]⟩

def silent : Reply := ⟨.error .connection, .ok none⟩

def brings (b : HistoryBatch) : Reply := ⟨.error .connection, .ok (some b)⟩

/-- A drain that comes to its end, another request while it is at work, a drain that is asked to stop
while it waits, and one more that is at work. -/
def busyMoves : List Move :=
  [.call (.drain none), .call (.drain none), .step 0 silent, .step 1 silent, .step 0 (brings Drain.earlyChunk),
    .step 0 silent, .call (.drain none), .step 0 silent, .stop, .step 0 (brings nextChunk),
    .call (.sync 0), .step 0 silent]

def busy : Loop := ({ monitor := reloadingMonitor } : Loop).moveAll busyMoves

theorem reachable_busy : Reachable busy := by
  have hnew : Monitor.new reloadingConfig none 0 = .ok reloadingMonitor := rfl
  exact (Reachable.new hnew).moveAll busyMoves

theorem drains_serialized_of_busy :
    busy.drains = 1 ∧ (Monitor.startDrain none).runOn busy.monitor = (.ok (.finished 0), busy.monitor) ∧
      (∃ e ∈ busy.endings, e.stopping = false ∧ CommittedOnce e.deeds) ∧
      ∃ e ∈ busy.endings, e.stopping = true ∧ Uncommitted e.deeds := by
  obtain ⟨-, hbusy, hendings⟩ := drains_serialized reachable_busy
  have hone : busy.drains = 1 := by decide +kernel
  obtain ⟨e, he, hfree, hgave⟩ : ∃ e ∈ busy.endings, e.stopping = false ∧
      e.result.map Except.toOption = some (some 1) := by decide +kernel
  obtain ⟨r, hr, hok⟩ := Option.map_eq_some_iff.mp hgave
  obtain rfl := ok_of_toOption hok
  obtain ⟨f, hf, hstopped⟩ : ∃ e ∈ busy.endings, e.stopping = true := by decide +kernel
  have hcommitted : CommittedOnce e.deeds := (hendings e he).2 hfree 1 hr
  exact ⟨hone, (hbusy hone).1 none, ⟨e, he, hfree, hcommitted⟩, f, hf, hstopped, (hendings f hf).1 hstopped⟩

end Loop

end HashrateChart
