/-
Every channel waits for its sensor: once a machine was reset, a stage that is enabled was left no
earlier than its delay allows, counted from the first valid reading since that reset and from the
end of the stage before.

The polls may come in any order of time and the delays may be negative. Times have to be positive,
for a time of zero counts as none (`noted`): what the end of a stage then allows would not be
counted from it.
-/
import HashrateChart.Proofs.Warmup.Run

namespace HashrateChart

namespace Warmup

/-! ## First valid readings -/

/-- When a reading was valid for the first time in some polls, the newest first. -/
def firstTime (valid : Poll → Bool) (polls : List Poll) : Option Int :=
  (polls.reverse.find? valid).map Poll.now

theorem firstTime_cons (valid : Poll → Bool) (q : Poll) (polls : List Poll) :
    firstTime valid (q :: polls) = noteFirst (firstTime valid polls) q.now (valid q) := by
  unfold firstTime noteFirst
  rw [List.reverse_cons, List.find?_append]
  cases polls.reverse.find? valid with
  | some p => rfl
  | none => cases h : valid q <;> simp [h]

theorem noteFirst_of_some {t : Option Int} {s : Int} (h : t = some s) (now : Int) (holds : Bool) :
    noteFirst t now holds = some s := by
  subst h
  rfl

/-! ## Delays -/

/-- A delay passed between two times, both of which are known. -/
def Waited (delay : Int) (since until_ : Option Int) : Prop :=
  ∃ s u, since = some s ∧ until_ = some u ∧ delay ≤ u - s

/-- The later of two times, once both are known. -/
def laterOf : Option Int → Option Int → Option Int
  | some s, some t => some (max s t)
  | _, _ => none

/-- The stages that are behind a machine were left after their delays. -/
structure InStages (m : Warmup) : Prop where
  vreg : Stage.asicWait.rank ≤ m.stage.rank →
    Waited m.cfg.vregDelay m.timers.vregFirst m.timers.vregEnabled
  asic : Stage.hashrateWait.rank ≤ m.stage.rank →
    Waited m.cfg.asicDelay (laterOf m.timers.vregEnabled m.timers.asicFirst) m.timers.asicEnabled
  hashrate : Stage.ready.rank ≤ m.stage.rank →
    Waited m.cfg.hashrateDelay (laterOf m.timers.asicEnabled m.timers.liveFirst) m.timers.readyAt

/-- The first valid readings that a machine remembers are those of some polls, the newest first. -/
structure NotesFirst (m : Warmup) (polls : List Poll) : Prop where
  vreg : m.timers.vregFirst = firstTime (·.vregValid m.cfg) polls
  asic : m.timers.asicFirst = firstTime (·.asicValid m.cfg) polls
  live : m.timers.liveFirst = firstTime Poll.liveValid polls

/-- What is true of a machine and the polls since it was reset. -/
structure Staged (m : Warmup) (polls : List Poll) : Prop where
  stages : m.InStages
  firsts : m.NotesFirst polls
  vregEnabled_pos : ∀ t, m.timers.vregEnabled = some t → 0 < t
  asicEnabled_pos : ∀ t, m.timers.asicEnabled = some t → 0 < t

variable {m : Warmup} {polls : List Poll} {now : Int}

theorem laterOf_eq_some {a b : Option Int} {u : Int} (h : laterOf a b = some u) :
    ∃ s t, a = some s ∧ b = some t ∧ u = max s t := by
  unfold laterOf at h
  split at h
  · next s t =>
    cases h
    exact ⟨s, t, rfl, rfl, rfl⟩
  · cases h

theorem noted_of_some {t : Option Int} {s : Int} (h : t = some s) (hs : 0 < s) (now : Int) :
    noted t now = s := by
  subst h
  exact if_neg (Int.ne_of_gt hs)

/-- Noting readings leaves what was waited for. -/
theorem Waited.noteFirst {delay : Int} {since until_ : Option Int} (h : Waited delay since until_)
    (now : Int) (holds : Bool) : Waited delay (noteFirst since now holds) until_ := by
  obtain ⟨s, u, hs, hu, hle⟩ := h
  exact ⟨s, u, noteFirst_of_some hs now holds, hu, hle⟩

theorem Waited.noteFirst_later {delay : Int} {a b until_ : Option Int}
    (h : Waited delay (laterOf a b) until_) (now : Int) (holds : Bool) :
    Waited delay (laterOf a (Warmup.noteFirst b now holds)) until_ := by
  obtain ⟨s, u, hs, hu, hle⟩ := h
  obtain ⟨x, y, ha, hb, rfl⟩ := laterOf_eq_some hs
  exact ⟨_, u, by rw [ha, noteFirst_of_some hb]; rfl, hu, hle⟩

namespace Staged

/-- A machine that was reset waits for everything. -/
theorem of_reset (m : Warmup) (t : Int) : (m.reset t).Staged [] where
  stages := ⟨nofun, nofun, nofun⟩
  firsts := ⟨rfl, rfl, rfl⟩
  vregEnabled_pos _ h := by cases h
  asicEnabled_pos _ h := by cases h

theorem recount (h : m.Staged polls) (streak : Nat) (pending : Bool) :
    { m with streak := streak, breakPending := pending }.Staged polls where
  stages := ⟨h.stages.vreg, h.stages.asic, h.stages.hashrate⟩
  firsts := ⟨h.firsts.vreg, h.firsts.asic, h.firsts.live⟩
  vregEnabled_pos := h.vregEnabled_pos
  asicEnabled_pos := h.asicEnabled_pos

theorem noteFlow (h : m.Staged polls) (t : Int) : (m.noteFlow t).Staged polls where
  stages := ⟨h.stages.vreg, h.stages.asic, h.stages.hashrate⟩
  firsts := ⟨h.firsts.vreg, h.firsts.asic, h.firsts.live⟩
  vregEnabled_pos := h.vregEnabled_pos
  asicEnabled_pos := h.asicEnabled_pos

/-- A stage beyond the first wait is one that a poll did not start. -/
theorem rank_of_begun {s : Stage} {n : Nat} (hn : 2 ≤ n) (h : n ≤ (transition s .start).rank) :
    n ≤ s.rank := by
  cases s with
  | locked => exact absurd (Nat.le_trans hn h) (by decide)
  | _ => exact h

/-- A poll that is read belongs to the polls since the reset. -/
theorem begun (h : m.Staged polls) (q : Poll) : (m.begun q).Staged (q :: polls) where
  stages := by
    refine ⟨fun hr => ?_, fun hr => ?_, fun hr => ?_⟩
    · exact (h.stages.vreg (rank_of_begun (by decide) hr)).noteFirst _ _
    · exact (h.stages.asic (rank_of_begun (by decide) hr)).noteFirst_later _ _
    · exact (h.stages.hashrate (rank_of_begun (by decide) hr)).noteFirst_later _ _
  firsts := by
    refine ⟨?_, ?_, ?_⟩
    · exact (congrArg (Warmup.noteFirst · q.now _) h.firsts.vreg).trans (firstTime_cons _ q polls).symm
    · exact (congrArg (Warmup.noteFirst · q.now _) h.firsts.asic).trans (firstTime_cons _ q polls).symm
    · exact (congrArg (Warmup.noteFirst · q.now _) h.firsts.live).trans (firstTime_cons _ q polls).symm
  vregEnabled_pos := h.vregEnabled_pos
  asicEnabled_pos := h.asicEnabled_pos

/-- A stage is left when its delay is over, and the next delay counts from then on. -/
theorem left (h : m.Staged polls) (hnow : 0 < now) (hd : m.isDue now = true) : (m.left now).Staged polls := by
  have hpos : ∀ t, some now = some t → 0 < t := fun t ht => Option.some.inj ht ▸ hnow
  rcases left_cases hd with
    ⟨hs, ⟨first, hf, hle⟩, hl⟩ | ⟨hs, ⟨first, hf, hle⟩, hl⟩ | ⟨hs, ⟨first, hf, hle⟩, hl⟩
  · rw [hl]
    exact {
      stages := ⟨fun _ => ⟨first, now, hf, rfl, hle⟩, nofun, nofun⟩
      firsts := ⟨h.firsts.vreg, h.firsts.asic, h.firsts.live⟩
      vregEnabled_pos := hpos
      asicEnabled_pos := h.asicEnabled_pos }
  · have hvreg := h.stages.vreg (le_rank_of_stage hs (by decide))
    obtain ⟨-, enabled, -, he, -⟩ := h.stages.vreg (le_rank_of_stage hs (by decide))
    rw [noted_of_some he (h.vregEnabled_pos _ he)] at hle
    rw [hl]
    exact {
      stages := ⟨fun _ => hvreg, fun _ => ⟨max enabled first, now, by rw [he, hf]; rfl, rfl, hle⟩, nofun⟩
      firsts := ⟨h.firsts.vreg, h.firsts.asic, h.firsts.live⟩
      vregEnabled_pos := h.vregEnabled_pos
      asicEnabled_pos := hpos }
  · have hvreg := h.stages.vreg (le_rank_of_stage hs (by decide))
    have hasic := h.stages.asic (le_rank_of_stage hs (by decide))
    obtain ⟨-, enabled, -, he, -⟩ := h.stages.asic (le_rank_of_stage hs (by decide))
    rw [noted_of_some he (h.asicEnabled_pos _ he)] at hle
    rw [hl]
    exact {
      stages := ⟨fun _ => hvreg, fun _ => hasic,
        fun _ => ⟨max enabled first, now, by rw [he, hf]; rfl, rfl, hle⟩⟩
      firsts := ⟨h.firsts.vreg, h.firsts.asic, h.firsts.live⟩
      vregEnabled_pos := h.vregEnabled_pos
      asicEnabled_pos := h.asicEnabled_pos }

/-- A machine that is ready has had its first valid readings: another poll does not change them. -/
theorem seen (h : m.Staged polls) (hs : m.stage = .ready) (q : Poll) : m.Staged (q :: polls) := by
  obtain ⟨vreg, -, hvreg, -⟩ := h.stages.vreg (le_rank_of_stage hs (by decide))
  obtain ⟨later, -, hlater, -⟩ := h.stages.asic (le_rank_of_stage hs (by decide))
  obtain ⟨-, asic, -, hasic, -⟩ := laterOf_eq_some hlater
  obtain ⟨last, -, hlast, -⟩ := h.stages.hashrate (le_rank_of_stage hs (by decide))
  obtain ⟨-, live, -, hlive, -⟩ := laterOf_eq_some hlast
  refine { h with firsts := ⟨?_, ?_, ?_⟩ }
  · rw [firstTime_cons, ← h.firsts.vreg, hvreg]
    rfl
  · rw [firstTime_cons, ← h.firsts.asic, hasic]
    rfl
  · rw [firstTime_cons, ← h.firsts.live, hlive]
    rfl

/-- A poll that finds no restart keeps what is true of a machine. -/
theorem observe (h : m.Staged polls) (q : Poll) (hnow : 0 < q.now)
    (hquiet : (Step.mk m (.observe q)).detects = false) : (m.after (.observe q)).Staged (q :: polls) := by
  by_cases hs : m.stage = .ready
  · rw [after_of_quiet hs hquiet]
    exact (h.seen hs q).recount _ m.breakPending
  · rw [after_observe_of_waiting hs]
    exact walk_induction (I := fun w => w.Staged (q :: polls)) (fun w hd hw => hw.left hnow hd) (h.begun q)

end Staged

/-! ## Runs -/

/-- Whether a step sets the machine back, from outside or by a restart that a poll finds. -/
def Step.resets (s : Step) : Bool := s.isReset || s.detects

/-- The steps since the machine was reset last. -/
def sinceReset (past : List Step) : List Step := past.takeWhile fun s => !s.resets

/-- A step that sets the machine back leaves it as a reset does. -/
theorem Staged.of_resets {call : Call} (h : (Step.mk m call).resets = true) : (m.after call).Staged [] := by
  cases call with
  | observe q =>
    rw [(after_of_detects h).2]
    exact (of_reset m q.now).recount _ _
  | flow t => cases h
  | consume => cases h
  | reset t => exact of_reset m t

/-- Any other step keeps what is true of a machine and the polls since it was reset. -/
theorem Staged.step {call : Call} {since : List Step} (h : m.Staged (since.filterMap Step.poll?))
    (hpos : ∀ q, call = .observe q → 0 < q.now) (hr : (Step.mk m call).resets = false) :
    (m.after call).Staged ((⟨m, call⟩ :: since).filterMap Step.poll?) := by
  cases call with
  | observe q =>
    exact h.observe q (hpos q rfl) (Bool.or_eq_false_iff.mp hr).2
  | flow t => exact h.noteFlow t
  | consume => exact h.recount _ false
  | reset t => cases hr

/-- **Every channel waits for its sensor.** After a run with positive times of polls in which the
machine was reset, a stage that is enabled has its delay behind it: that of the regulator since its
first valid reading, that of the chip since the later one of the regulator's end and the chip's first
valid reading, that of the hashrates since the later one of the chip's end and the first valid live
hashrate. The first valid readings are those since the last reset. -/
theorem staged_of_run (m : Warmup) {calls : List Call} (hpos : ∀ q, Call.observe q ∈ calls → 0 < q.now)
    (hreset : ∃ s ∈ m.history calls, s.resets = true) :
    (m.afterAll calls).cfg = m.cfg ∧ (m.afterAll calls).InStages ∧
      (m.afterAll calls).NotesFirst ((sinceReset (m.history calls)).filterMap Step.poll?) := by
  have h : (∃ s ∈ m.history calls, s.resets = true) →
      (m.afterAll calls).Staged ((sinceReset (m.history calls)).filterMap Step.poll?) := by
    refine history_induction (I := fun w past => (∃ s ∈ past, s.resets = true) →
      w.Staged ((sinceReset past).filterMap Step.poll?)) (fun ⟨_, hs, _⟩ => absurd hs List.not_mem_nil) ?_
    intro w past call hc ih hex
    cases hr : (Step.mk w call).resets with
    | true =>
      rw [sinceReset, List.takeWhile_cons_of_neg (by simp [hr])]
      exact .of_resets hr
    | false =>
      obtain ⟨s, hs, hsr⟩ := hex
      rcases List.mem_cons.mp hs with rfl | hs
      · cases hr.symm.trans hsr
      · rw [sinceReset, List.takeWhile_cons_of_pos (by simp [hr])]
        exact (ih ⟨s, hs, hsr⟩).step (fun q hq => hpos q (hq ▸ hc)) hr
  exact ⟨cfg_afterAll m calls, (h hreset).stages, (h hreset).firsts⟩

/-- A poll of a device that works. -/
def soundPoll (now : Int) : Poll := ⟨now, .int 50, .int 60, .int 900, true⟩

/-- A poll of a device that says nothing. -/
def silentPoll (now : Int) : Poll := ⟨now, missing, missing, missing, false⟩

/-- A boot after a reset: the sensors say nothing at first, and an older poll comes late. -/
def slowBoot : List Call :=
  [.reset 500, .observe (silentPoll 600), .observe (soundPoll 1000), .flow 1100, .observe (soundPoll 700),
    .observe (soundPoll 2337), .observe (soundPoll 3087), .observe (silentPoll 3337)]

theorem staged_of_slow_boot :
    ((Warmup.new {} .ready).afterAll slowBoot).stage = .ready ∧
      ((Warmup.new {} .ready).afterAll slowBoot).timers.vregFirst = some 1000 ∧
      ((Warmup.new {} .ready).afterAll slowBoot).cfg = {} ∧
      ((Warmup.new {} .ready).afterAll slowBoot).InStages ∧
      ((Warmup.new {} .ready).afterAll slowBoot).NotesFirst
        ((sinceReset ((Warmup.new {} .ready).history slowBoot)).filterMap Step.poll?) :=
  have hpos : ∀ q, Call.observe q ∈ slowBoot → 0 < q.now := by simp [slowBoot, soundPoll, silentPoll]
  have hreset : ∃ s ∈ (Warmup.new {} .ready).history slowBoot, s.resets = true :=
    ⟨⟨.new {} .ready, .reset 500⟩, by simp [slowBoot, history, historyAfter], rfl⟩
  ⟨by decide +kernel, by decide +kernel, staged_of_run _ hpos hreset⟩

end Warmup

end HashrateChart
