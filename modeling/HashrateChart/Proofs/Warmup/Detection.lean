/-
When a live poll finds a restart, and when its gap is pending.

The machine remembers a count and a flag, and the rules are about the polls of a run. The count is
how many polls in a row, the last one among them, looked like a boot since the machine became ready
(`Counts`): it is zero whenever the machine is not ready, so no count outlives a reset or a
restart. The flag says that a restart was found since it was looked at last (`Pends`); no reset
clears it.
-/
import HashrateChart.Proofs.Warmup.Run

namespace HashrateChart

namespace Warmup

/-! ## Polls in a row -/

namespace Step

/-- Whether a poll of a ready machine looks like a boot. -/
def boots (s : Step) : Bool :=
  decide (s.before.stage = .ready) && s.poll?.any (·.isBootLike s.before.cfg)

end Step

/-- The polls since the machine became ready or was reset from outside. -/
def readyPolls (past : List Step) : List Step :=
  (past.takeWhile fun s => !(s.isReset || s.entersReady)).filter (·.poll?.isSome)

/-- The steps since the pending gap was looked at. -/
def sinceConsume (past : List Step) : List Step := past.takeWhile fun s => !s.isConsume

/-- The newest so many polls of a ready machine all looked like a boot. -/
def BootsInARow (n : Nat) (polls : List Step) : Prop :=
  n ≤ polls.length ∧ ∀ s ∈ polls.take n, s.boots = true

variable {m : Warmup} {past : List Step} {polls : List Step}

theorem bootsInARow_zero (polls : List Step) : BootsInARow 0 polls :=
  ⟨Nat.zero_le _, fun _ hs => absurd hs List.not_mem_nil⟩

theorem bootsInARow_nil {n : Nat} : BootsInARow n [] ↔ n = 0 := by
  constructor
  · exact fun h => Nat.le_zero.mp h.1
  · rintro rfl
    exact bootsInARow_zero []

theorem bootsInARow_succ {n : Nat} {s : Step} :
    BootsInARow (n + 1) (s :: polls) ↔ s.boots = true ∧ BootsInARow n polls := by
  simp only [BootsInARow, List.length_cons, Nat.add_le_add_iff_right, List.take_succ_cons,
    List.forall_mem_cons]
  exact and_left_comm

/-! ## The count -/

/-- The count is that of the polls in a row that looked like a boot. -/
structure Counts (m : Warmup) (past : List Step) : Prop where
  ready : m.stage = .ready → ∀ n, BootsInARow n (readyPolls past) ↔ n ≤ m.streak
  waiting : m.stage ≠ .ready → m.streak = 0

theorem streak_walk (m : Warmup) (now : Int) : (m.walk now).streak = m.streak := by
  refine walk_induction (I := fun w => w.streak = m.streak) (fun w _ hw => ?_) rfl
  unfold left
  split <;> exact hw

theorem readyPolls_of_begins {s : Step} (h : (s.isReset || s.entersReady) = true) :
    readyPolls (s :: past) = [] := by
  rw [readyPolls, List.takeWhile_cons_of_neg (by simp [h])]
  rfl

theorem readyPolls_of_poll {s : Step} (h : (s.isReset || s.entersReady) = false)
    (hp : s.poll?.isSome = true) : readyPolls (s :: past) = s :: readyPolls past := by
  rw [readyPolls, List.takeWhile_cons_of_pos (by simp [h])]
  exact List.filter_cons_of_pos hp

/-- A call that is no poll and no reset keeps the stage, so it begins nothing. -/
theorem readyPolls_of_aside {s : Step} (hr : s.isReset = false) (hs : s.after.stage = s.before.stage)
    (hp : s.poll? = none) : readyPolls (s :: past) = readyPolls past := by
  have he : s.entersReady = false := by
    unfold Step.entersReady
    rw [hs]
    cases h : decide (s.before.stage = .ready) <;> simp_all
  rw [readyPolls, List.takeWhile_cons_of_pos (by simp [hr, he]), List.filter_cons_of_neg (by simp [hp])]
  rfl

namespace Counts

theorem new (cfg : WarmupConfig) (stage : Stage) : (Warmup.new cfg stage).Counts [] where
  ready _ n := by
    rw [show readyPolls [] = [] from rfl, bootsInARow_nil]
    exact Nat.le_zero.symm
  waiting _ := rfl

/-- A poll of a ready machine counts on, counts from zero, or finds a restart. -/
theorem observe_ready (h : m.Counts past) (hs : m.stage = .ready) (q : Poll) :
    (m.after (.observe q)).Counts (⟨m, .observe q⟩ :: past) := by
  rcases after_observe_ready_cases hs q with ⟨-, ha⟩ | ⟨-, ha⟩
  · rw [ha]
    exact ⟨nofun, fun _ => rfl⟩
  · have hnew : readyPolls (⟨m, .observe q⟩ :: past) = ⟨m, .observe q⟩ :: readyPolls past :=
      readyPolls_of_poll (by simp [Step.isReset, Step.entersReady, hs]) rfl
    have hboots : (Step.mk m (.observe q)).boots = q.isBootLike m.cfg := by simp [Step.boots, Step.poll?, hs]
    rw [ha]
    refine ⟨fun _ n => ?_, fun hn => absurd hs hn⟩
    rw [hnew]
    cases n with
    | zero => exact iff_of_true (bootsInARow_zero _) (Nat.zero_le _)
    | succ n =>
      rw [bootsInARow_succ, hboots, h.ready hs]
      cases q.isBootLike m.cfg <;> simp

/-- A poll of a machine that is not ready counts nothing, whether or not it becomes ready. -/
theorem observe_waiting (h : m.Counts past) (hs : m.stage ≠ .ready) (q : Poll) :
    (m.after (.observe q)).Counts (⟨m, .observe q⟩ :: past) := by
  have hzero : (m.after (.observe q)).streak = 0 := by
    rw [after_observe_of_waiting hs, streak_walk]
    exact h.waiting hs
  refine ⟨fun hr n => ?_, fun _ => hzero⟩
  have henters : (Step.mk m (.observe q)).entersReady = true := by
    rw [Step.entersReady, decide_eq_true hs, Bool.true_and]
    exact decide_eq_true hr
  rw [readyPolls_of_begins (by rw [henters, Bool.or_true]), bootsInARow_nil, hzero, Nat.le_zero]

/-- A call that is no poll and no reset leaves the count alone. -/
theorem aside {call : Call} (h : m.Counts past) (hp : (Step.mk m call).poll? = none)
    (hr : (Step.mk m call).isReset = false) (hs : (m.after call).stage = m.stage)
    (hn : (m.after call).streak = m.streak) : (m.after call).Counts (⟨m, call⟩ :: past) := by
  have haside : readyPolls (⟨m, call⟩ :: past) = readyPolls past := readyPolls_of_aside hr hs hp
  refine ⟨fun hready n => ?_, fun hwait => ?_⟩
  · rw [haside, hn]
    exact h.ready (hs ▸ hready) n
  · rw [hn]
    exact h.waiting (hs ▸ hwait)

theorem step (h : m.Counts past) (call : Call) : (m.after call).Counts (⟨m, call⟩ :: past) := by
  cases call with
  | observe q =>
    by_cases hs : m.stage = .ready
    · exact h.observe_ready hs q
    · exact h.observe_waiting hs q
  | flow t => exact h.aside rfl rfl rfl rfl
  | consume => exact h.aside rfl rfl rfl rfl
  | reset t => exact ⟨nofun, fun _ => rfl⟩

/-- A restart is found exactly when enough polls in a row looked like a boot. -/
theorem detects_iff (h : m.Counts past) (q : Poll) :
    (Step.mk m (.observe q)).detects = true ↔
      BootsInARow (max 1 m.cfg.restartStreak).toNat (⟨m, .observe q⟩ :: readyPolls past) := by
  obtain ⟨k, hk⟩ : ∃ k : Nat, max 1 m.cfg.restartStreak = ((k + 1 : Nat) : Int) :=
    ⟨(max 1 m.cfg.restartStreak).toNat - 1, by omega⟩
  rw [hk, Int.toNat_natCast, bootsInARow_succ]
  have hboots : (Step.mk m (.observe q)).boots = true ↔ m.stage = .ready ∧ q.isBootLike m.cfg = true := by
    simp [Step.boots, Step.poll?]
  rw [hboots, detects_observe_iff, Restarts]
  constructor
  · rintro ⟨hs, hb, hn⟩
    exact ⟨⟨hs, hb⟩, (h.ready hs k).mpr (by omega)⟩
  · rintro ⟨⟨hs, hb⟩, hrow⟩
    have hn := (h.ready hs k).mp hrow
    exact ⟨hs, hb, by omega⟩

end Counts

/-! ## The pending gap -/

/-- A gap is pending when a restart was found since it was looked at last. -/
def Pends (m : Warmup) (past : List Step) : Prop :=
  m.breakPending = true ↔ ∃ s ∈ sinceConsume past, s.detects = true

theorem sinceConsume_cons {s : Step} (h : s.call ≠ .consume) :
    sinceConsume (s :: past) = s :: sinceConsume past := by
  rw [sinceConsume, List.takeWhile_cons_of_pos (by simp [Step.isConsume, h])]
  rfl

namespace Pends

/-- Nothing pends when nothing has happened since the last look. -/
theorem of_nil (hb : m.breakPending = false) (h : sinceConsume past = []) : m.Pends past := by
  rw [Pends, hb, h]
  exact iff_of_false Bool.false_ne_true fun ⟨_, hs, _⟩ => absurd hs List.not_mem_nil

/-- A step that finds no restart leaves the gap as it was. -/
theorem quiet {call : Call} (h : m.Pends past) (hc : call ≠ .consume) (hd : (Step.mk m call).detects = false)
    (hb : (m.after call).breakPending = m.breakPending) : (m.after call).Pends (⟨m, call⟩ :: past) := by
  rw [Pends, sinceConsume_cons hc, hb]
  rw [Pends] at h
  simp [h, hd]

theorem step (h : m.Pends past) (call : Call) : (m.after call).Pends (⟨m, call⟩ :: past) := by
  cases call with
  | observe q =>
    cases hd : (Step.mk m (.observe q)).detects with
    | false =>
      refine h.quiet nofun hd ?_
      by_cases hs : m.stage = .ready
      · rw [after_of_quiet hs hd]
      · rw [after_observe_of_waiting hs, walk_breakPending]
        rfl
    | true =>
      refine iff_of_true (congrArg breakPending (after_of_detects hd).2) ⟨_, ?_, hd⟩
      rw [sinceConsume_cons (by simp)]
      exact List.mem_cons_self
  | flow t => exact h.quiet nofun rfl rfl
  | consume => exact .of_nil rfl rfl
  | reset t => exact h.quiet nofun rfl rfl

end Pends

/-- **A restart is found exactly, and its gap is pending once.** In every run of a new machine a poll
takes it from ready to locked exactly when this poll and those just before it, as many as the
configuration asks for and at least one, were all made while the machine was ready, since it became
ready or was made or reset, and all looked like a boot. And the pending gap is found exactly when a
poll has found a restart since it was looked at last. -/
theorem restart_found_of_run (cfg : WarmupConfig) (stage : Stage) (calls : List Call) :
    let m := (Warmup.new cfg stage).afterAll calls
    let past := (Warmup.new cfg stage).history calls
    (∀ q, (Step.mk m (.observe q)).detects = true ↔
      BootsInARow (max 1 cfg.restartStreak).toNat (⟨m, .observe q⟩ :: readyPolls past)) ∧
    (m.consumeBreak.1 = true ↔ ∃ s ∈ sinceConsume past, s.detects = true) := by
  intro m past
  have hcounts : m.Counts past :=
    history_induction (I := Counts) (.new cfg stage) fun w past call _ hw => hw.step call
  have hpends : m.Pends past :=
    history_induction (I := Pends) (.of_nil rfl rfl) fun w past call _ hw => hw.step call
  have hcfg : m.cfg = cfg := cfg_afterAll _ calls
  exact ⟨fun q => hcfg ▸ hcounts.detects_iff q, hpends⟩

end Warmup

end HashrateChart
