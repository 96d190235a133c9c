/-
Runs of the warmup, and the history of a run.

The history holds every call with the machine that it was made of, the newest first. What
happened since an event, be it a reset, the start of the ready stage or the last look at the
pending gap, is the front of the history up to the step that was this event. So a rule about the
time since an event is one about the history, and does not speak of what the machine remembers.

A poll of a machine that is ready looks for a restart and does nothing else. Any other poll notes
which readings are valid and then leaves as many stages as it can; a stage is left exactly when it
is due (`advance_eq`).
-/
import HashrateChart.Proofs.Action
import HashrateChart.Proofs.Warmup

namespace HashrateChart

namespace Warmup

/-- A live poll: its time, what the sensors read, and whether the device described itself. -/
structure Poll where
  now : Int
  vreg : Number
  asic : Number
  live : Number
  systemOk : Bool
  deriving DecidableEq

namespace Poll

variable (cfg : WarmupConfig) (q : Poll)

def vregValid : Bool := isTempValid cfg q.vreg

def asicValid : Bool := isTempValid cfg q.asic

/-- A live hashrate counts once the device has described itself. -/
def liveValid : Bool := isLive q.live && q.systemOk

/-- Whether a poll is one of a device that boots. -/
def isBootLike : Bool :=
  !isLive q.live && (isTempCold cfg q.vreg || isTempCold cfg q.asic || !q.systemOk)

end Poll

/-- What can be asked of a machine. -/
inductive Call where
  | observe (q : Poll)
  | flow (t : Int)
  | consume
  | reset (at_ : Int)
  deriving DecidableEq

/-- The machine after a call. -/
def after (m : Warmup) : Call → Warmup
  | .observe q => ((observe q.now (.ok q.vreg) (.ok q.asic) (.ok q.live) q.systemOk).runOn m).2
  | .flow t => m.noteFlow t
  | .consume => m.consumeBreak.2
  | .reset t => m.reset t

def afterAll (m : Warmup) (calls : List Call) : Warmup := calls.foldl after m

@[simp] theorem afterAll_nil (m : Warmup) : m.afterAll [] = m := rfl

@[simp] theorem afterAll_cons (m : Warmup) (call : Call) (calls : List Call) :
    m.afterAll (call :: calls) = (m.after call).afterAll calls := rfl

theorem afterAll_concat (m : Warmup) (calls : List Call) (call : Call) :
    m.afterAll (calls ++ [call]) = (m.afterAll calls).after call := by simp [afterAll]

/-! ## One poll -/

variable {m : Warmup} {now : Int} {q : Poll}

/-- Beside a time that was noted a reading makes no difference. -/
theorem noteFirst_unread (cfg : WarmupConfig) (t : Option Int) (now : Int) (x : Number) :
    noteFirst t now (isTempValid cfg (if t.isNone then x else missing)) =
      noteFirst t now (isTempValid cfg x) := by
  cases t <;> rfl

/-- Beside a cold regulator the chip makes no difference. -/
theorem isTempCold_unread (cfg : WarmupConfig) (x y : Number) :
    (isTempCold cfg x || isTempCold cfg (if isTempCold cfg x then missing else y)) =
      (isTempCold cfg x || isTempCold cfg y) := by
  cases isTempCold cfg x <;> rfl

/-- Readings that can be read are taken as a poll, whichever of them are left out. -/
theorem after_observe (m : Warmup) (q : Poll) :
    m.after (.observe q) = m.poll q.now q.vreg q.asic q.live q.systemOk := by
  simp only [after, observe, Action.runOn_bind, Action.runOn_liftM, Action.runOn_get]
  by_cases h : m.stage = .ready
  · simp only [if_pos h, Action.runOn_bind, Action.runOn_liftM, Action.runOn_set, ← apply_ite Except.ok]
    simp only [poll, if_pos h, isTempCold_unread]
    rfl
  · simp only [if_neg h, Action.runOn_bind, Action.runOn_liftM, Action.runOn_set, Action.runOn_modify,
      ← apply_ite Except.ok]
    simp only [poll, if_neg h, noteReadings, noteFirst_unread]
    rfl

/-- The machine that a poll has started, with what the poll reads. -/
def begun (m : Warmup) (q : Poll) : Warmup :=
  { m with stage := transition m.stage .start }.noteReadings q.now q.vreg q.asic q.live q.systemOk

theorem after_observe_of_ready (h : m.stage = .ready) (q : Poll) :
    m.after (.observe q) = m.checkRestart q.now (q.isBootLike m.cfg) :=
  (after_observe m q).trans (if_pos h)

theorem after_observe_of_waiting (h : m.stage ≠ .ready) (q : Poll) :
    m.after (.observe q) = (m.begun q).walk q.now :=
  (after_observe m q).trans (if_neg h)

/-- Whether the machine has found a restart by a poll: this one and those before it make enough. -/
def Restarts (m : Warmup) (q : Poll) : Prop :=
  q.isBootLike m.cfg = true ∧ max 1 m.cfg.restartStreak ≤ ((m.streak + 1 : Nat) : Int)

/-- A machine that is ready is locked by a restart; any other poll only counts. -/
theorem after_observe_ready_cases (h : m.stage = .ready) (q : Poll) :
    (m.Restarts q ∧ m.after (.observe q) = { m.reset q.now with breakPending := true }) ∨
    (¬ m.Restarts q ∧
      m.after (.observe q) = { m with streak := if q.isBootLike m.cfg then m.streak + 1 else 0 }) := by
  rw [after_observe_of_ready h, checkRestart, Restarts]
  dsimp only
  cases q.isBootLike m.cfg with
  | false => exact .inr ⟨fun hr => Bool.false_ne_true hr.1, rfl⟩
  | true =>
    by_cases hn : max 1 m.cfg.restartStreak ≤ ((m.streak + 1 : Nat) : Int)
    · exact .inl ⟨⟨rfl, hn⟩, if_pos hn⟩
    · exact .inr ⟨fun hr => hn hr.2, if_neg hn⟩

/-! ## One stage -/

theorem le_rank_of_stage {stage : Stage} {n : Nat} (h : m.stage = stage) (hn : n ≤ stage.rank) :
    n ≤ m.stage.rank := h ▸ hn

/-- Whether the delay of the current stage is over. -/
def isDue (m : Warmup) (now : Int) : Bool :=
  let t := m.timers
  match m.stage with
  | .vregWait => t.vregFirst.any fun first => decide (m.cfg.vregDelay ≤ now - first)
  | .asicWait => t.asicFirst.any fun first =>
      decide (m.cfg.asicDelay ≤ now - max (noted t.vregEnabled now) first)
  | .hashrateWait => t.liveFirst.any fun first =>
      decide (m.cfg.hashrateDelay ≤ now - max (noted t.asicEnabled now) first)
  | _ => false

/-- The machine that leaves its stage. -/
def left (m : Warmup) (now : Int) : Warmup :=
  match m.stage with
  | .vregWait => { m with stage := .asicWait, timers := { m.timers with vregEnabled := some now } }
  | .asicWait => { m with stage := .hashrateWait, timers := { m.timers with asicEnabled := some now } }
  | .hashrateWait => { m with stage := .ready, timers := { m.timers with readyAt := some now } }
  | _ => m

theorem advance_eq (m : Warmup) (now : Int) : m.advance now = if m.isDue now then m.left now else m := by
  unfold advance isDue left
  dsimp only
  -- every stage waits for a time of its own
  cases m.stage with
  | vregWait =>
    dsimp only
    split
    · next hf => simp [hf, transition]
    · next hf => simp [hf]
  | asicWait =>
    dsimp only
    split
    · next hf => simp [hf, transition]
    · next hf => simp [hf]
  | hashrateWait =>
    dsimp only
    split
    · next hf => simp [hf, transition]
    · next hf => simp [hf]
  | _ => rfl

/-- Which stage is left when one is due, and why. -/
theorem left_cases (h : m.isDue now = true) :
    (m.stage = .vregWait ∧
      (∃ first, m.timers.vregFirst = some first ∧ m.cfg.vregDelay ≤ now - first) ∧
      m.left now = { m with stage := .asicWait, timers := { m.timers with vregEnabled := some now } }) ∨
    (m.stage = .asicWait ∧
      (∃ first, m.timers.asicFirst = some first ∧
        m.cfg.asicDelay ≤ now - max (noted m.timers.vregEnabled now) first) ∧
      m.left now = { m with stage := .hashrateWait, timers := { m.timers with asicEnabled := some now } }) ∨
    (m.stage = .hashrateWait ∧
      (∃ first, m.timers.liveFirst = some first ∧
        m.cfg.hashrateDelay ≤ now - max (noted m.timers.asicEnabled now) first) ∧
      m.left now = { m with stage := .ready, timers := { m.timers with readyAt := some now } }) := by
  unfold isDue at h
  unfold left
  cases hs : m.stage with
  | vregWait =>
    simp only [hs, Option.any_eq_true, decide_eq_true_eq] at h
    exact .inl ⟨rfl, h, rfl⟩
  | asicWait =>
    simp only [hs, Option.any_eq_true, decide_eq_true_eq] at h
    exact .inr (.inl ⟨rfl, h, rfl⟩)
  | hashrateWait =>
    simp only [hs, Option.any_eq_true, decide_eq_true_eq] at h
    exact .inr (.inr ⟨rfl, h, rfl⟩)
  | locked => simp [hs] at h
  | ready => simp [hs] at h

/-- What every stage that is left keeps, the walk of a poll keeps. -/
theorem walk_induction {I : Warmup → Prop} (left : ∀ m, m.isDue now = true → I m → I (m.left now))
    (h : I m) : I (m.walk now) := by
  have step (m : Warmup) (h : I m) : I (m.advance now) := by
    rw [advance_eq]
    split
    · next hd => exact left m hd h
    · exact h
  exact step _ (step _ (step _ h))

theorem cfg_left (m : Warmup) (now : Int) : (m.left now).cfg = m.cfg := by
  unfold left
  split <;> rfl

theorem cfg_walk (m : Warmup) (now : Int) : (m.walk now).cfg = m.cfg :=
  walk_induction (I := fun w => w.cfg = m.cfg) (fun w _ hw => (cfg_left w now).trans hw) rfl

theorem cfg_checkRestart (m : Warmup) (now : Int) (bootLike : Bool) :
    (m.checkRestart now bootLike).cfg = m.cfg := by
  unfold checkRestart
  dsimp only
  split
  · split <;> rfl
  · rfl

/-- No call changes the configuration. -/
theorem cfg_after (m : Warmup) (call : Call) : (m.after call).cfg = m.cfg := by
  cases call with
  | observe q =>
    by_cases h : m.stage = .ready
    · rw [after_observe_of_ready h, cfg_checkRestart]
    · rw [after_observe_of_waiting h, cfg_walk]
      rfl
  | flow t => rfl
  | consume => rfl
  | reset t => rfl

/-! ## Histories -/

/-- A call and the machine that it was made of. -/
structure Step where
  before : Warmup
  call : Call

namespace Step

def after (s : Step) : Warmup := s.before.after s.call

/-- The poll of a step that is one. -/
def poll? (s : Step) : Option Poll :=
  match s.call with
  | .observe q => some q
  | _ => none

/-- Whether a poll has found a restart: a machine that was ready is locked. -/
def detects (s : Step) : Bool :=
  s.poll?.isSome && decide (s.before.stage = .ready) && decide (s.after.stage = .locked)

theorem detects_iff {s : Step} : s.detects = true ↔
    s.poll?.isSome = true ∧ s.before.stage = .ready ∧ s.after.stage = .locked := by
  rw [detects, Bool.and_eq_true, Bool.and_eq_true, decide_eq_true_iff, decide_eq_true_iff, and_assoc]

/-- Whether the machine was reset from outside. -/
def isReset (s : Step) : Bool :=
  match s.call with
  | .reset _ => true
  | _ => false

/-- Whether the pending gap was looked at. -/
def isConsume (s : Step) : Bool := decide (s.call = .consume)

/-- Whether the machine becomes ready. -/
def entersReady (s : Step) : Bool := decide (s.before.stage ≠ .ready) && decide (s.after.stage = .ready)

end Step

/-- A poll finds a restart when the machine is ready and there are enough such polls; it is reset then
and a gap is pending. -/
theorem after_of_detects (h : (Step.mk m (.observe q)).detects = true) :
    m.Restarts q ∧ m.after (.observe q) = { m.reset q.now with breakPending := true } := by
  obtain ⟨-, hs, hl⟩ := Step.detects_iff.mp h
  rcases after_observe_ready_cases hs q with hr | ⟨-, ha⟩
  · exact hr
  · -- a poll that only counts leaves the machine ready
    have hl : (m.after (.observe q)).stage = .locked := hl
    rw [ha] at hl
    cases hs.symm.trans hl

theorem detects_observe_iff :
    (Step.mk m (.observe q)).detects = true ↔ m.stage = .ready ∧ m.Restarts q := by
  refine ⟨fun h => ⟨(Step.detects_iff.mp h).2.1, (after_of_detects h).1⟩, fun ⟨hs, hr⟩ => ?_⟩
  rcases after_observe_ready_cases hs q with ⟨-, ha⟩ | ⟨hn, -⟩
  · exact Step.detects_iff.mpr ⟨rfl, hs, congrArg Warmup.stage ha⟩
  · exact absurd hr hn

/-- A poll that finds no restart leaves a ready machine ready. -/
theorem after_of_quiet (hs : m.stage = .ready) (h : (Step.mk m (.observe q)).detects = false) :
    m.after (.observe q) = { m with streak := if q.isBootLike m.cfg then m.streak + 1 else 0 } := by
  rcases after_observe_ready_cases hs q with ⟨hr, -⟩ | ⟨-, ha⟩
  · cases h.symm.trans (detects_observe_iff.mpr ⟨hs, hr⟩)
  · exact ha

/-- The history after more calls. -/
def historyAfter (m : Warmup) (past : List Step) : List Call → List Step
  | [] => past
  | call :: calls => (m.after call).historyAfter (⟨m, call⟩ :: past) calls

/-- The steps of a run, the newest first. -/
def history (m : Warmup) (calls : List Call) : List Step := m.historyAfter [] calls

theorem historyAfter_induction {I : Warmup → List Step → Prop} {past : List Step} {calls : List Call}
    (h : I m past) (step : ∀ m past, ∀ call ∈ calls, I m past → I (m.after call) (⟨m, call⟩ :: past)) :
    I (m.afterAll calls) (m.historyAfter past calls) := by
  induction calls generalizing m past with
  | nil => exact h
  | cons call calls ih =>
    exact ih (step m past call List.mem_cons_self h) fun m past other ho =>
      step m past other (List.mem_cons_of_mem _ ho)

/-- What every call keeps of a machine and its history holds after a run. -/
theorem history_induction {I : Warmup → List Step → Prop} {calls : List Call} (h : I m [])
    (step : ∀ m past, ∀ call ∈ calls, I m past → I (m.after call) (⟨m, call⟩ :: past)) :
    I (m.afterAll calls) (m.history calls) := historyAfter_induction h step

theorem cfg_afterAll (m : Warmup) (calls : List Call) : (m.afterAll calls).cfg = m.cfg :=
  history_induction (I := fun w _ => w.cfg = m.cfg) rfl fun w _ call _ hw => (cfg_after w call).trans hw

end Warmup

end HashrateChart
