/-
The jobs around a monitor, as an event loop runs them, and what each does at once.

A poll, a request for a drain and a background task are jobs. A job runs alone from one of
its awaits to the next, so whatever happens at once is an order of such stretches, with
requests to stop in between. `Loop.Reachable` is every moment that any order leads to, with
any number of jobs of each kind, and with any answers of the device.

Beside each drain stands what it has done to the chart since it started, and what is left
of a drain that has ended is kept for good.

`Job.step_balanced` says what a stretch does to the drains: it starts one only where none
is at work, and frees the chart when its own has ended.
-/
import HashrateChart.Monitor.Script
import HashrateChart.Proofs.Drain.Deeds
import HashrateChart.Proofs.Monitor.Moves

namespace HashrateChart

open HashrateChart.Action (Keeps Preserves Gives)
open HashrateChart.Drain (Deed Uncommitted CommittedOnce)

/-! ## Jobs -/

def Monitor.Task.drain? : Monitor.Task → Option Drain
  | .draining d => some d
  | _ => none

/-- What an event loop runs for a monitor. -/
inductive Job where
  | poll
  /-- A poll that waits for its answer. -/
  | asked (poll : Monitor.Poll)
  /-- A request for a drain since a time. -/
  | request (since : Option Int)
  /-- A drain that waits for a chunk. -/
  | drain (d : Drain)
  | task (t : Monitor.Task)
  deriving DecidableEq

/-- What the device says to a job; each job takes what it has asked for. -/
structure Reply where
  info : Result SystemInfo
  history : Monitor.Answer

namespace Job

/-- The drain that a job waits with. -/
def drain? : Job → Option Drain
  | drain d => some d
  | task t => t.drain?
  | _ => none

def isDrain (j : Job) : Bool := j.drain?.isSome

def ofNext : Drain.Next → Option Job
  | .waiting d => some (drain d)
  | .finished _ => none

/-- A job from one of its awaits to the next one or to its end. -/
def step (reply : Reply) : Job → Action Monitor (Option Job)
  | poll => return some (asked (← Monitor.ask))
  | asked p => do
    discard <| Monitor.answer p (← liftM (m := Except Fault) reply.info)
    return none
  | request since => ofNext <$> Monitor.startDrain since
  | drain d => ofNext <$> Monitor.resumeDrain d reply.history
  | task t => Option.map task <$> if t.isWaiting then Monitor.deliver reply.history t else Monitor.start t

/-- Gives up a job. -/
def cancel : Job → Action Monitor Unit
  | drain _ => Monitor.releaseDrain
  | task t => Monitor.cancel t
  | _ => return

end Job

/-! ## The loop -/

/-- A job and, while it waits with a drain, what the drain has done so far. -/
structure Thread where
  job : Job
  deeds : List Deed := []

/-- What is kept of a drain that has ended. -/
structure Ending where
  deeds : List Deed
  /-- The drain had been asked to stop when its loop ended. -/
  stopping : Bool
  /-- What it gave, unless it was given up. -/
  result : Option (Result Nat)

/-- A monitor and what runs for it. -/
structure Loop where
  monitor : Monitor
  threads : List Thread := []
  endings : List Ending := []

namespace Loop

/-- What is known of a thread's drain after a step: what it has done while it goes on, or how it ended. -/
def recordAfter (t : Thread) (reply : Reply) (m : Monitor) : List Deed × Option Ending :=
  match t.job.drain? with
  | none => ([], none)
  | some d =>
    let deeds := Drain.deedsAfter Monitor.drainHost m.config.drain d reply.history t.deeds m
    match ((Monitor.resumeDrain d reply.history).runOn m).1 with
    | .ok (.waiting _) => (deeds, none)
    | .ok (.finished total) => ([], some ⟨deeds, m.stopping, some (.ok total)⟩)
    | .error e => ([], some ⟨deeds, m.stopping, some (.error e)⟩)

/-- The thread of a job that goes on, with what its drain has done so far. -/
def following (next : Result (Option Job)) (deeds : List Deed) : List Thread :=
  next.toOption.join.toList.map (⟨·, deeds⟩)

/-- The threads, with others in the place of the one at a position. -/
def replaced (s : Loop) (k : Nat) (others : List Thread) : List Thread :=
  s.threads.take k ++ others ++ s.threads.drop (k + 1)

/-- Runs the job at a position up to its next await; the tasks that it starts are run from then on. -/
def step (s : Loop) (k : Nat) (reply : Reply) : Loop :=
  match s.threads[k]? with
  | none => s
  | some t =>
    let r := (t.job.step reply).runOn s.monitor
    let known := recordAfter t reply s.monitor
    { monitor := { r.2 with tasks := [] }
      threads := s.replaced k (following r.1 known.1) ++ r.2.tasks.map (⟨.task ·, []⟩)
      endings := s.endings ++ known.2.toList }

/-- Gives up the job at a position. -/
def cancel (s : Loop) (k : Nat) : Loop :=
  match s.threads[k]? with
  | none => s
  | some t =>
    { monitor := (t.job.cancel.runOn s.monitor).2
      threads := s.replaced k []
      endings := s.endings ++ if t.job.isDrain then [⟨t.deeds, s.monitor.stopping, none⟩] else [] }

/-- What is asked of a monitor. -/
inductive Call where
  | poll
  | drain (since : Option Int)
  | sync (since : Int)
  | reload

def Call.job : Call → Job
  | poll => .poll
  | drain since => .request since
  | sync since => .task (.sync since)
  | reload => .task .reload

/-- What can happen next. -/
inductive Move where
  | tick (now : Int)
  | load
  | call (c : Call)
  | step (k : Nat) (reply : Reply)
  | cancel (k : Nat)
  /-- The drain is asked to stop. -/
  | stop

def move (s : Loop) : Move → Loop
  | .tick now => { s with monitor := { s.monitor with clock := now } }
  | .load => { s with monitor := (Monitor.load.runOn s.monitor).2 }
  | .call c => { s with threads := s.threads ++ [⟨c.job, []⟩] }
  | .step k reply => s.step k reply
  | .cancel k => s.cancel k
  | .stop => { s with monitor := { s.monitor with stopping := true } }

def moveAll (s : Loop) (moves : List Move) : Loop := moves.foldl move s

/-- A moment that some order of moves around a new monitor leads to. -/
inductive Reachable : Loop → Prop
  | new {config : Config} {storage : Option Storage} {clock : Int} {m : Monitor} :
      Monitor.new config storage clock = .ok m → Reachable { monitor := m }
  | move {s : Loop} (move : Move) : Reachable s → Reachable (s.move move)

theorem Reachable.moveAll {s : Loop} (h : Reachable s) (moves : List Move) : Reachable (s.moveAll moves) := by
  induction moves generalizing s with
  | nil => exact h
  | cons move moves ih => exact ih (h.move move)

/-- How many drains are at work. -/
def drains (s : Loop) : Nat := s.threads.countP (·.job.isDrain)

end Loop

/-! ## What a monitor does at once -/

namespace Monitor

/-- What drains and their tasks are told by. -/
def reins (m : Monitor) : Bool × Bool × List Task := (m.draining, m.stopping, m.tasks)

theorem onChart_reins {α : Type} (act : Action Chart α) : Keeps reins (onChart act) := by
  intro m
  rw [onChart_runOn]
  rfl

theorem record_reins (e : Event) : Keeps reins (record e) := .modify fun _ => rfl

theorem render_reins : Keeps reins render :=
  drawing_keeps (fun _ _ _ => onChart_reins _) (fun _ _ => rfl) record_reins

theorem commit_reins (now : Int) : Keeps reins (Monitor.commit now) := .bind .get fun _ => onChart_reins _

theorem receive_reins (cfg : DrainConfig) (d : Drain) (chunk : Option HistoryBatch) :
    Keeps reins (Drain.receive drainHost cfg d chunk) :=
  receive_keeps (fun _ => onChart_reins _) commit_reins render_reins cfg d chunk

theorem askHistory_reins (start : Option Int) : Keeps reins (askHistory start) :=
  .bind .get fun _ => record_reins _

theorem load_reins : Keeps reins Monitor.load := by
  refine .bind (onChart_reins _) fun restored => .bind ?_ fun _ => .pure _
  refine .bind .get fun m => .bind (onChart_reins _) fun prefs => ?_
  cases prefs with
  | none => exact .pure _
  | some prefs => exact .modify fun _ => rfl

theorem heeds_drainHost : drainHost.Heeds stopping := by
  have hkeeps {α : Type} {act : Action Monitor α} (h : Keeps reins act) : Keeps stopping act :=
    fun m => congrArg (·.2.1) (h m)
  exact {
    take b := hkeeps (onChart_reins _)
    lastLabel := .bind .get fun _ => .pure _
    commit now := hkeeps (commit_reins now)
    clock := .bind .get fun _ => .pure _
    asked m := rfl
    render act hact := by
      cases hact
      exact hkeeps render_reins }

/-- Whether a drain holds the chart; no task that is about to start is a drain. -/
def Held (held : Bool) (m : Monitor) : Prop := m.draining = held ∧ ∀ t ∈ m.tasks, t.drain? = none

variable {held : Bool}

theorem held_of_reins {m q : Monitor} (h : reins q = reins m) (hm : Held held m) : Held held q := by
  have hdraining : q.draining = m.draining := congrArg (·.1) h
  have htasks : q.tasks = m.tasks := congrArg (·.2.2) h
  exact ⟨hdraining.trans hm.1, htasks ▸ hm.2⟩

theorem held_of_keeps {α : Type} {act : Action Monitor α} (h : Keeps reins act) :
    Preserves (Held held) act := fun m hm => held_of_reins (h m) hm

theorem spawn_held {t : Task} (ht : t.drain? = none) : Preserves (Held held) (spawn t) := by
  refine .modify fun m hm => ⟨hm.1, fun x hx => ?_⟩
  rcases List.mem_append.mp hx with hx | hx
  · exact hm.2 x hx
  · obtain rfl := List.mem_singleton.mp hx
    exact ht

theorem takeHistory_held (poll : Poll) (history : Option HistoryBatch) :
    Preserves (Held held) (takeHistory poll history) := by
  refine .bind (held_of_keeps .get) fun m => ?_
  split
  · refine .bind (held_of_keeps (.modify fun _ => rfl)) fun _ => ?_
    exact .bind (spawn_held rfl) fun _ => .pure _
  · split
    · refine held_of_keeps (.bind (onChart_reins _) fun n => ?_)
      exact .bind (commit_reins _) fun _ => .bind render_reins fun _ => .pure _
    · exact .pure _

theorem serveReload_held (now : Int) : Preserves (Held held) (serveReload now) := by
  refine .bind (held_of_keeps (onChart_reins _).discard) fun _ => ?_
  refine .bind (held_of_keeps (onChart_reins _)) fun requested => .bind (held_of_keeps .get) fun m => ?_
  split
  · exact spawn_held rfl
  · exact .pure _

theorem answer_held (poll : Poll) (info : SystemInfo) : Preserves (Held held) (answer poll info) := by
  refine .bind (held_of_keeps (onChart_reins _)) fun _ => .bind (takeHistory_held _ _) fun n => ?_
  exact .bind (serveReload_held _) fun _ => .pure _

theorem isIdle_of_draining {m : Monitor} (h : m.draining = true) : m.isIdle = false := by
  rw [isIdle, h]
  rfl

/-- While a drain is at work, a poll leaves the history to it; the first poll starts the sync. -/
theorem takeHistory_of_draining (poll : Poll) (history : Option HistoryBatch) {m : Monitor}
    (h : m.draining = true) :
    (takeHistory poll history).runOn m =
      (.ok 0, { m with
        syncStarted := true
        tasks := m.tasks ++ if m.syncStarted then [] else [.sync poll.start] }) := by
  unfold takeHistory
  rw [Action.runOn_bind, Action.runOn_get]
  dsimp only
  cases hs : m.syncStarted with
  | false => rfl
  | true =>
    rw [isIdle_of_draining h, if_neg (by decide), if_neg Bool.false_ne_true, if_pos rfl, List.append_nil, ← hs]
    rfl

theorem serveReload_of_draining (now : Int) {m : Monitor} (h : m.draining = true) :
    (serveReload now).runOn m = (.ok (), { m with chart := (m.chart.pollDeferred now).2.takeReload.2 }) := by
  rw [serveReload_runOn, isIdle_of_draining h, Bool.and_false, if_neg Bool.false_ne_true, List.append_nil]

/-- While a drain is at work, an answer to a poll is looked at and nothing of it is imported or
committed. -/
theorem answer_of_draining (poll : Poll) (info : SystemInfo) {m : Monitor} (h : m.draining = true) :
    (answer poll info).runOn m =
      (.ok 0, { m with
        chart := ((m.chart.observe poll.now info).pollDeferred poll.now).2.takeReload.2
        syncStarted := true
        tasks := m.tasks ++ if m.syncStarted then [] else [.sync poll.start] }) := by
  have hdraining : ({ m with chart := m.chart.observe poll.now info } : Monitor).draining = true := h
  have htaking : (taking poll info).runOn m =
      (takeHistory poll info.history).runOn { m with chart := m.chart.observe poll.now info } := by
    rw [taking, Action.runOn_bind, onChart_runOn, Action.runOn_modify]
  rw [answer_runOn, htaking, takeHistory_of_draining poll info.history hdraining]
  refine congrArg (fun r => (Except.ok 0, r.2)) (serveReload_of_draining poll.now ?_)
  exact h

/-- A request while a drain is at work does nothing and brings nothing. -/
theorem startDrain_of_draining (since : Option Int) {m : Monitor} (h : m.draining = true) :
    (startDrain since).runOn m = (.ok (.finished 0), m) := by
  unfold startDrain Drain.request
  rw [Action.runOn_bind, Action.runOn_get]
  dsimp only
  rw [h]
  rfl

theorem startDrain_of_free (since : Option Int) {m : Monitor} (h : m.draining = false) :
    (startDrain since).runOn m =
      (.ok (.waiting { cursor := since }), { m with
        draining := true
        stopping := false
        events := m.events ++ [.history (m.requestSince since)] }) := by
  unfold startDrain Drain.request
  rw [Action.runOn_bind, Action.runOn_get]
  dsimp only
  rw [h]
  rfl

/-- A drain goes on with its next question, or it frees the chart. -/
theorem resumeDrain_runOn (d : Drain) (answer : Answer) (m : Monitor) :
    (resumeDrain d answer).runOn m =
      match (Drain.answered drainHost m.config.drain d answer).runOn m with
      | (.ok (.waiting e), q) => (.ok (.waiting e), ((askHistory e.cursor).runOn q).2)
      | (.ok (.finished total), q) => (.ok (.finished total), { q with draining := false })
      | (.error e, q) => (.error e, { q with draining := false }) := by
  unfold resumeDrain
  rw [Action.runOn_bind, continueDrain_runOn, ← Drain.answered]
  rcases (Drain.answered drainHost m.config.drain d answer).runOn m with ⟨e | next, q⟩
  · rfl
  · cases next with
    | waiting e => rfl
    | finished total => rfl

/-- What a drain gives is what it makes of the answer. -/
theorem resumeDrain_fst (d : Drain) (answer : Answer) (m : Monitor) :
    ((resumeDrain d answer).runOn m).1 = ((Drain.answered drainHost m.config.drain d answer).runOn m).1 := by
  rw [resumeDrain_runOn]
  split <;> next he => rw [he]

/-- A drain waits for a chunk. -/
def waits (r : Result Drain.Next) : Bool :=
  match r with
  | .ok (.waiting _) => true
  | _ => false

/-- A drain holds the chart as long as it waits for chunks. -/
theorem resumeDrain_held (d : Drain) (answer : Answer) {m : Monitor} (hm : Held true m) :
    Held (waits ((resumeDrain d answer).runOn m).1) ((resumeDrain d answer).runOn m).2 := by
  have hanswered : Keeps reins (Drain.answered drainHost m.config.drain d answer) :=
    .bind (.liftM _) fun chunk => receive_reins _ _ chunk
  have hq := held_of_reins (hanswered m) hm
  rw [resumeDrain_runOn]
  rcases hr : (Drain.answered drainHost m.config.drain d answer).runOn m with ⟨e | next, q⟩ <;> rw [hr] at hq
  · exact ⟨rfl, hq.2⟩
  · cases next with
    | waiting e => exact held_of_reins (askHistory_reins e.cursor q) hq
    | finished total => exact ⟨rfl, hq.2⟩

/-- A request starts a drain only where none is at work. -/
theorem startDrain_held (since : Option Int) {m : Monitor} (hm : Held held m) :
    let r := (startDrain since).runOn m
    Held (held || waits r.1) r.2 ∧ (waits r.1 = true → held = false) := by
  cases held with
  | true =>
    rw [startDrain_of_draining since hm.1]
    exact ⟨hm, nofun⟩
  | false =>
    rw [startDrain_of_free since hm.1]
    exact ⟨⟨rfl, hm.2⟩, fun _ => rfl⟩

theorem startReload_reins : Keeps reins startReload :=
  .bind (.modify fun _ => rfl) fun _ => .bind .get fun _ => .bind (askHistory_reins _) fun _ => .pure _

theorem afterDrain_reins : Keeps reins afterDrain := by
  refine .bind .get fun m => ?_
  split
  · exact startReload_reins
  · exact .pure _

theorem finishReload_reins (answer : Answer) : Keeps reins (finishReload answer) := by
  refine .bind (.modify fun _ => rfl) fun _ => .bind (.liftM _) fun batch => ?_
  refine .bind (onChart_reins _).discard fun _ => .bind .get fun m => ?_
  exact .bind (commit_reins _) fun _ => .bind render_reins fun _ => .pure _

end Monitor

/-! ## What a job does at once -/

namespace Job

open HashrateChart.Monitor (Held Task held_of_reins held_of_keeps waits)

/-- What comes of a step is a drain that waits. -/
def leadsToDrain (r : Result (Option Job)) : Bool := r.toOption.join.any isDrain

/-- A task that is none of a drain's. -/
def Other (t : Option Task) : Prop := (t.map task).any isDrain = false

theorem startReload_gives : Gives Other Monitor.startReload :=
  .bind fun _ => .bind fun _ => .bind fun _ => .pure rfl

theorem afterDrain_gives : Gives Other Monitor.afterDrain := by
  refine .bind fun m => ?_
  split
  · exact startReload_gives
  · exact .pure rfl

theorem finishReload_gives (answer : Monitor.Answer) : Gives Other (Monitor.finishReload answer) :=
  .bind fun _ => .bind fun _ => .bind fun _ => .bind fun _ => .bind fun _ => .bind fun _ => .pure rfl

variable {held : Bool} {m : Monitor}

/-- A step that neither starts nor ends a drain. -/
structure Aside (act : Action Monitor (Option Job)) : Prop where
  held : ∀ held, Preserves (Held held) act
  gives : Gives (fun j => j.any isDrain = false) act

theorem Aside.leadsToDrain {act : Action Monitor (Option Job)} (h : Aside act) (m : Monitor) :
    leadsToDrain (act.runOn m).1 = false := by
  cases hr : (act.runOn m).1 with
  | error e => rfl
  | ok j => exact h.gives m j hr

theorem aside_of_task {act : Action Monitor (Option Task)} (hkeeps : Keeps Monitor.reins act)
    (hgives : Gives Other act) : Aside (Option.map task <$> act) where
  held _ := held_of_keeps (hkeeps.map _)
  gives := .map _ hgives

/-- A job goes on as a drain does: it holds the chart and waits for chunks when the drain does. -/
def GoesOnWith (after : Result (Option Job) × Monitor) (r : Result Drain.Next × Monitor) : Prop :=
  Monitor.reins after.2 = Monitor.reins r.2 ∧ leadsToDrain after.1 = waits r.1

theorem goesOnWith_ofNext (act : Action Monitor Drain.Next) (m : Monitor) :
    GoesOnWith ((ofNext <$> act).runOn m) (act.runOn m) := by
  rw [Action.runOn_map]
  refine ⟨rfl, ?_⟩
  cases (act.runOn m).1 with
  | error e => rfl
  | ok next => cases next <;> rfl

/-- A sync fills up the history only after its drain. -/
theorem goesOnWith_sync (act : Action Monitor Drain.Next) (m : Monitor) :
    GoesOnWith ((Option.map task <$> (act >>= Monitor.continueSync)).runOn m) (act.runOn m) := by
  rw [Action.runOn_map, Action.runOn_bind]
  rcases act.runOn m with ⟨e | next, q⟩
  · exact ⟨rfl, rfl⟩
  · cases next with
    | waiting d => exact ⟨rfl, rfl⟩
    | finished total =>
      have hafter : Aside (Option.map task <$> Monitor.afterDrain) :=
        aside_of_task Monitor.afterDrain_reins afterDrain_gives
      have hleads := hafter.leadsToDrain q
      rw [Action.runOn_map] at hleads
      exact ⟨Monitor.afterDrain_reins q, hleads⟩

/-- Who holds the chart after a step of a job: one more when the step leads to a drain, one less when
the job was one. -/
def Balanced (j : Job) (held : Bool) (r : Result (Option Job) × Monitor) : Prop :=
  ∃ after, Held after r.2 ∧ after.toNat + j.isDrain.toNat = held.toNat + (leadsToDrain r.1).toNat

variable {j : Job} {after : Result (Option Job) × Monitor}

theorem balanced_of_aside (hj : j.isDrain = false) {act : Action Monitor (Option Job)}
    (h : Aside act) (hm : Held held m) : Balanced j held (act.runOn m) := by
  refine ⟨held, h.held held m hm, ?_⟩
  rw [hj, h.leadsToDrain]

theorem balanced_of_startDrain (hj : j.isDrain = false) {since : Option Int} (hm : Held held m)
    (h : GoesOnWith after ((Monitor.startDrain since).runOn m)) : Balanced j held after := by
  obtain ⟨hheld, hfree⟩ := Monitor.startDrain_held since hm
  refine ⟨_, held_of_reins h.1 hheld, ?_⟩
  rw [hj, h.2]
  cases hw : waits ((Monitor.startDrain since).runOn m).1 with
  | false => rw [Bool.or_false]
  | true =>
    rw [hfree hw]
    rfl

theorem balanced_of_resumeDrain (hj : j.isDrain = true) {d : Drain} {answer : Monitor.Answer}
    (hm : Held true m) (h : GoesOnWith after ((Monitor.resumeDrain d answer).runOn m)) :
    Balanced j true after := by
  refine ⟨_, held_of_reins h.1 (Monitor.resumeDrain_held d answer hm), ?_⟩
  rw [hj, h.2, Nat.add_comm]

/-- A step starts a drain only where none is at work, and frees the chart when its drain has ended. -/
theorem step_balanced (j : Job) (reply : Reply) (hm : Held held m) (hj : j.isDrain = true → held = true) :
    Balanced j held ((j.step reply).runOn m) := by
  cases j with
  | poll =>
    have hask : Aside (poll.step reply) := {
      held _ := held_of_keeps (.bind (.bind (.modify fun _ => rfl) fun _ => .bind .get fun _ =>
        .bind (Monitor.record_reins _) fun _ => .pure _) fun _ => .pure _)
      gives := .bind fun _ => .pure rfl }
    exact balanced_of_aside rfl hask hm
  | asked p =>
    have hanswer : Aside ((asked p).step reply) := {
      held _ := .bind (held_of_keeps (.liftM _)) fun info => .bind (.map _ (Monitor.answer_held p info))
        fun _ => .pure _
      gives := .bind fun _ => .bind fun _ => .pure rfl }
    exact balanced_of_aside rfl hanswer hm
  | request since => exact balanced_of_startDrain rfl hm (goesOnWith_ofNext _ m)
  | drain d =>
    obtain rfl := hj rfl
    exact balanced_of_resumeDrain rfl hm (goesOnWith_ofNext _ m)
  | task t =>
    cases t with
    | sync since => exact balanced_of_startDrain rfl hm (goesOnWith_sync _ m)
    | draining d =>
      obtain rfl := hj rfl
      exact balanced_of_resumeDrain rfl hm (goesOnWith_sync _ m)
    | reload =>
      have hstart : Aside ((task .reload).step reply) :=
        aside_of_task Monitor.startReload_reins startReload_gives
      exact balanced_of_aside rfl hstart hm
    | reloading =>
      have hfinish : Aside ((task .reloading).step reply) :=
        aside_of_task (Monitor.finishReload_reins _) (finishReload_gives _)
      exact balanced_of_aside rfl hfinish hm

/-- A job that is given up frees the chart when it is a drain. -/
theorem cancel_balanced (j : Job) (hj : j.isDrain = true → m.draining = true) :
    (j.cancel.runOn m).2.draining.toNat + j.isDrain.toNat = m.draining.toNat ∧
      (j.cancel.runOn m).2.tasks = m.tasks := by
  cases j with
  | drain d =>
    rw [hj rfl]
    exact ⟨rfl, rfl⟩
  | task t =>
    cases t with
    | draining d =>
      rw [hj rfl]
      exact ⟨rfl, rfl⟩
    | _ => exact ⟨rfl, rfl⟩
  | _ => exact ⟨rfl, rfl⟩

end Job

end HashrateChart
