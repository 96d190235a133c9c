/-
A monitor and its tasks move by move.

Between two of its awaits a poll or a task runs alone, so whatever happens at once is
an order of moves: a poll asks and later takes its answer, a task starts and later
gets the history that it waits for. `Reachable` is every moment that any order of the
moves leads to, also one in which answers never come or come late.

What the moves do to the chart goes through `onChart`, which leaves the rest of the
monitor alone (`onChart_runOn`). So a view of the monitor that the actions on a chart
keep is kept by drawing, committing and taking history.
-/
import HashrateChart.Monitor.Script
import HashrateChart.Proofs.Chart.Run
import HashrateChart.Proofs.Drain.Host

namespace HashrateChart

namespace Monitor

open HashrateChart.Action (Keeps keeps_of_preserves)

/-! ## Moves -/

/-- A monitor between two moves, and the poll that waits for its answer. -/
structure Moment where
  monitor : Monitor
  asked : Option Poll

/-- What can happen next. -/
inductive Move where
  | tick (now : Int)
  | load
  /-- A poll asks the device. -/
  | ask
  /-- The poll gets its answer. -/
  | answer (info : SystemInfo)
  /-- The poll gets no answer. -/
  | fail
  /-- The task at a position starts. -/
  | start (k : Nat)
  /-- The task at a position gets what it waits for. -/
  | deliver (k : Nat) (answer : Answer)
  /-- The task at a position is given up. -/
  | cancel (k : Nat)
  /-- The drain is asked to stop. -/
  | stop

/-- Runs a step of the task at a position; a task that has ended is left out. -/
def stepTask (k : Nat) (step : Task → Action Monitor (Option Task)) (m : Monitor) : Monitor :=
  match m.tasks[k]? with
  | none => m
  | some t =>
    let (next, m) := (attemptStep (step t)).run m
    { m with tasks := match next with
        | some t => m.tasks.set k t
        | none => m.tasks.eraseIdx k }

def Moment.move (s : Moment) : Move → Moment
  | .tick now => { s with monitor := { s.monitor with clock := now } }
  | .load => { s with monitor := (Monitor.load.runOn s.monitor).2 }
  | .ask =>
    match s.asked with
    | some _ => s
    | none => ⟨(ask.runOn s.monitor).2, (ask.runOn s.monitor).1.toOption⟩
  | .answer info =>
    match s.asked with
    | some poll => ⟨((Monitor.answer poll info).runOn s.monitor).2, none⟩
    | none => s
  | .fail => { s with asked := none }
  | .start k => { s with monitor := s.monitor.stepTask k Monitor.start }
  | .deliver k answer => { s with monitor := s.monitor.stepTask k (Monitor.deliver answer) }
  | .cancel k =>
    { s with monitor := s.monitor.stepTask k fun t => do
      Monitor.cancel t
      return none }
  | .stop => { s with monitor := { s.monitor with stopping := true } }

/-- The moment after moves. -/
def Moment.moveAll (s : Moment) (moves : List Move) : Moment := moves.foldl Moment.move s

/-- A moment that some order of moves of a new monitor leads to. -/
inductive Reachable : Moment → Prop
  | new {config : Config} {storage : Option Storage} {clock : Int} {m : Monitor} :
      Monitor.new config storage clock = .ok m → Reachable ⟨m, none⟩
  | move {s : Moment} (move : Move) : Reachable s → Reachable (s.move move)

theorem Reachable.moveAll {s : Moment} (h : Reachable s) (moves : List Move) :
    Reachable (s.moveAll moves) := by
  induction moves generalizing s with
  | nil => exact h
  | cons move moves ih => exact ih (h.move move)

/-! ## Actions on the chart -/

variable {α γ : Type}

theorem onChart_runOn (act : Action Chart α) (m : Monitor) :
    (onChart act).runOn m = ((act.runOn m.chart).1, { m with chart := (act.runOn m.chart).2 }) := by
  simp only [onChart, Action.runOn_bind, Action.runOn_get]
  rcases act.runOn m.chart with ⟨r, chart⟩
  simp only [Action.runOn_modify, Action.runOn_liftM]

/-- What a view sees of the chart, and whether no task is at work. -/
def seen (view : Chart → γ) (m : Monitor) : γ × Bool := (view m.chart, m.isIdle)

theorem onChart_keeps {view : Chart → γ} {act : Action Chart α} (h : Keeps view act) :
    Keeps (seen view) (onChart act) := by
  intro m
  rw [onChart_runOn]
  exact congrArg (Prod.mk · m.isIdle) (h m.chart)

theorem chart_of_seen {view : Chart → γ} {act : Action Monitor α} (h : Keeps (seen view) act) :
    Keeps (fun m => view m.chart) act := fun m => congrArg Prod.fst (h m)

/-- A view of a chart that no action of a monitor on its chart changes, but those that serve a
reload. -/
structure Kept (view : Chart → γ) : Prop where
  observe : ∀ p now info, view (Chart.observe p now info) = view p
  importBatch : ∀ batch importing, Keeps view (Chart.importBatch batch importing)
  reloadBatch : ∀ batch, Keeps view (Chart.reloadBatch batch)
  commit : ∀ now clock, Keeps view (Chart.commit now clock true)
  frame : ∀ now window visibility, Keeps view (Chart.frame now window visibility)
  load : Keeps view Chart.load
  onStorage : ∀ act : Action Storage UiDefaults, Keeps view (Chart.onStorage act)

variable {view : Chart → γ}

/-! ## Polls -/

theorem record_keeps (e : Event) : Keeps (seen view) (record e) := .modify fun _ => rfl

/-- Drawing keeps what drawing a frame of the chart keeps, when neither the frame nor what was done so
far is part of it. -/
theorem drawing_keeps {shown : Monitor → γ}
    (hframe : ∀ now window visibility, Keeps shown (onChart (Chart.frame now window visibility)))
    (hshown : ∀ m frame, shown { m with frame := frame } = shown m)
    (hrecord : ∀ e, Keeps shown (record e)) : Keeps shown render := by
  refine .bind .get fun m => .bind (hframe _ _ _) fun frame => ?_
  refine .bind (.modify fun m => hshown m _) fun _ => ?_
  have hpanel : Keeps shown (if m.showsPanel then do
      record (.panelUpdate (← liftM (m := Except Fault) <|
        Panel.make (← get).chart frame (.ok (.int Panel.defaultWidth))))
    else pure () : Action Monitor Unit) := by
    split
    · exact .bind .get fun _ => .bind (.liftM _) fun _ => hrecord _
    · exact .pure _
  by_cases he : m.config.render.enabled = true
  · rw [if_pos he]
    exact .bind (hrecord _) fun _ => hpanel
  · rw [if_neg he]
    exact hpanel

theorem render_keeps (h : ∀ now window visibility, Keeps view (Chart.frame now window visibility)) :
    Keeps (seen view) render :=
  drawing_keeps (fun _ _ _ => onChart_keeps (h _ _ _)) (fun _ _ => rfl) record_keeps

namespace Kept

theorem render (h : Kept view) : Keeps (seen view) render := render_keeps h.frame

theorem committed (h : Kept view) (now : Int) : Keeps (seen view) (Monitor.commit now) :=
  .bind .get fun _ => onChart_keeps (h.commit _ _)

theorem imported (h : Kept view) (batch : Option HistoryBatch) (importing : Bool) :
    Keeps (seen view) (onChart (Chart.importBatch batch importing)) := by
  have hbatch := h.importBatch batch importing
  exact onChart_keeps hbatch

theorem takeHistory (h : Kept view) (poll : Poll) (history : Option HistoryBatch) :
    Keeps (seen view) (takeHistory poll history) := by
  refine .bind .get fun m => ?_
  split
  · refine .bind (.modify fun _ => rfl) fun _ => .bind (.modify fun _ => rfl) fun _ => .pure _
  · split
    · refine .bind (h.imported _ _) fun n => ?_
      exact .bind (h.committed _) fun _ => .bind h.render fun _ => .pure _
    · exact .pure _

end Kept

/-- The first part of taking an answer: what the poll says and the history that comes with it. -/
def taking (poll : Poll) (info : SystemInfo) : Action Monitor Nat := do
  onChart (modify fun p => p.observe poll.now info)
  takeHistory poll info.history

/-- The request is taken, and a reload starts for it when no task is at work. -/
theorem serveReload_runOn (now : Int) (m : Monitor) :
    (serveReload now).runOn m =
      (.ok (), { m with
        chart := (m.chart.pollDeferred now).2.takeReload.2
        tasks := m.tasks ++
          if (m.chart.pollDeferred now).2.reload.requested && m.isIdle then [.reload] else [] }) := by
  simp only [serveReload, Action.runOn_bind, Action.runOn_discard, onChart_runOn, Action.runOn_modifyGet,
    Action.runOn_get, Except.map]
  have hidle : ({ m with chart := (m.chart.pollDeferred now).2.takeReload.2 } : Monitor).isIdle = m.isIdle := rfl
  have hask : (m.chart.pollDeferred now).2.takeReload.1 = (m.chart.pollDeferred now).2.reload.requested := rfl
  rw [hask, hidle]
  split
  · rfl
  · rw [List.append_nil]
    rfl

theorem answer_runOn (poll : Poll) (info : SystemInfo) (m : Monitor) :
    (answer poll info).runOn m =
      match (taking poll info).runOn m with
      | (.ok n, q) => (.ok n, ((serveReload poll.now).runOn q).2)
      | (.error e, q) => (.error e, q) := by
  simp only [answer, taking, Action.runOn_bind]
  cases ((onChart (modify fun p => p.observe poll.now info)).runOn m) with
  | mk r q =>
    cases r with
    | error e => rfl
    | ok u =>
      dsimp only
      cases (takeHistory poll info.history).runOn q with
      | mk r q =>
        cases r with
        | error e => rfl
        | ok n =>
          dsimp only
          rw [serveReload_runOn]
          rfl

theorem Kept.taking (h : Kept view) (poll : Poll) (info : SystemInfo) :
    Keeps (seen view) (taking poll info) :=
  .bind (onChart_keeps (.modify fun p => h.observe p _ _)) fun _ => h.takeHistory _ _

/-! ## Tasks -/

/-- The drain of a monitor looks at it without changing it, and takes, commits and draws. -/
theorem receive_keeps {shown : Monitor → γ}
    (himport : ∀ b, Keeps shown (onChart (Chart.importBatch (some b) true)))
    (hcommit : ∀ now, Keeps shown (Monitor.commit now)) (hrender : Keeps shown render)
    (cfg : DrainConfig) (d : Drain) (chunk : Option HistoryBatch) :
    Keeps shown (Drain.receive drainHost cfg d chunk) := by
  refine keeps_of_preserves fun c => ?_
  have hlook {β : Type} (f : Monitor → β) : Keeps shown (do return f (← get) : Action Monitor β) :=
    .bind .get fun _ => .pure _
  have hhost : drainHost.Preserves fun m => shown m = c := {
    take b := (himport b).preserves c
    lastLabel := (hlook _).preserves c
    clock := (hlook _).preserves c
    stopping := (hlook _).preserves c
    render act hact := by
      cases hact
      exact hrender.preserves c }
  have hfinish := Drain.finish_preserves hhost fun now => (hcommit now).preserves c
  exact Drain.receive_preserves hhost hfinish cfg d chunk

theorem continueDrain_runOn (d : Drain) (answer : Answer) (m : Monitor) :
    (continueDrain d answer).runOn m =
      match (do
        Drain.receive drainHost m.config.drain d (← liftM (m := Except Fault) answer)
          : Action Monitor Drain.Next).runOn m with
      | (.ok (.waiting d), q) => (.ok (.waiting d), q)
      | (r, q) => (r, { q with draining := false }) := rfl

namespace Kept

theorem loaded (h : Kept view) : Keeps (seen view) Monitor.load := by
  refine .bind (onChart_keeps h.load) fun restored => .bind ?_ fun _ => .pure _
  refine .bind .get fun m => .bind (onChart_keeps (h.onStorage _)) fun prefs => ?_
  cases prefs with
  | none => exact .pure _
  | some prefs => exact .modify fun _ => rfl

/-- A drain's way with a chunk. -/
theorem receive (h : Kept view) (cfg : DrainConfig) (d : Drain) (chunk : Option HistoryBatch) :
    Keeps (seen view) (Drain.receive drainHost cfg d chunk) :=
  receive_keeps (fun b => h.imported (some b) true) h.committed h.render cfg d chunk

theorem askHistory (start : Option Int) : Keeps (seen view) (askHistory start) :=
  .bind .get fun _ => record_keeps _

theorem continueDrain (h : Kept view) (d : Drain) (answer : Answer) :
    Keeps (fun m => view m.chart) (continueDrain d answer) := by
  intro m
  have hstep : Keeps (seen view) (do
      Drain.receive drainHost m.config.drain d (← liftM (m := Except Fault) answer) : Action Monitor _) :=
    .bind (.liftM _) fun _ => h.receive _ _ _
  have hm := chart_of_seen hstep m
  -- a drain that has ended only frees the chart
  rw [continueDrain_runOn]
  split
  · next he =>
    rw [he] at hm
    exact hm
  · next he =>
    rw [he] at hm
    exact hm

theorem startReload : Keeps (fun m => view m.chart) startReload := by
  refine .bind (.modify fun _ => rfl) fun _ => .bind .get fun m => ?_
  exact .bind (chart_of_seen (askHistory _)) fun _ => .pure _

theorem afterDrain : Keeps (fun m => view m.chart) afterDrain := by
  refine .bind .get fun m => ?_
  split
  · exact startReload
  · exact .pure _

theorem startDrain (since : Option Int) : Keeps (fun m => view m.chart) (startDrain since) := by
  refine .bind .get fun m => ?_
  split
  · exact .pure _
  · exact .bind (.modify fun _ => rfl) fun _ => .bind (chart_of_seen (askHistory _)) fun _ => .pure _

theorem continueSync (next : Drain.Next) : Keeps (fun m => view m.chart) (continueSync next) := by
  cases next with
  | waiting d => exact .pure _
  | finished total => exact afterDrain

theorem start (t : Task) : Keeps (fun m => view m.chart) (start t) := by
  cases t with
  | sync since => exact .bind (startDrain _) continueSync
  | reload => exact startReload
  | _ => exact .pure _

theorem finishReload (h : Kept view) (answer : Answer) :
    Keeps (fun m => view m.chart) (finishReload answer) := by
  refine .bind (.modify fun _ => rfl) fun _ => .bind (.liftM _) fun batch => ?_
  refine .bind (chart_of_seen (onChart_keeps (h.reloadBatch _))).discard fun _ => .bind .get fun m => ?_
  exact .bind (chart_of_seen (h.committed _)) fun _ => .bind (chart_of_seen h.render) fun _ => .pure _

theorem resumeDrain (h : Kept view) (d : Drain) (answer : Answer) :
    Keeps (fun m => view m.chart) (resumeDrain d answer) := by
  refine .bind (h.continueDrain d answer) fun next => ?_
  split
  · exact .bind (chart_of_seen (askHistory _)) fun _ => .pure _
  · exact .pure _

theorem deliver (h : Kept view) (answer : Answer) (t : Task) :
    Keeps (fun m => view m.chart) (deliver answer t) := by
  cases t with
  | draining d => exact .bind (h.resumeDrain d answer) continueSync
  | reloading => exact h.finishReload answer
  | _ => exact .pure _

theorem cancel (t : Task) : Keeps (fun m => view m.chart) (cancel t) := by
  cases t with
  | draining d => exact .modify fun _ => rfl
  | reloading => exact .modify fun _ => rfl
  | _ => exact .pure _

end Kept

theorem stepTask_keeps {step : Task → Action Monitor (Option Task)}
    (h : ∀ t, Keeps (fun m => view m.chart) (step t)) (k : Nat) (m : Monitor) :
    view (m.stepTask k step).chart = view m.chart := by
  unfold stepTask
  split
  · rfl
  · next t _ => exact h t m

/-- No move changes what a kept view sees of the chart, but the answer to a poll. -/
theorem Kept.move (h : Kept view) (s : Moment) {move : Move} (hm : ∀ info, move ≠ .answer info) :
    view (s.move move).monitor.chart = view s.monitor.chart := by
  cases move with
  | tick now => rfl
  | load => exact chart_of_seen h.loaded s.monitor
  | ask =>
    simp only [Moment.move]
    cases s.asked <;> rfl
  | answer info => exact absurd rfl (hm info)
  | fail => rfl
  | start k => exact stepTask_keeps Kept.start k s.monitor
  | deliver k answer => exact stepTask_keeps (h.deliver answer) k s.monitor
  | cancel k =>
    have hcancel (t : Task) : Keeps (fun m => view m.chart) (do
        Monitor.cancel t
        return none : Action Monitor (Option Task)) := .bind (Kept.cancel t) fun _ => .pure _
    exact stepTask_keeps hcancel k s.monitor
  | stop => rfl

end Monitor

end HashrateChart
