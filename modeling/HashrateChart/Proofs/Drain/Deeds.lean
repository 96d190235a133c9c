/-
What a drain does to the chart, as a record that is kept while it runs.

The code of a drain is the same for every host. So a drain is run a second time beside a
record (`Host.recorded`), which does the same (`receive_follows`) and writes down the
chunks that were taken and the commits. What the record looks like after a chunk is told
by how the drain goes on: nothing is committed while it does, and the one commit of a
drain that was not asked to stop comes last.
-/
import HashrateChart.Proofs.Drain.Host

namespace HashrateChart

namespace Drain

open HashrateChart.Action (Keeps Preserves exists_of_runOn_bind)

variable {σ α β : Type}

/-- What a drain does to the chart. -/
inductive Deed where
  | take (chunk : HistoryBatch)
  | commit (now : Int)
  deriving DecidableEq

def Deed.isCommit : Deed → Bool
  | .take _ => false
  | .commit _ => true

def Uncommitted (deeds : List Deed) : Prop := ∀ x ∈ deeds, x.isCommit = false

/-- One deed is a commit, and it is the last one. -/
def CommittedOnce (deeds : List Deed) : Prop :=
  ∃ taken now, deeds = taken ++ [.commit now] ∧ Uncommitted taken

theorem uncommitted_nil : Uncommitted [] := nofun

theorem Uncommitted.take {deeds : List Deed} (h : Uncommitted deeds) (b : HistoryBatch) :
    Uncommitted (deeds ++ [.take b]) := by
  intro x hx
  rcases List.mem_append.mp hx with hx | hx
  · exact h x hx
  · obtain rfl := List.mem_singleton.mp hx
    rfl

/-- What a drain that nobody stops has committed, by how it goes on. -/
def Next.Tells : Next → List Deed → Prop
  | .waiting _ => Uncommitted
  | .finished _ => CommittedOnce

/-- A drain that gets an answer of the device. -/
def answered (host : Host (Action σ)) (cfg : DrainConfig) (d : Drain)
    (answer : Result (Option HistoryBatch)) : Action σ Next := do
  receive host cfg d (← liftM (m := Except Fault) answer)

/-! ## Records -/

/-- An action beside a record that it does not see. -/
def beside (act : Action σ α) : Action (σ × List Deed) α := fun s =>
  ((act.runOn s.1).1, ((act.runOn s.1).2, s.2))

def note (deed : Deed) : Action (σ × List Deed) Unit := modify fun s => (s.1, s.2 ++ [deed])

/-- A host that writes down what a drain does to the chart. -/
def Host.recorded (host : Host (Action σ)) : Host (Action (σ × List Deed)) where
  take b := do
    note (.take b)
    beside (host.take b)
  lastLabel := beside host.lastLabel
  commit now := do
    note (.commit now)
    beside (host.commit now)
  clock := beside host.clock
  stopping := beside host.stopping
  render := host.render.map beside

@[simp] theorem beside_runOn (act : Action σ α) (s : σ × List Deed) :
    (beside act).runOn s = ((act.runOn s.1).1, ((act.runOn s.1).2, s.2)) := rfl

@[simp] theorem note_runOn (deed : Deed) (s : σ × List Deed) :
    (note deed).runOn s = (.ok (), (s.1, s.2 ++ [deed])) := rfl

/-- Whatever the record, one action gives what the other gives and leaves what it leaves. -/
def Follows (recorded : Action (σ × List Deed) α) (act : Action σ α) : Prop :=
  ∀ s deeds, (recorded.runOn (s, deeds)).1 = (act.runOn s).1 ∧
    (recorded.runOn (s, deeds)).2.1 = (act.runOn s).2

theorem follows_beside (act : Action σ α) : Follows (beside act) act := fun _ _ => ⟨rfl, rfl⟩

theorem follows_note (deed : Deed) (act : Action σ α) :
    Follows (do note deed; beside act) act := by
  intro s deeds
  rw [Action.runOn_bind, note_runOn]
  exact ⟨rfl, rfl⟩

theorem Follows.pure (a : α) : Follows (pure a) (pure a : Action σ α) := fun _ _ => ⟨rfl, rfl⟩

theorem Follows.liftM (r : Result α) :
    Follows (liftM (m := Except Fault) r) (liftM (m := Except Fault) r : Action σ α) := by
  intro s deeds
  rw [Action.runOn_liftM, Action.runOn_liftM]
  exact ⟨rfl, rfl⟩

theorem Follows.bind {act' : Action (σ × List Deed) α} {act : Action σ α}
    {f' : α → Action (σ × List Deed) β} {f : α → Action σ β} (h : Follows act' act)
    (hf : ∀ a, Follows (f' a) (f a)) : Follows (act' >>= f') (act >>= f) := by
  intro s deeds
  obtain ⟨hr, hs⟩ := h s deeds
  rw [Action.runOn_bind, Action.runOn_bind]
  rcases he' : act'.runOn (s, deeds) with ⟨r', s', deeds'⟩
  rcases he : act.runOn s with ⟨r, t⟩
  rw [he', he] at hr hs
  dsimp only at hr hs
  subst hr hs
  cases r' with
  | error e => exact ⟨rfl, rfl⟩
  | ok a => exact hf a s' deeds'

variable {host : Host (Action σ)}

theorem renderBetween_follows (cfg : DrainConfig) (last : Int) :
    Follows (renderBetween host.recorded cfg last) (renderBetween host cfg last) := by
  unfold renderBetween
  cases hr : host.render with
  | none =>
    simp only [Host.recorded, hr, Option.map_none]
    exact .pure _
  | some render =>
    simp only [Host.recorded, hr, Option.map_some]
    split
    · exact .pure _
    · refine (follows_beside _).bind fun now => ?_
      split
      · exact .pure _
      · exact (follows_beside _).bind fun _ => .pure _

theorem finish_follows (total : Nat) : Follows (finish host.recorded total) (finish host total) := by
  refine (follows_beside _).bind fun stopping => ?_
  split
  · exact .pure _
  · refine (follows_beside _).bind fun now => (follows_note _ _).bind fun _ => ?_
    cases hr : host.render with
    | none =>
      simp only [Host.recorded, hr, Option.map_none]
      exact .pure _
    | some render =>
      simp only [Host.recorded, hr, Option.map_some]
      exact (follows_beside _).bind fun _ => .pure _

/-- A record does not change what a drain does with a chunk. -/
theorem receive_follows (cfg : DrainConfig) (d : Drain) (chunk : Option HistoryBatch) :
    Follows (receive host.recorded cfg d chunk) (receive host cfg d chunk) := by
  unfold receive
  cases chunk.filter fun b => !b.times.isEmpty with
  | none => exact finish_follows _
  | some b =>
    refine (follows_beside _).bind fun before => (follows_note _ _).bind fun n => ?_
    refine (follows_beside _).bind fun after => (renderBetween_follows _ _).bind fun last => ?_
    split
    · exact finish_follows _
    · refine (follows_beside _).bind fun stopping => ?_
      split
      · exact .pure _
      · exact .pure _

theorem answered_follows (cfg : DrainConfig) (d : Drain) (answer : Result (Option HistoryBatch)) :
    Follows (answered host.recorded cfg d answer) (answered host cfg d answer) :=
  (Follows.liftM answer).bind fun chunk => receive_follows cfg d chunk

/-! ## The record of a drain -/

/-- Whether a drain was asked to stop is read from the state, and no action of the drain changes it. -/
structure Host.Heeds (host : Host (Action σ)) (stopping : σ → Bool) : Prop where
  take : ∀ b, Keeps stopping (host.take b)
  lastLabel : Keeps stopping host.lastLabel
  commit : ∀ now, Keeps stopping (host.commit now)
  clock : Keeps stopping host.clock
  asked : ∀ s, host.stopping.runOn s = (.ok (stopping s), s)
  render : ∀ act, host.render = some act → Keeps stopping act

variable {stopping : σ → Bool} {stops : Bool}

/-- A drain before its end: it knows whether to stop, and has committed nothing. -/
def Going (stopping : σ → Bool) (stops : Bool) (s : σ × List Deed) : Prop :=
  stopping s.1 = stops ∧ Uncommitted s.2

theorem beside_preserves {act : Action σ α} (h : Keeps stopping act) :
    Preserves (Going stopping stops) (beside act) := fun s hs => ⟨(h s.1).trans hs.1, hs.2⟩

theorem recorded_preserves (h : host.Heeds stopping) (stops : Bool) :
    host.recorded.Preserves (Going stopping stops) where
  take b := by
    have hnote : Preserves (Going stopping stops) (note (.take b)) := .modify fun s hs => ⟨hs.1, hs.2.take b⟩
    exact hnote.bind fun _ => beside_preserves (h.take b)
  lastLabel := beside_preserves h.lastLabel
  clock := beside_preserves h.clock
  stopping := beside_preserves fun s => by rw [h.asked]
  render act hact := by
    obtain ⟨render, hr, rfl⟩ := Option.map_eq_some_iff.mp hact
    exact beside_preserves (h.render render hr)

theorem recorded_stopping (h : host.Heeds stopping) (s : σ × List Deed) :
    host.recorded.stopping.runOn s = (.ok (stopping s.1), s) := by
  rw [Host.recorded, beside_runOn, h.asked]

theorem finish_stopped (h : host.Heeds stopping) (total : Nat) :
    Preserves (Going stopping true) (finish host.recorded total) := by
  intro s hs
  unfold finish
  rw [Action.runOn_bind, recorded_stopping h, hs.1]
  exact hs

/-- However a drain goes on with a chunk, or fails with it: it commits nothing once it was asked to stop. -/
theorem receive_stopped (h : host.Heeds stopping) (cfg : DrainConfig) (d : Drain)
    (chunk : Option HistoryBatch) : Preserves (Going stopping true) (receive host.recorded cfg d chunk) :=
  receive_preserves (recorded_preserves h true) (finish_stopped h) cfg d chunk

variable {s t : σ × List Deed} {next : Next} {total : Nat}

/-- A drain that nobody stops ends with a commit. -/
theorem finish_recorded (h : host.Heeds stopping) (hs : stopping s.1 = false)
    (hrun : (finish host.recorded total).runOn s = (.ok next, t)) : ∃ now, t.2 = s.2 ++ [.commit now] := by
  unfold finish at hrun
  rw [Action.runOn_bind, recorded_stopping h, hs] at hrun
  obtain ⟨now, u, hclock, hu⟩ := exists_of_runOn_bind hrun
  obtain ⟨_, v, hcommit, hv⟩ := exists_of_runOn_bind hu
  have hread : u.2 = s.2 := congrArg (·.2.2) hclock.symm
  have hnoted : v.2 = u.2 ++ [.commit now] := congrArg (·.2.2) hcommit.symm
  refine ⟨now, ?_⟩
  rw [← hread, ← hnoted]
  cases hr : host.render with
  | none =>
    simp only [Host.recorded, hr, Option.map_none] at hv
    cases hv
    rfl
  | some render =>
    simp only [Host.recorded, hr, Option.map_some] at hv
    obtain ⟨_, w, hrender, hw⟩ := exists_of_runOn_bind hv
    cases hw
    exact congrArg (·.2.2) hrender.symm

/-- A drain that nobody stops has committed nothing while it waits, and has committed last when it has
ended. -/
theorem receive_recorded (h : host.Heeds stopping) {cfg : DrainConfig} {d : Drain}
    {chunk : Option HistoryBatch} (hs : Going stopping false s)
    (hrun : (receive host.recorded cfg d chunk).runOn s = (.ok next, t)) : next.Tells t.2 := by
  have hgoing := recorded_preserves h false
  have hend {u : σ × List Deed} {total : Nat} (hu : Going stopping false u)
      (hfinish : (finish host.recorded total).runOn u = (.ok next, t)) : CommittedOnce t.2 := by
    obtain ⟨now, hnow⟩ := finish_recorded h hu.1 hfinish
    exact ⟨u.2, now, hnow, hu.2⟩
  unfold receive at hrun
  cases hc : chunk.filter fun b => !b.times.isEmpty with
  | none =>
    rw [hc] at hrun
    cases next with
    | waiting e => exact (not_waiting_of_finish hrun).elim
    | finished total => exact hend hs hrun
  | some b =>
    rw [hc] at hrun
    obtain ⟨before, u, hbefore, hu⟩ := exists_of_runOn_bind hrun
    obtain ⟨stored, v, htake, hv⟩ := exists_of_runOn_bind hu
    obtain ⟨after, w, hafter, hw⟩ := exists_of_runOn_bind hv
    obtain ⟨last, x, hrender, hx⟩ := exists_of_runOn_bind hw
    have hxs : Going stopping false x := by
      have hus := hgoing.lastLabel.of_runOn hbefore hs
      have hvs := (hgoing.take b).of_runOn htake hus
      have hws := hgoing.lastLabel.of_runOn hafter hvs
      exact (renderBetween_preserves hgoing.clock hgoing.render _ _).of_runOn hrender hws
    cases hcursor : cursorAfter cfg b before after with
    | none =>
      rw [hcursor] at hx
      cases next with
      | waiting e => exact (not_waiting_of_finish hx).elim
      | finished total => exact hend hxs hx
    | some cursor =>
      rw [hcursor] at hx
      dsimp only at hx
      rw [Action.runOn_bind, recorded_stopping h, hxs.1] at hx
      cases hx
      exact hxs.2

/-- What is written down for a drain once it has an answer, when nothing was committed before. -/
def deedsAfter (host : Host (Action σ)) (cfg : DrainConfig) (d : Drain)
    (answer : Result (Option HistoryBatch)) (deeds : List Deed) (s : σ) : List Deed :=
  ((answered host.recorded cfg d answer).runOn (s, deeds)).2.2

variable {deeds : List Deed} {s : σ}

/-- A drain that was asked to stop commits nothing, even when it fails. -/
theorem uncommitted_of_stopping (h : host.Heeds stopping) (cfg : DrainConfig) (d : Drain)
    (answer : Result (Option HistoryBatch)) (hd : Uncommitted deeds) (hs : stopping s = true) :
    Uncommitted (deedsAfter host cfg d answer deeds s) := by
  have hanswered : Preserves (Going stopping true) (answered host.recorded cfg d answer) :=
    .liftM_bind fun chunk _ => receive_stopped h cfg d chunk
  exact (hanswered (s, deeds) ⟨hs, hd⟩).2

/-- What a drain gives that nobody stops tells what it has committed. -/
theorem tells_of_answered (h : host.Heeds stopping) {cfg : DrainConfig} {d : Drain}
    {answer : Result (Option HistoryBatch)} (hd : Uncommitted deeds) (hs : stopping s = false) {next : Next}
    (hrun : ((answered host cfg d answer).runOn s).1 = .ok next) :
    next.Tells (deedsAfter host cfg d answer deeds s) := by
  have hresult := (answered_follows cfg d answer s deeds).1.trans hrun
  obtain ⟨chunk, u, hchunk, hu⟩ :=
    exists_of_runOn_bind (Prod.ext hresult rfl : _ = (Except.ok next, _))
  rw [Action.runOn_liftM] at hchunk
  cases hchunk
  exact receive_recorded h ⟨hs, hd⟩ hu

end Drain

end HashrateChart
