/-
What a drain leaves true of its surroundings, told from what each of its actions leaves
true.

A chunk is taken between two looks at the last label, with a drawing after it; only the
end of a drain commits. So the end is kept apart: what a drain does before it
(`Host.Preserves`) and what `finish` does decide together what taking a chunk does.
-/
import HashrateChart.Drain
import HashrateChart.Proofs.Action

namespace HashrateChart

namespace Drain

open HashrateChart.Action (Preserves exists_of_runOn_bind)

variable {σ : Type} {host : Host (Action σ)} {I : σ → Prop}

/-- Whatever a host does before a drain ends leaves a property true. -/
structure Host.Preserves (host : Host (Action σ)) (I : σ → Prop) : Prop where
  take : ∀ b, Action.Preserves I (host.take b)
  lastLabel : Action.Preserves I host.lastLabel
  clock : Action.Preserves I host.clock
  stopping : Action.Preserves I host.stopping
  render : ∀ act, host.render = some act → Action.Preserves I act

theorem renderBetween_preserves (hclock : Preserves I host.clock)
    (hrender : ∀ act, host.render = some act → Preserves I act) (cfg : DrainConfig) (last : Int) :
    Preserves I (renderBetween host cfg last) := by
  unfold renderBetween
  cases hr : host.render with
  | none => exact .pure _
  | some render =>
    dsimp only
    split
    · exact .pure _
    · refine .bind hclock fun now => ?_
      split
      · exact .pure _
      · exact .bind (hrender render hr) fun _ => .pure _

theorem finish_preserves (hhost : host.Preserves I) (hcommit : ∀ now, Preserves I (host.commit now))
    (total : Nat) : Preserves I (finish host total) := by
  refine .bind hhost.stopping fun stopping => ?_
  split
  · exact .pure _
  · refine .bind hhost.clock fun now => .bind (hcommit now) fun _ => ?_
    cases hr : host.render with
    | none => exact .pure _
    | some render => exact .bind (hhost.render render hr) fun _ => .pure _

theorem receive_preserves (hhost : host.Preserves I) (hfinish : ∀ total, Preserves I (finish host total))
    (cfg : DrainConfig) (d : Drain) (chunk : Option HistoryBatch) :
    Preserves I (receive host cfg d chunk) := by
  unfold receive
  cases chunk.filter fun b => !b.times.isEmpty with
  | none => exact hfinish _
  | some b =>
    refine .bind hhost.lastLabel fun before => .bind (hhost.take b) fun n => ?_
    refine .bind hhost.lastLabel fun after => ?_
    refine .bind (renderBetween_preserves hhost.clock hhost.render _ _) fun last => ?_
    split
    · exact hfinish _
    · refine .bind hhost.stopping fun stopping => ?_
      split
      · exact .pure _
      · exact .pure _

variable {e : Drain} {s t : σ}

/-- A drain that finishes waits for nothing. -/
theorem not_waiting_of_finish {total : Nat} (h : (finish host total).runOn s = (.ok (.waiting e), t)) :
    False := by
  unfold finish at h
  obtain ⟨stopping, u, -, hu⟩ := exists_of_runOn_bind h
  cases stopping with
  | true => cases hu
  | false =>
    obtain ⟨now, v, -, hv⟩ := exists_of_runOn_bind hu
    obtain ⟨-, w, -, hw⟩ := exists_of_runOn_bind hv
    cases hr : host.render with
    | none =>
      rw [hr] at hw
      cases hw
    | some render =>
      rw [hr] at hw
      dsimp only at hw
      obtain ⟨-, x, -, hx⟩ := exists_of_runOn_bind hw
      cases hx

end Drain

end HashrateChart
