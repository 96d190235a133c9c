/-
A slot for one action that is due later. Scheduling another action supersedes
the one that waits; polling hands out a due action once and empties the slot
before the action runs, so that the action may schedule the next one.
-/
import HashrateChart.Number

namespace HashrateChart

/-- At most one waiting action and the time at which it is due. -/
structure Deferred (κ : Type) where
  pending : Option (κ × Int)
  deriving DecidableEq, Inhabited

namespace Deferred

variable {κ : Type}

def empty : Deferred κ := ⟨none⟩

def schedule (action : κ) (due : Int) (_ : Deferred κ) : Deferred κ := ⟨some (action, due)⟩

/-- Drops the waiting action and tells whether there was one. -/
def cancel (slot : Deferred κ) : Bool × Deferred κ := (slot.pending.isSome, empty)

/-- The action that is due now, if there is one, and the slot that is left. -/
def poll (now : Number) (slot : Deferred κ) : Option κ × Deferred κ :=
  match slot.pending with
  | none => (none, slot)
  | some (action, due) => if now.lt (.int due) then (none, slot) else (some action, empty)

theorem poll_eq_none {now : Number} {slot rest : Deferred κ} (h : slot.poll now = (none, rest)) :
    rest = slot := by
  unfold poll at h
  split at h
  · exact (congrArg Prod.snd h).symm
  · split at h
    · exact (congrArg Prod.snd h).symm
    · cases h

theorem poll_eq_some {now : Number} {slot rest : Deferred κ} {action : κ}
    (h : slot.poll now = (some action, rest)) :
    (∃ due, slot.pending = some (action, due) ∧ now.lt (.int due) = false) ∧ rest = empty := by
  unfold poll at h
  split at h
  · simp at h
  · next a due hp =>
    split at h
    · simp at h
    · next hlt =>
      simp only [Prod.mk.injEq, Option.some.injEq] at h
      obtain ⟨rfl, rfl⟩ := h
      exact ⟨⟨due, hp, by simpa using hlt⟩, rfl⟩

end Deferred

end HashrateChart
