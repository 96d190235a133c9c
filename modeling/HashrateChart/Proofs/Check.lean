/-
Which checks end in a fault.

Problems are collected and a fault is not: it ends the check of the whole document.
`fault?` goes through all ways to put checks together, so a check ends in the first
fault of its parts; the checks of single values have none.
-/
import HashrateChart.Config.Check

namespace HashrateChart

namespace Checked

variable {α β : Type}

/-- The fault in which a check ended. -/
def fault? : Checked α → Option Fault
  | failed e => some e
  | _ => none

@[simp] theorem fault?_map (f : α → β) (c : Checked α) : (f <$> c).fault? = c.fault? := by
  cases c <;> rfl

@[simp] theorem fault?_seq (f : Checked (α → β)) (c : Checked α) :
    (f <*> c).fault? = f.fault?.or c.fault? := by
  cases f <;> cases c <;> rfl

@[simp] theorem fault?_under (place : String) (c : Checked α) : (c.under place).fault? = c.fault? := by
  cases c <;> rfl

theorem failed_of_fault {c : Checked α} {e : Fault} (h : c.fault? = some e) : c = failed e := by
  cases c <;> cases h
  rfl

/-- A check gives a value, unless something holds: then it ends in an overflow. -/
def Gives (c : Checked α) (p : Prop) (a : α) : Prop := (p ∧ c = failed .overflow) ∨ (¬ p ∧ c = ok a)

variable {f : Checked (α → β)} {g : α → β} {c : Checked α} {a : α} {p q : Prop}

theorem Gives.of_ok (h : c = ok a) (hp : ¬ p) : c.Gives p a := .inr ⟨hp, h⟩

theorem Gives.map (h : c.Gives p a) (g : α → β) : (g <$> c).Gives p (g a) := by
  rcases h with ⟨hp, rfl⟩ | ⟨hp, rfl⟩
  · exact .inl ⟨hp, rfl⟩
  · exact .inr ⟨hp, rfl⟩

/-- What stops one of two checks stops both. -/
theorem Gives.seq (hf : f.Gives p g) (hc : c.Gives q a) : (f <*> c).Gives (p ∨ q) (g a) := by
  rcases hf with ⟨hp, rfl⟩ | ⟨hp, rfl⟩
  · exact .inl ⟨.inl hp, rfl⟩
  · rcases hc with ⟨hq, rfl⟩ | ⟨hq, rfl⟩
    · exact .inl ⟨.inr hq, rfl⟩
    · exact .inr ⟨not_or.mpr ⟨hp, hq⟩, rfl⟩

theorem Gives.congr (h : c.Gives p a) (hpq : p ↔ q) : c.Gives q a := by
  rw [propext hpq] at h
  exact h

/-! ## Accepted documents -/

theorem map_ok {f : α → β} {c : Checked α} {b : β} (h : f <$> c = ok b) : ∃ a, c = ok a ∧ f a = b := by
  cases c <;> cases h
  exact ⟨_, rfl, rfl⟩

/-- What two checks accept together, each of them accepts. -/
theorem seq_ok {f : Checked (α → β)} {c : Checked α} {b : β} (h : f <*> c = ok b) :
    ∃ g a, f = ok g ∧ c = ok a ∧ g a = b := by
  cases f <;> cases c <;> cases h
  exact ⟨_, _, rfl, rfl, rfl⟩

end Checked

namespace Check

open Checked

variable {α : Type} {check : Json → Checked α}

theorem fault?_said {check : String → Checked α} (h : ∀ s, (check s).fault? = none) (s : String) :
    (said check s).fault? = none := by
  unfold said
  split
  · exact h s
  · rfl

@[simp] theorem fault?_integer (j : Json) : (integer j).fault? = none := by
  unfold integer
  split
  · rfl
  · split
    · split
      · split <;> rfl
      · rfl
    · rfl
  · rfl
  · refine fault?_said (fun s => ?_) _
    unfold writtenInteger
    split <;> rfl
  · rfl

@[simp] theorem fault?_real (j : Json) : (real j).fault? = none := by
  unfold real
  split
  · refine fault?_said (fun s => ?_) _
    unfold writtenReal
    split <;> rfl
  · split
    · split <;> rfl
    · rfl

theorem fault?_truthOfInt (i : Int) : (truthOfInt i).fault? = none := by
  unfold truthOfInt
  split
  · rfl
  · split
    · rfl
    · split <;> rfl

@[simp] theorem fault?_truth (j : Json) : (truth j).fault? = none := by
  unfold truth
  split
  · rfl
  · exact fault?_truthOfInt _
  · split
    · exact fault?_truthOfInt _
    · rfl
  · refine fault?_said (fun s => ?_) _
    unfold writtenTruth
    split <;> rfl
  · rfl

theorem fault?_optional (h : ∀ j, (check j).fault? = none) (j : Json) : (optional check j).fault? = none := by
  unfold optional
  split
  · rfl
  · rw [fault?_map, h]

theorem fault?_field (h : ∀ j, (check j).fault? = none) (fields : List (String × Json)) (key : String)
    (default : α) : (field fields key default check).fault? = none := by
  unfold field
  split
  · rw [fault?_under, h]
  · rfl

theorem fault?_object {check : List (String × Json) → Checked α} (h : ∀ fields, (check fields).fault? = none)
    (j : Json) : (object check j).fault? = none := by
  unfold object
  split
  · exact h _
  · rfl

theorem fault?_listOf (h : ∀ j, (check j).fault? = none) (j : Json) : (listOf check j).fault? = none := by
  have hgo (i : Nat) (xs : List Json) : (listOf.go check i xs).fault? = none := by
    induction xs generalizing i with
    | nil => rfl
    | cons x xs ih => rw [listOf.go, fault?_seq, fault?_map, fault?_under, h, ih, Option.or_none]
  unfold listOf
  split
  · exact hgo 0 _
  · rfl

end Check

end HashrateChart
