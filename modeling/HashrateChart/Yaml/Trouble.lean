/-
Why a document is not read: its text has no reading, or a number in it is one
that nothing holds.
-/
import HashrateChart.Fault

namespace HashrateChart

namespace Yaml

inductive Trouble where
  | unreadable
  | fault (e : Fault)
  deriving DecidableEq, Repr

/-- What reading a document gives. -/
abbrev Reading (α : Type) := Except Trouble α

/-- What is there, unless nothing can be read. -/
def orUnreadable {α : Type} : Option α → Reading α
  | some x => .ok x
  | none => .error .unreadable

/-- What an operation gives, a fault being trouble with the document. -/
def ofResult {α : Type} (r : Result α) : Reading α := r.mapError .fault

end Yaml

end HashrateChart
