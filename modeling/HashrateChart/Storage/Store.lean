/-
A store of texts under keys that may be out of order at any time.

`outage` says of every call, by its number, whether it fails. A call that fails
raises `Trouble` and changes nothing but the count of calls.
-/
import HashrateChart.Fields
import HashrateChart.Text.Half

namespace HashrateChart

structure Store where
  items : Fields String
  /-- Whether a call fails. -/
  outage : Nat → Bool
  /-- How many calls were made. -/
  calls : Nat

namespace Store

/-- A store that never fails. -/
def ofItems (items : Fields String) : Store := ⟨items, fun _ => false, 0⟩

/-- The text under a key, whether or not the store is out of order. -/
def get? (s : Store) (key : String) : Option String := Fields.lookup key s.items

/-- Puts a text under a key, whether or not the store is out of order. -/
def put (s : Store) (key text : String) : Store :=
  { s with items := Fields.insert key text s.items }

theorem get?_put (s : Store) (key other text : String) :
    (s.put key text).get? other = if other = key then some text else s.get? other :=
  Fields.lookup_insert key other text s.items

/-- Whether a store of bytes can hold a text. -/
def isStorable (text : String) : Bool := (Text.characters? text).isSome

/-- Whether the next call fails. -/
def isOut (s : Store) : Bool := s.outage s.calls

/-- Counts a call that was made. -/
def count (s : Store) : Store := { s with calls := s.calls + 1 }

/-- What a call raises when it fails. -/
inductive Trouble where
  | outOfOrder
  deriving DecidableEq, Repr

/-- A call of a store. -/
abbrev Access (α : Type) := ExceptT Trouble (StateM Store) α

/-- Makes a call, which counts also when it fails. -/
def access {α : Type} (f : Store → α × Store) : Access α := do
  let s ← get
  set s.count
  if s.isOut then throw .outOfOrder else modifyGet f

/-- Reads the text under a key. -/
def read (key : String) : Access (Option String) := access fun s => (s.get? key, s)

/-- Writes a text under a key. -/
def write (key text : String) : Access Unit := access fun s => ((), s.put key text)

/-- Leaves out a key. -/
def remove (key : String) : Access Unit :=
  access fun s => ((), { s with items := Fields.erase key s.items })

/-- A call that fails changes nothing but the count of calls. -/
theorem access_run {α : Type} (f : Store → α × Store) (s : Store) :
    StateT.run (ExceptT.run (access f)) s =
      if s.isOut then (.error .outOfOrder, s.count) else (.ok (f s.count).1, (f s.count).2) := by
  have hrun : StateT.run (ExceptT.run (access f)) s =
      StateT.run (ExceptT.run (if s.isOut then throw .outOfOrder else modifyGet f : Access α)) s.count := rfl
  rw [hrun]
  split <;> rfl

end Store

end HashrateChart
