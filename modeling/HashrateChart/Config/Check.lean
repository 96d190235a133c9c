/-
Checking a document against the shape that is expected of it.

A check goes through all fields and collects every problem in the order of the
fields. A fault of the check itself ends it and takes precedence over problems.
Values are accepted with some latitude: whole numbers may come as text, truth
values as words.
-/
import HashrateChart.Decimal.Field
import HashrateChart.Json
import HashrateChart.Text.Half

namespace HashrateChart

/-- The outcome of a check. -/
inductive Checked (α : Type) where
  | ok (value : α)
  | invalid (problems : List Problem)
  | failed (fault : Fault)

namespace Checked

variable {α β : Type}

def map (f : α → β) : Checked α → Checked β
  | ok a => ok (f a)
  | invalid ps => invalid ps
  | failed e => failed e

/-- Two checks, the problems of the first before those of the second. -/
def both : Checked (α → β) → Checked α → Checked β
  | failed e, _ => failed e
  | _, failed e => failed e
  | ok f, ok a => ok (f a)
  | ok _, invalid ps => invalid ps
  | invalid ps, ok _ => invalid ps
  | invalid ps, invalid qs => invalid (ps ++ qs)

instance : Functor Checked where
  map := map

instance : Applicative Checked where
  pure := ok
  seq f x := both f (x ())

/-- A check of a part: its problems are reported under the part's name. -/
def under (place : String) : Checked α → Checked α
  | invalid ps => invalid (ps.map fun p => { p with path := place :: p.path })
  | r => r

/-- One problem at the value itself. -/
def problem (kind : ProblemKind) : Checked α := invalid [⟨[], kind⟩]

/-- A check that can only fail as a whole. -/
def ofResult : Result α → Checked α
  | .ok a => ok a
  | .error e => failed e

/-- The value, or all problems as one fault. -/
def toResult : Checked α → Result α
  | ok a => .ok a
  | invalid ps => .error (.invalid ps)
  | failed e => .error e

end Checked

namespace Check

variable {α : Type}

/-- Numbers from here on are not turned into integers or truth values. -/
def wordLimit : Int := 2 ^ 63

/-- Whether an integer fits a machine word. -/
def isWord (i : Int) : Bool := decide (-wordLimit ≤ i) && decide (i < wordLimit)

/-- A check of what a text says, which has to be one of characters only. -/
def said (check : String → Checked α) (s : String) : Checked α :=
  if (Text.characters? s).isSome then check s else .problem .stringUnicode

/-- The whole number that a text says. -/
def writtenInteger (s : String) : Checked Int :=
  match Decimal.fieldInt s with
  | .ok i => .ok i
  | .error .malformed => .problem .intParsing
  | .error .tooLong => .problem .intParsingSize

/-- A whole number. -/
def integer : Json → Checked Int
  | .number (.int i) => .ok i
  | .number (.real x) =>
    match x.truncate with
    | .ok i =>
      if Binary64.eq (Binary64.ratio i 1) x then
        if -wordLimit < i ∧ i < wordLimit then .ok i else .problem .intParsingSize
      else .problem .intFromFloat
    | .error _ => .problem .finiteNumber
  | .bool b => .ok (if b then 1 else 0)
  | .text s => said writtenInteger s
  | _ => .problem .intType

/-- The real number that a text says. -/
def writtenReal (s : String) : Checked Binary64 :=
  match Decimal.fieldReal? s with
  | some x => .ok x
  | none => .problem .floatParsing

/-- A real number. -/
def real : Json → Checked Binary64
  | .text s => said writtenReal s
  | j =>
    match j.number? with
    | some n =>
      match n.toReal with
      | .ok x => .ok x
      | .error _ => .problem .floatType
    | none => .problem .floatType

/-- The words that stand for truth values. -/
def truthWords : List (String × Bool) :=
  [("0", false), ("off", false), ("f", false), ("false", false), ("n", false), ("no", false),
   ("1", true), ("on", true), ("t", true), ("true", true), ("y", true), ("yes", true)]

/-- The truth value of a whole number. -/
def truthOfInt (i : Int) : Checked Bool :=
  if !isWord i then .problem .boolType
  else if i = 0 then .ok false
  else if i = 1 then .ok true
  else .problem .boolParsing

/-- The truth value that a text says. -/
def writtenTruth (s : String) : Checked Bool :=
  match truthWords.lookup (String.ofList (s.toList.map Char.toLower)) with
  | some b => .ok b
  | none => .problem .boolParsing

/-- A truth value. -/
def truth : Json → Checked Bool
  | .bool b => .ok b
  | .number (.int i) => truthOfInt i
  | .number (.real x) =>
    match integer (.real x) with
    | .ok i => truthOfInt i
    | _ => .problem .boolType
  | .text s => said writtenTruth s
  | _ => .problem .boolType

def text : Json → Checked String
  | .text s => .ok s
  | _ => .problem .stringType

/-- A list, each item checked under its position. -/
def listOf (check : Json → Checked α) : Json → Checked (List α)
  | .list xs => go 0 xs
  | _ => .problem .listType
where
  go (i : Nat) : List Json → Checked (List α)
    | [] => .ok []
    | x :: xs => List.cons <$> (check x).under (toString i) <*> go (i + 1) xs

/-- A value that may be null. -/
def optional (check : Json → Checked α) : Json → Checked (Option α)
  | .null => .ok none
  | j => some <$> check j

/-- A field that may be left out. -/
def field (fields : List (String × Json)) (key : String) (default : α)
    (check : Json → Checked α) : Checked α :=
  match Fields.lookup key fields with
  | some j => (check j).under key
  | none => .ok default

/-- A field that must be there. -/
def required (fields : List (String × Json)) (key : String) (check : Json → Checked α) :
    Checked α :=
  match Fields.lookup key fields with
  | some j => (check j).under key
  | none => (Checked.problem .missing).under key

/-- An object, checked by its fields. -/
def object (check : List (String × Json) → Checked α) : Json → Checked α
  | .object fields => check fields
  | _ => .problem .modelType

end Check

end HashrateChart
