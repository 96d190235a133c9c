/-
Numbers that the fields of a document hold as texts.

Real numbers are in ASCII digits. An underscore may stand anywhere inside, but
not beside another one, and then blanks around the number are not dropped.

Integers are read as they stand first. Only when that does not make sense of a
text are a sign, zeros at the start with underscores among them, and a point with
zeros at the end set aside. What is left after the zeros is read for itself, so
that it may bring a minus of its own.
-/
import HashrateChart.Decimal.Reader

namespace HashrateChart

namespace Decimal

/-! ## Underscores -/

/-- Whether underscores stand inside a text, none of them beside another one. -/
def hasInnerUnderscores : List Char → Bool
  | [] => false
  | '_' :: _ => false
  | _ :: cs => go cs
where
  go : List Char → Bool
    | [] => true
    | ['_'] => false
    | '_' :: '_' :: _ => false
    | _ :: cs => go cs

/-- The text without its underscores, when they stand inside it one by one. -/
def withoutUnderscores? (cs : List Char) : Option (List Char) :=
  if hasInnerUnderscores cs then some (cs.filter (· ≠ '_')) else none

/-! ## Real numbers -/

/-- The real number that the text of a field stands for. -/
def fieldReal? (s : String) : Option Binary64 :=
  if s.toList.contains '_' then (withoutUnderscores? s.toList).bind real?
  else real? (Text.trimBy Text.isBlank s.toList)

/-! ## Integers -/

/-- Why a text is no integer. -/
inductive Flaw where
  | malformed
  /-- More characters than are ever read. -/
  | tooLong
  deriving DecidableEq, Repr

/-- An integer without needless zeros, a minus in front at most; how many digits there are is
judged before what follows them. -/
def bareInt (cs : List Char) : Except Flaw Int :=
  let (negative, body) :=
    match cs with
    | '-' :: body => (true, body)
    | body => (false, body)
  match splitPlainDigits body with
  | ([], _) => .error .malformed
  | (0 :: ds, rest) => if ds.isEmpty && rest.isEmpty then .ok 0 else .error .malformed
  | (ds, rest) =>
    if maxIntDigits < ds.length then .error .tooLong
    else if rest.isEmpty then .ok (Binary64.signed negative (value ds))
    else .error .malformed

/-- Whether a character is a digit that stands for something wherever it stands. -/
def startsWhole (c : Char) : Bool := '1' ≤ c && c ≤ '9'

/-- Goes on after a leading zero. The last character before a point, or before the end, stays; a
minus may come after the zeros, too. -/
def afterZero? : Char → List Char → Option (List Char)
  | last, [] => some [last]
  | last, c :: cs =>
    if c = '0' ∨ c = '_' then afterZero? c cs
    else if c = '.' then some (last :: c :: cs)
    else if c = '-' ∨ startsWhole c then some (c :: cs)
    else none

/-- The text without its leading zeros; it starts with a digit. -/
def withoutZeros? : List Char → Option (List Char)
  | [] => none
  | c :: cs =>
    if c = '0' then afterZero? c cs
    else if startsWhole c then some (c :: cs)
    else none

/-- The text up to its point, when only zeros follow, and at least one. -/
def withoutPlaces? (cs : List Char) : Option (List Char) :=
  let whole := cs.takeWhile (· ≠ '.')
  match cs.drop whole.length with
  | [] => some whole
  | _ :: places => if !places.isEmpty && places.all (· = '0') then some whole else none

/-- The integer inside a text, without what may stand around and between its digits. -/
def tidied? (cs : List Char) : Option (List Char) := do
  let (negative, cs) := splitSign (Text.trimBy Text.isBlank cs)
  let cs ← withoutZeros? cs
  let cs ← withoutPlaces? cs
  let cs ← withoutUnderscores? cs
  return if negative then '-' :: cs else cs

/-- The integer inside a text; what is too long makes no more sense than anything else. -/
def tidiedInt (cs : List Char) : Except Flaw Int :=
  match (tidied? cs).map bareInt with
  | some (.ok i) => .ok i
  | _ => .error .malformed

/-- The integer that the text of a field stands for. -/
def fieldInt (s : String) : Except Flaw Int :=
  match bareInt s.toList with
  | .error .malformed => tidiedInt s.toList
  | r => r

end Decimal

end HashrateChart
