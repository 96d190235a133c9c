/-
What a plain text stands for: the words for null and for truth values, and
numbers; everything else is a text.

Integers may be binary, octal or hexadecimal, and integers and real numbers may
count minutes and seconds after colons. Underscores between digits do not count.
-/
import HashrateChart.Json.Reader
import HashrateChart.Yaml.Trouble

namespace HashrateChart

namespace Yaml

namespace Meaning

/-- A word in lower case, with a capital in front, and in capitals. -/
def spellings (word : String) : List String := [word, word.capitalize, word.toUpper]

def nulls : List String := ["", "~"] ++ spellings "null"

def truths : List String := ["yes", "true", "on"].flatMap spellings

def falsehoods : List String := ["no", "false", "off"].flatMap spellings

/-! ## Parts of numbers -/

def isDigit (c : Char) : Bool := '0' ≤ c && c ≤ '9'

def isPlace (c : Char) : Bool := isDigit c || c = '_'

/-- A digit, and further ones with underscores among them. -/
def isWhole (cs : List Char) : Bool := cs.head?.any isDigit && cs.all isPlace

/-- One or two digits of a number below sixty. -/
def isSixtieth : List Char → Bool
  | [b] => isDigit b
  | [a, b] => '0' ≤ a && a ≤ '5' && isDigit b
  | _ => false

/-- The parts of a text between colons. -/
def parts (cs : List Char) : List (List Char) :=
  match cs with
  | [] => [[]]
  | c :: cs =>
    if c = ':' then [] :: parts cs
    else
      match parts cs with
      | p :: ps => (c :: p) :: ps
      | [] => [[c]]

/-- Whether a text counts sixtieths: a number of places before a colon, and parts below sixty. -/
def isSexagesimal : List (List Char) → Bool
  | whole :: rest => isWhole whole && rest.all isSixtieth
  | [] => false

def withoutLines (cs : List Char) : List Char := cs.filter (· ≠ '_')

/-! ## Integers -/

/-- The number of the digits of a base. -/
def inBase (base : Nat) (cs : List Char) : Result Nat :=
  match (withoutLines cs).filterMap Json.Reader.hexDigit? with
  | [] => .error .badNumeral
  | ds =>
    if base = 10 ∧ Decimal.maxIntDigits < ds.length then .error .badNumeral
    else .ok (ds.foldl (fun n d => base * n + d) 0)

def consistsOf (digits : String) (cs : List Char) : Bool :=
  !cs.isEmpty && cs.all digits.toList.contains

/-- An integer without a sign, when the text is one. -/
def natural? (cs : List Char) : Option (Result Nat) :=
  match cs with
  | ['0'] => some (.ok 0)
  | '0' :: 'b' :: ds => if consistsOf "01_" ds then some (inBase 2 ds) else none
  | '0' :: 'x' :: ds =>
    if consistsOf "0123456789abcdefABCDEF_" ds then some (inBase 16 ds) else none
  | '0' :: ds => if consistsOf "01234567_" ds then some (inBase 8 cs) else none
  | cs =>
    if isSexagesimal (parts cs) then
      some ((parts cs).foldlM (fun n p => do return 60 * n + (← inBase 10 p)) 0)
    else none

/-- An integer, when the text is one. -/
def integer? (cs : List Char) : Option (Result Int) :=
  let (negative, body) := Decimal.splitSign cs
  (natural? body).map fun r => r.map fun n => Binary64.signed negative n

/-! ## Real numbers -/

def isExponent : List Char → Bool
  | [] => true
  | e :: sign :: ds =>
    (e = 'e' || e = 'E') && (sign = '-' || sign = '+') && !ds.isEmpty && ds.all isDigit
  | _ => false

/-- Places, and an exponent at most. -/
def isFraction (cs : List Char) : Bool := isExponent (cs.dropWhile isPlace)

/-- The sum of parts, the last of which comes first, that count sixty times more each. -/
def sumOfSixtieths (xs : List Binary64) : Result Binary64 :=
  xs.zipIdx.foldlM (fun sum (x, k) => do return sum + x * (← Arithmetic.ofInt? (60 ^ k))) 0

/-- A real number, when the text is one. -/
def real? (cs : List Char) : Option (Result Binary64) :=
  let (negative, body) := Decimal.splitSign cs
  let isUnsigned := body.length = cs.length
  match body with
  | '.' :: word =>
    if (spellings "inf").contains (String.ofList word) then some (.ok (.infinite negative))
    else if !isUnsigned then none
    else if ["nan", "NaN", "NAN"].contains (String.ofList word) then some (.ok .nan)
    else if word.head?.any isDigit ∧ isFraction word then
      (Decimal.real? (withoutLines cs)).map .ok
    else none
  | body =>
    let whole := body.takeWhile (· ≠ '.')
    match parts whole, body.drop whole.length with
    | _, [] => none
    | [_], _ :: fraction =>
      if isWhole whole ∧ isFraction fraction then (Decimal.real? (withoutLines cs)).map .ok
      else none
    | ps, _ :: fraction =>
      if isSexagesimal ps ∧ fraction.all isPlace then do
        let xs ← (parts (withoutLines body)).mapM Decimal.real?
        return do
          let x ← sumOfSixtieths xs.reverse
          return if negative then -x else x
      else none

end Meaning

/-- The value of a plain text. -/
def meaning (s : String) : Reading Json :=
  let cs := s.toList
  if Meaning.nulls.contains s then .ok .null
  else if Meaning.truths.contains s then .ok (.bool true)
  else if Meaning.falsehoods.contains s then .ok (.bool false)
  else
    match Meaning.real? cs, Meaning.integer? cs with
    | some r, _ => ofResult (r.map .real)
    | none, some r => ofResult (r.map .int)
    | none, none => .ok (.text s)

end Yaml

end HashrateChart
