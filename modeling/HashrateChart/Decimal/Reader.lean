/-
Texts that stand for numbers.

A real number is an optional sign before decimal digits with an optional point
and exponent, or one of the words `inf`, `infinity` and `nan` in any case; an
integer is an optional sign before digits. Single underscores may stand
between two digits, and blanks around the text do not count.
-/
import HashrateChart.Decimal.Rounded
import HashrateChart.Text.Blank

namespace HashrateChart

namespace Decimal

/-- Splits off a sign; the first part says whether it is a minus. -/
def splitSign : List Char → Bool × List Char
  | '-' :: cs => (true, cs)
  | '+' :: cs => (false, cs)
  | cs => (false, cs)

/-- Splits off a run of digits in which single underscores stand between digits. -/
def splitDigits (cs : List Char) : List Nat × List Char :=
  match cs with
  | [] => ([], [])
  | c :: rest =>
    match Text.asciiDigit? c with
    | none => ([], c :: rest)
    | some d =>
      match rest with
      | '_' :: c' :: rest' =>
        if (Text.asciiDigit? c').isSome then
          let (ds, r) := splitDigits (c' :: rest')
          (d :: ds, r)
        else ([d], '_' :: c' :: rest')
      | rest =>
        let (ds, r) := splitDigits rest
        (d :: ds, r)
termination_by cs.length
decreasing_by all_goals simp_all

/-- Splits off a run of digits without underscores. -/
def splitPlainDigits : List Char → List Nat × List Char
  | [] => ([], [])
  | c :: cs =>
    match Text.asciiDigit? c with
    | none => ([], c :: cs)
    | some d =>
      let (ds, r) := splitPlainDigits cs
      (d :: ds, r)

/-- A signed integer, when the whole text is one. -/
def exponent? (cs : List Char) : Option Int :=
  let (negative, cs) := splitSign cs
  match splitDigits cs with
  | (d :: ds, []) => some (Binary64.signed negative (value (d :: ds)))
  | _ => none

/-- The numeral of the digits before and after a point, shifted by an exponent. -/
def numeralOf (whole fraction : List Nat) (exponent : Int) : Numeral :=
  ⟨value (whole ++ fraction), exponent - fraction.length⟩

/-- An unsigned numeral, when the whole text is one. -/
def numeral? (cs : List Char) : Option Numeral :=
  let (whole, rest) := splitDigits cs
  let (fraction, rest) :=
    match rest with
    | '.' :: rest => splitDigits rest
    | rest => ([], rest)
  if whole.isEmpty && fraction.isEmpty then none
  else
    match rest with
    | [] => some (numeralOf whole fraction 0)
    | e :: rest =>
      if e = 'e' ∨ e = 'E' then (exponent? rest).map (numeralOf whole fraction) else none

/-- The number that an unblanked ASCII text stands for. -/
def real? (cs : List Char) : Option Binary64 :=
  let (negative, body) := splitSign cs
  let word := String.ofList (body.map Char.toLower)
  if word = "inf" ∨ word = "infinity" then some (.infinite negative)
  else if word = "nan" then some .nan
  else (numeral? body).map (Numeral.toBinary64 negative)

/-- Integers with more digits are refused. -/
def maxIntDigits : Nat := 4300

/-- The integer that an unblanked ASCII text stands for. -/
def int? (cs : List Char) : Option Int :=
  let (negative, body) := splitSign cs
  match splitDigits body with
  | (d :: ds, []) =>
    if ds.length < maxIntDigits then some (Binary64.signed negative (value (d :: ds))) else none
  | _ => none

/-- The text with digits of all scripts as ASCII digits and all white space as spaces. -/
def folded (s : String) : List Char :=
  s.toList.map fun c =>
    if Text.isBlank c then ' '
    else
      match Text.digitValue? c with
      | some d => Text.digitChar d
      | none => c

/-- The number that a text stands for, in the digits of any script. -/
def readReal? (s : String) : Option Binary64 := real? (Text.trimBy Text.isAsciiBlank (folded s))

/-- The integer that a text stands for, in the digits of any script. -/
def readInt? (s : String) : Option Int := int? (Text.trimBy Text.isAsciiBlank (folded s))

end Decimal

end HashrateChart
