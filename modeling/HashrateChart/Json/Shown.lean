/-
Values as messages show them where a name should be.

A text stands there as it is. Inside a list or an object it stands in quotes,
single ones where that needs no backslash, and a character that shows nothing of
its own is given by its number.
-/
import HashrateChart.Json.Printer

namespace HashrateChart

namespace Json

namespace Shown

/-- The characters that show nothing of their own, as pairs of a first and a last one. -/
def invisible : List (Nat × Nat) :=
  [(0, 31), (127, 160), (0xad, 0xad), (0x61c, 0x61c), (0x1680, 0x1680), (0x180e, 0x180e),
   (0x2000, 0x200f), (0x2028, 0x202f), (0x205f, 0x206f), (0x3000, 0x3000), (0xe000, 0xf8ff),
   (0xfeff, 0xfeff), (0xfff0, 0xfffb), (0xfffe, 0xffff), (0xe0000, 0x10ffff)]

/-- A number with a letter in front that says how many hexadecimal digits follow. -/
def escape (n : Nat) : List Char :=
  let digits (count : Nat) : List Char :=
    ((List.range count).map fun i => Printer.hexChar (n / 16 ^ i % 16)).reverse
  if n < 0x100 then '\\' :: 'x' :: digits 2
  else if n < 0x10000 then '\\' :: 'u' :: digits 4
  else '\\' :: 'U' :: digits 8

/-- A piece of a quoted text. -/
def piece (quote : Char) : Text.Piece → List Char
  | .half n => escape n
  | .char c =>
    if c = '\\' || c = quote then ['\\', c]
    else if c = '\n' then ['\\', 'n']
    else if c = '\r' then ['\\', 'r']
    else if c = '\t' then ['\\', 't']
    else if invisible.any fun (first, last) => first ≤ c.toNat && c.toNat ≤ last then escape c.toNat
    else [c]

/-- A quoted text; the quotes are single ones, unless only those stand in it. -/
def quoted (s : String) : List Char :=
  let quote := if s.contains '\'' && !s.contains '"' then '"' else '\''
  quote :: (Text.pieces s.toList).flatMap (piece quote) ++ [quote]

def number : Number → String
  | .real .nan => "nan"
  | .real (.infinite s) => if s then "-inf" else "inf"
  | n => Printer.number n

mutual

/-- A value inside another one. -/
def value : Json → List Char
  | .null => "None".toList
  | .bool b => (if b then "True" else "False").toList
  | .number n => (number n).toList
  | .text s => quoted s
  | .list xs => '[' :: items xs ++ [']']
  | .object fs => '\x7b' :: fields fs ++ ['\x7d']

/-- Items with a comma and a space between them. -/
def items : List Json → List Char
  | [] => []
  | [x] => value x
  | x :: y :: rest => value x ++ ',' :: ' ' :: items (y :: rest)

/-- Fields with a comma and a space between them. -/
def fields : List (String × Json) → List Char
  | [] => []
  | [(k, x)] => quoted k ++ ':' :: ' ' :: value x
  | (k, x) :: y :: rest =>
    quoted k ++ ':' :: ' ' :: value x ++ ',' :: ' ' :: fields (y :: rest)

end

end Shown

/-- A value as a message shows it; a text stands there as it is. -/
def shown : Json → String
  | .text s => s
  | j => String.ofList (Shown.value j)

end Json

end HashrateChart
