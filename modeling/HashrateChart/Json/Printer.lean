/-
A value as text: items after a comma and a space, keys before a colon and a
space, everything outside printable ASCII escaped.
-/
import HashrateChart.Json
import HashrateChart.Text.Half
import HashrateChart.Decimal.Printer

namespace HashrateChart

namespace Json

namespace Printer

def hexChar (n : Nat) : Char := if n < 10 then Char.ofNat (48 + n) else Char.ofNat (87 + n)

/-- One UTF-16 unit as an escape of four hexadecimal digits. -/
def unitEscape (n : Nat) : List Char :=
  ['\\', 'u', hexChar (n / 4096 % 16), hexChar (n / 256 % 16), hexChar (n / 16 % 16),
   hexChar (n % 16)]

/-- A character inside a quoted text. -/
def character (c : Char) : List Char :=
  if c = '"' then ['\\', '"']
  else if c = '\\' then ['\\', '\\']
  else if c = '\n' then ['\\', 'n']
  else if c = '\r' then ['\\', 'r']
  else if c = '\t' then ['\\', 't']
  else if c = '\x0c' then ['\\', 'f']
  else if c = '\x08' then ['\\', 'b']
  else if 32 ≤ c.toNat ∧ c.toNat < 127 then [c]
  else if c.toNat < 0x10000 then unitEscape c.toNat
  else
    unitEscape (0xd800 + (c.toNat - 0x10000) / 1024) ++
      unitEscape (0xdc00 + (c.toNat - 0x10000) % 1024)

/-- A piece of a quoted text. -/
def piece : Text.Piece → List Char
  | .char c => character c
  | .half n => unitEscape n

def text (s : String) : List Char := '"' :: (Text.pieces s.toList).flatMap piece ++ ['"']

/-- The names of the numbers that have no digits. -/
def real (x : Binary64) : String :=
  match x with
  | .nan => "NaN"
  | .infinite s => if s then "-Infinity" else "Infinity"
  | x => Decimal.shortestText Decimal.stored x

def number : Number → String
  | .int i => Decimal.intText i
  | .real x => real x

mutual

def value : Json → List Char
  | .null => "null".toList
  | .bool b => (if b then "true" else "false").toList
  | .number n => (number n).toList
  | .text s => text s
  | .list xs => '[' :: items xs ++ [']']
  | .object fs => '\x7b' :: fields fs ++ ['\x7d']

/-- Items with a comma and a space between them. -/
def items : List Json → List Char
  | [] => []
  | [x] => value x
  | x :: y :: rest => value x ++ ',' :: ' ' :: items (y :: rest)

/-- Fields with a comma and a space between them. -/
def fields : List (String × Json) → List Char
  | [] => []
  | [(k, x)] => text k ++ ':' :: ' ' :: value x
  | (k, x) :: y :: rest => text k ++ ':' :: ' ' :: value x ++ ',' :: ' ' :: fields (y :: rest)

end

end Printer

/-- The text of a value. -/
def print (j : Json) : String := String.ofList (Printer.value j)

end Json

end HashrateChart
