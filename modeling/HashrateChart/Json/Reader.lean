/-
Reading a value from its text.

The grammar is that of JSON with three more words for numbers: `NaN`,
`Infinity` and `-Infinity`. Blanks are space, tab, line feed and return; a text
may not start with a byte order mark. A reader takes a value off the front of
the text and gives the rest. Lists and objects stand inside one another only so
deep; what opens deeper is not read any further, whatever follows it.
-/
import HashrateChart.Json
import HashrateChart.Text.Half

namespace HashrateChart

namespace Json

namespace Reader

def isBlank (c : Char) : Bool := c = ' ' || c = '\t' || c = '\n' || c = '\r'

def skip (cs : List Char) : List Char := cs.dropWhile isBlank

/-- Takes a word off the front. -/
def word? : List Char → List Char → Option (List Char)
  | [], cs => some cs
  | _ :: _, [] => none
  | w :: ws, c :: cs => if w = c then word? ws cs else none

/-! ## Texts -/

def hexDigit? (c : Char) : Option Nat :=
  let n := c.toNat
  if 48 ≤ n ∧ n ≤ 57 then some (n - 48)
  else if 97 ≤ n ∧ n ≤ 102 then some (n - 87)
  else if 65 ≤ n ∧ n ≤ 70 then some (n - 55)
  else none

/-- Four hexadecimal digits. -/
def hex4? : List Char → Option (Nat × List Char)
  | a :: b :: c :: d :: rest => do
    let a ← hexDigit? a
    let b ← hexDigit? b
    let c ← hexDigit? c
    let d ← hexDigit? d
    return (((a * 16 + b) * 16 + c) * 16 + d, rest)
  | _ => none

/-- The piece of text after a backslash and a `u`: one unit, or a pair of them. -/
def unicode? (cs : List Char) : Option (Text.Piece × List Char) := do
  let (high, rest) ← hex4? cs
  if 0xd800 ≤ high ∧ high < 0xdc00 then
    match rest with
    | '\\' :: 'u' :: more =>
      let (low, after) ← hex4? more
      if 0xdc00 ≤ low ∧ low < 0xe000 then
        return (.ofCode (0x10000 + (high - 0xd800) * 1024 + (low - 0xdc00)), after)
      else return (.ofCode high, rest)
    | _ => return (.ofCode high, rest)
  else return (.ofCode high, rest)

/-- The piece of text after a backslash. -/
def escape? : List Char → Option (Text.Piece × List Char)
  | '"' :: cs => some (.char '"', cs)
  | '\\' :: cs => some (.char '\\', cs)
  | '/' :: cs => some (.char '/', cs)
  | 'b' :: cs => some (.char '\x08', cs)
  | 'f' :: cs => some (.char '\x0c', cs)
  | 'n' :: cs => some (.char '\n', cs)
  | 'r' :: cs => some (.char '\r', cs)
  | 't' :: cs => some (.char '\t', cs)
  | 'u' :: cs => unicode? cs
  | _ => none

/-- The characters up to the closing quote. -/
def characters? : Nat → List Char → Option (List Char × List Char)
  | 0, _ => none
  | _ + 1, [] => none
  | _ + 1, '"' :: cs => some ([], cs)
  | fuel + 1, '\\' :: cs => do
    let (piece, rest) ← escape? cs
    let (tail, rest) ← characters? fuel rest
    return (piece.written ++ tail, rest)
  | fuel + 1, c :: cs =>
    if c.toNat < 32 then none
    else do
      let (tail, rest) ← characters? fuel cs
      return (c :: tail, rest)

/-- The text after an opening quote. -/
def text? (cs : List Char) : Option (String × List Char) :=
  (characters? (cs.length + 1) cs).map fun (chars, rest) => (String.ofList chars, rest)

/-! ## Numbers -/

/-- The digits before the point: a zero alone, or digits that start with no zero. -/
def wholeDigits? : List Char → Option (List Nat × List Char)
  | '0' :: cs => some ([0], cs)
  | cs =>
    match Decimal.splitPlainDigits cs with
    | ([], _) => none
    | found => some found

/-- The digits after a point, when a point and a digit follow. -/
def fraction? : List Char → Option (List Nat × List Char)
  | '.' :: cs =>
    match Decimal.splitPlainDigits cs with
    | ([], _) => none
    | found => some found
  | _ => none

/-- An exponent, when its letter and a digit follow. -/
def exponent? : List Char → Option (Int × List Char)
  | e :: cs =>
    if e = 'e' ∨ e = 'E' then
      let (negative, cs) := Decimal.splitSign cs
      match Decimal.splitPlainDigits cs with
      | ([], _) => none
      | (ds, rest) => some (Binary64.signed negative (Decimal.value ds), rest)
    else none
  | [] => none

/-- A number: an integer unless it has a point or an exponent. -/
def number? (cs : List Char) : Option (Number × List Char) := do
  let (negative, cs) :=
    match cs with
    | '-' :: cs => (true, cs)
    | cs => (false, cs)
  let (whole, cs) ← wholeDigits? cs
  let fraction := fraction? cs
  let cs := (fraction.map (·.2)).getD cs
  let exponent := exponent? cs
  let cs := (exponent.map (·.2)).getD cs
  if fraction.isNone && exponent.isNone then
    if whole.length ≤ Decimal.maxIntDigits then
      return (.int (Binary64.signed negative (Decimal.value whole)), cs)
    else none
  else
    let digits := (fraction.map (·.1)).getD []
    let numeral := Decimal.numeralOf whole digits ((exponent.map (·.1)).getD 0)
    return (.real (numeral.toBinary64 negative), cs)

/-- The words that are values. -/
def words : List (String × Json) :=
  [("null", .null), ("true", .bool true), ("false", .bool false), ("NaN", .real .nan),
   ("Infinity", .real (.infinite false)), ("-Infinity", .real (.infinite true))]

/-- A word that is a value. -/
def named? (cs : List Char) : Option (Json × List Char) :=
  words.findSome? fun (w, j) => (word? w.toList cs).map fun rest => (j, rest)

/-! ## Values -/

/-- Why a text stands for no value. -/
inductive Flaw where
  | malformed
  | tooDeep
  deriving DecidableEq, Repr

/-- What is there, unless the text is malformed. -/
def orMalformed {α : Type} : Option α → Except Flaw α
  | some x => .ok x
  | none => .error .malformed

/-- How many lists and objects may still open inside one that opens. -/
def within : Nat → Except Flaw Nat
  | 0 => .error .tooDeep
  | room + 1 => .ok room

/-- How many lists and objects stand inside one another at most. -/
def deepest : Nat := 988

mutual

/-- A value, at whose first character the text stands. -/
def value : Nat → Nat → List Char → Except Flaw (Json × List Char)
  | 0, _, _ => .error .malformed
  | fuel + 1, room, '[' :: cs => do
    let room ← within room
    match skip cs with
    | ']' :: rest => return (.list [], rest)
    | cs =>
      let (xs, rest) ← items fuel room cs
      return (.list xs, rest)
  | fuel + 1, room, '\x7b' :: cs => do
    let room ← within room
    match skip cs with
    | '\x7d' :: rest => return (.object [], rest)
    | cs =>
      let (fs, rest) ← fields fuel room [] cs
      return (.object fs, rest)
  | _ + 1, _, '"' :: cs => do
    let (s, rest) ← orMalformed (text? cs)
    return (.text s, rest)
  | _ + 1, _, cs =>
    match named? cs with
    | some found => .ok found
    | none => do
      let (n, rest) ← orMalformed (number? cs)
      return (.number n, rest)

/-- The items of a list up to its closing bracket. -/
def items : Nat → Nat → List Char → Except Flaw (List Json × List Char)
  | 0, _, _ => .error .malformed
  | fuel + 1, room, cs => do
    let (x, rest) ← value fuel room cs
    match skip rest with
    | ']' :: rest => return ([x], rest)
    | ',' :: rest =>
      let (xs, rest) ← items fuel room (skip rest)
      return (x :: xs, rest)
    | _ => throw .malformed

/-- The fields of an object up to its closing brace, added to those read before. -/
def fields : Nat → Nat → List (String × Json) → List Char →
    Except Flaw (List (String × Json) × List Char)
  | 0, _, _, _ => .error .malformed
  | fuel + 1, room, before, '"' :: cs => do
    let (key, rest) ← orMalformed (text? cs)
    match skip rest with
    | ':' :: rest =>
      let (x, rest) ← value fuel room (skip rest)
      match skip rest with
      | '\x7d' :: rest => return (Fields.insert key x before, rest)
      | ',' :: rest => fields fuel room (Fields.insert key x before) (skip rest)
      | _ => throw .malformed
    | _ => throw .malformed
  | _ + 1, _, _, _ => .error .malformed

end

end Reader

/-- The value that a whole text stands for. -/
def parse (s : String) : Except Reader.Flaw Json := do
  let cs := s.toList
  let (j, rest) ← Reader.value (cs.length + 1) Reader.deepest (Reader.skip cs)
  if (Reader.skip rest).isEmpty then return j else throw .malformed

/-- The value that a whole text stands for, when it stands for one. -/
def parse? (s : String) : Option Json := (parse s).toOption

end Json

end HashrateChart
