/-
Texts inside a document: in quotes, where lines are folded and, between double
quotes, a backslash gives a character its name, and plain ones, which end where
the structure of the document goes on.

A line end between two words is a space; further ones stand for themselves.
-/
import HashrateChart.Json.Reader
import HashrateChart.Yaml.Cursor
import HashrateChart.Yaml.Trouble

namespace HashrateChart

namespace Yaml

/-- What a line end followed by others stands for. -/
def folded (first : Char) (others : List Char) : List Char :=
  (if first ≠ '\n' then [first] else if others.isEmpty then [' '] else []) ++ others

/-! ## Quoted texts -/

namespace Quoted

/-- Characters that a single one after a backslash stands for. -/
def escapes : List (Char × Char) :=
  [('0', '\x00'), ('a', '\x07'), ('b', '\x08'), ('t', '\t'), ('\t', '\t'), ('n', '\n'),
   ('v', '\x0b'), ('f', '\x0c'), ('r', '\r'), ('e', '\x1b'), (' ', ' '), ('"', '"'), ('\\', '\\'),
   ('/', '/'), ('N', '\x85'), ('_', '\xa0'), ('L', '\u2028'), ('P', '\u2029')]

/-- How many hexadecimal digits follow a letter after a backslash. -/
def codeLength? : Char → Option Nat
  | 'x' => some 2
  | 'u' => some 4
  | 'U' => some 8
  | _ => none

/-- The number of all the digits. -/
def codeOf? (digits : List Char) : Option Nat :=
  digits.foldlM (fun n c => (Json.Reader.hexDigit? c).map (16 * n + ·)) 0

/-- The piece of text that a number stands for. Two halves of a surrogate pair stay two pieces. -/
def pieceOf (n : Nat) : Reading Text.Piece :=
  if n < 0x110000 then .ok (.ofCode n)
  else .error (.fault (if n < 2 ^ 31 then .badNumeral else .overflow))

/-- Passes line ends and the blanks around them. No mark of a document may stand there. -/
def breaks : Nat → Cursor → Reading (List Char × Cursor)
  | 0, _ => .error .unreadable
  | fuel + 1, c =>
    if c.isAtDocumentMark then .error .unreadable
    else
      let c := c.skipWhile fun x => x = ' ' || x = '\t'
      match c.lineBreak? with
      | none => .ok ([], c)
      | some (x, c) => (breaks fuel c).map fun (xs, c) => (x :: xs, c)

/-- Passes blanks, and folds line ends. -/
def blanks (fuel : Nat) (c : Cursor) : Reading (List Char × Cursor) :=
  let spaces := c.rest.takeWhile fun x => x = ' ' || x = '\t'
  let c := c.skip spaces.length
  match c.lineBreak? with
  | none => .ok (spaces, c)
  | some (x, c) => (breaks fuel c).map fun (xs, c) => (folded x xs, c)

/-- What follows a backslash between double quotes. -/
def escape (fuel : Nat) (c : Cursor) : Reading (List Text.Piece × Cursor) := do
  let x ← orUnreadable c.peek
  match escapes.lookup x, codeLength? x with
  | some y, _ => return ([.char y], c.next)
  | none, some n =>
    let digits := c.next.rest.take n
    if digits.length < n then throw .unreadable
    return ([← pieceOf (← orUnreadable (codeOf? digits))], c.next.skip n)
  | none, none =>
    let (_, c) ← orUnreadable c.lineBreak?
    let (xs, c) ← breaks fuel c
    return (xs.map .char, c)

/-- The pieces up to the closing quote. -/
def pieces (quote : Char) : Nat → Cursor → Reading (List Text.Piece × Cursor)
  | 0, _ => .error .unreadable
  | fuel + 1, c => do
    let x ← orUnreadable c.peek
    if x = quote then
      if quote = '\'' ∧ c.peekSecond = some '\'' then
        let (ps, c) ← pieces quote fuel (c.skip 2)
        return (.char '\'' :: ps, c)
      return ([], c.next)
    let (here, c) ←
      if x = '\\' ∧ quote = '"' then escape fuel c.next
      else if endsWord (some x) then (blanks fuel c).map fun (xs, c) => (xs.map .char, c)
      else .ok ([.char x], c.next)
    let (ps, c) ← pieces quote fuel c
    return (here ++ ps, c)

/-- The text at whose opening quote the cursor stands. -/
def text (c : Cursor) : Reading (String × Cursor) := do
  let quote ← orUnreadable c.peek
  let (ps, c) ← pieces quote (c.rest.length + 1) c.next
  return (String.ofList (ps.flatMap Text.Piece.written), c)

end Quoted

/-! ## Plain texts -/

namespace Plain

/-- Whether a plain text may start with a character, or goes on to the next one. -/
def starts (inFlow : Bool) (c : Cursor) : Bool :=
  match c.peek with
  | none => false
  | some x =>
    !(endsWord (some x) || "-?:,[]\x7b\x7d#&*!|>'\"%@`".toList.contains x) ||
      (!endsWord c.peekSecond && (x = '-' || (!inFlow && (x = '?' || x = ':'))))

/-- The word that stands here: up to a blank, to a colon that ends a key or, inside brackets, to
what structures them. -/
def word (inFlow : Bool) : List Char → List Char
  | [] => []
  | x :: rest =>
    let ends := endsWord (some x) ||
      (x = ':' && (endsWord rest.head? ||
        (inFlow && rest.head?.any (",[]\x7b\x7d".toList.contains ·)))) ||
      (inFlow && ",?[]\x7b\x7d".toList.contains x)
    if ends then [] else x :: word inFlow rest

/-- What stands between two words of a plain text, and whether a line end was passed. After a line
end that a mark of a document follows, the text has ended. -/
def gap (c : Cursor) : List Char × Bool × Cursor :=
  let spaces := c.rest.takeWhile (· = ' ')
  let c := c.skip spaces.length
  match c.lineBreak? with
  | none => (spaces, false, c)
  | some (x, c) =>
    if c.isAtDocumentMark then ([], true, c)
    else
      match lines (c.rest.length + 1) c with
      | (some xs, c) => (folded x xs, true, c)
      | (none, c) => ([], true, c)
where
  lines : Nat → Cursor → Option (List Char) × Cursor
    | 0, c => (none, c)
    | fuel + 1, c =>
      let c := c.skipWhile (· = ' ')
      match c.lineBreak? with
      | none => (some [], c)
      | some (x, c) =>
        if c.isAtDocumentMark then (none, c)
        else
          let (xs, c) := lines fuel c
          (xs.map (x :: ·), c)

/-- The words from here on with what stands between them. `before` stands in front of the next
word, if there is one. -/
def words (inFlow : Bool) (indent : Int) :
    Nat → List Char → Bool → Cursor → List Char × Bool × Cursor
  | 0, _, broken, c => ([], broken, c)
  | fuel + 1, before, broken, c =>
    let w := if c.peek = some '#' then [] else word inFlow c.rest
    if w.isEmpty then ([], broken, c)
    else
      let (between, broken, c) := gap (c.skip w.length)
      let here := before ++ w
      let outside := !inFlow && decide ((c.column : Int) < indent)
      if between.isEmpty || c.peek = some '#' || outside then
        (here, broken, c)
      else
        let (more, broken, c) := words inFlow indent fuel between broken c
        (here ++ more, broken, c)

/-- The plain text that stands here, and whether a line end was passed after its last word. -/
def text (inFlow : Bool) (indent : Int) (c : Cursor) : String × Bool × Cursor :=
  let (xs, broken, c) := words inFlow indent (c.rest.length + 1) [] false c
  (Text.marked (String.ofList xs), broken, c)

end Plain

end Yaml

end HashrateChart
