/-
A place in the text of a document: what is left of the text, and how many
characters, lines and columns were passed.

Besides the line feed three wider characters end a line. Two of them stand for
themselves in a text, the others for a line feed.
-/

namespace HashrateChart

namespace Yaml

/-- Whether a character ends a line. -/
def isBreak (c : Char) : Bool := ['\n', '\x85', '\u2028', '\u2029'].contains c

/-- Whether a word ends before a character, or before the end of the text. -/
def endsWord : Option Char → Bool
  | none => true
  | some c => c = ' ' || c = '\t' || isBreak c

/-- The characters that a document may consist of. -/
def isPrintable (c : Char) : Bool :=
  let n := c.toNat
  n = 0x9 || n = 0xa || n = 0xd || (0x20 ≤ n && n ≤ 0x7e) || n = 0x85 ||
    (0xa0 ≤ n && n ≤ 0xd7ff) || (0xe000 ≤ n && n ≤ 0xfffd) || 0x10000 ≤ n

structure Cursor where
  rest : List Char
  index : Nat := 0
  line : Nat := 0
  column : Nat := 0
  deriving DecidableEq

namespace Cursor

def peek (c : Cursor) : Option Char := c.rest.head?

/-- The character after the next one. -/
def peekSecond (c : Cursor) : Option Char := c.rest[1]?

/-- Passes one character; a byte order mark takes no column. -/
def next (c : Cursor) : Cursor :=
  match c.rest with
  | [] => c
  | x :: rest =>
    if isBreak x then ⟨rest, c.index + 1, c.line + 1, 0⟩
    else ⟨rest, c.index + 1, c.line, if x = '\ufeff' then c.column else c.column + 1⟩

def skip (c : Cursor) : Nat → Cursor
  | 0 => c
  | n + 1 => c.next.skip n

/-- Passes the characters of a class. -/
def skipWhile (c : Cursor) (p : Char → Bool) : Cursor := c.skip (c.rest.takeWhile p).length

/-- Passes the end of a line, and gives what it stands for. -/
def lineBreak? (c : Cursor) : Option (Char × Cursor) :=
  match c.peek with
  | some x =>
    if isBreak x then some (if x = '\x85' then '\n' else x, c.next) else none
  | none => none

/-- Whether a mark of three characters stands here by itself. -/
def isAtMark (c : Cursor) (mark : List Char) : Bool :=
  c.rest.take 3 = mark && endsWord c.rest[3]?

/-- Whether the start or the end of a document is marked here. -/
def isAtDocumentMark (c : Cursor) : Bool :=
  c.isAtMark ['-', '-', '-'] || c.isAtMark ['.', '.', '.']

end Cursor

end Yaml

end HashrateChart
