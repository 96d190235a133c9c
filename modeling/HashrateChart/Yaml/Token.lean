/-
From the text of a document to the tokens of its structure.

Inside brackets the brackets give the structure. Outside of them the columns
do: where a line goes further in than the lines before, a list or a mapping
starts, and it ends where a line comes back out.

A text on one line may turn out to be a key when a colon follows. The places
where one may have started are kept, one for each open bracket, and its token is
put in afterwards. Directives, tags, anchors and texts in blocks are not read.
-/
import HashrateChart.Yaml.Scalar

namespace HashrateChart

namespace Yaml

inductive Token where
  | plain (text : String)
  | quoted (text : String)
  | openList
  | closeList
  | openMapping
  | closeMapping
  | comma
  | listStart
  | mappingStart
  | blockEnd
  | dash
  | key
  | value
  | documentStart
  | documentEnd
  deriving DecidableEq

/-- A place where a key may have started. -/
structure KeyStart where
  /-- How many tokens stand before it. -/
  token : Nat
  /-- Whether nothing but a key can stand there. -/
  required : Bool
  index : Nat
  line : Nat
  column : Int

/-- A key that is this many characters long at most is seen as one. -/
def maxKeyLength : Nat := 1024

structure Scan where
  cursor : Cursor
  tokens : Array Token := #[]
  /-- The columns at which lists and mappings are open, the innermost first. -/
  columns : List Int := []
  /-- Where a key may have started inside each open bracket, the innermost first, and at last
  outside of all brackets. -/
  starts : List (Option KeyStart) := [none]
  /-- Whether a key may start here. -/
  keyAllowed : Bool := true

namespace Scan

def inFlow (s : Scan) : Bool := 1 < s.starts.length

/-- The column of the innermost list or mapping outside of brackets. -/
def indent (s : Scan) : Int := s.columns.headD (-1)

def column (s : Scan) : Int := s.cursor.column

/-- Adds a token for the next characters. -/
def emit (t : Token) (s : Scan) (length : Nat := 0) : Scan :=
  { s with tokens := s.tokens.push t, cursor := s.cursor.skip length }

def allowKey (allowed : Bool) (s : Scan) : Scan := { s with keyAllowed := allowed }

/-! ## Keys -/

/-- Gives up a key, unless there has to be one. -/
def giveUp (k : KeyStart) : Reading (Option KeyStart) :=
  if k.required then .error .unreadable else .ok none

/-- Gives up the key that may have started inside the innermost bracket. -/
def dropKey (s : Scan) : Reading Scan :=
  match s.starts with
  | some k :: outer => do return { s with starts := (← giveUp k) :: outer }
  | _ => .ok s

/-- Gives up the keys that started on another line or too far away. -/
def dropStale (s : Scan) : Reading Scan := do
  let starts ← s.starts.mapM fun start =>
    match start with
    | none => .ok none
    | some k =>
      if k.line ≠ s.cursor.line ∨ maxKeyLength < s.cursor.index - k.index then giveUp k
      else .ok (some k)
  return { s with starts := starts }

/-- Remembers that a key may start here. -/
def saveKey (s : Scan) : Reading Scan := do
  if !s.keyAllowed then return s
  let s ← s.dropKey
  let k : KeyStart := {
    token := s.tokens.size
    required := !s.inFlow && s.indent = s.column
    index := s.cursor.index
    line := s.cursor.line
    column := s.column }
  return { s with starts := some k :: s.starts.tail }

/-! ## Columns -/

/-- Ends the lists and mappings that are further in than a column. -/
def unwind (column : Int) (s : Scan) : Scan :=
  if s.inFlow then s
  else
    let ended := s.columns.takeWhile (column < ·)
    { s with
      columns := s.columns.drop ended.length
      tokens := s.tokens ++ (ended.map fun _ => Token.blockEnd).toArray }

/-- Opens a list or a mapping at a column that is further in, with its token at a place. -/
def openAt (column : Int) (t : Token) (place : Nat) (s : Scan) : Scan :=
  if s.inFlow ∨ column ≤ s.indent then s
  else { s with columns := column :: s.columns, tokens := s.tokens.insertIdxIfInBounds place t }

/-- Opens a list or a mapping here, where outside of brackets a key has to be allowed. -/
def openHere (t : Token) (s : Scan) : Reading Scan :=
  if s.inFlow then .ok s
  else if s.keyAllowed then .ok (s.openAt s.column t s.tokens.size)
  else .error .unreadable

/-! ## Tokens -/

/-- The mark of a document's start or end. -/
def documentMark (t : Token) (s : Scan) : Reading Scan := do
  return (← (s.unwind (-1)).dropKey).allowKey false |>.emit t 3

def openBracket (t : Token) (s : Scan) : Reading Scan := do
  let s ← s.saveKey
  return { s with starts := none :: s.starts }.allowKey true |>.emit t 1

def closeBracket (t : Token) (s : Scan) : Reading Scan := do
  let s ← s.dropKey
  if !s.inFlow then throw .unreadable
  return { s with starts := s.starts.tail }.allowKey false |>.emit t 1

def comma (s : Scan) : Reading Scan := do
  return (← s.dropKey).allowKey true |>.emit .comma 1

def dash (s : Scan) : Reading Scan := do
  return (← (← s.openHere .listStart).dropKey).allowKey true |>.emit .dash 1

def questionMark (s : Scan) : Reading Scan := do
  return (← (← s.openHere .mappingStart).dropKey).allowKey (!s.inFlow) |>.emit .key 1

/-- A colon makes a key of what may have been one, or else its key is empty. -/
def colon (s : Scan) : Reading Scan := do
  match s.starts with
  | some k :: outer =>
    let s := { s with
      starts := none :: outer
      tokens := s.tokens.insertIdxIfInBounds k.token .key }
    return (s.openAt k.column .mappingStart k.token).allowKey false |>.emit .value 1
  | _ =>
    return (← (← s.openHere .mappingStart).dropKey).allowKey (!s.inFlow) |>.emit .value 1

def quoted (s : Scan) : Reading Scan := do
  let s ← s.saveKey
  let (text, c) ← Quoted.text s.cursor
  return { s with cursor := c }.allowKey false |>.emit (.quoted text)

def plain (s : Scan) : Reading Scan := do
  let s ← s.saveKey
  let (text, broken, c) := Plain.text s.inFlow (s.indent + 1) s.cursor
  return { s with cursor := c }.allowKey broken |>.emit (.plain text)

/-- The next token, when a character stands here. -/
def token (s : Scan) (x : Char) : Reading Scan :=
  let c := s.cursor
  let indicates := s.inFlow || endsWord c.peekSecond
  if c.column = 0 && c.isAtMark ['-', '-', '-'] then s.documentMark .documentStart
  else if c.column = 0 && c.isAtMark ['.', '.', '.'] then s.documentMark .documentEnd
  else if x = '[' then s.openBracket .openList
  else if x = '\x7b' then s.openBracket .openMapping
  else if x = ']' then s.closeBracket .closeList
  else if x = '\x7d' then s.closeBracket .closeMapping
  else if x = ',' then s.comma
  else if x = '-' && endsWord c.peekSecond then s.dash
  else if x = '?' && indicates then s.questionMark
  else if x = ':' && indicates then s.colon
  else if x = '\'' || x = '"' then s.quoted
  else if Plain.starts s.inFlow c then s.plain
  else .error .unreadable

/-- Passes blanks, comments and line ends. -/
def skipBlanks : Nat → Scan → Scan
  | 0, s => s
  | fuel + 1, s =>
    let c := s.cursor.skipWhile (· = ' ')
    let c := if c.peek = some '#' then c.skipWhile (!isBreak ·) else c
    match c.lineBreak? with
    | some (_, c) => skipBlanks fuel { s with cursor := c, keyAllowed := s.keyAllowed || !s.inFlow }
    | none => { s with cursor := c }

/-- The tokens up to the end. -/
def tokensFrom : Nat → Scan → Reading (List Token)
  | 0, _ => .error .unreadable
  | fuel + 1, s => do
    let s ← (s.skipBlanks (s.cursor.rest.length + 1)).dropStale
    match s.cursor.peek with
    | none => return (← (s.unwind (-1)).dropKey).tokens.toList
    | some x => tokensFrom fuel (← (s.unwind s.column).token x)

end Scan

/-- The tokens of a text. A byte order mark may stand in front. -/
def tokens (text : List Char) : Reading (List Token) :=
  let c : Cursor := { rest := text }
  Scan.tokensFrom (text.length + 1)
    { cursor := if c.peek = some '\ufeff' then c.next else c }

end Yaml

end HashrateChart
