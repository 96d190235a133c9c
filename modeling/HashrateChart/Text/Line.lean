/-
The lines of a text. Besides the line feed and the return some separators and
wider characters end a line; a return and a line feed end it together. Nothing
stands after the end of the last line.
-/

namespace HashrateChart

namespace Text

/-- Whether a character ends a line. -/
def endsLine (c : Char) : Bool :=
  ['\n', '\r', '\x0b', '\x0c', '\x1c', '\x1d', '\x1e', '\x85', '\u2028', '\u2029'].contains c

/-- The lines of characters after those of an unfinished one, the last of which comes first. -/
def linesAfter (line : List Char) : List Char → List String
  | [] => if line.isEmpty then [] else [String.ofList line.reverse]
  | '\r' :: '\n' :: cs => String.ofList line.reverse :: linesAfter [] cs
  | c :: cs =>
    if endsLine c then String.ofList line.reverse :: linesAfter [] cs else linesAfter (c :: line) cs

/-- The lines of a text. -/
def lines (s : String) : List String := linesAfter [] s.toList

end Text

end HashrateChart
