/-
Blank characters: the six blanks of plain ASCII texts, and white space of the
whole character set.
-/

namespace HashrateChart

namespace Text

/-- White space outside ASCII. -/
def wideBlanks : List Nat :=
  [0x85, 0xa0, 0x1680, 0x2000, 0x2001, 0x2002, 0x2003, 0x2004, 0x2005, 0x2006, 0x2007,
   0x2008, 0x2009, 0x200a, 0x2028, 0x2029, 0x202f, 0x205f, 0x3000]

/-- The blanks of ASCII: tab, line feed, vertical tab, form feed, return and space. -/
def isAsciiBlank (c : Char) : Bool := c.toNat == 32 || (9 ≤ c.toNat && c.toNat ≤ 13)

/-- White space of the whole character set. -/
def isBlank (c : Char) : Bool := isAsciiBlank c || wideBlanks.contains c.toNat

/-- The text without the characters of a class at either end. -/
def trimBy (p : Char → Bool) (cs : List Char) : List Char :=
  ((cs.dropWhile p).reverse.dropWhile p).reverse

end Text

end HashrateChart
