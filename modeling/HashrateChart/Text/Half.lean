/-
Halves of surrogate pairs inside texts.

A text may hold half of such a pair by itself, which is no character. It is
written with a mark and a character behind the mark that tells which half it is;
the mark itself, where it is meant, is written twice. So a text is a row of
pieces, and `pieces` finds them all again, whatever they are.
-/

namespace HashrateChart

namespace Text

/-- What stands at one place of a text. -/
inductive Piece where
  | char (c : Char)
  /-- Half a surrogate pair, by its number. -/
  | half (n : Nat)
  deriving DecidableEq, Repr

/-- The character in front of a half: the last one there is. -/
def mark : Char := Char.ofNat 0x10ffff

/-- How far above the number of a half the character behind the mark is. -/
def halfBase : Nat := 0x100000

/-- Whether a number is that of half a surrogate pair. -/
def isHalf (n : Nat) : Bool := 0xd800 ≤ n && n < 0xe000

namespace Piece

/-- The piece with a number. -/
def ofCode (n : Nat) : Piece := if isHalf n then half n else char (Char.ofNat n)

/-- The characters with which a piece is written. -/
def written : Piece → List Char
  | char c => if c = mark then [mark, mark] else [c]
  | half n => [mark, Char.ofNat (halfBase + n)]

/-- A text of one piece. -/
def toText (p : Piece) : String := String.ofList p.written

/-- The character of a piece that is one. -/
def char? : Piece → Option Char
  | char c => some c
  | half _ => none

/-- The bytes of a piece in the name of a file. The upper half of the bytes that are no ASCII are
themselves halves; other halves have none. -/
def bytes? : Piece → Option (List UInt8)
  | char c => some (String.utf8EncodeChar c)
  | half n => if 0xdc80 ≤ n ∧ n < 0xdd00 then some [(n - 0xdc00).toUInt8] else none

end Piece

/-- The pieces that characters write. -/
def pieces : List Char → List Piece
  | c :: d :: cs =>
    if c = mark then (if d = mark then .char mark else .half (d.toNat - halfBase)) :: pieces cs
    else .char c :: pieces (d :: cs)
  | [c] => [.char c]
  | [] => []

/-- A piece is found again in front of whatever is written after it. -/
theorem pieces_written_append {p : Piece} (h : ∀ n, p = .half n → isHalf n = true)
    (cs : List Char) : pieces (p.written ++ cs) = p :: pieces cs := by
  cases p with
  | char c =>
    by_cases hc : c = mark
    · simp [Piece.written, pieces, hc]
    · cases cs <;> simp [Piece.written, pieces, hc]
  | half n =>
    have hn := h n rfl
    simp only [isHalf, Bool.and_eq_true, decide_eq_true_eq] at hn
    have valid : (halfBase + n).isValidChar := by
      right
      constructor <;> simp only [halfBase] <;> omega
    have number : (Char.ofNat (halfBase + n)).toNat = halfBase + n := by
      rw [Char.ofNat, dif_pos valid]
      rfl
    have other : Char.ofNat (halfBase + n) ≠ mark := by
      intro same
      have : halfBase + n = 0x10ffff := by rw [← number, same]; decide
      simp only [halfBase] at this
      omega
    simp [Piece.written, pieces, other, number]

/-- The pieces of a text are those that it was written with. -/
theorem pieces_written : ∀ {ps : List Piece}, (∀ n, .half n ∈ ps → isHalf n = true) →
    pieces (ps.flatMap Piece.written) = ps
  | [], _ => rfl
  | p :: ps, h => by
    rw [List.flatMap_cons, pieces_written_append fun n hn => h n (hn ▸ List.mem_cons_self),
      pieces_written fun n hn => h n (List.mem_cons_of_mem p hn)]

/-- The text whose places are the characters of a text from outside. -/
def marked (s : String) : String :=
  String.ofList (s.toList.flatMap fun c => (Piece.char c).written)

/-- The characters of a text in which no half stands. -/
def characters? (s : String) : Option (List Char) := (pieces s.toList).mapM Piece.char?

/-- A text as it is shown outside, where a half cannot be. -/
def unmarked (s : String) : String :=
  String.ofList ((pieces s.toList).map fun p => p.char?.getD '\ufffd')

/-- The texts of the single places. -/
def places (s : String) : List String := (pieces s.toList).map Piece.toText

/-- The bytes of a text in the name of a file, if it can be one. -/
def bytes? (s : String) : Option (List UInt8) :=
  ((pieces s.toList).mapM Piece.bytes?).map List.flatten

end Text

end HashrateChart
