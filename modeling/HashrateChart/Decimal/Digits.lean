/-
Whole numbers in decimal digits, most significant first.

`value_digits`: the digits of a number have its value.
-/
import HashrateChart.Text.Digit

namespace HashrateChart

namespace Decimal

/-- The decimal digits of a number; zero has one. -/
def digits (n : Nat) : List Nat :=
  if n < 10 then [n] else digits (n / 10) ++ [n % 10]
termination_by n

/-- The number that a list of digits stands for. -/
def value (ds : List Nat) : Nat := ds.foldl (fun acc d => 10 * acc + d) 0

theorem value_append_singleton (ds : List Nat) (d : Nat) :
    value (ds ++ [d]) = 10 * value ds + d := by
  simp [value, List.foldl_append]

theorem value_digits (n : Nat) : value (digits n) = n := by
  fun_induction digits n with
  | case1 n h => simp [value]
  | case2 n h ih => rw [value_append_singleton, ih]; omega

theorem lt_ten_of_mem_digits {n d : Nat} (h : d ∈ digits n) : d < 10 := by
  fun_induction digits n with
  | case1 n hn => simp only [List.mem_singleton] at h; omega
  | case2 n hn ih =>
    rcases List.mem_append.1 h with h | h
    · exact ih h
    · simp only [List.mem_singleton] at h; omega

/-- How many digits a number has; zero has none. -/
def digitCount (n : Nat) : Nat := if n = 0 then 0 else (digits n).length

/-- Digits as text. -/
def digitText (ds : List Nat) : String := String.ofList (ds.map Text.digitChar)

/-- A natural number as text. -/
def natText (n : Nat) : String := digitText (digits n)

/-- An integer as text. -/
def intText (i : Int) : String :=
  if i < 0 then "-" ++ natText i.natAbs else natText i.natAbs

/-- A number with a comma between groups of three digits. -/
def groupedText (n : Nat) : String :=
  let rec go : List Char → List Char
    | a :: b :: c :: d :: rest => a :: b :: c :: ',' :: go (d :: rest)
    | cs => cs
  String.ofList (go (natText n).toList.reverse).reverse

/-- Digits filled up with zeros on the left to a width. -/
def padLeft (width : Nat) (ds : List Nat) : List Nat :=
  List.replicate (width - ds.length) 0 ++ ds

end Decimal

end HashrateChart
