/-
Values under keys, in the order in which the keys first came. Putting a value
under a key that is there replaces the value and keeps the place.

`lookup_insert` says what a key gives after an insertion, `lookup_erase` after
an erasure.
-/

namespace HashrateChart

/-- Values under keys. -/
abbrev Fields (β : Type) := List (String × β)

namespace Fields

variable {β : Type}

/-- The value under a key. -/
def lookup (key : String) : Fields β → Option β
  | [] => none
  | (k, v) :: rest => if k = key then some v else lookup key rest

/-- Puts a value under a key, at the key's place or else at the end. -/
def insert (key : String) (value : β) : Fields β → Fields β
  | [] => [(key, value)]
  | (k, v) :: rest => if k = key then (k, value) :: rest else (k, v) :: insert key value rest

/-- Leaves out a key. -/
def erase (key : String) (fields : Fields β) : Fields β := fields.filter fun (k, _) => k ≠ key

theorem lookup_insert_self (key : String) (value : β) (fields : Fields β) :
    lookup key (insert key value fields) = some value := by
  induction fields with
  | nil => simp [insert, lookup]
  | cons p rest ih =>
    obtain ⟨k, v⟩ := p
    by_cases h : k = key <;> simp [insert, lookup, h, ih]

theorem lookup_insert_other {key other : String} (value : β) (fields : Fields β)
    (h : other ≠ key) : lookup other (insert key value fields) = lookup other fields := by
  induction fields with
  | nil => simp [insert, lookup, Ne.symm h]
  | cons p rest ih =>
    obtain ⟨k, v⟩ := p
    by_cases hk : k = key
    · subst hk; simp [insert, lookup, Ne.symm h]
    · by_cases ho : k = other
      · subst ho; simp [insert, lookup, hk]
      · simp [insert, lookup, hk, ho, ih]

/-- An insertion changes what one key gives. -/
theorem lookup_insert (key other : String) (value : β) (fields : Fields β) :
    lookup other (insert key value fields) =
      if other = key then some value else lookup other fields := by
  by_cases h : other = key
  · subst h; simp [lookup_insert_self]
  · simp [h, lookup_insert_other value fields h]

theorem lookup_erase_self (key : String) (fields : Fields β) :
    lookup key (erase key fields) = none := by
  induction fields with
  | nil => rfl
  | cons p rest ih =>
    obtain ⟨k, v⟩ := p
    by_cases h : k = key
    · simpa [erase, h] using ih
    · simpa [erase, h, lookup] using ih

theorem lookup_erase_other {key other : String} (fields : Fields β) (h : other ≠ key) :
    lookup other (erase key fields) = lookup other fields := by
  induction fields with
  | nil => rfl
  | cons p rest ih =>
    obtain ⟨k, v⟩ := p
    by_cases hk : k = key
    · subst hk; simpa [erase, lookup, Ne.symm h] using ih
    · by_cases ho : k = other
      · subst ho; simp [erase, lookup, hk]
      · simpa [erase, lookup, hk, ho] using ih

/-- An erasure changes what one key gives. -/
theorem lookup_erase (key other : String) (fields : Fields β) :
    lookup other (erase key fields) = if other = key then none else lookup other fields := by
  by_cases h : other = key
  · subst h; simp [lookup_erase_self]
  · simp [h, lookup_erase_other fields h]

end Fields

end HashrateChart
