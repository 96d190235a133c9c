/-
Decimal numerals: what their digits say and what magnitude they have.

A numeral may have its zeros at the end in the coefficient or in the exponent
(`magnitude?_mul_pow`), so it does not matter where the point of a text stands.
Reading cuts off numerals far out of range without looking at their digits; a
numeral of a positive magnitude is never one of them (`toBinary64_of_magnitude?`).
-/
import HashrateChart.Decimal.Printer
import HashrateChart.Decimal.Reader
import HashrateChart.Proofs.Binary64

namespace HashrateChart

namespace Decimal

/-! ## Digits -/

theorem digits_of_lt {n : Nat} (h : n < 10) : digits n = [n] := by rw [digits, if_pos h]

theorem digits_of_le {n : Nat} (h : 10 ≤ n) : digits n = digits (n / 10) ++ [n % 10] := by
  rw [digits, if_neg (by omega)]

theorem digits_ne_nil (n : Nat) : digits n ≠ [] := by
  by_cases h : n < 10
  · rw [digits_of_lt h]; simp
  · rw [digits_of_le (by omega)]; simp

theorem length_digits_pos (n : Nat) : 0 < (digits n).length := List.length_pos_iff.mpr (digits_ne_nil n)

/-- A number is between the powers of ten that its digits tell. -/
theorem digits_bounds {n : Nat} (hn : n ≠ 0) :
    10 ^ ((digits n).length - 1) ≤ n ∧ n < 10 ^ (digits n).length := by
  fun_induction digits n with
  | case1 n h => simp; omega
  | case2 n h ih =>
    obtain ⟨hlo, hhi⟩ := ih (by omega)
    have hpos := length_digits_pos (n / 10)
    have hpow : 10 ^ (digits (n / 10)).length = 10 * 10 ^ ((digits (n / 10)).length - 1) := by
      rw [← Nat.pow_succ']; congr 1; omega
    simp only [List.length_append, List.length_singleton, Nat.add_sub_cancel, Nat.pow_succ]
    omega

/-- A number below a power of ten has no more digits than its exponent. -/
theorem length_digits_le {n k : Nat} (h : n < 10 ^ (k + 1)) : (digits n).length ≤ k + 1 := by
  by_cases hn : n = 0
  · rw [hn, digits_of_lt (by decide), List.length_singleton]
    omega
  · have hlt := Nat.lt_of_le_of_lt (digits_bounds hn).1 h
    have := (Nat.pow_lt_pow_iff_right (by decide)).mp hlt
    omega

theorem few_digits {n k : Nat} (h : n < 10 ^ (k + 1)) (hk : k < maxIntDigits) :
    (digits n).length ≤ maxIntDigits := Nat.le_trans (length_digits_le h) hk

/-- The whole part of a binary64 number has digits that an integer may have. -/
theorem few_digits_of_truncate {x : Binary64} {i : Int} (h : x.truncate = .ok i) :
    (digits i.natAbs).length ≤ maxIntDigits := by
  cases x with
  | finite s m =>
    obtain rfl : (Binary64.signed s m.units).tdiv unitsPerOne = i := Except.ok.inj h
    have hunits : (Binary64.signed s m.units).natAbs = m.units := by cases s <;> simp [Binary64.signed]
    have hlt : m.units / unitsPerOne < 10 ^ (699 + 1) :=
      calc m.units / unitsPerOne ≤ m.units := Nat.div_le_self _ _
        _ < twoPow 2098 := m.representable.1
        _ ≤ 2 * twoPow 2098 := Nat.le_mul_of_pos_left _ (by decide)
        _ < 10 ^ (699 + 1) := two_mul_twoPow_lt (by decide)
    rw [Int.natAbs_tdiv, hunits]
    exact few_digits hlt (by decide)
  | infinite s => cases h
  | nan => cases h

/-- The digits of a positive number start with no zero. -/
theorem head?_digits {n d : Nat} (hn : n ≠ 0) (h : (digits n).head? = some d) : d ≠ 0 := by
  fun_induction digits n with
  | case1 n hlt => simp only [List.head?_cons, Option.some.injEq] at h; omega
  | case2 n hle ih =>
    cases hd : digits (n / 10) with
    | nil => exact absurd hd (digits_ne_nil _)
    | cons e es =>
      rw [hd] at h ih
      exact ih (by omega) h

theorem value_append_zeros (ds : List Nat) (k : Nat) :
    value (ds ++ List.replicate k 0) = value ds * 10 ^ k := by
  induction k with
  | zero => simp
  | succ k ih =>
    rw [List.replicate_succ', ← List.append_assoc, value_append_singleton, ih, Nat.add_zero,
      Nat.pow_succ', Nat.mul_left_comm]

theorem value_zeros_append (k : Nat) (ds : List Nat) : value (List.replicate k 0 ++ ds) = value ds := by
  have hz : (List.replicate k 0).foldl (fun acc d => 10 * acc + d) 0 = 0 := by
    induction k with
    | zero => rfl
    | succ k ih => rw [List.replicate_succ, List.foldl_cons]; exact ih
  rw [value, List.foldl_append, hz]
  rfl

theorem value_padLeft (width : Nat) (ds : List Nat) : value (padLeft width ds) = value ds :=
  value_zeros_append _ _

theorem lt_ten_of_mem_padLeft {width d : Nat} {ds : List Nat} (hd : ∀ d ∈ ds, d < 10)
    (h : d ∈ padLeft width ds) : d < 10 := by
  rcases List.mem_append.mp h with h | h
  · rw [List.eq_of_mem_replicate h]; decide
  · exact hd d h

/-! ## Numerals -/

/-- An exponent is a difference of powers: one multiplies, the other divides. -/
theorem magnitude?_sub (c a b : Nat) : (⟨c, (a : Int) - b⟩ : Numeral).magnitude? =
    Magnitude.ofRatio? (c * 10 ^ a * unitsPerOne) (10 ^ b) := by
  have hten (k : Nat) : 0 < 10 ^ k := Nat.pow_pos (by decide)
  unfold Numeral.magnitude?
  dsimp only
  by_cases h : 0 ≤ (a : Int) - b
  · rw [if_pos h]
    obtain ⟨k, hk⟩ : ∃ k, a = k + b := ⟨a - b, by omega⟩
    rw [show ((a : Int) - b).toNat = k by omega, hk]
    refine Magnitude.ofRatio?_of_cross Nat.one_pos (hten b) ?_
    rw [Nat.mul_one, Nat.pow_add, ← Nat.mul_assoc, Nat.mul_right_comm]
  · rw [if_neg h]
    obtain ⟨k, hk⟩ : ∃ k, b = k + a := ⟨b - a, by omega⟩
    rw [show (-((a : Int) - b)).toNat = k by omega, hk]
    refine Magnitude.ofRatio?_of_cross (hten k) (hten (k + a)) ?_
    rw [Nat.pow_add, Nat.mul_comm (10 ^ k), ← Nat.mul_assoc, Nat.mul_right_comm c]

theorem exists_sub (e : Int) : ∃ a b : Nat, e = a - b := ⟨e.toNat, (-e).toNat, by omega⟩

/-- Zeros at the end of the coefficient may stand in the exponent. -/
theorem magnitude?_mul_pow (c k : Nat) (e : Int) :
    (⟨c * 10 ^ k, e⟩ : Numeral).magnitude? = (⟨c, e + k⟩ : Numeral).magnitude? := by
  obtain ⟨a, b, rfl⟩ := exists_sub e
  rw [magnitude?_sub, show (a : Int) - b + k = (k + a : Nat) - b by omega, magnitude?_sub,
    Nat.pow_add, Nat.mul_assoc c]

theorem magnitude?_trim (n : Numeral) (hn : n.coefficient ≠ 0) : n.trim.magnitude? = n.magnitude? := by
  fun_induction Numeral.trim n with
  | case1 n h => exact absurd h hn
  | case2 n h hd ih =>
    have hmul : n.coefficient / 10 * 10 ^ 1 = n.coefficient := by omega
    have hten := magnitude?_mul_pow (n.coefficient / 10) 1 n.exponent
    rw [hmul] at hten
    rw [ih (show n.coefficient / 10 ≠ 0 by omega)]
    exact hten.symm
  | case3 n h hd => rfl

theorem magnitude?_of_coefficient_zero (e : Int) :
    (⟨0, e⟩ : Numeral).magnitude? = some Magnitude.zero := by
  unfold Numeral.magnitude?
  simp [Magnitude.ofRatio?_zero]

theorem coefficient_ne_zero {n : Numeral} {m : Magnitude} (h : n.magnitude? = some m)
    (hm : m.units ≠ 0) : n.coefficient ≠ 0 := by
  intro hz
  obtain ⟨c, e⟩ := n
  obtain rfl : c = 0 := hz
  rw [magnitude?_of_coefficient_zero] at h
  cases h
  exact hm rfl

theorem digitCount_of_ne_zero {n : Nat} (h : n ≠ 0) : digitCount n = (digits n).length := if_neg h

/-- A numeral in range has no leading digit above `10^400`. -/
theorem top_le {n : Numeral} {m : Magnitude} (h : n.magnitude? = some m) (hc : n.coefficient ≠ 0) :
    n.exponent + (digits n.coefficient).length ≤ 400 := by
  obtain ⟨c, e⟩ := n
  obtain ⟨a, b, rfl⟩ := exists_sub e
  have hlo : 10 ^ ((digits c).length - 1) ≤ c := (digits_bounds hc).1
  have hpos := length_digits_pos c
  refine Decidable.byContradiction fun hn => ?_
  dsimp only at hn
  obtain ⟨k, hk⟩ : ∃ k, (digits c).length - 1 + a = k + b := ⟨(digits c).length - 1 + a - b, by omega⟩
  have hlimit : magnitudeLimit ≤ 10 ^ k * unitsPerOne :=
    twoPow_le_mul (by rw [unitPlaces_eq]; omega)
  have hlarge : magnitudeLimit ≤ c * 10 ^ a * unitsPerOne / 10 ^ b := by
    rw [Nat.le_div_iff_mul_le (Nat.pow_pos (by decide))]
    calc magnitudeLimit * 10 ^ b ≤ 10 ^ k * unitsPerOne * 10 ^ b := Nat.mul_le_mul_right _ hlimit
      _ = 10 ^ ((digits c).length - 1 + a) * unitsPerOne := by rw [hk, Nat.pow_add, Nat.mul_right_comm]
      _ ≤ c * 10 ^ a * unitsPerOne := by
        rw [Nat.pow_add]
        exact Nat.mul_le_mul_right _ (Nat.mul_le_mul_right _ hlo)
  rw [magnitude?_sub, Magnitude.ofRatio?_of_large hlarge] at h
  cases h

/-- A numeral of a positive magnitude has no leading digit below `10^-401`. -/
theorem le_top {n : Numeral} {m : Magnitude} (h : n.magnitude? = some m) (hm : m.units ≠ 0)
    (hc : n.coefficient ≠ 0) : -400 ≤ n.exponent + (digits n.coefficient).length := by
  obtain ⟨c, e⟩ := n
  obtain ⟨a, b, rfl⟩ := exists_sub e
  have hhi : c < 10 ^ (digits c).length := (digits_bounds hc).2
  refine Decidable.byContradiction fun hn => ?_
  dsimp only at hn
  obtain ⟨k, hk⟩ : ∃ k, b = (digits c).length + a + k := ⟨b - ((digits c).length + a), by omega⟩
  rw [magnitude?_sub] at h
  refine hm (Magnitude.units_of_small h ?_)
  calc 2 * (c * 10 ^ a * unitsPerOne) = c * 10 ^ a * (2 * unitsPerOne) := Nat.mul_left_comm _ _ _
    _ ≤ 10 ^ (digits c).length * 10 ^ a * (2 * unitsPerOne) :=
      Nat.mul_le_mul_right _ (Nat.mul_le_mul_right _ (Nat.le_of_lt hhi))
    _ < 10 ^ (digits c).length * 10 ^ a * 10 ^ k :=
      Nat.mul_lt_mul_of_pos_left (two_mul_twoPow_lt (by rw [unitPlaces_eq]; omega))
        (Nat.mul_pos (Nat.pow_pos (by decide)) (Nat.pow_pos (by decide)))
    _ = 10 ^ b := by rw [hk, Nat.pow_add, Nat.pow_add]

/-- A numeral of a positive magnitude is read as that magnitude, however it is scaled. -/
theorem toBinary64_of_magnitude? {n : Numeral} {m : Magnitude} (negative : Bool)
    (h : n.magnitude? = some m) (hm : m.units ≠ 0) : n.toBinary64 negative = .finite negative m := by
  have hc := coefficient_ne_zero h hm
  have hlo := le_top h hm hc
  have hhi := top_le h hc
  unfold Numeral.toBinary64
  dsimp only
  rw [digitCount_of_ne_zero hc, if_neg (by omega), if_neg (by omega), h]

/-! ## Texts of digits -/

/-- Digits as characters. -/
def chars (ds : List Nat) : List Char := ds.map Text.digitChar

theorem toList_digitText (ds : List Nat) : (digitText ds).toList = chars ds := String.toList_ofList

theorem toList_signText (negative : Bool) :
    (signText negative).toList = if negative then ['-'] else [] := by
  cases negative <;> rfl

theorem toList_intText (i : Int) :
    (intText i).toList = (if decide (i < 0) then ['-'] else []) ++ chars (digits i.natAbs) := by
  unfold intText natText
  by_cases h : i < 0
  · rw [if_pos h, decide_eq_true h, String.toList_append, toList_digitText]; rfl
  · rw [if_neg h, decide_eq_false h, toList_digitText]; rfl

/-- The text goes on with no digit. -/
def NoDigit (cs : List Char) : Prop := ∀ c, cs.head? = some c → Text.asciiDigit? c = none

theorem splitPlainDigits_of_noDigit {cs : List Char} (h : NoDigit cs) : splitPlainDigits cs = ([], cs) := by
  cases cs with
  | nil => rfl
  | cons c cs => rw [splitPlainDigits, h c rfl]

/-- Digits are taken off the front, as many as there are. -/
theorem splitPlainDigits_chars {ds : List Nat} {rest : List Char} (hd : ∀ d ∈ ds, d < 10)
    (hr : NoDigit rest) : splitPlainDigits (chars ds ++ rest) = (ds, rest) := by
  induction ds with
  | nil => exact splitPlainDigits_of_noDigit hr
  | cons d ds ih =>
    have hrest := ih fun x hx => hd x (List.mem_cons_of_mem _ hx)
    show splitPlainDigits (Text.digitChar d :: (chars ds ++ rest)) = _
    rw [splitPlainDigits, Text.asciiDigit?_digitChar d (hd d List.mem_cons_self), hrest]

/-! ## Integers as real numbers -/

theorem splitDigits_chars {ds : List Nat} (hd : ∀ d ∈ ds, d < 10) : splitDigits (chars ds) = (ds, []) := by
  induction ds with
  | nil => rw [chars, List.map_nil, splitDigits]
  | cons d ds ih =>
    have hrest := ih fun x hx => hd x (List.mem_cons_of_mem _ hx)
    have hdigit := Text.asciiDigit?_digitChar d (hd d List.mem_cons_self)
    cases ds with
    | nil =>
      rw [chars, List.map_cons, List.map_nil, splitDigits, hdigit]
      simp [splitDigits]
    | cons e es =>
      have hnot : Text.digitChar e ≠ '_' := by
        have hall : ∀ e < 10, Text.digitChar e ≠ '_' := by decide
        exact hall e (hd e (List.mem_cons_of_mem _ List.mem_cons_self))
      have htail : splitDigits (Text.digitChar e :: chars es) = (e :: es, []) := hrest
      show splitDigits (Text.digitChar d :: Text.digitChar e :: chars es) = _
      rw [splitDigits, hdigit]
      dsimp only
      split
      · next heq =>
        simp only [List.cons.injEq] at heq
        exact absurd heq.1 hnot
      · rw [htail]

/-- What holds of all digits holds of the characters of digits. -/
theorem forall_chars {P : Char → Prop} {ds : List Nat} (hd : ∀ d ∈ ds, d < 10)
    (h : ∀ d < 10, P (Text.digitChar d)) : ∀ c ∈ chars ds, P c := by
  intro c hc
  obtain ⟨d, hmem, rfl⟩ := List.mem_map.mp hc
  exact h d (hd d hmem)

theorem folded_of_chars {s : String} {ds : List Nat} (hd : ∀ d ∈ ds, d < 10) (hs : s.toList = chars ds) :
    folded s = chars ds := by
  have hblank : ∀ c ∈ chars ds, Text.isBlank c = false := forall_chars hd (by decide)
  have hvalue : ∀ c ∈ chars ds, (Text.digitValue? c).map Text.digitChar = some c :=
    forall_chars hd (by decide)
  unfold folded
  rw [hs]
  refine (List.map_congr_left fun c hc => ?_).trans (List.map_id _)
  obtain ⟨d, hd', hc'⟩ := Option.map_eq_some_iff.mp (hvalue c hc)
  rw [hblank c hc, hd', if_neg Bool.false_ne_true]
  exact hc'

theorem trimBy_chars {ds : List Nat} (hd : ∀ d ∈ ds, d < 10) :
    Text.trimBy Text.isAsciiBlank (chars ds) = chars ds := by
  have hno : ∀ c ∈ chars ds, Text.isAsciiBlank c = false := forall_chars hd (by decide)
  have hkeep : ∀ cs : List Char, (∀ c ∈ cs, Text.isAsciiBlank c = false) →
      cs.dropWhile Text.isAsciiBlank = cs := by
    intro cs hcs
    cases cs with
    | nil => rfl
    | cons c cs => rw [List.dropWhile_cons_of_neg (by rw [hcs c List.mem_cons_self]; exact Bool.false_ne_true)]
  unfold Text.trimBy
  rw [hkeep _ hno, hkeep _ fun c hc => hno c (List.mem_reverse.mp hc), List.reverse_reverse]

/-- The digits of a number are read as the number nearest to it. -/
theorem real?_chars {ds : List Nat} (hd : ∀ d ∈ ds, d < 10) (hne : ds ≠ []) :
    real? (chars ds) = some ((⟨value ds, 0⟩ : Numeral).toBinary64 false) := by
  obtain ⟨d, ds, rfl⟩ := List.exists_cons_of_ne_nil hne
  have hfirst : d < 10 := hd d List.mem_cons_self
  have hsign : splitSign (chars (d :: ds)) = (false, chars (d :: ds)) := by
    have hminus : Text.digitChar d ≠ '-' := (by decide : ∀ d < 10, Text.digitChar d ≠ '-') d hfirst
    have hplus : Text.digitChar d ≠ '+' := (by decide : ∀ d < 10, Text.digitChar d ≠ '+') d hfirst
    show splitSign (Text.digitChar d :: chars ds) = _
    unfold splitSign
    split
    · next heq => exact absurd (List.cons.inj heq).1 hminus
    · next heq => exact absurd (List.cons.inj heq).1 hplus
    · rfl
  have hword : ∀ word : String, word ∈ ["inf", "infinity", "nan"] →
      String.ofList ((chars (d :: ds)).map Char.toLower) ≠ word := by
    intro word hmem heq
    have hhead : (Text.digitChar d).toLower :: (chars ds).map Char.toLower = word.toList := by
      rw [← heq, String.toList_ofList]
      rfl
    have hdigit : ∀ d < 10, ∀ word ∈ ["inf", "infinity", "nan"],
        word.toList.head? ≠ some (Text.digitChar d).toLower := by decide
    exact hdigit d hfirst word hmem (by rw [← hhead]; rfl)
  have hnumeral : numeral? (chars (d :: ds)) = some ⟨value (d :: ds), 0⟩ := by
    unfold numeral?
    rw [splitDigits_chars hd]
    simp [numeralOf]
  unfold real?
  rw [hsign]
  dsimp only
  rw [if_neg (by simp [hword]), if_neg (by simp [hword]), hnumeral]
  rfl

/-- A positive integer of at most 53 bits is read back from its text. -/
theorem readReal?_intText {i : Int} (hpos : 0 < i) (hexact : i ≤ 2 ^ 53) :
    ∃ m : Magnitude, readReal? (intText i) = some (.finite false m) ∧ m.units = i.natAbs * unitsPerOne := by
  have hd : ∀ d ∈ digits i.natAbs, d < 10 := fun d => lt_ten_of_mem_digits
  have htext : (intText i).toList = chars (digits i.natAbs) := by
    rw [toList_intText, decide_eq_false (by omega)]
    rfl
  have hk : i.natAbs ≤ 2 ^ 53 := by omega
  let m : Magnitude := ⟨_, Binary64.representable_whole hk⟩
  have hm : (⟨i.natAbs, 0⟩ : Numeral).magnitude? = some m := by
    have hunits : i.natAbs * 10 ^ (0 : Int).toNat * unitsPerOne = m.units := by
      rw [Int.toNat_zero, Nat.pow_zero, Nat.mul_one]
    unfold Numeral.magnitude?
    rw [if_pos (Int.le_refl _)]
    dsimp only
    rw [hunits]
    exact Magnitude.ofRatio?_units m
  have hne : m.units ≠ 0 := Nat.ne_of_gt (Nat.mul_pos (by omega) unitsPerOne_pos)
  refine ⟨m, ?_, rfl⟩
  unfold readReal?
  rw [folded_of_chars hd htext, trimBy_chars hd, real?_chars hd (digits_ne_nil _), value_digits,
    toBinary64_of_magnitude? false hm hne]

end Decimal

end HashrateChart
