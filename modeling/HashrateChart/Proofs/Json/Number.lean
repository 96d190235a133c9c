/-
Numbers of a document that are read back from their text.

Reading takes the digits before the point, those behind it and the exponent one
after the other, so `number?_chars` says what a text gives by what follows its
first digits. The shortest text of a number is laid out in one of two ways, and
both give the numeral that it was made from, or one of the same magnitude.
-/
import HashrateChart.Json.Reader
import HashrateChart.Proofs.Decimal

namespace HashrateChart

namespace Json.Reader

open Decimal

/-! ## Digits -/

/-- Digits before a point: a zero alone, or digits that start with no zero. -/
def Leads (ds : List Nat) : Prop := ds = [0] ∨ ∃ d, ds.head? = some d ∧ d ≠ 0

theorem leads_digits (n : Nat) : Leads (digits n) := by
  by_cases hn : n = 0
  · subst hn
    exact .inl (digits_of_lt (by decide))
  · cases hd : digits n with
    | nil => exact absurd hd (digits_ne_nil n)
    | cons d ds => exact .inr ⟨d, rfl, head?_digits hn (by rw [hd]; rfl)⟩

theorem digitChar_ne_zero : ∀ d < 10, d ≠ 0 → Text.digitChar d ≠ '0' := by decide

theorem wholeDigits?_chars {ds : List Nat} {rest : List Char} (hl : Leads ds) (hd : ∀ d ∈ ds, d < 10)
    (hr : NoDigit rest) : wholeDigits? (chars ds ++ rest) = some (ds, rest) := by
  rcases hl with rfl | ⟨d, hh, hz⟩
  · rfl
  · cases ds with
    | nil => cases hh
    | cons e es =>
      cases hh
      have hne := digitChar_ne_zero d (hd d List.mem_cons_self) hz
      have hs := splitPlainDigits_chars hd hr
      show wholeDigits? (Text.digitChar d :: (chars es ++ rest)) = _
      rw [wholeDigits?.eq_def]
      split
      · next h => simp only [List.cons.injEq] at h; exact absurd h.1 hne
      · rw [show Text.digitChar d :: (chars es ++ rest) = chars (d :: es) ++ rest from rfl, hs]

/-! ## Points and exponents -/

/-- The text goes on behind a number: it is at its end, or a list or an object goes on. -/
def Ends (cs : List Char) : Prop := ∀ c, cs.head? = some c → c = ',' ∨ c = ']' ∨ c = '\x7d'

theorem Ends.noDigit {cs : List Char} (h : Ends cs) : NoDigit cs := by
  intro c hc
  rcases h c hc with rfl | rfl | rfl <;> decide

theorem fraction?_chars {fs : List Nat} {rest : List Char} (hne : fs ≠ []) (hd : ∀ d ∈ fs, d < 10)
    (hr : NoDigit rest) : fraction? ('.' :: (chars fs ++ rest)) = some (fs, rest) := by
  rw [fraction?, splitPlainDigits_chars hd hr]
  cases fs with
  | nil => exact absurd rfl hne
  | cons f fs => rfl

theorem fraction?_of_ends {cs : List Char} (h : Ends cs) : fraction? cs = none := by
  cases cs with
  | nil => rfl
  | cons c cs => rcases h c rfl with rfl | rfl | rfl <;> rfl

theorem exponent?_of_ends {cs : List Char} (h : Ends cs) : exponent? cs = none := by
  cases cs with
  | nil => rfl
  | cons c cs => rcases h c rfl with rfl | rfl | rfl <;> rfl

theorem exponent?_text {rest : List Char} (e : Int) (hr : NoDigit rest) :
    exponent? ('e' :: ((exponentText e).toList ++ rest)) = some (e, rest) := by
  have hd : ∀ d ∈ padLeft 2 (digits e.natAbs), d < 10 := fun d h =>
    lt_ten_of_mem_padLeft (fun _ => lt_ten_of_mem_digits) h
  have hne : padLeft 2 (digits e.natAbs) ≠ [] := by simp [padLeft, digits_ne_nil]
  have htext : (exponentText e).toList ++ rest =
      (if e < 0 then '-' else '+') :: (chars (padLeft 2 (digits e.natAbs)) ++ rest) := by
    rw [exponentText, String.toList_append, toList_digitText]
    split <;> rfl
  have hsign (cs : List Char) :
      splitSign ((if e < 0 then '-' else '+') :: cs) = (decide (e < 0), cs) := by
    by_cases he : e < 0
    · rw [if_pos he, decide_eq_true he]; rfl
    · rw [if_neg he, decide_eq_false he]; rfl
  rw [htext, exponent?, if_pos (.inl rfl), hsign]
  dsimp only
  rw [splitPlainDigits_chars hd hr]
  cases hp : padLeft 2 (digits e.natAbs) with
  | nil => exact absurd hp hne
  | cons d ds =>
    dsimp only
    rw [← hp, value_padLeft, value_digits, Binary64.signed_natAbs]

/-! ## Whole numbers and fractions -/

theorem digitChar_ne_minus : ∀ d < 10, Text.digitChar d ≠ '-' := by decide

/-- A number, by what follows the digits before its point. -/
theorem number?_chars {whole : List Nat} {cs : List Char} (negative : Bool) (hl : Leads whole)
    (hd : ∀ d ∈ whole, d < 10) (hcs : NoDigit cs) :
    number? ((if negative then ['-'] else []) ++ (chars whole ++ cs)) =
      let fraction := fraction? cs
      let rest := (fraction.map (·.2)).getD cs
      let exponent := exponent? rest
      let rest := (exponent.map (·.2)).getD rest
      if fraction.isNone && exponent.isNone then
        if whole.length ≤ maxIntDigits then some (.int (Binary64.signed negative (Decimal.value whole)), rest)
        else none
      else
        some (.real ((numeralOf whole ((fraction.map (·.1)).getD [])
          ((exponent.map (·.1)).getD 0)).toBinary64 negative), rest) := by
  have hwhole := wholeDigits?_chars hl hd hcs
  cases negative with
  | true =>
    unfold number?
    simp only [if_true, List.singleton_append, hwhole]
    rfl
  | false =>
    cases whole with
    | nil => rcases hl with h | ⟨d, h, -⟩ <;> cases h
    | cons d ds =>
      have hne := digitChar_ne_minus d (hd d List.mem_cons_self)
      unfold number?
      simp only [Bool.false_eq_true, if_false, List.nil_append]
      split
      · next h =>
        -- a digit is no sign
        simp only [chars, List.map_cons, List.cons_append, List.cons.injEq] at h
        exact absurd h.1 hne
      · rw [hwhole]
        rfl

/-- A numeral with a point and no exponent. -/
theorem number?_plain {whole fraction : List Nat} {rest : List Char} (negative : Bool)
    (hl : Leads whole) (hw : ∀ d ∈ whole, d < 10) (hne : fraction ≠ []) (hf : ∀ d ∈ fraction, d < 10)
    (hr : Ends rest) :
    number? ((if negative then ['-'] else []) ++ (chars whole ++ '.' :: (chars fraction ++ rest))) =
      some (.real ((numeralOf whole fraction 0).toBinary64 negative), rest) := by
  have hnd : NoDigit ('.' :: (chars fraction ++ rest)) := fun c hc => by cases hc; decide
  rw [number?_chars negative hl hw hnd, fraction?_chars hne hf hr.noDigit]
  simp only [Option.map_some, Option.getD_some, exponent?_of_ends hr]
  rfl

/-- A numeral with an exponent, and a point when there are digits behind it. -/
theorem number?_exponent {whole fraction : List Nat} {rest : List Char} (negative : Bool) (e : Int)
    (hl : Leads whole) (hw : ∀ d ∈ whole, d < 10) (hf : ∀ d ∈ fraction, d < 10) (hr : Ends rest) :
    number? ((if negative then ['-'] else []) ++ (chars whole ++
        ((if fraction = [] then [] else '.' :: chars fraction) ++
          'e' :: ((exponentText e).toList ++ rest)))) =
      some (.real ((numeralOf whole fraction e).toBinary64 negative), rest) := by
  have hnd : NoDigit ('e' :: ((exponentText e).toList ++ rest)) := fun c hc => by cases hc; decide
  by_cases hne : fraction = []
  · have hfrac : fraction? ('e' :: ((exponentText e).toList ++ rest)) = none := rfl
    rw [if_pos hne, List.nil_append, number?_chars negative hl hw hnd, hfrac]
    simp only [Option.map_none, Option.getD_none, exponent?_text e hr.noDigit]
    rw [hne]
    rfl
  · have hdot : NoDigit ('.' :: (chars fraction ++ 'e' :: ((exponentText e).toList ++ rest))) :=
      fun c hc => by cases hc; decide
    rw [if_neg hne, List.cons_append, number?_chars negative hl hw hdot, fraction?_chars hne hf hnd]
    simp only [Option.map_some, Option.getD_some, exponent?_text e hr.noDigit]
    rfl

/-- An integer of not too many digits is read back. -/
theorem number?_int {i : Int} {rest : List Char} (hi : (digits i.natAbs).length ≤ maxIntDigits)
    (hr : Ends rest) : number? ((intText i).toList ++ rest) = some (.int i, rest) := by
  rw [toList_intText, List.append_assoc,
    number?_chars _ (leads_digits _) (fun _ => lt_ten_of_mem_digits) hr.noDigit,
    fraction?_of_ends hr]
  simp only [Option.map_none, Option.getD_none, exponent?_of_ends hr, value_digits, Binary64.signed_natAbs]
  exact if_pos hi

/-! ## The shortest text -/

variable {m : Magnitude} {n : Numeral} {rest : List Char}

/-- Digits that start as those of a positive number do. -/
theorem leads_of_head? {ds : List Nat} {c : Nat} (hc : c ≠ 0) (h : ds.head? = (digits c).head?) :
    Leads ds := by
  cases hd : (digits c).head? with
  | none => exact absurd (List.head?_eq_none_iff.mp hd) (digits_ne_nil c)
  | some d => exact .inr ⟨d, h.trans hd, head?_digits hc hd⟩

/-- What stands before the point of a padded numeral. -/
theorem leads_padLeft {c places : Nat} (hc : c ≠ 0) :
    let ds := padLeft (places + 1) (digits c)
    Leads (ds.take (ds.length - places)) := by
  intro ds
  by_cases hlen : places + 1 ≤ (digits c).length
  · have hds : ds = digits c := by simp [ds, padLeft, hlen]
    obtain ⟨k, hk⟩ : ∃ k, ds.length - places = k + 1 := ⟨ds.length - places - 1, by rw [hds]; omega⟩
    rw [hk, hds]
    exact leads_of_head? hc (by simp [List.head?_take])
  · obtain ⟨k, hk⟩ : ∃ k, places + 1 - (digits c).length = k + 1 :=
      ⟨places - (digits c).length, by omega⟩
    have hds : ds = 0 :: (List.replicate k 0 ++ digits c) := by
      simp only [ds, padLeft, hk, List.replicate_succ, List.cons_append]
    have hone : ds.length - places = 1 := by
      rw [hds, List.length_cons, List.length_append, List.length_replicate]
      omega
    rw [hone, hds]
    exact .inl rfl

theorem toList_plainText (ds : List Nat) (e : Int) :
    (plainText ds e).toList =
      if 0 ≤ e then chars (ds ++ List.replicate e.toNat 0) ++ '.' :: chars [0]
      else
        let ds := padLeft ((-e).toNat + 1) ds
        chars (ds.take (ds.length - (-e).toNat)) ++ '.' :: chars (ds.drop (ds.length - (-e).toNat)) := by
  unfold plainText
  split
  · rw [String.toList_append, toList_digitText]; rfl
  · rw [String.toList_append, String.toList_append, toList_digitText, toList_digitText]
    simp

theorem numeralOf_split (ds : List Nat) (k : Nat) (e : Int) :
    numeralOf (ds.take k) (ds.drop k) e = ⟨Decimal.value ds, e - (ds.length - k : Nat)⟩ := by
  rw [numeralOf, List.take_append_drop, List.length_drop]

theorem numeralOf_zeros (c k : Nat) :
    numeralOf (digits c ++ List.replicate k 0) [0] 0 = ⟨c * 10 ^ (k + 1), -1⟩ := by
  have hz : List.replicate k 0 ++ [0] = List.replicate (k + 1) 0 := by rw [List.replicate_succ']
  rw [numeralOf, List.append_assoc, hz, value_append_zeros, value_digits]
  rfl

/-- A positive magnitude whose digits end before the point is read back. -/
theorem number?_digits {c k : Nat} (negative : Bool) (h : (⟨c, k⟩ : Numeral).magnitude? = some m)
    (hm : m.units ≠ 0) (hr : Ends rest) :
    number? ((if negative then ['-'] else []) ++
        (chars (digits c ++ List.replicate k 0) ++ '.' :: (chars [0] ++ rest))) =
      some (.real (.finite negative m), rest) := by
  have hc : c ≠ 0 := coefficient_ne_zero h hm
  have hleads : Leads (digits c ++ List.replicate k 0) := by
    refine leads_of_head? hc ?_
    rw [List.head?_append, Option.or_of_isSome]
    simp [digits_ne_nil]
  have hd : ∀ d ∈ digits c ++ List.replicate k 0, d < 10 := by
    intro d hd
    rcases List.mem_append.mp hd with hd | hd
    · exact lt_ten_of_mem_digits hd
    · rw [List.eq_of_mem_replicate hd]; decide
  have hmag : (⟨c * 10 ^ (k + 1), -1⟩ : Numeral).magnitude? = some m := by
    rw [magnitude?_mul_pow, show (-1 : Int) + (k + 1 : Nat) = k by omega, h]
  rw [number?_plain negative hleads hd (by simp) (by simp) hr, numeralOf_zeros,
    toBinary64_of_magnitude? negative hmag hm]

/-- A positive magnitude with a digit behind the point is read back. -/
theorem number?_padLeft {c k : Nat} (negative : Bool)
    (h : (⟨c, -(k + 1 : Nat)⟩ : Numeral).magnitude? = some m) (hm : m.units ≠ 0) (hr : Ends rest) :
    let ds := padLeft (k + 1 + 1) (digits c)
    number? ((if negative then ['-'] else []) ++ (chars (ds.take (ds.length - (k + 1))) ++
        '.' :: (chars (ds.drop (ds.length - (k + 1))) ++ rest))) =
      some (.real (.finite negative m), rest) := by
  intro ds
  have hc : c ≠ 0 := coefficient_ne_zero h hm
  have hd : ∀ d ∈ ds, d < 10 := fun d hd => lt_ten_of_mem_padLeft (fun _ => lt_ten_of_mem_digits) hd
  have hlen : k + 1 + 1 ≤ ds.length := by
    simp only [ds, padLeft, List.length_append, List.length_replicate]
    omega
  have hdrop : (ds.drop (ds.length - (k + 1))).length = k + 1 := by
    rw [List.length_drop]
    omega
  have hne : ds.drop (ds.length - (k + 1)) ≠ [] := fun hnil => by
    rw [hnil] at hdrop
    cases hdrop
  have hn : numeralOf (ds.take (ds.length - (k + 1))) (ds.drop (ds.length - (k + 1))) 0 =
      ⟨c, -(k + 1 : Nat)⟩ := by
    rw [numeralOf_split, value_padLeft, value_digits, Int.zero_sub]
    congr 3
    omega
  rw [number?_plain negative (leads_padLeft hc) (fun d h => hd d (List.mem_of_mem_take h)) hne
    (fun d h => hd d (List.mem_of_mem_drop h)) hr, hn, toBinary64_of_magnitude? negative h hm]

/-- A positive magnitude in plain notation is read back. -/
theorem number?_plainText (negative : Bool) (h : n.magnitude? = some m) (hm : m.units ≠ 0)
    (hr : Ends rest) :
    number? ((if negative then ['-'] else []) ++
        ((plainText (digits n.coefficient) n.exponent).toList ++ rest)) =
      some (.real (.finite negative m), rest) := by
  obtain ⟨c, e⟩ := n
  rw [toList_plainText]
  dsimp only
  by_cases he : 0 ≤ e
  · obtain ⟨k, rfl⟩ := Int.eq_ofNat_of_zero_le he
    rw [if_pos he, Int.toNat_natCast, List.append_assoc, List.cons_append]
    exact number?_digits negative h hm hr
  · obtain ⟨k, rfl⟩ : ∃ k : Nat, e = -(k + 1 : Nat) := ⟨(-e).toNat - 1, by omega⟩
    rw [if_neg he, Int.neg_neg, Int.toNat_natCast, List.append_assoc, List.cons_append]
    exact number?_padLeft negative h hm hr

/-- A positive magnitude with an exponent is read back. -/
theorem number?_exponentText (negative : Bool) (h : n.magnitude? = some m) (hm : m.units ≠ 0)
    (hr : Ends rest) :
    let ds := digits n.coefficient
    number? ((if negative then ['-'] else []) ++ (chars (ds.take 1) ++
        ((if ds.drop 1 = [] then [] else '.' :: chars (ds.drop 1)) ++
          'e' :: ((exponentText (n.exponent + (ds.length - 1))).toList ++ rest)))) =
      some (.real (.finite negative m), rest) := by
  intro ds
  have hc := coefficient_ne_zero h hm
  have hd : ∀ d ∈ ds, d < 10 := fun _ => lt_ten_of_mem_digits
  have hleads : Leads (ds.take 1) := leads_of_head? hc (by simp [ds, List.head?_take])
  rw [number?_exponent negative _ hleads (fun d h => hd d (List.mem_of_mem_take h))
    (fun d h => hd d (List.mem_of_mem_drop h)) hr]
  have hn : numeralOf (ds.take 1) (ds.drop 1) (n.exponent + (ds.length - 1)) = n := by
    have hpos : 0 < ds.length := length_digits_pos _
    rw [numeralOf_split, value_digits]
    obtain ⟨c, e⟩ := n
    simp only [Numeral.mk.injEq, true_and]
    omega
  rw [hn, toBinary64_of_magnitude? negative h hm]

theorem toList_exponentForm (ds : List Nat) (e : Int) (hpos : 0 < ds.length) :
    (digitText (ds.take 1) ++ (if ds.length = 1 then "" else "." ++ digitText (ds.drop 1)) ++ "e" ++
        exponentText e).toList =
      chars (ds.take 1) ++ ((if ds.drop 1 = [] then [] else '.' :: chars (ds.drop 1)) ++
        'e' :: (exponentText e).toList) := by
  have hone : ds.drop 1 = [] ↔ ds.length = 1 := by
    rw [List.drop_eq_nil_iff]
    omega
  by_cases hlen : ds.length = 1
  · rw [if_pos hlen, if_pos (hone.mpr hlen)]
    simp [toList_digitText]
  · rw [if_neg hlen, if_neg (mt hone.mp hlen)]
    simp [toList_digitText]

/-- A positive magnitude is written plain or with an exponent. -/
theorem shortestText_cases (style : Layout) (s : Bool) (hm : m.units ≠ 0) :
    let n := (shortest m).trim
    let ds := digits n.coefficient
    shortestText style (.finite s m) = signText s ++ plainText ds n.exponent ∨
      shortestText style (.finite s m) = signText s ++ (digitText (ds.take 1) ++
        (if ds.length = 1 then "" else "." ++ digitText (ds.drop 1)) ++ "e" ++
        exponentText (n.exponent + (ds.length - 1))) := by
  intro n ds
  unfold shortestText
  simp only [if_neg hm]
  split
  · exact .inl rfl
  · exact .inr rfl

/-- **A finite number is read back** from its shortest text, with its sign also when it is a zero. -/
theorem number?_shortestText {x : Binary64} (style : Layout) (hx : x.isFinite = true) (hr : Ends rest) :
    number? ((shortestText style x).toList ++ rest) = some (.real x, rest) := by
  obtain ⟨s, m, rfl⟩ : ∃ s m, x = .finite s m := by
    cases x with
    | nan => cases hx
    | infinite s => cases hx
    | finite s m => exact ⟨s, m, rfl⟩
  by_cases hm : m.units = 0
  · have hz : m = .zero := by
      obtain ⟨u, hu⟩ := m
      obtain rfl : u = 0 := hm
      rfl
    have htext : (shortestText style (.finite s m)).toList ++ rest =
        (if s then ['-'] else []) ++ (chars [0] ++ '.' :: (chars [0] ++ rest)) := by
      rw [shortestText, if_pos hm, String.toList_append, toList_signText]; cases s <;> rfl
    rw [htext, number?_plain s (.inl rfl) (by simp) (by simp) (by simp) hr, hz]
    rfl
  · have hshort := magnitude?_shortest m
    have htrim : (shortest m).trim.magnitude? = some m := by
      rw [magnitude?_trim _ (coefficient_ne_zero hshort hm), hshort]
    rcases shortestText_cases style s hm with htext | htext
    · rw [htext, String.toList_append, toList_signText, List.append_assoc]
      exact number?_plainText s htrim hm hr
    · rw [htext, String.toList_append, toList_signText, toList_exponentForm _ _ (length_digits_pos _),
        ← number?_exponentText s htrim hm hr]
      simp only [List.append_assoc, List.cons_append]

end Json.Reader

end HashrateChart
