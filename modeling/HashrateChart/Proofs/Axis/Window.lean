/-
What a window shows of the curves.

Positions are found by bisection, which is right when the test that it makes holds
at the front of the labels and nowhere after it (`Leads.bisect_eq_length`). A window
reads of every series the values at the positions that are found (`windowed_readable`),
and a window that ends now or at the last label shows the labels from its start on
(`windowIndices_of_xWindow`).
-/
import HashrateChart.Axis.Window
import HashrateChart.Proofs.Action
import HashrateChart.Proofs.Binary64
import HashrateChart.Proofs.Series

namespace HashrateChart

open Arithmetic

namespace Axis

variable {α : Type}

/-! ## Positions -/

/-- The search keeps the place where the test stops between its ends. -/
theorem bisect_between {goesRight : α → Bool} {labels : Array α} {k lo hi : Nat}
    (h : ∀ i (hi : i < labels.size), goesRight labels[i] = decide (i < k))
    (hlo : lo ≤ k) (hk : k ≤ hi) (hhi : hi ≤ labels.size) : bisect goesRight labels lo hi = k := by
  fun_induction bisect goesRight labels lo hi with
  | case1 lo hi hlt mid a hmid hright ih =>
    obtain ⟨hm, rfl⟩ := Array.getElem?_eq_some_iff.mp hmid
    rw [h mid hm, decide_eq_true_eq] at hright
    exact ih hright hk hhi
  | case2 lo hi hlt mid a hmid hright ih =>
    obtain ⟨hm, rfl⟩ := Array.getElem?_eq_some_iff.mp hmid
    rw [h mid hm, decide_eq_true_eq] at hright
    exact ih hlo (Nat.not_lt.mp hright) (Nat.le_of_lt hm)
  | case3 lo hi hlt mid hmid =>
    have := Array.getElem?_eq_none_iff.mp hmid
    omega
  | case4 lo hi hlt => omega

theorem bisect_eq {goesRight : α → Bool} {labels : List α} {k : Nat} (hk : k ≤ labels.length)
    (h : ∀ i (hi : i < labels.length), goesRight labels[i] = decide (i < k)) :
    bisect goesRight labels.toArray 0 labels.toArray.size = k :=
  bisect_between (fun i hi => by simpa using h i (by simpa using hi)) (Nat.zero_le k) (by simpa using hk)
    (Nat.le_refl _)

/-- A test that holds at the front of a list only. -/
def Leads (test : α → Bool) (xs : List α) : Prop :=
  xs.Pairwise fun a b => test b = true → test a = true

namespace Leads

variable {test : α → Bool} {x : α} {xs : List α}

theorem not_of_head (h : Leads test (x :: xs)) (hx : test x = false) : ∀ a ∈ x :: xs, test a = false := by
  intro a ha
  rcases List.mem_cons.mp ha with rfl | ha
  · exact hx
  · rw [Bool.eq_false_iff] at hx ⊢
    exact mt ((List.pairwise_cons.mp h).1 a ha) hx

theorem takeWhile_of_head (h : Leads test (x :: xs)) (hx : test x = false) : xs.takeWhile test = [] := by
  cases xs with
  | nil => rfl
  | cons y ys => exact List.takeWhile_cons_of_neg (by simp [h.not_of_head hx y (by simp)])

/-- An item passes the test when it stands among the first ones that do. -/
theorem test_getElem (h : Leads test xs) {i : Nat} (hi : i < xs.length) :
    test xs[i] = decide (i < (xs.takeWhile test).length) := by
  induction xs generalizing i with
  | nil => cases hi
  | cons x xs ih =>
    cases hx : test x with
    | true =>
      rw [List.takeWhile_cons_of_pos hx]
      cases i with
      | zero => simpa using hx
      | succ i => simpa using ih (List.pairwise_cons.mp h).2 (Nat.lt_of_succ_lt_succ hi)
    | false =>
      rw [List.takeWhile_cons_of_neg (by simp [hx]), h.not_of_head hx _ (List.getElem_mem hi)]
      rfl

/-- Bisection gives the place where a test that holds at the front stops. -/
theorem bisect_eq_length (h : Leads test xs) :
    bisect test xs.toArray 0 xs.toArray.size = (xs.takeWhile test).length :=
  bisect_eq (List.takeWhile_sublist test).length_le fun _ hi => h.test_getElem hi

end Leads

/-! ## Values -/

variable [Arithmetic α]

theorem readAll_ok {β : Type} (values : List β) : readAll (values.map .ok) = .ok values := by
  rw [readAll]
  exact mapM_of_map (List.map_id _)

theorem windowIndices_nil (xMin xMax : Raw (Edge α)) : windowIndices [] xMin xMax = .ok (0, 0) := rfl

/-- The values of a series at the positions of a window. -/
def part {β : Type} (range : Nat × Nat) (values : List β) : List β := (values.take range.2).drop range.1

theorem part_zero {β : Type} (values : List β) : part (0, 0) values = [] := rfl

/-- Nothing is at positions that end before they start. -/
theorem part_of_le {β : Type} {first last : Nat} (h : last ≤ first) (values : List β) :
    part (first, last) values = [] :=
  List.drop_eq_nil_iff.mpr (Nat.le_trans (List.length_take_le _ _) h)

/-- The same values are at positions that are counted without the first ones. -/
theorem part_drop {β : Type} {first last n : Nat} (h : n ≤ first) (values : List β) :
    part (first - n, last - n) (values.drop n) = part (first, last) values := by
  rw [part, part, ← List.drop_take, List.drop_drop, Nat.add_sub_of_le h]

/-- A series whose values can all be read. -/
def readable (values : List α) : SeriesLike α := some (values.map .ok)

/-- A window shows the finite values of each series at its positions. -/
theorem windowed_readable (series : List (List α)) (range : Nat × Nat) :
    windowed (series.map readable) range = .ok ((series.map (part range)).flatten.filter isFinite) := by
  have hread (values : List α) :
      readAll (((values.map Except.ok).take range.2).drop range.1) = .ok (part range values) := by
    rw [← List.map_take, ← List.map_drop, readAll_ok]
    rfl
  have hseries : (series.map readable).filterMap id = series.map fun values => values.map .ok := by
    simp only [List.filterMap_map, readable, Function.comp_def, id, List.filterMap_eq_map']
  have hparts : (series.map fun values => values.map Except.ok).mapM (fun values =>
      readAll ((values.take range.2).drop range.1)) = .ok (series.map (part range)) :=
    mapM_of_map (by simp only [List.map_map, Function.comp_def, hread])
  rw [windowed, hseries, hparts]
  rfl

/-! ## Ends of the window -/

open Binary64 (IsExact)

theorem before_of_keys {x y : Binary64} {i j : Int} (hx : x.key? = some i) (hy : y.key? = some j) :
    before x y = decide (i < j) := by
  have hgap : isGap y = false := by
    cases y with
    | nan => cases hy
    | infinite s | finite s m => rfl
  have hlt : lt x y = decide (i < j) := by
    show Binary64.compareWith _ x y = _
    simp only [Binary64.compareWith, hx, hy]
  rw [before, hlt, hgap, Bool.false_and, Bool.or_false]

/-- A label stands before what an integer is rounded to when it is less than that integer, unless the
integer is too large. -/
theorem before_whole {t y : Int} {x : Binary64} (ht : IsExact t) (hy : y ≤ 2 ^ 53)
    (hx : x.key? = (whole y : Binary64).key?) : before (whole t) x = decide (t < y) := by
  have hpos : (0 : Int) < unitsPerOne := by exact_mod_cast unitsPerOne_pos
  by_cases he : IsExact y
  · rw [Binary64.key?_whole he] at hx
    rw [before_of_keys (Binary64.key?_whole ht) hx]
    exact decide_eq_decide.mpr (Int.mul_lt_mul_right hpos)
  · have hlow : y ≤ -2 ^ 53 := by unfold IsExact at he; omega
    obtain ⟨k, hk, hle⟩ := Binary64.key?_whole_le hlow
    rw [before_of_keys (Binary64.key?_whole ht) (hx.trans hk)]
    have ht' : -2 ^ 53 * (unitsPerOne : Int) ≤ t * unitsPerOne :=
      Int.mul_le_mul_of_nonneg_right (by unfold IsExact at ht; omega) (Int.le_of_lt hpos)
    have hmin : -2 ^ 53 ≤ t := by unfold IsExact at ht; omega
    rw [decide_eq_false (by omega), decide_eq_false (by omega)]

theorem whole_before {t x : Int} {y : Binary64} (ht : IsExact t) (hx : IsExact x)
    (hy : y.key? = (whole x : Binary64).key?) : before y (whole t) = decide (x < t) := by
  have hpos : (0 : Int) < unitsPerOne := by exact_mod_cast unitsPerOne_pos
  rw [Binary64.key?_whole hx] at hy
  rw [before_of_keys hy (Binary64.key?_whole ht)]
  exact decide_eq_decide.mpr (Int.mul_lt_mul_right hpos)

theorem windowLength_of_nearest {window : Json} {x : Binary64} {w : Int} (hreal : window.toReal = .ok x)
    (hn : x.nearest = .ok w) (hw : 0 ≤ w) : windowLength window = .ok w := by
  unfold windowLength
  rw [hreal]
  simp only [hn]
  rw [Int.max_eq_right hw]

theorem windowLength_int {w : Int} (h : IsExact w) (hw : 0 ≤ w) : windowLength (.int w) = .ok w :=
  windowLength_of_nearest (Binary64.ofInt?_whole h) (Binary64.nearest_whole h) hw

/-- Without labels the window ends now. -/
theorem xWindow_of_no_label {w now : Int} (h : IsExact w) (hw : 0 ≤ w) :
    xWindow none (.int w) (.ok (.int now)) = .ok (.int (now - w), .int now) := by
  rw [xWindow, windowLength_int h hw]
  rfl

/-- The later of now and the last label. -/
theorem max_real_whole {now last : Int} (hl : IsExact last) :
    (Number.int now).max (.real (whole last)) = if now < last then .real (whole last) else .int now := by
  obtain ⟨m, hm, hu⟩ := Binary64.whole_of_isExact hl
  have hpos : (0 : Int) < unitsPerOne := by exact_mod_cast unitsPerOne_pos
  have hlt : (Number.int now).lt (.real (whole last)) = decide (now < last) := by
    have hkeys : (Number.int now).lt (.real (whole last)) = decide (now * unitsPerOne < last * unitsPerOne) := by
      rw [hm]
      show decide (now * unitsPerOne < Binary64.signed _ m.units) = _
      rw [hu, Binary64.signed_mul, Binary64.signed_natAbs]
    rw [hkeys]
    exact decide_eq_decide.mpr (Int.mul_lt_mul_right hpos)
  rw [Number.max, hlt]
  simp only [decide_eq_true_eq]

theorem subInt_real {w : Int} (h : IsExact w) (x : Binary64) :
    (Number.real x).subInt w = .ok (.real (x - whole w)) := by
  rw [Number.subInt, Binary64.ofInt?_whole h]
  rfl

-- The label is any number here: the number that an integer is would be computed, digit by digit.
theorem xWindow_of_finite {label : Raw Binary64} {window : Json} {now : Number} {w : Int} {x : Binary64}
    (hw : windowLength window = .ok w) (hl : label = .ok x) (hx : x.isFinite = true) :
    xWindow (some label) window (.ok now) =
      (do return (← (now.max (.real x)).subInt w, now.max (.real x))) := by
  have hread : (some (.ok x) : Option (Raw Binary64)).mapM id = .ok (some x) := rfl
  rw [xWindow, hw, hl, hread]
  simp only [bind, Except.bind, hx, if_true]

/-- The window ends now or, when that is later, at the last label. -/
theorem xWindow_of_label {w now last : Int} (h : IsExact w) (hw : 0 ≤ w) (hl : IsExact last) :
    xWindow (some (ofInt? last)) (.int w) (.ok (.int now)) =
      if now < last then .ok (.real (whole last - whole w), .real (whole last))
      else .ok (.int (now - w), .int now) := by
  rw [xWindow_of_finite (windowLength_int h hw) (Binary64.ofInt?_whole hl) (Binary64.isFinite_whole hl),
    max_real_whole hl]
  split
  · rw [subInt_real h]
    rfl
  · rfl

/-- Among labels in order those less than a time are the first ones. -/
theorem leads_lt {labels : List Int} (hasc : labels.Pairwise (· < ·)) (y : Int) : Leads (· < y) labels :=
  hasc.imp fun hab hb => decide_eq_true (Int.lt_trans hab (of_decide_eq_true hb))

/-- A window that ends at the last label or later shows the labels from its start on. -/
theorem windowIndices_of_edges {labels : List Int} {x x' : Binary64} {start stop : Int} (hne : labels ≠ [])
    (hasc : labels.Pairwise (· < ·)) (hexact : ∀ t ∈ labels, IsExact t) (hstart : start ≤ 2 ^ 53)
    (hx : x.key? = (whole start : Binary64).key?) (hstop : IsExact stop)
    (hx' : x'.key? = (whole stop : Binary64).key?) (hle : ∀ t ∈ labels, t ≤ stop) :
    windowIndices (labels.map ofInt?) (.ok (.number x)) (.ok (.number x')) =
      .ok ((labels.takeWhile (· < start)).length, labels.length) := by
  have hread : readAll (labels.map ofInt?) = .ok (labels.map (whole : Int → Binary64)) := by
    refine mapM_of_map ?_
    rw [List.map_id, List.map_map]
    exact List.map_congr_left fun t ht => Binary64.ofInt?_whole (hexact t ht)
  have hfirst : bisect (Edge.number x).isAfter (labels.map (whole : Int → Binary64)).toArray 0
      (labels.map (whole : Int → Binary64)).toArray.size = (labels.takeWhile (· < start)).length := by
    refine bisect_eq (by rw [List.length_map]; exact (List.takeWhile_sublist _).length_le) fun i hi => ?_
    rw [List.length_map] at hi
    rw [List.getElem_map]
    exact (before_whole (hexact _ (List.getElem_mem hi)) hstart hx).trans ((leads_lt hasc start).test_getElem hi)
  have hlast : bisect (fun a => !(Edge.number x').isBefore a) (labels.map (whole : Int → Binary64)).toArray 0
      (labels.map (whole : Int → Binary64)).toArray.size = labels.length := by
    refine bisect_eq (Nat.le_of_eq (List.length_map _).symm) fun i hi => ?_
    rw [List.length_map] at hi
    rw [List.getElem_map, decide_eq_true hi]
    have hbefore : (Edge.number x').isBefore (whole labels[i]) = false :=
      (whole_before (hexact _ (List.getElem_mem hi)) hstop hx').trans
        (decide_eq_false (Int.not_lt.mpr (hle _ (List.getElem_mem hi))))
    rw [hbefore]
    rfl
  have hempty : (labels.map (ofInt? : Int → Raw Binary64)).isEmpty = false := by
    simpa using hne
  have hlen : (labels.takeWhile (· < start)).length ≤ labels.length := (List.takeWhile_sublist _).length_le
  rw [windowIndices, hempty, hread]
  simp only [bind, Except.bind, Bool.false_eq_true, if_false, indicesBetween]
  rw [hfirst, hlast, Nat.max_eq_right hlen]
  rfl

theorem ofNumber_int {i : Int} (hlow : -2 ^ 63 ≤ i) (hhigh : i < 2 ^ 64) :
    Edge.ofNumber (.int i) = .number (whole i) := if_pos ⟨hlow, hhigh⟩

/-- The labels that are shown in a window of a length now: those from its start on, counted back from now
or the last label. -/
theorem windowIndices_of_xWindow {labels : List Int} {w now last : Int} {xMin xMax : Number}
    (hlast : labels.getLast? = some last) (hasc : labels.Pairwise (· < ·)) (hexact : ∀ t ∈ labels, IsExact t)
    (hnow : now ≤ 2 ^ 53) (h : IsExact w) (hw : 0 ≤ w)
    (hx : xWindow (labels.getLast?.map ofInt?) (.int w) (.ok (.int now)) = .ok (xMin, xMax)) :
    windowIndices (labels.map ofInt?) (.ok (.ofNumber xMin)) (.ok (.ofNumber xMax)) =
      .ok ((labels.takeWhile (· < max now last - w)).length, labels.length) := by
  have hne : labels ≠ [] := by
    rintro rfl
    cases hlast
  have hl : IsExact last := hexact last (List.mem_of_getLast? hlast)
  have hle : ∀ t ∈ labels, t ≤ last := fun t ht => Series.le_getLast_of_mem hasc ht hlast
  rw [hlast, Option.map_some, xWindow_of_label h hw hl] at hx
  unfold IsExact at hl h
  split at hx
  · next hlt =>
    cases hx
    rw [Int.max_eq_right (Int.le_of_lt hlt)]
    exact windowIndices_of_edges hne hasc hexact (by omega) (Binary64.key?_whole_sub hl h) hl rfl hle
  · next hlt =>
    cases hx
    rw [Int.max_eq_left (Int.not_lt.mp hlt), ofNumber_int (by omega) (by omega),
      ofNumber_int (by omega) (by omega)]
    refine windowIndices_of_edges hne hasc hexact (by omega) rfl (by unfold IsExact; omega) rfl fun t ht => ?_
    exact Int.le_trans (hle t ht) (Int.not_lt.mp hlt)

end Axis

end HashrateChart
