/-
A sparkline shows what it is drawn from.

The places of the values that are drawn are multiples of a rounded stride, rounded again and cut. Each
of them is there all the same (`position_lt`): what both roundings can add to the last one is less than
what it stays below the end. A height is made of a difference, a quotient and a product, and all
three keep the order of numbers, so it rises with the value, from the lowest block for the least value
to the highest for the greatest (`exists_scale`). The main result, `draws_faithfully`, says both of
every list and every width.
-/
import HashrateChart.Proofs.Action
import HashrateChart.Proofs.Binary64.Operations
import HashrateChart.Sparkline

namespace HashrateChart

open Arithmetic (ofInt? quotient)
open Magnitude (rounded rounded_mono rounded_units rounded_zero)

namespace Sparkline

open Binary64 (Carries round_of_lt whole_mul truncate_eq truncate_zero)

variable {count width i j : Nat}

/-! ## Positions -/

/-- The distance between two positions, in units. -/
def stride (count width : Nat) : Nat := rounded (count * unitsPerOne) width

/-- The position that is drawn at place `i` of the line. -/
def position (count width i : Nat) : Nat := rounded (i * stride count width) 1 / unitsPerOne

theorem units_lt (hcount : count < 2 ^ 63) : count * unitsPerOne < twoPow (63 + unitPlaces) := by
  rw [twoPow_eq, Nat.pow_add, unitsPerOne, twoPow_eq]
  exact Nat.mul_lt_mul_of_pos_right hcount (Nat.two_pow_pos _)

theorem stride_eq (hwidth : 0 < width) (hcount : count < 2 ^ 63) :
    ∃ m : Magnitude, (quotient count width : Result Binary64) = .ok (.finite false m) ∧
      m.units = stride count width := by
  have hlt : count * unitsPerOne / width < twoPow (63 + unitPlaces) :=
    Nat.lt_of_le_of_lt (Nat.div_le_self _ _) (units_lt hcount)
  obtain ⟨m, hm⟩ := Magnitude.exists_ofRatio?_of_lt (by rw [unitPlaces_eq]; decide) hlt
  have hratio : Magnitude.ofRatio? ((count : Int).natAbs * unitsPerOne) width = some m := by
    rw [Int.natAbs_natCast, hm]
  have hneg : decide ((count : Int) < 0) = false := decide_eq_false (by omega)
  refine ⟨m, ?_, Magnitude.units_eq_rounded hm⟩
  rw [Binary64.quotient_eq hwidth hratio, hneg]

/-- A position is below the end although it is rounded twice: its place in the line is exact, and what is
left to the end is more than both roundings can add. -/
theorem rounded_lt (hi : i < width) (hwidth : width < count) (hshort : width ≤ 2 ^ 52) :
    rounded (i * stride count width) 1 < count * unitsPerOne := by
  have hone : 2 ^ 52 ≤ unitsPerOne := by
    rw [unitsPerOne, twoPow_eq]
    exact Nat.pow_le_pow_right (by decide) (by rw [unitPlaces_eq]; decide)
  rcases Nat.lt_or_ge (i * stride count width) (2 ^ 52) with hsmall | hlarge
  · let one : Magnitude := ⟨1 * unitsPerOne, Binary64.representable_whole (by decide)⟩
    have hle : i * stride count width ≤ one.units := by
      show _ ≤ 1 * unitsPerOne
      omega
    calc rounded (i * stride count width) 1 ≤ rounded one.units 1 := rounded_mono hle
      _ = 1 * unitsPerOne := rounded_units one
      _ < count * unitsPerOne := Nat.mul_lt_mul_of_pos_right (by omega) unitsPerOne_pos
  · have hposition : rounded (i * stride count width) 1 * 1 * 2 ^ 53 ≤ i * stride count width * (2 ^ 53 + 1) :=
      Magnitude.rounded_le_mul (by rwa [Nat.div_one])
    have hstride : stride count width * width * 2 ^ 53 ≤ count * unitsPerOne * (2 ^ 53 + 1) := by
      refine Magnitude.rounded_le_mul (Nat.le_trans hone ?_)
      rw [Nat.le_div_iff_mul_le (by omega), Nat.mul_comm]
      exact Nat.mul_le_mul_right _ (Nat.le_of_lt hwidth)
    have hcover : i * ((2 ^ 53 + 1) * (2 ^ 53 + 1)) < width * (2 ^ 53 * 2 ^ 53) := by omega
    refine Nat.lt_of_mul_lt_mul_right (a := width * (2 ^ 53 * 2 ^ 53)) ?_
    generalize stride count width = s at hposition hstride ⊢
    calc rounded (i * s) 1 * (width * (2 ^ 53 * 2 ^ 53)) = rounded (i * s) 1 * 1 * 2 ^ 53 * (width * 2 ^ 53) := by
          rw [Nat.mul_one]
          ac_rfl
      _ ≤ i * s * (2 ^ 53 + 1) * (width * 2 ^ 53) := Nat.mul_le_mul_right _ hposition
      _ = i * (2 ^ 53 + 1) * (s * width * 2 ^ 53) := by ac_rfl
      _ ≤ i * (2 ^ 53 + 1) * (count * unitsPerOne * (2 ^ 53 + 1)) := Nat.mul_le_mul_left _ hstride
      _ = i * ((2 ^ 53 + 1) * (2 ^ 53 + 1)) * (count * unitsPerOne) := by ac_rfl
      _ < width * (2 ^ 53 * 2 ^ 53) * (count * unitsPerOne) :=
        Nat.mul_lt_mul_of_pos_right hcover (Nat.mul_pos (by omega) unitsPerOne_pos)
      _ = count * unitsPerOne * (width * (2 ^ 53 * 2 ^ 53)) := Nat.mul_comm ..

theorem position_lt (hi : i < width) (hwidth : width < count) (hshort : width ≤ 2 ^ 52) :
    position count width i < count :=
  (Nat.div_lt_iff_lt_mul unitsPerOne_pos).mpr (rounded_lt hi hwidth hshort)

/-- With a width of twice the bound a position can be out of range: this stride is rounded up so far that
the last position is the length of the list. -/
example : position (2 ^ 53 - 1) (2 ^ 53 - 2) (2 ^ 53 - 3) = 2 ^ 53 - 1 := by decide +kernel

theorem position_mono (h : i ≤ j) : position count width i ≤ position count width j :=
  Nat.div_le_div_right (rounded_mono (Nat.mul_le_mul_right _ h))

theorem position_zero (count width : Nat) : position count width 0 = 0 := by
  rw [position, Nat.zero_mul, rounded_zero, Nat.zero_div]

/-- What positions on a line should be: as many as fit, in order from the first, all of them there. -/
structure Placed (count width : Nat) (places : List Nat) : Prop where
  length_eq : places.length = min count width
  head?_eq : places.head? = some 0
  sorted : places.Pairwise (· ≤ ·)
  inside : ∀ p ∈ places, p < count

theorem positions_of_le (h : count ≤ width) : positions count (.int width) = .ok (List.range count) := by
  have hle : (Number.int count).le (.int width) = true := decide_eq_true (by exact_mod_cast h)
  unfold positions
  rw [hle]
  rfl

theorem positions_of_lt (hpos : 0 < width) (hwidth : width < count) (hcount : count < 2 ^ 63)
    (hshort : width ≤ 2 ^ 52) :
    positions count (.int width) = .ok ((List.range width).map (position count width)) := by
  have hle : (Number.int count).le (.int width) = false := decide_eq_false (by omega)
  obtain ⟨step, hstep, hunits⟩ := stride_eq hpos hcount
  have hdiv : (Number.int count).div (.int width) = .ok (.finite false step) := hstep
  unfold positions
  rw [hle, hdiv]
  show (List.range width).mapM _ = _
  refine mapM_of_map ?_
  rw [List.map_map]
  refine List.map_congr_left fun i hi => ?_
  have hi := List.mem_range.mp hi
  have hsmall : i ≤ 2 ^ 53 := by omega
  have hexact : Binary64.IsExact i := hsmall
  have hlt : rounded (i * step.units) 1 < magnitudeLimit := by
    rw [hunits]
    exact Nat.lt_trans (rounded_lt hi hwidth hshort)
      (Nat.lt_trans (units_lt hcount) (twoPow_lt (by rw [unitPlaces_eq]; decide)))
  obtain ⟨m, hm, hrounded⟩ := round_of_lt false hlt
  rw [Binary64.ofInt?_whole hexact, bind_of_ok rfl, whole_mul hsmall, hm, truncate_eq, bind_of_ok rfl,
    hrounded, hunits]
  show Except.ok (((position count width i : Nat) : Int).toNat) = _
  rw [Int.toNat_natCast]
  rfl

theorem exists_positions (hpos : 0 < width) (hvalues : 0 < count) (hcount : count < 2 ^ 63)
    (hshort : width < count → width ≤ 2 ^ 52) :
    ∃ places, positions count (.int width) = .ok places ∧ Placed count width places := by
  rcases Nat.lt_or_ge width count with hlt | hge
  · refine ⟨_, positions_of_lt hpos hlt hcount (hshort hlt), ?_, ?_, ?_, ?_⟩
    · rw [List.length_map, List.length_range, Nat.min_eq_right (Nat.le_of_lt hlt)]
    · obtain ⟨w, rfl⟩ := Nat.exists_eq_succ_of_ne_zero (Nat.ne_of_gt hpos)
      rw [List.range_succ_eq_map, List.map_cons, List.head?_cons, position_zero]
    · exact List.pairwise_map.mpr (List.pairwise_lt_range.imp fun h => position_mono (Nat.le_of_lt h))
    · exact List.forall_mem_map.mpr fun i hi => position_lt (List.mem_range.mp hi) hlt (hshort hlt)
  · refine ⟨_, positions_of_le hge, ?_, ?_, ?_, ?_⟩
    · rw [List.length_range, Nat.min_eq_left hge]
    · obtain ⟨n, rfl⟩ := Nat.exists_eq_succ_of_ne_zero (Nat.ne_of_gt hvalues)
      rw [List.range_succ_eq_map, List.head?_cons]
    · exact List.pairwise_lt_range.imp Nat.le_of_lt
    · exact fun p hp => List.mem_range.mp hp

/-! ## Values -/

/-- What a sample of values should be: the values at the places, each of them there. -/
structure Samples (values : List Binary64) (width : Nat) (places : List Nat) (shown : List Binary64) : Prop
    extends Placed values.length width places where
  values_eq : places.map (fun p => values[p]?) = shown.map some

variable {values shown : List Binary64} {places : List Nat} {lo hi x : Binary64}

theorem Placed.exists_samples (h : Placed values.length width places) :
    ∃ shown, Samples values width places shown := by
  refine ⟨places.map fun p => values.getD p .nan, h, ?_⟩
  rw [List.map_map]
  refine List.map_congr_left fun p hp => ?_
  rw [Function.comp, List.getD_eq_getElem?_getD, List.getElem?_eq_getElem (h.inside p hp)]
  rfl

theorem Samples.length_shown (h : Samples values width places shown) : shown.length = min values.length width := by
  have hlen := congrArg List.length h.values_eq
  rw [List.length_map, List.length_map, h.length_eq] at hlen
  exact hlen.symm

/-- A value as a line is drawn from it. -/
def reading (x : Binary64) : Number × Bool := (.real x, x.isFinite)

theorem Samples.mapM_judged (h : Samples values width places shown) :
    (places.map (valueAt (values.map fun x => .ok (.real x)))).mapM judged = .ok (shown.map reading) := by
  let read (v : Option Binary64) : Result (Number × Bool) :=
    judged ((v.map fun x => .ok (.real x)).getD (.error .noSuchSlot))
  refine mapM_of_map ?_
  calc (places.map (valueAt (values.map fun x => .ok (.real x)))).map judged
      = (places.map fun p => values[p]?).map read := by
        rw [List.map_map, List.map_map]
        refine List.map_congr_left fun p _ => ?_
        rw [Function.comp, valueAt, List.getD_eq_getElem?_getD, List.getElem?_map]
        rfl
    _ = (shown.map some).map read := by rw [h.values_eq]
    _ = (shown.map reading).map .ok := by
        rw [List.map_map, List.map_map]
        rfl

/-! ## Extremes -/

/-- The least and the greatest finite number of a list. -/
structure Spans (shown : List Binary64) (lo hi : Binary64) : Prop where
  lo_mem : lo ∈ shown
  hi_mem : hi ∈ shown
  lo_finite : lo.isFinite = true
  hi_finite : hi.isFinite = true
  between : ∀ x ∈ shown, x.isFinite = true → lo.le x = true ∧ x.le hi = true

theorem exists_extremes (h : ∃ x ∈ shown, x.isFinite = true) :
    ∃ lo hi, extremes? (((shown.map reading).filter (·.2)).map (·.1)) = some (.real lo, .real hi) ∧
      Spans shown lo hi := by
  have hfilter : ((shown.map reading).filter (·.2)).map (·.1) = (shown.filter (·.isFinite)).map .real := by
    rw [List.filter_map, List.map_map]
    rfl
  have hmem (x : Binary64) : x ∈ shown.filter (·.isFinite) ↔ x ∈ shown ∧ x.isFinite = true := List.mem_filter
  rw [hfilter]
  cases hfinite : shown.filter (·.isFinite) with
  | nil =>
    obtain ⟨x, hx⟩ := h
    have hnone := (hmem x).mpr hx
    rw [hfinite] at hnone
    cases hnone
  | cons x xs =>
    rw [hfinite] at hmem
    have hnan (y : Binary64) (hy : y ∈ x :: xs) : y.isNaN = false :=
      Binary64.isNaN_of_isFinite ((hmem y).mp hy).2
    obtain ⟨hx, hxs⟩ := List.forall_mem_cons.mp hnan
    obtain ⟨hlo, hleast⟩ := Binary64.foldl_smaller_le hx hxs
    obtain ⟨hhi, hgreatest⟩ := Binary64.le_foldl_larger hx hxs
    refine ⟨_, _, ?_, ((hmem _).mp hlo).1, ((hmem _).mp hhi).1, ((hmem _).mp hlo).2, ((hmem _).mp hhi).2, ?_⟩
    · rw [List.map_cons, extremes?, List.foldl_map, List.foldl_map,
        List.foldl_hom Number.real fun a b => Number.min_real a b,
        List.foldl_hom Number.real fun a b => Number.max_real a b]
    · exact fun y hy hf => ⟨hleast y ((hmem y).mpr ⟨hy, hf⟩), hgreatest y ((hmem y).mpr ⟨hy, hf⟩)⟩

/-! ## Heights -/

/-- How heights should stand to values: the lowest block at one end, the highest at the other, and no
larger value lower than a smaller one. -/
structure Scale (lo hi : Binary64) (rise : Binary64 → Nat) : Prop where
  bottom : rise lo = 0
  top : rise hi + 1 = blocks.length
  mono : ∀ {x y}, lo.le x = true → x.le y = true → y.le hi = true → rise x ≤ rise y

/-- Where a value stands on a scale of eight. -/
def eighths (lo hi x : Binary64) : Binary64 := (x - lo) / (hi - lo) * 8

theorem eight_eq : ∃ m : Magnitude, (8 : Binary64) = .finite false m ∧ m.units = 8 * unitsPerOne :=
  Binary64.whole_of_isExact (i := 8) (by decide)

theorem carries_eighths (hlo : lo.isFinite = true) (hhi : hi.isFinite = true) (hspan : (hi - lo).isFinite = true)
    (hpos : (0 : Binary64).lt (hi - lo) = true) : Carries (eighths lo hi) lo hi .zero 8 := by
  obtain ⟨span, hfinite, hunits⟩ := Binary64.exists_units_of_pos hspan hpos
  obtain ⟨eight, height, -⟩ := eight_eq
  have hdifference : Carries (· - lo) lo hi .zero (hi - lo) :=
    .of_mono hlo hhi (Binary64.sub_self hlo) rfl fun h hx hy => Binary64.sub_le h hx hy hlo
  have hshare : Carries (· / (hi - lo)) .zero (hi - lo) .zero 1 := by
    rw [hfinite]
    exact .of_mono rfl rfl (Binary64.zero_div hunits) (Binary64.div_self hunits) fun h hx hy =>
      Binary64.div_le hunits h hx hy
  have hscaled : Carries (· * 8) .zero 1 .zero 8 := by
    refine .of_mono rfl (by decide +kernel) (by decide +kernel) (by decide +kernel) fun h hx hy => ?_
    rw [height]
    exact Binary64.mul_le h hx hy
  exact (hdifference.comp hshare).comp hscaled

theorem truncate_eight : (8 : Binary64).truncate = .ok 8 := by
  obtain ⟨m, height, hunits⟩ := eight_eq
  rw [height, truncate_eq, hunits, Nat.mul_div_cancel _ unitsPerOne_pos]
  rfl

theorem exists_truncate (h : Carries (eighths lo hi) lo hi .zero 8) (hlo : lo.le x = true) (hhi : x.le hi = true) :
    ∃ k : Int, (eighths lo hi x).truncate = .ok k := by
  obtain ⟨hlow, hhigh⟩ := h.between hlo hhi
  exact Binary64.truncate_of_isFinite (Binary64.isFinite_of_between rfl (by decide +kernel) hlow hhigh)

/-- The heights that are computed, for values between the ends. -/
theorem exists_scale (h : Carries (eighths lo hi) lo hi .zero 8) (hnonzero : (hi - lo).eq 0 = false) :
    ∃ rise, Scale lo hi rise ∧ ∀ x, lo.le x = true → x.le hi = true →
      height (.real lo) (.real (hi - lo)) (.real x) = .ok (rise x) := by
  have hheight {x : Binary64} {k : Int} (hk : (eighths lo hi x).truncate = .ok k) :
      height (.real lo) (.real (hi - lo)) (.real x) = .ok (min k.toNat 7) := by
    show ((if (hi - lo).eq 0 = true then .error .zeroDivision else .ok ((x - lo) / (hi - lo))) >>= fun share =>
      (share * 8).truncate >>= fun k => .ok (min k.toNat 7) : Result Nat) = _
    rw [hnonzero, if_neg Bool.false_ne_true, bind_of_ok rfl]
    exact bind_of_ok hk _
  let rise (x : Binary64) : Nat := ((height (.real lo) (.real (hi - lo)) (.real x)).toOption).getD 0
  have hrise {x : Binary64} {k : Int} (hk : (eighths lo hi x).truncate = .ok k) : rise x = min k.toNat 7 := by
    show (height _ _ _).toOption.getD 0 = _
    rw [hheight hk]
    rfl
  refine ⟨rise, ⟨?_, ?_, ?_⟩, ?_⟩
  · rw [hrise ((congrArg Binary64.truncate h.first).trans truncate_zero)]
    rfl
  · rw [hrise ((congrArg Binary64.truncate h.last).trans truncate_eight)]
    rfl
  · intro x y hlo hxy hhi
    obtain ⟨i, hx⟩ := exists_truncate h hlo (Binary64.le_trans hxy hhi)
    obtain ⟨j, hy⟩ := exists_truncate h (Binary64.le_trans hlo hxy) hhi
    have hij : i ≤ j := Binary64.truncate_le (h.mono hlo hxy hhi) hx hy
    rw [hrise hx, hrise hy]
    omega
  · intro x hlo hhi
    obtain ⟨k, hk⟩ := exists_truncate h hlo hhi
    rw [hheight hk, hrise hk]

theorem Scale.lt_length {rise : Binary64 → Nat} (h : Scale lo hi rise) (hlo : lo.le x = true)
    (hhi : x.le hi = true) : rise x < blocks.length := by
  have hle := h.mono hlo hhi (Binary64.le_self_of_le hhi).2
  have htop := h.top
  omega

/-! ## Lines -/

/-- What a line should show of a sample: one character for each value, blanks for those that are not
finite, and blocks that rise with the value when the finite ones differ. -/
structure Pictures (shown : List Binary64) (lo hi : Binary64) (drawn : List Char) : Prop where
  length_eq : drawn.length = shown.length
  blank_iff : ∀ {k : Nat} {x c}, shown[k]? = some x → drawn[k]? = some c → (c = ' ' ↔ x.isFinite = false)
  rising : (0 : Binary64).lt (hi - lo) = true → ∃ rise, Scale lo hi rise ∧
    ∀ {k : Nat} {x}, shown[k]? = some x → x.isFinite = true → drawn[k]? = blocks[rise x]?

/-- The character of a value, given that of each finite one. -/
def cell (level : Binary64 → Char) (x : Binary64) : Char := if x.isFinite then level x else ' '

theorem mapM_mark {span : Number} (level : Binary64 → Char)
    (h : ∀ x ∈ shown, x.isFinite = true → mark (.real lo) span (.real x, true) = .ok (level x)) :
    (shown.map reading).mapM (mark (.real lo) span) = .ok (shown.map (cell level)) := by
  refine mapM_of_map ?_
  rw [List.map_map, List.map_map]
  refine List.map_congr_left fun x hx => ?_
  rw [Function.comp, Function.comp, reading, cell]
  cases hf : x.isFinite with
  | false => rfl
  | true =>
    rw [h x hx hf, if_pos rfl]

theorem blank_cell {level : Binary64 → Char} (hlevel : ∀ x ∈ shown, x.isFinite = true → level x ≠ ' ')
    {k : Nat} {c : Char} (hx : shown[k]? = some x) (hc : (shown.map (cell level))[k]? = some c) :
    c = ' ' ↔ x.isFinite = false := by
  rw [List.getElem?_map, hx] at hc
  cases hc
  rw [cell]
  cases hf : x.isFinite with
  | false => simp
  | true => simp [hlevel x (List.mem_of_getElem? hx) hf]

/-- The line of a sample whose finite values are not too far apart. -/
theorem exists_line (h : Spans shown lo hi) (hspan : (hi - lo).isFinite = true) :
    ∃ drawn, (shown.map reading).mapM (mark (.real lo) (.real (hi - lo))) = .ok drawn ∧
      Pictures shown lo hi drawn := by
  have hmark (x : Binary64) : mark (.real lo) (.real (hi - lo)) (.real x, true) =
      if (hi - lo).eq 0 = true then .ok flat
      else height (.real lo) (.real (hi - lo)) (.real x) >>= fun i => .ok (blocks.getD i flat) := by
    rw [← Number.isZero_real hspan]
    rfl
  cases hzero : (hi - lo).eq 0 with
  | true =>
    have hline := mapM_mark (fun _ => flat) fun x (_ : x ∈ shown) _ => by rw [hmark, hzero, if_pos rfl]
    refine ⟨_, hline, List.length_map _, blank_cell fun _ _ _ => by decide, fun hpos => ?_⟩
    rw [Binary64.eq_false_of_lt hpos] at hzero
    cases hzero
  | false =>
    have hordered := Binary64.sub_le (h.between lo h.lo_mem h.lo_finite).2 h.lo_finite h.hi_finite h.lo_finite
    rw [Binary64.sub_self h.lo_finite, ← Binary64.zero_eq] at hordered
    have hpos := Binary64.lt_of_le_of_eq_false hordered hzero
    obtain ⟨rise, hscale, hheight⟩ := exists_scale (carries_eighths h.lo_finite h.hi_finite hspan hpos) hzero
    have hlevel (x : Binary64) (hx : x ∈ shown) (hf : x.isFinite = true) :
        ∃ hlt : rise x < blocks.length, blocks.getD (rise x) flat = blocks[rise x] := by
      obtain ⟨hlo, hhi⟩ := h.between x hx hf
      have hlt := hscale.lt_length hlo hhi
      refine ⟨hlt, ?_⟩
      rw [List.getD_eq_getElem?_getD, List.getElem?_eq_getElem hlt, Option.getD_some]
    have hline := mapM_mark (fun x => blocks.getD (rise x) flat) fun x (hx : x ∈ shown) hf => by
      obtain ⟨hlo, hhi⟩ := h.between x hx hf
      rw [hmark, hzero, if_neg Bool.false_ne_true, hheight x hlo hhi]
      rfl
    refine ⟨_, hline, List.length_map _, blank_cell fun x hx hf => ?_,
      fun _ => ⟨rise, hscale, fun hx hf => ?_⟩⟩
    · obtain ⟨hlt, heq⟩ := hlevel x hx hf
      have hblocks : ' ' ∉ blocks := by decide
      rw [heq]
      exact fun hblank => hblocks (hblank ▸ List.getElem_mem hlt)
    · obtain ⟨hlt, heq⟩ := hlevel _ (List.mem_of_getElem? hx) hf
      rw [List.getElem?_map, hx, Option.map_some, cell, if_pos hf, heq, List.getElem?_eq_getElem hlt]

theorem ofReals_eq {width : Number} {drawn : List Char} (htwo : 2 ≤ values.length)
    (hplaces : positions values.length width = .ok places)
    (hsampled : (places.map (valueAt (values.map fun x => .ok (.real x)))).mapM judged = .ok (shown.map reading))
    (hextremes : extremes? (((shown.map reading).filter (·.2)).map (·.1)) = some (.real lo, .real hi))
    (hline : (shown.map reading).mapM (mark (.real lo) (.real (hi - lo))) = .ok drawn) :
    ofReals values (.ok width) = .ok (String.ofList drawn) := by
  have hlength : (values.map fun x => (.ok (.real x) : Arithmetic.Raw Number)).length = values.length :=
    List.length_map _
  rw [ofReals, draw, hlength, if_neg (by omega), bind_of_ok rfl, hplaces, bind_of_ok rfl, hsampled, bind_of_ok rfl,
    hextremes]
  show (Except.ok (Number.real (hi - lo)) >>= fun span => _ : Result String) = _
  rw [bind_of_ok rfl, hline]
  rfl

/-- **A line shows one character for each value of its sample, and the sample is part of the list.** Of
a list of two values or more and a width of one or more, the places that are drawn are in order from
the first, all of them there. When some of their values are finite, and these not too far apart, the
line has a blank just where a value is not finite, and when they differ, blocks that rise with the value
from the lowest for the least to the highest for the greatest.

The bounds are those of a machine: a length fits in 64 bits, and a sample of more than `2^52` values
does not fit in memory. Of one of twice as many a place can be out of range. -/
theorem draws_faithfully {values : List Binary64} {width : Int} (htwo : 2 ≤ values.length)
    (hlist : values.length < 2 ^ 63) (hwidth : 1 ≤ width) (hshort : width < values.length → width ≤ 2 ^ 52) :
    ∃ places shown, positions values.length (.int width) = .ok places ∧
      Samples values width.toNat places shown ∧
      ((∃ x ∈ shown, x.isFinite = true) → ∃ lo hi, Spans shown lo hi ∧
        ((hi - lo).isFinite = true → ∃ drawn, ofReals values (.ok (.int width)) = .ok (String.ofList drawn) ∧
          drawn.length = min values.length width.toNat ∧ Pictures shown lo hi drawn)) := by
  obtain ⟨w, rfl⟩ : ∃ w : Nat, width = w := ⟨width.toNat, by omega⟩
  rw [Int.toNat_natCast]
  have hpos : 0 < w := by omega
  have hvalues : 0 < values.length := by omega
  obtain ⟨places, hplaces, hplaced⟩ := exists_positions hpos hvalues hlist (by omega)
  obtain ⟨shown, hsamples⟩ := hplaced.exists_samples
  refine ⟨places, shown, hplaces, hsamples, fun hsome => ?_⟩
  obtain ⟨lo, hi, hextremes, hspans⟩ := exists_extremes hsome
  refine ⟨lo, hi, hspans, fun hspan => ?_⟩
  obtain ⟨drawn, hline, hpictures⟩ := exists_line hspans hspan
  exact ⟨drawn, ofReals_eq htwo hplaces hsamples.mapM_judged hextremes hline,
    hpictures.length_eq.trans hsamples.length_shown, hpictures⟩

/-- Five values, the second of them a gap. -/
def gapped : List Binary64 := [1, .nan, 5, 2, 3]

/-- On a line of three the first, the second and the fourth value are drawn. -/
theorem draws_faithfully_of_gap :
    2 ≤ gapped.length ∧ gapped.length < 2 ^ 63 ∧ (1 : Int) ≤ 3 ∧ (3 : Int) ≤ 2 ^ 52 ∧ ∃ lo hi drawn,
      Spans [1, .nan, 2] lo hi ∧ (hi - lo).isFinite = true ∧
      ofReals gapped (.ok (.int 3)) = .ok (String.ofList drawn) ∧ drawn = ['▁', ' ', '█'] ∧
      Pictures [1, .nan, 2] lo hi drawn := by
  have htwo : 2 ≤ gapped.length := by decide
  have hlist : gapped.length < 2 ^ 63 := by decide
  have hwidth : (1 : Int) ≤ 3 := by decide
  have hshort : (3 : Int) ≤ 2 ^ 52 := by decide
  obtain ⟨places, shown, hplaces, hsamples, hdrawn⟩ := draws_faithfully htwo hlist hwidth fun _ => hshort
  have hthree : positions gapped.length (.int 3) = .ok [0, 1, 3] := ok_of_toOption (by decide +kernel)
  cases hplaces.symm.trans hthree
  obtain rfl : shown = [1, .nan, 2] :=
    (List.map_inj_right fun _ _ => Option.some.inj).mp hsamples.values_eq.symm
  have hfinite : ∀ lo ∈ [(1 : Binary64), .nan, 2], ∀ hi ∈ [(1 : Binary64), .nan, 2],
      lo.isFinite = true → hi.isFinite = true → (hi - lo).isFinite = true := by decide +kernel
  obtain ⟨lo, hi, hspans, hline⟩ := hdrawn ⟨1, List.mem_cons_self, by decide +kernel⟩
  have hspan := hfinite lo hspans.lo_mem hi hspans.hi_mem hspans.lo_finite hspans.hi_finite
  obtain ⟨drawn, hofReals, -, hpictures⟩ := hline hspan
  have htext : ofReals gapped (.ok (.int 3)) = .ok "▁ █" := ok_of_toOption (by decide +kernel)
  have hchars : String.ofList drawn = "▁ █" := Except.ok.inj (hofReals.symm.trans htext)
  have hmarks : drawn = ['▁', ' ', '█'] := by
    rw [← String.toList_ofList (l := drawn), hchars]
    rfl
  exact ⟨htwo, hlist, hwidth, hshort, lo, hi, drawn, hspans, hspan, hofReals, hmarks, hpictures⟩

end Sparkline

end HashrateChart
