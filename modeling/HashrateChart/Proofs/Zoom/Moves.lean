/-
Any number of moves of the window, from any window.

Every move ends by bringing the window between the limits, so the first one is enough
(`exists_moved`), and all that could still fail is the sum of a step: a window is a number
in range, and a number that is little more than the largest one is rounded to it
(`inRange_add`). With limits of at most 52 bits the middle between them is not rounded, so
a toggle at one end leads to the other (`toggle_eq`). Longer windows are brought to no
shorter ones, again with the exception of an infinite one (`not_clamp_mono`).
-/
import Mathlib.Algebra.Group.Defs
import HashrateChart.Proofs.Zoom.Steps

namespace HashrateChart

/-- A value that is read as no number, as one that is not finite, or as one of at most a magnitude. -/
def Json.Within (n : Nat) (j : Json) : Prop :=
  j.InRange ∧ ∀ s m, j.toReal = .ok (.finite s m) → m.units ≤ n * unitsPerOne

namespace ZoomConfig

variable {cfg : ZoomConfig} {n : Nat} {w : Int}

/-- Settings of at most a magnitude. -/
def Within (n : Nat) (cfg : ZoomConfig) : Prop :=
  cfg.minWindow.natAbs ≤ n ∧ cfg.maxWindow.natAbs ≤ n ∧ cfg.step.natAbs ≤ n

instance (n : Nat) (cfg : ZoomConfig) : Decidable (cfg.Within n) :=
  inferInstanceAs (Decidable (cfg.minWindow.natAbs ≤ n ∧ cfg.maxWindow.natAbs ≤ n ∧ cfg.step.natAbs ≤ n))

theorem Within.allExact (h : cfg.Within n) (hn : n ≤ 2 ^ 53) : cfg.AllExact := by
  obtain ⟨hmin, hmax, hstep⟩ := h
  exact ⟨⟨Nat.le_trans hmin hn, Nat.le_trans hmax hn⟩, Nat.le_trans hstep hn⟩

/-- The limits that are used are of the same magnitude. -/
theorem Within.normalized (h : cfg.Within n) (hn : 1 ≤ n) :
    1 ≤ cfg.normalized.minWindow ∧ cfg.normalized.minWindow ≤ cfg.normalized.maxWindow ∧
      cfg.normalized.maxWindow ≤ n := by
  obtain ⟨hmin, hmax, -⟩ := h
  refine ⟨Int.le_max_left _ _, cfg.minWindow_le_maxWindow, ?_⟩
  simp only [ZoomConfig.normalized]
  split <;> omega

/-- A window between two limits. -/
def Admits (c : ZoomConfig) (w : Int) : Prop := c.minWindow ≤ w ∧ w ≤ c.maxWindow

theorem admits_between (cfg : ZoomConfig) (w : Int) : cfg.normalized.Admits (cfg.normalized.between w) :=
  ⟨cfg.minWindow_le_between w, Int.min_le_left _ _⟩

theorem Within.isExact_of_admits (h : cfg.Within (2 ^ 52)) (hw : cfg.normalized.Admits w) :
    Binary64.IsExact w := by
  obtain ⟨hmin, -, hmax⟩ := h.normalized (by decide)
  obtain ⟨hlow, hhigh⟩ := hw
  unfold Binary64.IsExact
  omega

end ZoomConfig

namespace Zoom

variable {cfg : ZoomConfig} {window delta : Json} {w d : Int} {n : Nat}

/-! ## Whole numbers of a magnitude -/

theorem natAbs_of_nearest {s : Bool} {m : Magnitude} (h : (Binary64.finite s m).nearest = .ok w) :
    w.natAbs = roundHalfEven m.units unitsPerOne := by
  cases h
  rw [Binary64.natAbs_signed, Binary64.natAbs_signed]

theorem whole_of_unread {e : Fault} (h : window.toReal = .error e) (hw : whole window = .ok w) : w = 0 := by
  unfold whole at hw
  rw [h] at hw
  split at hw
  · cases hw
    rfl
  · cases e <;> cases hw <;> rfl

/-- A window counts as zero unless it is read as a finite number, whose nearest whole number it is then. -/
theorem whole_cases (h : whole window = .ok w) :
    w = 0 ∨ ∃ s m, window.toReal = .ok (.finite s m) ∧ (Binary64.finite s m).nearest = .ok w := by
  cases hread : window.toReal with
  | error e => exact .inl (whole_of_unread hread h)
  | ok x =>
    rw [whole_of_toReal hread] at h
    cases x with
    | nan | infinite s =>
      cases h
      exact .inl rfl
    | finite s m => exact .inr ⟨s, m, rfl, h⟩

theorem exists_whole_of_within (h : delta.Within n) : ∃ d, whole delta = .ok d ∧ d.natAbs ≤ n := by
  obtain ⟨hrange, hunits⟩ := h
  obtain ⟨d, hd⟩ := exists_whole hrange
  refine ⟨d, hd, ?_⟩
  rcases whole_cases hd with rfl | ⟨s, m, hread, hnearest⟩
  · exact Nat.zero_le n
  · calc d.natAbs = roundHalfEven m.units unitsPerOne := natAbs_of_nearest hnearest
      _ ≤ roundHalfEven (n * unitsPerOne) unitsPerOne := roundHalfEven_mono (hunits s m hread)
      _ = n := roundHalfEven_mul n unitsPerOne_pos

/-- What is a little more than the largest number is rounded to it. -/
theorem rounded_beyond_lt :
    Magnitude.rounded (magnitudeLimit - twoPow 2045 + (2 ^ 52 + 1) * unitsPerOne) 1 < magnitudeLimit := by
  decide +kernel

/-- The whole number of a window stays in range when it is changed by little. -/
theorem inRange_add (hw : whole window = .ok w) (hd : d.natAbs ≤ 2 ^ 52) : (Json.int (w + d)).InRange := by
  have hsum : (w + d).natAbs ≤ w.natAbs + d.natAbs := Int.natAbs_add_le w d
  rcases whole_cases hw with rfl | ⟨s, m, -, hnearest⟩
  · have hexact : Binary64.IsExact (0 + d) := by
      unfold Binary64.IsExact
      omega
    exact Json.inRange_int hexact
  · have hwhole : w.natAbs * unitsPerOne ≤ m.units + unitsPerOne := by
      calc w.natAbs * unitsPerOne ≤ (m.units / unitsPerOne + 1) * unitsPerOne := by
            rw [natAbs_of_nearest hnearest]
            exact Nat.mul_le_mul_right _ (roundHalfEven_le _ _)
        _ ≤ m.units + unitsPerOne := by
            rw [Nat.succ_mul]
            exact Nat.add_le_add_right (Nat.div_mul_le_self _ _) _
    have hmost : m.units ≤ magnitudeLimit - twoPow 2045 := Nat.le_sub_of_add_le (m.units_add_le rfl)
    refine Binary64.exists_ofInt?_of_le rounded_beyond_lt ?_
    calc (w + d).natAbs * unitsPerOne ≤ (w.natAbs + d.natAbs) * unitsPerOne := Nat.mul_le_mul_right _ hsum
      _ = w.natAbs * unitsPerOne + d.natAbs * unitsPerOne := Nat.add_mul ..
      _ ≤ (magnitudeLimit - twoPow 2045 + unitsPerOne) + 2 ^ 52 * unitsPerOne :=
        Nat.add_le_add (Nat.le_trans hwhole (Nat.add_le_add_right hmost _)) (Nat.mul_le_mul_right _ hd)
      _ = magnitudeLimit - twoPow 2045 + (2 ^ 52 + 1) * unitsPerOne := by
        rw [Nat.add_mul (2 ^ 52) 1, Nat.one_mul, Nat.add_assoc, Nat.add_comm unitsPerOne]

/-! ## Moves -/

/-- What can be done to a window. -/
inductive Move where
  | clamp
  | step (delta : Json)
  | toggle

/-- A move by at most a magnitude. -/
def Move.Within (n : Nat) : Move → Prop
  | .clamp | .toggle => True
  | .step delta => delta.Within n

/-- The window after a move. -/
def moved (cfg : ZoomConfig) (window : Json) : Move → Result Int
  | .clamp => clamp window cfg
  | .step delta => step window delta cfg
  | .toggle => toggle window cfg

/-- The windows after each of some moves. -/
def windows (cfg : ZoomConfig) : Json → List Move → Result (List Int)
  | _, [] => .ok []
  | window, move :: moves => do
    let w ← moved cfg window move
    return w :: (← windows cfg (.int w) moves)

theorem exists_clamp (h : cfg.AllExact) (hw : window.InRange) :
    ∃ w, clamp window cfg = .ok w ∧ cfg.normalized.Admits w := by
  obtain ⟨v, hv⟩ := exists_whole hw
  rw [clamp_eq h, hv]
  exact ⟨_, rfl, cfg.admits_between v⟩

/-- A toggle decides by the middle between the limits. -/
theorem toggle_eq (h : cfg.Within (2 ^ 52)) (hw : whole window = .ok w) :
    toggle window cfg = .ok (if 2 * w ≤ cfg.normalized.minWindow + cfg.normalized.maxWindow
      then cfg.normalized.maxWindow else cfg.normalized.minWindow) := by
  obtain ⟨hmin, hle, hmax⟩ := h.normalized (by decide)
  have hexact : Binary64.IsExact (cfg.normalized.minWindow + cfg.normalized.maxWindow) := by
    unfold Binary64.IsExact
    omega
  obtain ⟨m, hm, hunits⟩ := Binary64.quotient_two hexact
  have hneg : decide (cfg.normalized.minWindow + cfg.normalized.maxWindow < 0) = false := decide_eq_false (by omega)
  rw [hneg] at hm
  have hmiddle : ((Number.int w).le (.real (.finite false m)) = true) =
      (2 * w ≤ cfg.normalized.minWindow + cfg.normalized.maxWindow) := by
    have hpos : (0 : Int) < unitsPerOne := by exact_mod_cast unitsPerOne_pos
    have hcast : (m.units : Int) * 2 = (cfg.normalized.minWindow + cfg.normalized.maxWindow) * unitsPerOne := by
      have hnat : ((m.units * 2 : Nat) : Int) = _ := congrArg Nat.cast hunits
      rw [Int.natCast_mul, Int.natCast_mul, Int.natAbs_of_nonneg (by omega)] at hnat
      exact hnat
    show (decide (w * (unitsPerOne : Int) ≤ (m.units : Int)) = true) = _
    rw [decide_eq_true_eq]
    refine propext ⟨fun hkey => ?_, fun hkey => ?_⟩
    · refine Int.le_of_mul_le_mul_right ?_ hpos
      rw [← hcast, Int.mul_assoc]
      omega
    · have hscaled := Int.mul_le_mul_of_nonneg_right hkey (Int.le_of_lt hpos)
      rw [← hcast, Int.mul_assoc] at hscaled
      omega
  unfold toggle
  rw [normalize_eq (h.allExact (by decide)), bind_of_ok rfl, bind_of_ok hm, hw, bind_of_ok rfl]
  simp only [hmiddle]
  rfl

/-- Every move leads to a window between the limits. -/
theorem exists_moved (h : cfg.Within (2 ^ 52)) (hw : window.InRange) {move : Move} (hmove : move.Within (2 ^ 52)) :
    ∃ w, moved cfg window move = .ok w ∧ cfg.normalized.Admits w := by
  have hexact := h.allExact (by decide)
  obtain ⟨v, hv⟩ := exists_whole hw
  cases move with
  | clamp => exact exists_clamp hexact hw
  | step delta =>
    obtain ⟨d, hd, hsmall⟩ := exists_whole_of_within hmove
    obtain ⟨w, hsum, hadmits⟩ := exists_clamp hexact (inRange_add hv hsmall)
    refine ⟨w, ?_, hadmits⟩
    show step window delta cfg = .ok w
    rw [step, hv, bind_of_ok rfl, hd, bind_of_ok rfl, hsum]
  | toggle =>
    refine ⟨_, toggle_eq h hv, ?_⟩
    have hle := cfg.minWindow_le_maxWindow
    split
    · exact ⟨hle, Int.le_refl _⟩
    · exact ⟨Int.le_refl _, hle⟩

/-- Moves, one after the other, lead from window to window between the limits. -/
theorem exists_windows (h : cfg.Within (2 ^ 52)) {moves : List Move}
    (hmoves : ∀ move ∈ moves, move.Within (2 ^ 52)) (hw : window.InRange) :
    ∃ ws, windows cfg window moves = .ok ws ∧ ws.length = moves.length ∧
      ∀ w ∈ ws, cfg.normalized.Admits w := by
  induction moves generalizing window with
  | nil => exact ⟨[], rfl, rfl, nofun⟩
  | cons move moves ih =>
    obtain ⟨hmove, hrest⟩ := List.forall_mem_cons.mp hmoves
    obtain ⟨w, hfirst, hadmits⟩ := exists_moved h hw hmove
    obtain ⟨ws, hws, hlen, hall⟩ := ih hrest (Json.inRange_int (h.isExact_of_admits hadmits))
    refine ⟨w :: ws, ?_, congrArg (· + 1) hlen, List.forall_mem_cons.mpr ⟨hadmits, hall⟩⟩
    rw [windows, hfirst, bind_of_ok rfl, hws]
    rfl

/-- At one end of a range a toggle leads to the other end. -/
theorem toggle_ends (h : cfg.Within (2 ^ 52)) (hlt : cfg.normalized.minWindow < cfg.normalized.maxWindow) :
    toggle (.int cfg.normalized.minWindow) cfg = .ok cfg.normalized.maxWindow ∧
      toggle (.int cfg.normalized.maxWindow) cfg = .ok cfg.normalized.minWindow := by
  have hmin := whole_int (h.isExact_of_admits ⟨Int.le_refl _, Int.le_of_lt hlt⟩)
  have hmax := whole_int (h.isExact_of_admits ⟨Int.le_of_lt hlt, Int.le_refl _⟩)
  rw [toggle_eq h hmin, toggle_eq h hmax, if_pos (by omega), if_neg (by omega)]
  exact ⟨rfl, rfl⟩

/-! ## Closed limits -/

/-- The limits that are used in place of others, and all that is done to a window stays between them. -/
structure Closed (cfg c : ZoomConfig) : Prop where
  normalize_eq : normalize cfg = .ok c
  one_le_min : 1 ≤ c.minWindow
  min_le_max : c.minWindow ≤ c.maxWindow
  one_le_step : 1 ≤ c.step
  normalize_again : normalize c = .ok c
  windows_between : ∀ (window : Json) (moves : List Move), window.InRange →
    (∀ move ∈ moves, move.Within (2 ^ 52)) →
    ∃ ws, windows cfg window moves = .ok ws ∧ ws.length = moves.length ∧ ∀ w ∈ ws, c.Admits w
  clamp_again : ∀ (window : Json) (w : Int), clamp window cfg = .ok w → clamp (.int w) cfg = .ok w
  clamp_mono : ∀ (a b : Json) (x y : Binary64), a.toReal = .ok x → b.toReal = .ok y → x.le y = true →
    y ≠ .infinite false → ∃ v w, clamp a cfg = .ok v ∧ clamp b cfg = .ok w ∧ v ≤ w
  toggle_twice : c.minWindow < c.maxWindow →
    windows cfg (.int c.minWindow) [.toggle, .toggle] = .ok [c.maxWindow, c.minWindow] ∧
      windows cfg (.int c.maxWindow) [.toggle, .toggle] = .ok [c.minWindow, c.maxWindow]

/-- **Windows stay between the limits.** Settings of at most 52 bits, also negative ones and limits the wrong way
round, are brought in order once and for all, and every number of moves by at most 52 bits, from any window in
range, leads to windows between the limits. Clamping again changes nothing, and it keeps the order of windows
up to infinity; a toggle swaps the two ends. -/
theorem closed_of_within (h : cfg.Within (2 ^ 52)) : ∃ c, Closed cfg c := by
  have hexact := h.allExact (by decide)
  obtain ⟨hmin, hle, -⟩ := h.normalized (by decide)
  exact ⟨cfg.normalized, {
    normalize_eq := normalize_eq hexact
    one_le_min := hmin
    min_le_max := hle
    one_le_step := cfg.one_le_step
    normalize_again := by rw [normalize_eq hexact.normalized, cfg.normalized_normalized]
    windows_between := fun window moves hw hmoves => exists_windows h hmoves hw
    clamp_again := fun window w hc => clamp_clamp hexact hc
    clamp_mono := by
      intro a b x y ha hb hxy hy
      obtain ⟨v, w, hv, hw, hvw⟩ := between_whole_le_of_reading cfg ha hb hxy hy
      exact ⟨_, _, by rw [clamp_eq hexact, hv]; rfl, by rw [clamp_eq hexact, hw]; rfl, hvw⟩
    toggle_twice := by
      intro hlt
      obtain ⟨hup, hdown⟩ := toggle_ends h hlt
      constructor
      · simp only [windows, moved, hup, hdown, bind, Except.bind, pure, Except.pure]
      · simp only [windows, moved, hup, hdown, bind, Except.bind, pure, Except.pure] }⟩

/-- From no window at all: a step that is given as a text, and two toggles, with no lower limit set. -/
theorem closed_of_no_lower_limit :
    (⟨0, 5400000, -1⟩ : ZoomConfig).Within (2 ^ 52) ∧
    (∃ c, Closed ⟨0, 5400000, -1⟩ c) ∧
    windows ⟨0, 5400000, -1⟩ .null [.step (.text "900000"), .toggle, .toggle] = .ok [900000, 5400000, 1] := by
  have hwithin : (⟨0, 5400000, -1⟩ : ZoomConfig).Within (2 ^ 52) := by decide
  exact ⟨hwithin, closed_of_within hwithin, by decide +kernel⟩

/-- Clamping does not keep the order of all windows: an infinite one is above all others and is brought to the
shortest. -/
theorem not_clamp_mono :
    ¬ ∀ (cfg : ZoomConfig) (a b : Json) (x y : Binary64), cfg.Within (2 ^ 52) →
      a.toReal = .ok x → b.toReal = .ok y → x.le y = true →
      ∃ v w, clamp a cfg = .ok v ∧ clamp b cfg = .ok w ∧ v ≤ w := by
  intro h
  have hexact : ({} : ZoomConfig).AllExact := by decide
  have hthree : Binary64.IsExact 10800000 := by decide
  obtain ⟨v, w, hv, hw, hvw⟩ := h {} (.int 10800000) (.real (.infinite false)) _ _ (by decide)
    (Binary64.ofInt?_whole hthree) rfl (by decide +kernel)
  have hlong : clamp (.int 10800000) {} = .ok 10800000 := by
    rw [clamp_eq hexact, whole_int hthree]
    rfl
  have hinfinite : clamp (.real (.infinite false)) {} = .ok 3600000 := by
    rw [clamp_eq hexact]
    rfl
  cases hv.symm.trans hlong
  cases hw.symm.trans hinfinite
  omega

end Zoom

end HashrateChart
