/-
The moving average stays inside the values, and starts anew after every gap.

In exact numbers the average so far is a fold over the values (`next`), and what is drawn
at a position is the fold of the values up to there (`getElem?_averages`). After a gap it
is the fold of what came since, a weighted mean of two numbers at a time. So it lies
between the least and the largest of them (`between_foldl`), whatever came before.
-/
import Mathlib.Tactic.Positivity
import HashrateChart.Proofs.Smoothing
import HashrateChart.Proofs.Zoom.Steps

namespace HashrateChart

open Arithmetic
open Exact (number value?)

namespace Smoothing

variable {a : ℚ} {data : List Exact} {i : Nat}

/-! ## The average as a fold -/

/-- A number, or a gap. -/
def orGap (p : Option ℚ) : Exact := p.elim .gap number

/-- The average after one more value: none after a gap. -/
def next (a : ℚ) (p : Option ℚ) (x : Exact) : Option ℚ :=
  x.value?.map fun v =>
    match p with
    | none => v
    | some p => a * v + (1 - a) * p

/-- The averages after each of the values. -/
def averages (a : ℚ) : Option ℚ → List Exact → List Exact
  | _, [] => []
  | p, x :: rest => orGap (next a p x) :: averages a (next a p x) rest

theorem emaFrom_eq (a : ℚ) (p : Option ℚ) (data : List Exact) :
    emaFrom (.ofShare (number a)) (orGap p) (data.map .ok) = .ok (averages a p data) := by
  induction data generalizing p with
  | nil => rfl
  | cons x rest ih =>
    have hrest (p : Option ℚ) : (emaFrom (.ofShare (number a)) (orGap p) (rest.map .ok) >>= fun out =>
        .ok (orGap p :: out)) = .ok (orGap p :: averages a p rest) := by
      rw [ih]
      rfl
    cases x with
    | gap | infinite s => exact hrest none
    | number v =>
      cases p with
      | none => exact hrest (some v)
      | some p =>
        have hmean : number a * number v + (whole 1 - number a) * number p =
            orGap (next a (some p) (number v)) := by simp [orGap, next, value?]
        show (emaFrom _ (number a * number v + (whole 1 - number a) * number p) _ >>= fun out =>
          .ok ((number a * number v + (whole 1 - number a) * number p) :: out)) = _
        rw [hmean]
        exact hrest _

theorem length_averages (a : ℚ) (p : Option ℚ) (data : List Exact) :
    (averages a p data).length = data.length := by
  induction data generalizing p with
  | nil => rfl
  | cons x rest ih => rw [averages, List.length_cons, List.length_cons, ih]

/-- What is drawn at a position is the fold of the values up to there. -/
theorem getElem?_averages (a : ℚ) (p : Option ℚ) (data : List Exact) (i : Nat) :
    (averages a p data)[i]? = (data[i]?).map fun _ => orGap ((data.take (i + 1)).foldl (next a) p) := by
  induction data generalizing p i with
  | nil => rfl
  | cons x rest ih =>
    cases i with
    | zero => rfl
    | succ i =>
      rw [averages, List.getElem?_cons_succ, List.getElem?_cons_succ, ih]
      rfl

theorem averages_append (a : ℚ) (p : Option ℚ) (before after : List Exact) :
    averages a p (before ++ after) = averages a p before ++ averages a (before.foldl (next a) p) after := by
  induction before generalizing p with
  | nil => rfl
  | cons x before ih => rw [List.cons_append, averages, averages, ih, List.cons_append, List.foldl_cons]

/-- After a gap the average starts anew. -/
theorem averages_gap {g : Exact} (hg : isFinite g = false) (a : ℚ) (p : Option ℚ) (before after : List Exact) :
    averages a p (before ++ g :: after) = averages a p before ++ .gap :: averages a none after := by
  have hnext (p : Option ℚ) : next a p g = none := by
    cases g with
    | number q => cases hg
    | gap | infinite s => rfl
  rw [averages_append, averages, hnext]
  rfl

/-! ## Inside the values -/

/-- The numbers at the end of a list, up to the last one that is none. -/
def lastRun (data : List Exact) : List ℚ := ((data.reverse.takeWhile isFinite).filterMap value?).reverse

theorem lastRun_concat (data : List Exact) (x : Exact) :
    lastRun (data ++ [x]) = x.value?.elim [] fun v => lastRun data ++ [v] := by
  unfold lastRun
  rw [List.reverse_append, List.reverse_singleton, List.singleton_append]
  cases x with
  | gap | infinite s => rfl
  | number v =>
    rw [List.takeWhile_cons_of_pos (Exact.isFinite_number v)]
    exact List.reverse_cons

/-- A number between the least and the largest of some. -/
def Between (run : List ℚ) (q : ℚ) : Prop := (∃ lo ∈ run, lo ≤ q) ∧ ∃ hi ∈ run, q ≤ hi

theorem Between.of_mem {run : List ℚ} {q : ℚ} (h : q ∈ run) : Between run q :=
  ⟨⟨q, h, le_rfl⟩, q, h, le_rfl⟩

theorem Between.mono {run run' : List ℚ} {q : ℚ} (h : Between run q) (hsub : run ⊆ run') : Between run' q := by
  obtain ⟨⟨lo, hlo, hle⟩, hi, hhi, hge⟩ := h
  exact ⟨⟨lo, hsub hlo, hle⟩, hi, hsub hhi, hge⟩

/-- A weighted mean of two numbers. -/
theorem Between.mean {run : List ℚ} {p q : ℚ} (h0 : 0 ≤ a) (h1 : a ≤ 1) (hp : Between run p)
    (hq : Between run q) : Between run (a * p + (1 - a) * q) := by
  have hrest : 0 ≤ 1 - a := sub_nonneg.mpr h1
  rcases le_total p q with hpq | hqp
  · have hlow : p ≤ a * p + (1 - a) * q := by nlinarith
    have hhigh : a * p + (1 - a) * q ≤ q := by nlinarith
    obtain ⟨⟨lo, hlo, hle⟩, -⟩ := hp
    obtain ⟨-, hi, hhi, hge⟩ := hq
    exact ⟨⟨lo, hlo, hle.trans hlow⟩, hi, hhi, hhigh.trans hge⟩
  · have hlow : q ≤ a * p + (1 - a) * q := by nlinarith
    have hhigh : a * p + (1 - a) * q ≤ p := by nlinarith
    obtain ⟨⟨lo, hlo, hle⟩, -⟩ := hq
    obtain ⟨-, hi, hhi, hge⟩ := hp
    exact ⟨⟨lo, hlo, hle.trans hlow⟩, hi, hhi, hhigh.trans hge⟩

/-- The average is between the numbers since the last gap, by induction from the end. -/
theorem between_foldl (h0 : 0 ≤ a) (h1 : a ≤ 1) (data : List Exact) :
    ∀ q, data.foldl (next a) none = some q → Between (lastRun data) q := by
  induction data using List.reverseRecOn with
  | nil => nofun
  | append_singleton data x ih =>
    intro q hq
    rw [List.foldl_concat] at hq
    rw [lastRun_concat]
    obtain ⟨v, hv, hq⟩ := Option.map_eq_some_iff.mp hq
    rw [hv]
    have hlast : Between (lastRun data ++ [v]) v := .of_mem List.mem_concat_self
    cases hp : data.foldl (next a) none with
    | none =>
      rw [hp] at hq
      exact hq ▸ hlast
    | some p =>
      rw [hp] at hq
      exact hq ▸ hlast.mean h0 h1 ((ih p hp).mono (List.subset_append_left _ _))

/-- A curve in place of some values: it is finite where they are, and there between the least and the largest
of them since the last gap. -/
structure Inside (data out : List Exact) : Prop where
  length : out.length = data.length
  finite : ∀ (i : Nat) x y, data[i]? = some x → out[i]? = some y → isFinite y = isFinite x
  between : ∀ (i : Nat) q, out[i]? = some (number q) → Between (lastRun (data.take (i + 1))) q

theorem take_succ_of_getElem? {x : Exact} (h : data[i]? = some x) : data.take (i + 1) = data.take i ++ [x] := by
  obtain ⟨hi, rfl⟩ := List.getElem?_eq_some_iff.mp h
  exact List.take_succ_eq_append_getElem hi

/-- Every number is in the run that it ends. -/
theorem between_self {q : ℚ} (h : data[i]? = some (number q)) : Between (lastRun (data.take (i + 1))) q := by
  rw [take_succ_of_getElem? h, lastRun_concat]
  exact .of_mem List.mem_concat_self

theorem Inside.refl (data : List Exact) : Inside data data where
  length := rfl
  finite i x y hx hy := by cases hx.symm.trans hy; rfl
  between i q h := between_self h

theorem inside_averages (h0 : 0 ≤ a) (h1 : a ≤ 1) (data : List Exact) : Inside data (averages a none data) where
  length := length_averages a none data
  finite i x y hx hy := by
    rw [getElem?_averages, hx] at hy
    cases hy
    rw [take_succ_of_getElem? hx, List.foldl_concat]
    cases x <;> rfl
  between i q h := by
    rw [getElem?_averages] at h
    obtain ⟨x, hx, hq⟩ := Option.map_eq_some_iff.mp h
    cases hp : (data.take (i + 1)).foldl (next a) none with
    | none => rw [hp] at hq; cases hq
    | some p =>
      rw [hp] at hq
      cases hq
      exact between_foldl h0 h1 _ _ hp

/-! ## The last point -/

variable {out : List Exact}

/-- No point but the last one is put back, and that one only when it is finite. -/
theorem snapLast_cases (hlen : out.length = data.length) :
    snapLast data out = out ∨ ∃ init rest v y, data = init ++ [v] ∧ out = rest ++ [y] ∧
      rest.length = init.length ∧ snapLast data out = rest ++ [v] := by
  unfold snapLast
  split
  · next v hv =>
    split
    · obtain ⟨init, rfl⟩ := List.getLast?_eq_some_iff.mp hv
      have hout : out.length = init.length + 1 := by rw [hlen, List.length_append, List.length_singleton]
      have hne : out ≠ [] := by
        rintro rfl
        cases hout
      refine .inr ⟨init, out.dropLast, v, out.getLast hne, rfl, (List.dropLast_concat_getLast hne).symm, ?_, rfl⟩
      rw [List.length_dropLast, hout, Nat.add_sub_cancel]
    · exact .inl rfl
  · exact .inl rfl

theorem length_snapLast (hlen : out.length = data.length) : (snapLast data out).length = data.length := by
  rcases snapLast_cases hlen with heq | ⟨init, rest, v, y, rfl, rfl, hrest, heq⟩
  · rw [heq, hlen]
  · rw [heq, List.length_append, List.length_append, hrest]

theorem getElem?_snapLast (hlen : out.length = data.length) (i : Nat) :
    (snapLast data out)[i]? = out[i]? ∨ (snapLast data out)[i]? = data[i]? := by
  rcases snapLast_cases hlen with heq | ⟨init, rest, v, y, rfl, rfl, hrest, heq⟩
  · exact .inl (by rw [heq])
  · rw [heq]
    rcases Nat.lt_or_ge i rest.length with hlt | hge
    · left
      rw [List.getElem?_append_left hlt, List.getElem?_append_left hlt]
    · right
      rw [List.getElem?_append_right hge, List.getElem?_append_right (hrest ▸ hge), hrest]

theorem Inside.snapLast (h : Inside data out) : Inside data (snapLast data out) where
  length := length_snapLast h.length
  finite i x y hx hy := by
    rcases getElem?_snapLast h.length i with heq | heq
    · exact h.finite i x y hx (heq ▸ hy)
    · cases hx.symm.trans (heq ▸ hy)
      rfl
  between i q hq := by
    rcases getElem?_snapLast h.length i with heq | heq
    · exact h.between i q (heq ▸ hq)
    · exact between_self (heq ▸ hq)

theorem getLast?_snapLast {q : ℚ} (h : data.getLast? = some (number q)) (out : List Exact) :
    (snapLast data out).getLast? = some (number q) := by
  rw [snapLast, h]
  exact List.getLast?_concat

theorem snapLast_gap {g : Exact} (hg : isFinite g = false) {after : List Exact} (hlen : out.length = after.length)
    (before before' : List Exact) (y : Exact) :
    snapLast (before ++ g :: after) (before' ++ y :: out) = before' ++ y :: snapLast after out := by
  cases after with
  | nil =>
    obtain rfl := List.length_eq_zero_iff.mp hlen
    rw [snapLast, List.getLast?_concat]
    simp only [hg, Bool.false_eq_true, if_false]
    rfl
  | cons x after =>
    have hne : out ≠ [] := by
      rintro rfl
      cases hlen
    have hlast : (before ++ g :: x :: after).getLast? = (x :: after).getLast? := by
      rw [List.getLast?_append_cons, List.getLast?_cons_cons]
    have hdrop : (before' ++ y :: out).dropLast = before' ++ y :: out.dropLast := by
      rw [List.dropLast_append_cons, List.dropLast_cons_of_ne_nil hne]
    unfold snapLast
    rw [hlast, hdrop]
    split
    · split
      · rw [List.append_assoc, List.cons_append]
      · rfl
    · rfl

/-! ## The curve -/

/-- The values averaged over some samples, as they are over none. -/
def averagedBy (n : Int) (snap : Bool) (data : List Exact) : List Exact :=
  if n = 0 then data
  else
    let averaged := averages (2 / (n + 1)) none data
    if snap then snapLast data averaged else averaged

/-- The share of a new value in an average over at least two samples. -/
theorem share_bounds {n : Int} (h : 2 ≤ n) : 0 < (2 : ℚ) / (n + 1) ∧ (2 : ℚ) / (n + 1) ≤ 2 / 3 := by
  have hn : (2 : ℚ) ≤ n := by exact_mod_cast h
  exact ⟨by positivity, div_le_div_of_nonneg_left (by norm_num) (by norm_num) (by linarith)⟩

theorem share_eq {n : Int} (h : 2 ≤ n) : (whole 2 / whole (n + 1) : Exact) = number (2 / (n + 1)) := by
  have hn : ((n + 1 : Int) : ℚ) ≠ 0 := by exact_mod_cast (by omega : n + 1 ≠ 0)
  rw [Exact.whole_eq, Exact.whole_eq, Exact.number_div _ hn]
  push_cast
  rfl

theorem inside_averagedBy {n : Int} (h : n = 0 ∨ 2 ≤ n) (snap : Bool) (data : List Exact) :
    Inside data (averagedBy n snap data) := by
  unfold averagedBy
  split
  · exact .refl data
  · next hne =>
    obtain ⟨hpos, hle⟩ := share_bounds (h.resolve_left hne)
    have hinside := inside_averages hpos.le (hle.trans (by norm_num)) data
    cases snap with
    | false => exact hinside
    | true => exact hinside.snapLast

/-- What is drawn after a gap is what is drawn of the values after it. -/
theorem averagedBy_gap {g : Exact} (hg : isFinite g = false) (n : Int) (snap : Bool) (before after : List Exact) :
    (averagedBy n snap (before ++ g :: after)).drop (before.length + 1) = averagedBy n snap after := by
  have hdrop {xs : List Exact} (hxs : xs.length = before.length) (y : Exact) (ys : List Exact) :
      (xs ++ y :: ys).drop (before.length + 1) = ys := by
    rw [← hxs, List.drop_length_add_append]
    rfl
  unfold averagedBy
  split
  · exact hdrop rfl g after
  · dsimp only
    rw [averages_gap hg]
    cases snap with
    | false => exact hdrop (length_averages _ _ _) _ _
    | true =>
      rw [if_pos rfl, if_pos rfl, snapLast_gap hg (length_averages _ _ _)]
      exact hdrop (length_averages _ _ _) _ _

theorem getLast?_averagedBy {q : ℚ} (h : data.getLast? = some (number q)) (n : Int) :
    (averagedBy n true data).getLast? = some (number q) := by
  unfold averagedBy
  split
  · exact h
  · exact getLast?_snapLast h _

/-- The average in terms of the share that a new value has in it. -/
theorem averagedBy_shared {n : Int} (h : n = 0 ∨ 2 ≤ n) (snap : Bool) (data : List Exact) :
    n = 0 ∧ averagedBy n snap data = data ∨
      2 ≤ n ∧ ∃ share : ℚ, 0 < share ∧ share ≤ 2 / 3 ∧ whole 2 / whole (n + 1) = number share ∧
        ∃ averaged, ema (.ofShare (number share)) (data.map .ok) = .ok averaged ∧
          averagedBy n snap data = if snap then snapLast data averaged else averaged := by
  unfold averagedBy
  rcases h with hzero | htwo
  · exact .inl ⟨hzero, if_pos hzero⟩
  · obtain ⟨hpos, hle⟩ := share_bounds htwo
    exact .inr ⟨htwo, _, hpos, hle, share_eq htwo, _, emaFrom_eq _ none data, if_neg (by omega)⟩

/-- Nothing fails when a curve is drawn. -/
theorem drawn_eq {cfg : SmoothingConfig Exact} {b q : ℚ} (hb : cfg.zoomBoost = number b) (data : List Exact)
    (steps : Int) :
    drawn data cfg (number q) steps =
      .ok ⟨averagedBy (pointsOf cfg q (targetWindow cfg steps)) cfg.snapLast data,
        tensionOf cfg b (number q) steps, some cfg.mode⟩ := by
  have hcases := pointsOf_cases cfg q (targetWindow cfg steps)
  unfold drawn
  rw [tension_eq hb, points_eq, bind_of_ok rfl, bind_of_ok rfl]
  rcases averagedBy_shared hcases cfg.snapLast data with
    ⟨hzero, heq⟩ | ⟨htwo, share, -, -, hshare, averaged, hema, heq⟩
  · rw [heq, if_pos hzero]
    rfl
  · have hne : pointsOf cfg q (targetWindow cfg steps) ≠ 0 := by omega
    rw [heq, if_neg hne, Exact.ofInt?_eq, ← Exact.whole_eq, bind_of_ok rfl, hshare, bind_of_ok hema]
    rfl

variable {cfg : SmoothingConfig Exact} {window : Json} {zoom : ZoomConfig}

/-- The curve for a window that is some steps above the shortest one. -/
theorem smooth_number {labels : List Exact} {b q : ℚ} {steps : Int} (henabled : cfg.enabled = true)
    (hb : cfg.zoomBoost = number b) (hq : intervalOf labels cfg.medianPoints = number q)
    (hsteps : Zoom.stepCount Exact window zoom = .ok steps) (data : List Exact) :
    smooth (data.map .ok) (labels.map .ok) cfg window zoom =
      .ok ⟨averagedBy (pointsOf cfg q (targetWindow cfg steps)) cfg.snapLast data,
        tensionOf cfg b (number q) steps, some cfg.mode⟩ := by
  rw [smooth_eq henabled, hsteps, hq, bind_of_ok rfl, drawn_eq hb]

/-- All values are averaged over the samples that the labels and the steps ask for. -/
theorem smooth_averaged (henabled : cfg.enabled = true) (hboost : isFinite cfg.zoomBoost = true)
    (hwindow : window.InRange) (hzoom : zoom.AllExact) (labels : List Exact) :
    ∃ q steps n, intervalOf labels cfg.medianPoints = number q ∧ Zoom.stepCount Exact window zoom = .ok steps ∧
      points cfg (number q) steps = .ok n ∧ (n = 0 ∨ 2 ≤ n) ∧
      ∃ t, ∀ data, smooth (data.map .ok) (labels.map .ok) cfg window zoom =
        .ok ⟨averagedBy n cfg.snapLast data, t, some cfg.mode⟩ := by
  obtain ⟨w, hw⟩ := Zoom.exists_whole hwindow
  obtain ⟨q, -, hq⟩ := intervalOf_number labels cfg.medianPoints
  obtain ⟨b, hb⟩ := Exact.exists_number hboost
  have hsteps := Zoom.stepCount_eq hzoom hw
  exact ⟨q, _, _, hq, hsteps, points_eq cfg q _, pointsOf_cases cfg q _, _, smooth_number henabled hb hq hsteps⟩

/-- **Smoothing stays inside the values and starts anew after a gap.** In exact numbers every curve is drawn: it
has a number where the values have one, between the least and the largest since the last gap; a finite last
point can stay as it was measured; the share of a new value in an average is at most two thirds. What comes
after a gap depends on nothing before it but the median time between samples. -/
theorem smooth_inside (henabled : cfg.enabled = true) (hboost : isFinite cfg.zoomBoost = true)
    (hwindow : window.InRange) (hzoom : zoom.AllExact) (data labels : List Exact) :
    ∃ s interval steps n, smooth (data.map .ok) (labels.map .ok) cfg window zoom = .ok s ∧
      medianInterval (labels.map .ok) (.ok cfg.medianPoints) = .ok interval ∧
      Zoom.stepCount Exact window zoom = .ok steps ∧ points cfg interval steps = .ok n ∧
      Inside data s.data ∧
      (cfg.snapLast = true → ∀ q, data.getLast? = some (number q) → s.data.getLast? = some (number q)) ∧
      (n = 0 ∧ s.data = data ∨
        2 ≤ n ∧ ∃ share : ℚ, 0 < share ∧ share ≤ 2 / 3 ∧ whole 2 / whole (n + 1) = number share ∧
          ∃ averaged, ema (.ofShare (number share)) (data.map .ok) = .ok averaged ∧
            s.data = if cfg.snapLast then snapLast data averaged else averaged) ∧
      ∀ before g after, data = before ++ g :: after → isFinite g = false →
        ∀ (before' : List Exact) g' (labels' : List Exact), isFinite g' = false →
          medianInterval (labels'.map .ok) (.ok cfg.medianPoints) = .ok interval →
            ∃ s', smooth ((before' ++ g' :: after).map .ok) (labels'.map .ok) cfg window zoom = .ok s' ∧
              s'.data.drop (before'.length + 1) = s.data.drop (before.length + 1) := by
  obtain ⟨q, steps, n, hq, hsteps, hn, hcases, t, hsmooth⟩ := smooth_averaged henabled hboost hwindow hzoom labels
  have hinterval : medianInterval (labels.map .ok) (.ok cfg.medianPoints) = .ok (number q) := by
    rw [medianInterval_readable, hq]
  refine ⟨_, _, _, _, hsmooth data, hinterval, hsteps, hn, inside_averagedBy hcases _ data,
    fun hsnap v hv => hsnap ▸ getLast?_averagedBy hv n, averagedBy_shared hcases _ data, ?_⟩
  rintro before g after rfl hg before' g' labels' hg' hinterval'
  obtain ⟨q', steps', n', hq', hsteps', hn', -, t', hsmooth'⟩ :=
    smooth_averaged henabled hboost hwindow hzoom labels'
  -- the same time between samples asks for the same number of them
  rw [medianInterval_readable, hq'] at hinterval'
  cases hinterval'
  cases hsteps.symm.trans hsteps'
  cases hn.symm.trans hn'
  exact ⟨_, hsmooth' _, by rw [averagedBy_gap hg', averagedBy_gap hg]⟩

/-! ## Labels before a gap -/

/-- An average over 40 milliseconds, whatever the zoom. -/
def briefly : SmoothingConfig Exact where
  enabled := true
  fastInterval := 6000
  mediumInterval := 12000
  tensionFast := number (9 / 20)
  tensionMedium := number (9 / 50)
  tensionSlow := number 0
  mode := "monotone"
  medianPoints := 60
  zoomBoost := number 0
  windowMin := 40
  windowMax := 40
  windowPerStep := 0
  minPoints := 2
  maxPoints := 120
  snapLast := false

/-- Two values after a gap. -/
def twoAfterGap : List Exact := [number 0, number 0, .gap, number 0, number 10]

/-- A sample every ten milliseconds. -/
def evenLabels : List Exact := [number 0, number 10, number 20, number 30, number 40]

/-- The same from the gap on, with the samples before it closer together. -/
def crowdedLabels : List Exact := [number 18, number 19, number 20, number 30, number 40]

theorem median_of_sorted {steps : List Exact} (h : steps.Pairwise fun c d => le c d = true) :
    median steps =
      if steps.length % 2 = 1 then steps.getD (steps.length / 2) zero
      else (steps.getD (steps.length / 2 - 1) zero + steps.getD (steps.length / 2) zero) / whole 2 := by
  unfold median
  rw [List.mergeSort_of_pairwise h]

theorem intervalOf_even : intervalOf evenLabels 60 = number 10 := by
  have hsteps : (gaps evenLabels).filter (fun d => isFinite d && lt zero d) =
      [number 10, number 10, number 10, number 10] := by decide +kernel
  show medianGap evenLabels = number 10
  rw [medianGap, hsteps, median_of_sorted (by decide +kernel)]
  decide +kernel

theorem intervalOf_crowded : intervalOf crowdedLabels 60 = number (11 / 2) := by
  have hsteps : (gaps crowdedLabels).filter (fun d => isFinite d && lt zero d) =
      [number 1, number 1, number 10, number 10] := by decide +kernel
  show medianGap crowdedLabels = number (11 / 2)
  rw [medianGap, hsteps, median_of_sorted (by decide +kernel)]
  decide +kernel

theorem smooth_of_interval {labels : List Exact} {q : ℚ} {n : Int}
    (hq : intervalOf labels briefly.medianPoints = number q) (hn : pointsOf briefly q 40 = n) (data : List Exact) :
    ∃ t, smooth (data.map .ok) (labels.map .ok) briefly (.int 3600000) {} =
      .ok ⟨averagedBy n false data, t, some "monotone"⟩ := by
  have hwindow : (Json.int 3600000).InRange := Json.inRange_int (by decide)
  obtain ⟨q', steps, n', hq', -, hn', -, t, hsmooth⟩ :=
    smooth_averaged (rfl : briefly.enabled = true) rfl hwindow (by decide : ({} : ZoomConfig).AllExact) labels
  cases hq.symm.trans hq'
  have htarget : targetWindow briefly steps = 40 := by
    show min (max (40 + steps * 0) 40) 40 = 40
    omega
  rw [points_eq, htarget, hn] at hn'
  cases hn'
  exact ⟨t, hsmooth data⟩

theorem smooth_inside_of_gap :
    briefly.enabled = true ∧ isFinite briefly.zoomBoost = true ∧ (Json.int 3600000).InRange ∧
    ({} : ZoomConfig).AllExact ∧
    ∃ s, smooth (twoAfterGap.map .ok) (evenLabels.map .ok) briefly (.int 3600000) {} = .ok s ∧
      Inside twoAfterGap s.data ∧ s.data = [number 0, number 0, .gap, number 0, number 4] ∧
      ∃ s', smooth ([number 7, .gap, number 0, number 10].map .ok) (evenLabels.map .ok) briefly (.int 3600000) {} =
        .ok s' ∧ s'.data.drop 2 = [number 0, number 4] := by
  have hwindow : (Json.int 3600000).InRange := Json.inRange_int (by decide)
  obtain ⟨s, interval, steps, n, hs, hinterval, -, -, hinside, -, -, hgap⟩ :=
    smooth_inside (rfl : briefly.enabled = true) rfl hwindow (by decide : ({} : ZoomConfig).AllExact) twoAfterGap
      evenLabels
  obtain ⟨t, hdrawn⟩ := smooth_of_interval intervalOf_even (n := 4) (by decide +kernel) twoAfterGap
  have hdata : s.data = [number 0, number 0, .gap, number 0, number 4] := by
    cases hs.symm.trans hdrawn
    show averagedBy 4 false twoAfterGap = _
    decide +kernel
  obtain ⟨s', hs', hdrop⟩ := hgap [number 0, number 0] .gap [number 0, number 10] rfl rfl [number 7] .gap
    evenLabels rfl hinterval
  refine ⟨rfl, rfl, hwindow, by decide, s, hs, hinside, hdata, s', hs', ?_⟩
  rw [hdata] at hdrop
  exact hdrop

/-- What is drawn after a gap is not apart from what is before it: labels before it have a part in the time
between samples. -/
theorem not_smooth_apart_from_earlier_labels :
    ¬ ∀ (cfg : SmoothingConfig Exact) (window : Json) (zoom : ZoomConfig)
      (before before' after labels labels' : List Exact) (g g' : Exact),
      cfg.enabled = true → isFinite cfg.zoomBoost = true → window.InRange → zoom.AllExact →
      labels.length = (before ++ g :: after).length → labels'.length = (before' ++ g' :: after).length →
      isFinite g = false → isFinite g' = false →
      labels.drop before.length = labels'.drop before'.length →
      ∃ s s', smooth ((before ++ g :: after).map .ok) (labels.map .ok) cfg window zoom = .ok s ∧
        smooth ((before' ++ g' :: after).map .ok) (labels'.map .ok) cfg window zoom = .ok s' ∧
        s'.data.drop (before'.length + 1) = s.data.drop (before.length + 1) := by
  intro h
  have hwindow : (Json.int 3600000).InRange := Json.inRange_int (by decide)
  obtain ⟨s, s', hs, hs', hdrop⟩ := h briefly (.int 3600000) {} [number 0, number 0] [number 0, number 0]
    [number 0, number 10] evenLabels crowdedLabels .gap .gap rfl rfl hwindow (by decide) rfl rfl rfl rfl rfl
  obtain ⟨t, heven⟩ := smooth_of_interval intervalOf_even (n := 4) (by decide +kernel) twoAfterGap
  obtain ⟨t', hcrowded⟩ := smooth_of_interval intervalOf_crowded (n := 7) (by decide +kernel) twoAfterGap
  cases hs.symm.trans heven
  cases hs'.symm.trans hcrowded
  -- 5/2 after the gap in the one, and 4 in the other
  have hne : (averagedBy 7 false twoAfterGap).drop 3 ≠ (averagedBy 4 false twoAfterGap).drop 3 := by
    decide +kernel
  exact hne hdrop

end Smoothing

end HashrateChart
