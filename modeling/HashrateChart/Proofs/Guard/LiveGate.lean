/-
What a live hashrate keeps out, and that it keeps no value out for ever.

A value that differs from the value before has passed the gate, and what passes is
within the width of the gate: a fifth of the value before decides between the two
widths. A value within the narrow width passes whatever the value before is. So when
it comes again and again it is only held back to be confirmed, and every call counts:
after `n` calls the channel gives that value, or it has counted nearly `n` steps
towards it (`Nears`), which is enough once `n` is the number that is needed.
-/
import HashrateChart.Proofs.Action
import HashrateChart.Proofs.Guard.Confirmation

namespace HashrateChart

open Arithmetic (Raw)

namespace Binary64

theorem isNaN_round (s : Bool) (n d : Nat) : (round s n d).isNaN = false := by
  unfold round
  cases Magnitude.ofRatio? n d <;> rfl

theorem isNaN_sub {x y : Binary64} (hx : x.isFinite = true) (hy : y.isFinite = true) :
    (x - y).isNaN = false := by
  cases x with
  | nan => cases hx
  | infinite s => cases hx
  | finite s a =>
    cases y with
    | nan => cases hy
    | infinite t => cases hy
    | finite t b =>
      show (add (.finite s a) (.finite (!t) b)).isNaN = false
      unfold add
      dsimp only
      split
      · rfl
      · exact isNaN_round _ _ _

end Binary64

namespace Guard

/-- How far a finite value is from a live hashrate is always defined. -/
theorem isNaN_relative {x live : Binary64} (hx : x.isFinite = true) (hl : live.isPositive = true) :
    (relative x live).isNaN = false := by
  have hsub := Binary64.isNaN_sub hx (Binary64.isFinite_of_isPositive hl)
  cases live with
  | nan => cases hl
  | infinite s => cases hl
  | finite s b =>
    have hb : b.units ≠ 0 := by
      unfold Binary64.isPositive at hl
      exact of_decide_eq_true (Bool.and_eq_true_iff.mp hl).2
    show (Binary64.div (x - Binary64.finite s b).abs (Binary64.finite s b)).isNaN = false
    cases hd : x - Binary64.finite s b with
    | nan =>
      rw [hd] at hsub
      cases hsub
    | infinite t => rfl
    | finite t a =>
      simp only [Binary64.abs, Binary64.div, if_neg hb]
      exact Binary64.isNaN_round _ _ _

/-! ## The width of the gate -/

variable {t : Tuning} {m : Memory} {c : Channel} {live : Json} {l v prev : Binary64}

theorem gateWidth_eq (l prev : Binary64) : gateWidth l prev = 0.80 ∨ gateWidth l prev = 0.25 := by
  unfold gateWidth
  dsimp only
  generalize (if (0 : Binary64).lt prev then relative l prev else 0) = jump
  split
  · exact .inl rfl
  · exact .inr rfl

/-- The gate is narrow unless the live hashrate has jumped away from a positive value. -/
theorem gateWidth_of_near (h : prev.le 0 = true ∨ (relative l prev).le 0.20 = true) :
    gateWidth l prev = 0.25 := by
  have hzero : (0.20 : Binary64).lt 0 = false := by decide +kernel
  have hjump : (0.20 : Binary64).lt (if (0 : Binary64).lt prev then relative l prev else 0) = false := by
    rcases h with h | h
    · rw [Binary64.not_lt_of_le h, if_neg Bool.false_ne_true, hzero]
    · split
      · exact Binary64.not_lt_of_le h
      · exact hzero
  unfold gateWidth
  dsimp only
  rw [hjump]
  rfl

theorem narrow_le_wide : (0.25 : Binary64).le 0.80 = true := by decide +kernel

/-- What is not beyond the gate is within the wide width, and within the narrow one when that is the
width. -/
theorem within_of_gateWidth {far : Binary64} (hfar : far.isNaN = false)
    (h : (gateWidth l prev).lt far = false) :
    far.le 0.80 = true ∧
      (prev.le 0 = true ∨ (relative l prev).le 0.20 = true → far.le 0.25 = true) := by
  have hwide : (0.80 : Binary64).isNaN = false := by decide +kernel
  have hnarrow : (0.25 : Binary64).isNaN = false := by decide +kernel
  refine ⟨?_, fun hnear => ?_⟩
  · rcases gateWidth_eq l prev with hw | hw
    · exact Binary64.le_of_not_lt hwide hfar (hw ▸ h)
    · exact Binary64.le_trans (Binary64.le_of_not_lt hnarrow hfar (hw ▸ h)) narrow_le_wide
  · exact Binary64.le_of_not_lt hnarrow hfar (gateWidth_of_near hnear ▸ h)

/-- What is within the narrow width passes whatever the value before is. -/
theorem not_beyond_gate {far : Binary64} (h : far.le 0.25 = true) : (gateWidth l prev).lt far = false := by
  rcases gateWidth_eq l prev with hw | hw
  · rw [hw]
    exact Binary64.not_lt_of_le (Binary64.le_trans h narrow_le_wide)
  · rw [hw]
    exact Binary64.not_lt_of_le h

/-! ## What passes -/

theorem observe_of_live (hc : c.isHashrate = true) (hl : live.reading = .ok l) (hpos : l.isPositive = true)
    {valid : Bool} (hv : isValid t c v = .ok valid) :
    observe t m c v live = .ok ⟨valid, if valid then v else fallback m, some l⟩ := by
  rw [observe_ok hv fun _ => ⟨l, hl⟩, liveFor_of_reading hc hl hpos]

theorem not_beyond_of_pass {s : Sample} {stable : Result Bool} (hs : s.live = some l)
    (h : gate t stable s prev = .ok .pass) : (gateWidth l prev).lt (relative s.candidate l) = false := by
  unfold gate at h
  rw [hs] at h
  dsimp only at h
  split at h
  · simp only [bind, Except.bind] at h
    split at h
    · cases h
    · split at h
      · cases h
      · simp only [pure, Except.pure, Except.ok.injEq] at h
        split at h <;> cases h
  · next hlt => exact Bool.eq_false_iff.mpr hlt

/-- A new value is a valid sample within the gate. -/
theorem within_of_filter (hc : c.isHashrate = true) (hl : live.reading = .ok l) (hpos : l.isPositive = true)
    {stable : Result Bool} {x out : Binary64} {threshold : Raw Number} {confirm : Option Json}
    (hp : m.prev = some prev) (hout : (m.filter t stable c x threshold live confirm).1 = .ok out)
    (hne : out ≠ prev) :
    (relative out l).le 0.80 = true ∧
      (prev.le 0 = true ∨ (relative l prev).le 0.20 = true → (relative out l).le 0.25 = true) := by
  rcases m.filter_cases t stable c x threshold live confirm with ⟨e, he, -⟩ | ⟨w, hw, -, hnew⟩
  · cases he.symm.trans hout
  · obtain rfl : w = out := Except.ok.inj (hw.symm.trans hout)
    obtain ⟨s, hobserve, hgate, hvalid, rfl⟩ := hnew prev hp hne
    cases hv : isValid t c x with
    | error e =>
      unfold observe at hobserve
      rw [hv] at hobserve
      cases hobserve
    | ok valid =>
      rw [observe_of_live hc hl hpos hv] at hobserve
      cases hobserve
      obtain rfl : valid = true := hvalid
      exact within_of_gateWidth (isNaN_relative (isFinite_of_isValid hv) hpos) (not_beyond_of_pass rfl hgate)

/-! ## The same value again and again -/

/-- A channel gives a value, or it has counted nearly so many steps towards it. -/
def Nears (v : Binary64) (n : Nat) (m : Memory) : Prop :=
  match m.prev with
  | none => n = 0
  | some prev => prev = v ∨ n ≤ m.counted (heading v prev) + 1

theorem Nears.of_prev {n : Nat} (h : m.prev = some v) : Nears v n m := by
  unfold Nears
  rw [h]
  exact .inl rfl

theorem Nears.zero (v : Binary64) (m : Memory) : Nears v 0 m := by
  unfold Nears
  split
  · rfl
  · exact .inr (Nat.zero_le _)

theorem Tuning.Usable.isFast (h : t.Usable) (s : Sample) (prev : Binary64) :
    ∃ fast, Guard.isFast t s prev = .ok fast := by
  obtain ⟨big, hbig⟩ := h.bigStep
  obtain ⟨tolerance, htolerance⟩ := h.liveTolerance
  unfold Guard.isFast
  rw [hbig, htolerance]
  cases s.live with
  | none => exact ⟨_, rfl⟩
  | some live =>
    simp only [bind, Except.bind]
    split <;> exact ⟨_, rfl⟩

theorem Tuning.Usable.seed (h : t.Usable) (s : Sample) : ∃ first, Guard.seed t s = .ok first := by
  obtain ⟨tolerance, htolerance⟩ := h.seedTolerance
  unfold Guard.seed
  rw [htolerance]
  cases s.live <;> exact ⟨_, rfl⟩

section Again

variable {θ : Number} {k : Int} {confirm : Option Json}

theorem one_le_needed (hk : needed t confirm = .ok k) : 1 ≤ k := by
  have hmax (count : Result Int) (h : (do return max 1 (← count)) = (.ok k : Result Int)) : 1 ≤ k := by
    cases count with
    | error e => cases h
    | ok n =>
      cases h
      exact Int.le_max_left _ _
  cases confirm with
  | none => exact hmax _ hk
  | some j => exact hmax _ hk

/-- A valid value that passes the gate is given out, or its step from the value before is counted. -/
theorem Nears.judge {s : Sample} {n : Nat} (h : Nears v n m) (ht : t.Usable) (hθ : Number.zero.le θ = true)
    (hk : needed t confirm = .ok k) (hp : m.prev = some prev) (hvalid : s.valid = true)
    (hv : s.candidate = v) (hfin : v.isFinite = true) :
    ∃ out, (m.judge t s prev (.ok θ) confirm).1 = .ok out ∧ (k ≤ n → out = v) ∧
      Nears v (n + 1) (m.judge t s prev (.ok θ) confirm).2 := by
  obtain ⟨fast, hfast⟩ := ht.isFast s prev
  rw [Memory.judge_eq hfast hk, hvalid, hv]
  cases hstep : steps s prev θ with
  | false => exact ⟨v, rfl, fun _ => rfl, .of_prev rfl⟩
  | true =>
    cases fast with
    | true => exact ⟨v, rfl, fun _ => rfl, .of_prev rfl⟩
    | false =>
      simp only [Bool.not_true, Bool.false_eq_true, if_false]
      by_cases hle : k ≤ (m.suspect (heading v prev)).count
      · rw [if_pos hle]
        exact ⟨v, rfl, fun _ => rfl, .of_prev rfl⟩
      · rw [if_neg hle]
        have hne : prev ≠ v := by
          -- a value is no step from itself
          rintro rfl
          unfold steps at hstep
          rw [hv, Bool.and_eq_true, Bool.and_eq_true] at hstep
          obtain ⟨⟨-, hpos⟩, hfar⟩ := hstep
          rw [relative_self hfin hpos, Number.not_lt_zero hθ] at hfar
          cases hfar
        have hcount : n ≤ m.counted (heading v prev) + 1 := by
          unfold Nears at h
          rw [hp] at h
          exact h.resolve_left hne
        rw [Memory.count_suspect] at hle
        refine ⟨prev, rfl, fun hn => absurd hn (by omega), .inr ?_⟩
        show n + 1 ≤ (m.suspect (heading v prev)).counted (heading v prev) + 1
        rw [Memory.counted_suspect, if_pos rfl]
        omega

/-- A call with a value that the live hashrate lets pass. -/
theorem Nears.filter {n : Nat} (h : Nears v n m) (ht : t.Usable) (hθ : Number.zero.le θ = true)
    (hk : needed t confirm = .ok k) (hc : c.isHashrate = true) (hl : live.reading = .ok l)
    (hpos : l.isPositive = true) (hv : isValid t c v = .ok true) (hnear : (relative v l).le 0.25 = true)
    (stable : Result Bool) :
    ∃ out, (m.filter t stable c v (.ok θ) live confirm).1 = .ok out ∧ (k ≤ n → out = v) ∧
      Nears v (n + 1) (m.filter t stable c v (.ok θ) live confirm).2 := by
  have hone := one_le_needed hk
  unfold Memory.filter
  rw [observe_of_live hc hl hpos hv]
  dsimp only
  cases hp : m.prev with
  | none =>
    have hzero : n = 0 := by
      unfold Nears at h
      rw [hp] at h
      exact h
    obtain ⟨first, hfirst⟩ := ht.seed ⟨true, v, some l⟩
    dsimp only
    rw [if_pos rfl, hfirst]
    refine ⟨first, rfl, fun hn => absurd hn (by omega), .inr ?_⟩
    omega
  | some prev =>
    have hgate : gate t stable ⟨true, v, some l⟩ prev = .ok .pass := by
      unfold gate
      dsimp only
      rw [not_beyond_gate hnear]
      rfl
    dsimp only
    rw [if_pos rfl, hgate]
    exact h.judge ht hθ hk hp rfl rfl (isFinite_of_isValid hv)

/-- After so many calls with a value a channel gives it, or nearly. -/
theorem nears_replicate {g : Guard} {value : Json} (ht : g.tuning.Usable) (hx : value.reading = .ok v)
    (hθ : Number.zero.le θ = true) (hk : needed g.tuning confirm = .ok k) (hc : c.isHashrate = true)
    (hl : live.reading = .ok l) (hpos : l.isPositive = true) (hv : isValid g.tuning c v = .ok true)
    (hnear : (relative v l).le 0.25 = true) (n : Nat) :
    let q := g.afterAll (.replicate n (.sample c value (.ok θ) live confirm))
    q.tuning = g.tuning ∧ Nears v n (q.memory.get c) := by
  induction n with
  | zero => exact ⟨rfl, .zero v _⟩
  | succ n ih =>
    obtain ⟨htuning, hn⟩ := ih
    dsimp only at htuning hn ⊢
    rw [List.replicate_succ', afterAll_concat]
    generalize g.afterAll (.replicate n (.sample c value (.ok θ) live confirm)) = q at htuning hn
    rw [after, tuning_filterValue, filterValue_of_reading hx]
    refine ⟨htuning, ?_⟩
    dsimp only
    rw [PerChannel.get_set_self, htuning]
    exact (hn.filter ht hθ hk hc hl hpos hv hnear q.isLiveStable).choose_spec.2.2

end Again

/-- **The live gate is safe, and it locks nothing out.** After any run of the filter, whatever settings
were changed in it, let a hashrate come with a positive live hashrate. If another value is given than
the one before, it is within 0.80 of the live one, and within 0.25 when the value before is not
positive or within 0.20 of the live one. And a valid value within 0.25 of the live one, with a
threshold that is not negative, is given out from the call on that comes after as many such calls as
confirm a step, as long as the settings can be read. -/
theorem live_gate_of_run (cfg : GuardConfig) (calls : List Call) (hc : c.isHashrate = true)
    (hl : live.reading = .ok l) (hpos : l.isPositive = true) :
    let g := (new cfg).afterAll calls
    (∀ last past value threshold confirm out, (new cfg).logAfter c [] calls = last :: past →
      (g.filterValue c value threshold live confirm).1 = .ok out → out ≠ last.given →
      (relative out l).le 0.80 = true ∧
        (last.given.le 0 = true ∨ (relative l last.given).le 0.20 = true →
          (relative out l).le 0.25 = true)) ∧
    (∀ value v θ confirm k, g.tuning.Usable → value.reading = .ok v → isValid g.tuning c v = .ok true →
      (relative v l).le 0.25 = true → Number.zero.le θ = true → needed g.tuning confirm = .ok k →
      ∀ n : Nat, ∃ out,
        ((g.afterAll (.replicate n (.sample c value (.ok θ) live confirm))).filterValue c value (.ok θ)
          live confirm).1 = .ok out ∧ (k ≤ n → out = v)) := by
  intro g
  refine ⟨fun last past value threshold confirm out hlog hout hne => ?_,
    fun value v θ confirm k ht hx hv hnear hθ hk n => ?_⟩
  · have hnew : ((new cfg).memory.get c).prev = ([] : List Answer).head?.map Answer.given := by simp [new]
    have hp : (g.memory.get c).prev = some last.given := by
      rw [prev_eq_given c hnew calls, hlog]
      rfl
    cases hx : value.reading with
    | error e =>
      rw [filterValue, hx] at hout
      cases hout
    | ok x =>
      rw [filterValue_of_reading hx] at hout
      exact within_of_filter hc hl hpos hp hout hne
  · obtain ⟨htuning, hn⟩ := nears_replicate ht hx hθ hk hc hl hpos hv hnear n
    rw [filterValue_of_reading hx, htuning]
    obtain ⟨out, hout, hgives, -⟩ := hn.filter ht hθ hk hc hl hpos hv hnear
      (g.afterAll (.replicate n (.sample c value (.ok θ) live confirm))).isLiveStable
    exact ⟨out, hout, hgives⟩

/-- A hashrate of 100 and then one of 110, with a live hashrate of 120: a large threshold lets it pass
at once, and a small one at the second call after the first. -/
theorem live_gate_of_two_values :
    let calls : List Call := [.sample .hashrate1m (.real 100) (.ok (.real 0.01)) .null none]
    let g := (new {}).afterAll calls
    (new {}).logAfter .hashrate1m [] calls = [⟨100, 100⟩] ∧
    (g.filterValue .hashrate1m (.real 110) (.ok (.real 0.5)) (.real 120) none).1 = .ok 110 ∧
    (110 : Binary64) ≠ 100 ∧ (relative 110 120).le 0.80 = true ∧ (relative 110 120).le 0.25 = true ∧
    ((g.afterAll (.replicate 2 (.sample .hashrate1m (.real 110) (.ok (.real 0.01)) (.real 120)
      none))).filterValue .hashrate1m (.real 110) (.ok (.real 0.01)) (.real 120) none).1 = .ok 110 := by
  intro calls g
  have hpos : (120 : Binary64).isPositive = true := by decide +kernel
  have hlog : (new {}).logAfter .hashrate1m [] calls = [⟨100, 100⟩] := by decide +kernel
  have hout : (g.filterValue .hashrate1m (.real 110) (.ok (.real 0.5)) (.real 120) none).1 = .ok 110 :=
    ok_of_toOption (by decide +kernel)
  have hne : (110 : Binary64) ≠ 100 := by decide +kernel
  have htuning : g.tuning = .ofConfig {} := by
    show ((new {}).filterValue .hashrate1m (.real 100) (.ok (.real 0.01)) .null none).2.tuning = _
    rw [tuning_filterValue]
    rfl
  have hvalid : isValid g.tuning .hashrate1m 110 = .ok true := by
    have hrange : inRange {} .hashrate1m 110 = true := by decide +kernel
    rw [htuning, isValid_ofConfig, hrange]
  have hnear : (relative 110 120).le 0.25 = true := by decide +kernel
  have hk : needed g.tuning none = .ok 2 := by
    rw [htuning]
    rfl
  have hread : (Json.real 120).reading = .ok 120 := rfl
  have hhash : Channel.hashrate1m.isHashrate = true := rfl
  obtain ⟨hsafe, hsettles⟩ := live_gate_of_run {} calls hhash hread hpos
  obtain ⟨hwide, -⟩ := hsafe _ _ _ _ _ _ hlog hout hne
  obtain ⟨out, hgiven, hsame⟩ := hsettles (.real 110) 110 (.real 0.01) none 2
    (htuning ▸ Tuning.usable_ofConfig {}) rfl hvalid hnear (by decide +kernel) hk 2
  refine ⟨hlog, hout, hne, hwide, hnear, ?_⟩
  rw [hgiven, hsame (Int.le_refl 2)]

end Guard

end HashrateChart
