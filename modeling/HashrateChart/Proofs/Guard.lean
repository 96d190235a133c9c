/-
The outlier filter of a chart whose settings are those of its configuration:
no setting can fail, so a sample always gives a value.

What becomes of a sample that the live hashrate lets pass is said for all settings
that can be read (`Memory.judge_eq`). `Memory.step` is the filter with those of a
configuration, and `sample_ofConfig` says that it is the one that runs. What a step can
give is little: the first value of a channel, the value before again, or the sample
itself when it is a valid one (`Memory.step_cases`); and what it gives it remembers
(`Memory.step_remembers`). So whatever comes, only finite values are remembered and
given out.
-/
import HashrateChart.Guard
import HashrateChart.Proofs.Binary64.Order

namespace HashrateChart

theorem Binary64.isFinite_of_isPositive {x : Binary64} (h : x.isPositive = true) : x.isFinite = true := by
  cases x with
  | nan => cases h
  | infinite s => cases h
  | finite s m => rfl

namespace Guard

variable {cfg : GuardConfig} {c : Channel} {x prev threshold : Binary64} {m : Memory} {s : Sample}
  {stable : Bool} {live : Option Binary64} {confirm : Option Int}

/-! ## Settings that can be read -/

/-- Where a sample steps to from a value. -/
def heading (x prev : Binary64) : Direction := if (0 : Binary64).le (x - prev) then .up else .down

/-- Whether a sample steps too far from the value before. -/
def steps (s : Sample) (prev : Binary64) (θ : Number) : Bool :=
  s.valid && (0 : Binary64).lt prev && θ.lt (.real (relative s.candidate prev))

section Readable

variable {t : Tuning} {θ : Number} {k : Int} {confirm : Option Json}

theorem isSuspicious_eq : isSuspicious s prev (.ok θ) = .ok (steps s prev θ) := by
  unfold isSuspicious steps
  split
  · next h => rw [h]; rfl
  · next h => rw [Bool.eq_false_iff.mpr h]; rfl

/-- What becomes of a sample that the live hashrate lets pass. -/
theorem Memory.judge_eq {fast : Bool} (hfast : isFast t s prev = .ok fast) (hk : needed t confirm = .ok k) :
    m.judge t s prev (.ok θ) confirm =
      if !steps s prev θ then m.clearSuspect.accept (if s.valid then s.candidate else prev)
      else if fast then m.clearSuspect.accept s.candidate
      else if k ≤ (m.suspect (heading s.candidate prev)).count then
        (m.suspect (heading s.candidate prev)).clearSuspect.accept s.candidate
      else (m.suspect (heading s.candidate prev)).accept prev := by
  unfold judge
  rw [isSuspicious_eq]
  cases steps s prev θ with
  | false => rfl
  | true =>
    dsimp only
    rw [hfast]
    cases fast with
    | true => rfl
    | false =>
      unfold confirmStep
      rw [hk]
      rfl

end Readable

/-! ## Checked settings -/

/-- Whether a value is in the range of its channel. -/
def inRange (cfg : GuardConfig) (c : Channel) (x : Binary64) : Bool :=
  x.isFinite && cfg.minValid.lt x && (c.isHashrate || x.lt cfg.tempCeiling)

theorem isFinite_of_inRange (h : inRange cfg c x = true) : x.isFinite = true := by
  unfold inRange at h
  simp only [Bool.and_eq_true] at h
  exact h.1.1

theorem isValid_ofConfig : isValid (.ofConfig cfg) c x = .ok (inRange cfg c x) := by
  unfold isValid inRange Channel.isHashrate Tuning.ofConfig
  cases x.isFinite with
  | false => rfl
  | true =>
    simp only [Bool.not_true, Bool.false_eq_true, if_false, bind, Except.bind, Number.lt_real]
    cases cfg.minValid.lt x with
    | false => rfl
    | true => cases c.isTemperature <;> simp [pure, Except.pure]

/-- A sample as the filter sees it. -/
def seen (cfg : GuardConfig) (m : Memory) (c : Channel) (x : Binary64) (live : Option Binary64) :
    Sample where
  valid := inRange cfg c x
  candidate := if inRange cfg c x then x else fallback m
  live := if c.isHashrate then live.filter Binary64.isPositive else none

theorem seen_candidate (h : (seen cfg m c x live).valid = true) :
    (seen cfg m c x live).candidate = x := if_pos h

theorem observe_ofConfig :
    observe (.ofConfig cfg) m c x (live.elim .null .real) = .ok (seen cfg m c x live) := by
  unfold observe seen
  rw [isValid_ofConfig]
  cases c.isHashrate with
  | false => rfl
  | true =>
    cases live with
    | none => rfl
    | some l =>
      have hread : (Json.real l).reading = .ok l := rfl
      simp only [if_true, Option.elim_some, hread, bind, Except.bind, pure, Except.pure, Option.filter]

/-- The first value of a channel: the sample, unless the live hashrate is far from it. -/
def firstValue (cfg : GuardConfig) (s : Sample) : Binary64 :=
  match s.live with
  | none => s.candidate
  | some live =>
    if !s.valid || (Arithmetic.larger 0.05 cfg.liveTolerance * 2).lt (relative s.candidate live) then live
    else s.candidate

theorem seed_ofConfig : seed (.ofConfig cfg) s = .ok (firstValue cfg s) := by
  unfold seed firstValue
  cases s.live <;> rfl

/-- Whether a valid sample is a big step from a positive value. -/
def isLeap (cfg : GuardConfig) (s : Sample) (prev : Binary64) : Bool :=
  s.valid && (0 : Binary64).lt prev && cfg.bigStep.le (relative s.candidate prev)

theorem isBigStep_ofConfig : isBigStep (.ofConfig cfg) s prev = .ok (isLeap cfg s prev) := by
  unfold isBigStep isLeap
  split
  · next h =>
    simp only [h, Bool.true_and]
    exact congrArg Except.ok (Number.le_real _ _)
  · next h => simp [Bool.eq_false_iff.mpr h]; rfl

/-- What the live hashrate says about a sample. -/
def gateOf (cfg : GuardConfig) (stable : Bool) (s : Sample) (prev : Binary64) : Gate :=
  match s.live with
  | none => .pass
  | some live =>
    if (gateWidth live prev).lt (relative s.candidate live) then
      if stable && !isLeap cfg s prev then .again else .hold
    else .pass

theorem gate_ofConfig : gate (.ofConfig cfg) (.ok stable) s prev = .ok (gateOf cfg stable s prev) := by
  unfold gate gateOf
  cases s.live with
  | none => rfl
  | some live =>
    simp only [isBigStep_ofConfig]
    split <;> rfl

/-- Whether a sample steps too far from the value before. -/
def isJump (s : Sample) (prev threshold : Binary64) : Bool :=
  s.valid && (0 : Binary64).lt prev && threshold.lt (relative s.candidate prev)

theorem steps_real : steps s prev (.real threshold) = isJump s prev threshold :=
  congrArg (s.valid && (0 : Binary64).lt prev && ·) (Number.lt_real _ _)

/-- Whether a sample is a big step that leads to the live hashrate. -/
def leadsToLive (cfg : GuardConfig) (s : Sample) (prev : Binary64) : Bool :=
  match s.live with
  | none => false
  | some live =>
    cfg.bigStep.le (relative s.candidate prev) && (relative s.candidate live).le cfg.liveTolerance

theorem isFast_ofConfig : isFast (.ofConfig cfg) s prev = .ok (leadsToLive cfg s prev) := by
  unfold isFast leadsToLive
  cases s.live with
  | none => rfl
  | some live =>
    simp only [Tuning.ofConfig, bind, Except.bind, Number.le_real]
    split
    · next h => simp [h]; rfl
    · next h => simp [h]; rfl

/-- How many suspicious samples in a row confirm a step. -/
def confirmations (cfg : GuardConfig) (confirm : Option Int) : Int :=
  max 1 (confirm.getD cfg.confirmSamples)

theorem needed_ofConfig :
    needed (.ofConfig cfg) (confirm.map .int) = .ok (confirmations cfg confirm) := by
  cases confirm <;> rfl

/-! ## One sample -/

namespace Memory

/-- The value that is given out and remembered. -/
def give (m : Memory) (v : Binary64) : Binary64 × Memory := (v, (m.accept v).2)

/-- Where a sample steps to. -/
def directionOf (s : Sample) (prev : Binary64) : Direction :=
  if (0 : Binary64).le (s.candidate - prev) then .up else .down

/-- What the filter gives for a sample after a value of the channel, and what it remembers then. -/
def stepFrom (cfg : GuardConfig) (stable : Bool) (m : Memory) (s : Sample) (prev threshold : Binary64)
    (confirm : Option Int) : Binary64 × Memory :=
  match gateOf cfg stable s prev with
  | .again => m.give prev
  | .hold => (prev, m)
  | .pass =>
    if !isJump s prev threshold then m.clearSuspect.give (if s.valid then s.candidate else prev)
    else if leadsToLive cfg s prev then m.clearSuspect.give s.candidate
    else
      let m := m.suspect (directionOf s prev)
      if confirmations cfg confirm ≤ m.count then m.clearSuspect.give s.candidate else m.give prev

/-- What the filter gives for a sample, and what it remembers then. -/
def step (cfg : GuardConfig) (stable : Bool) (m : Memory) (s : Sample) (threshold : Binary64)
    (confirm : Option Int) : Binary64 × Memory :=
  match m.prev with
  | none => m.give (firstValue cfg s)
  | some prev => m.stepFrom cfg stable s prev threshold confirm

theorem step_of_none (h : m.prev = none) :
    m.step cfg stable s threshold confirm = m.give (firstValue cfg s) := by unfold step; rw [h]

theorem step_of_some (h : m.prev = some prev) :
    m.step cfg stable s threshold confirm = m.stepFrom cfg stable s prev threshold confirm := by
  unfold step; rw [h]

theorem filter_ofConfig :
    m.filter (.ofConfig cfg) (.ok stable) c x (.ok (.real threshold)) (live.elim .null .real)
        (confirm.map .int) =
      (.ok (m.step cfg stable (seen cfg m c x live) threshold confirm).1,
        (m.step cfg stable (seen cfg m c x live) threshold confirm).2) := by
  unfold filter
  rw [observe_ofConfig]
  generalize seen cfg m c x live = s
  dsimp only
  cases hp : m.prev with
  | none =>
    rw [step_of_none hp]
    dsimp only
    rw [seed_ofConfig]
    rfl
  | some prev =>
    rw [step_of_some hp, stepFrom]
    dsimp only
    rw [gate_ofConfig]
    cases gateOf cfg stable s prev with
    | again => rfl
    | hold => rfl
    | pass =>
      dsimp only
      rw [judge_eq isFast_ofConfig needed_ofConfig, steps_real]
      cases isJump s prev threshold with
      | false => rfl
      | true =>
        cases leadsToLive cfg s prev with
        | true => rfl
        | false =>
          simp only [Bool.not_true, Bool.false_eq_true, if_false]
          show (if confirmations cfg confirm ≤ (m.suspect (directionOf s prev)).count then _ else _) = _
          split <;> rfl

/-- After a value of the channel the filter gives that value again or a valid sample, and remembers
what it gives. -/
theorem stepFrom_cases (hp : m.prev = some prev) :
    ((m.stepFrom cfg stable s prev threshold confirm).1 = prev ∨
      (s.valid = true ∧ (m.stepFrom cfg stable s prev threshold confirm).1 = s.candidate)) ∧
    (m.stepFrom cfg stable s prev threshold confirm).2.prev =
      some (m.stepFrom cfg stable s prev threshold confirm).1 := by
  unfold stepFrom
  split
  · exact ⟨.inl rfl, rfl⟩
  · exact ⟨.inl rfl, hp⟩
  · split
    · refine ⟨?_, rfl⟩
      cases hv : s.valid with
      | true => exact .inr ⟨rfl, rfl⟩
      | false => exact .inl rfl
    · next hj =>
      -- only a valid sample can be a jump
      have hv : s.valid = true := by
        simp only [isJump, Bool.not_eq_true', Bool.not_eq_false, Bool.and_eq_true] at hj
        exact hj.1.1
      split
      · exact ⟨.inr ⟨hv, rfl⟩, rfl⟩
      · dsimp only
        split
        · exact ⟨.inr ⟨hv, rfl⟩, rfl⟩
        · exact ⟨.inl rfl, rfl⟩

/-- A step gives the first value of a channel, the value before again, or a valid sample. -/
theorem step_cases (cfg : GuardConfig) (stable : Bool) (m : Memory) (s : Sample)
    (threshold : Binary64) (confirm : Option Int) :
    (m.prev = none ∧ (m.step cfg stable s threshold confirm).1 = firstValue cfg s) ∨
      m.prev = some (m.step cfg stable s threshold confirm).1 ∨
      (s.valid = true ∧ (m.step cfg stable s threshold confirm).1 = s.candidate) := by
  cases hp : m.prev with
  | none => rw [step_of_none hp]; exact .inl ⟨rfl, rfl⟩
  | some prev =>
    rw [step_of_some hp]
    rcases (stepFrom_cases hp).1 with h | h
    · exact .inr (.inl (congrArg some h.symm))
    · exact .inr (.inr h)

theorem step_remembers (cfg : GuardConfig) (stable : Bool) (m : Memory) (s : Sample)
    (threshold : Binary64) (confirm : Option Int) :
    (m.step cfg stable s threshold confirm).2.prev = some (m.step cfg stable s threshold confirm).1 := by
  cases hp : m.prev with
  | none => rw [step_of_none hp]; rfl
  | some prev => rw [step_of_some hp]; exact (stepFrom_cases hp).2

/-- A sample that is the value before passes. -/
theorem step_of_same (h : m.prev = some x) :
    (m.step cfg stable (seen cfg m c x live) threshold confirm).1 = x := by
  rcases m.step_cases cfg stable (seen cfg m c x live) threshold confirm with ⟨hn, -⟩ | hs | ⟨hv, hs⟩
  · rw [h] at hn; cases hn
  · exact (Option.some.inj (h.symm.trans hs)).symm
  · rw [hs, seen_candidate hv]

/-! ## Finite values -/

/-- Only finite values are remembered, and none before the first one was given out. -/
structure Finite (m : Memory) : Prop where
  prev : ∀ x, m.prev = some x → x.isFinite = true
  window : m.prev = none → m.window = []

theorem Finite.empty : Finite {} := ⟨fun _ h => (by cases h), fun _ => rfl⟩

/-- The first value of a channel is the sample, the live hashrate, or zero for a sample that is out of
range: nothing is remembered yet that could stand for it. -/
theorem firstValue_cases (cfg : GuardConfig) (c : Channel) (x : Binary64) (live : Option Binary64)
    (hm : m.Finite) (hp : m.prev = none) :
    (inRange cfg c x = true ∧ firstValue cfg (seen cfg m c x live) = x) ∨
      (inRange cfg c x = false ∧ firstValue cfg (seen cfg m c x live) = 0) ∨
      (c.isHashrate = true ∧ ∃ l, live = some l ∧ l.isPositive = true ∧
        firstValue cfg (seen cfg m c x live) = l) := by
  have hc : (inRange cfg c x = true ∧ (seen cfg m c x live).candidate = x) ∨
      (inRange cfg c x = false ∧ (seen cfg m c x live).candidate = 0) := by
    cases hr : inRange cfg c x with
    | true => exact .inl ⟨rfl, seen_candidate hr⟩
    | false =>
      have hzero : fallback m = 0 := by simp [fallback, hm.window hp, hp]
      exact .inr ⟨rfl, by rw [seen, hr]; exact hzero⟩
  have candidate (h : firstValue cfg (seen cfg m c x live) = (seen cfg m c x live).candidate) :
      (inRange cfg c x = true ∧ firstValue cfg (seen cfg m c x live) = x) ∨
        (inRange cfg c x = false ∧ firstValue cfg (seen cfg m c x live) = 0) ∨
        (c.isHashrate = true ∧ ∃ l, live = some l ∧ l.isPositive = true ∧
          firstValue cfg (seen cfg m c x live) = l) := by
    rw [h]
    rcases hc with ⟨hr, hx⟩ | ⟨hr, hx⟩
    · exact .inl ⟨hr, hx⟩
    · exact .inr (.inl ⟨hr, hx⟩)
  cases hl : (seen cfg m c x live).live with
  | none => exact candidate (by unfold firstValue; rw [hl])
  | some l =>
    have hlive : c.isHashrate = true ∧ live = some l ∧ l.isPositive = true := by
      simp only [seen] at hl
      split at hl
      · next hh => exact ⟨hh, Option.filter_eq_some_iff.mp hl⟩
      · cases hl
    by_cases ht : (!(seen cfg m c x live).valid || (Arithmetic.larger 0.05 cfg.liveTolerance * 2).lt
        (relative (seen cfg m c x live).candidate l)) = true
    · refine .inr (.inr ⟨hlive.1, l, hlive.2.1, hlive.2.2, ?_⟩)
      unfold firstValue
      rw [hl]
      exact if_pos ht
    · refine candidate ?_
      unfold firstValue
      rw [hl]
      exact if_neg ht

theorem isFinite_firstValue (hm : m.Finite) (hp : m.prev = none) :
    (firstValue cfg (seen cfg m c x live)).isFinite = true := by
  rcases firstValue_cases cfg c x live hm hp with ⟨hr, hv⟩ | ⟨-, hv⟩ | ⟨-, l, -, hl, hv⟩
  · rw [hv]
    exact isFinite_of_inRange hr
  · rw [hv]
    decide +kernel
  · rw [hv]
    exact Binary64.isFinite_of_isPositive hl

/-- A finite value is given out, and it is all that is new in the memory. -/
theorem Finite.step (hm : m.Finite) :
    (m.step cfg stable (seen cfg m c x live) threshold confirm).1.isFinite = true ∧
      (m.step cfg stable (seen cfg m c x live) threshold confirm).2.Finite := by
  have hv : (m.step cfg stable (seen cfg m c x live) threshold confirm).1.isFinite = true := by
    rcases m.step_cases cfg stable (seen cfg m c x live) threshold confirm with
      ⟨hn, hs⟩ | hs | ⟨hr, hs⟩
    · rw [hs]; exact isFinite_firstValue hm hn
    · exact hm.prev _ hs
    · rw [hs, seen_candidate hr]; exact isFinite_of_inRange hr
  have hprev := m.step_remembers cfg stable (seen cfg m c x live) threshold confirm
  refine ⟨hv, fun y hy => ?_, fun hn => ?_⟩
  · rw [hprev] at hy
    cases hy
    exact hv
  · rw [hprev] at hn
    cases hn

end Memory

/-! ## The filter -/

variable {g : Guard}

theorem isLiveStable_ofConfig (h : g.tuning = .ofConfig cfg) : g.isLiveStable = .ok g.isSteady := by
  have hok : ∃ b, g.isLiveStable = .ok b := by
    unfold isLiveStable
    rw [h]
    simp only [Tuning.ofConfig, bind, Except.bind]
    split
    · exact ⟨_, rfl⟩
    · split <;> exact ⟨_, rfl⟩
  obtain ⟨b, hb⟩ := hok
  rw [isSteady, hb]
  rfl

/-- A filter with checked settings gives what a step of the channel's memory gives. -/
theorem sample_ofConfig (h : g.tuning = .ofConfig cfg) (c : Channel) (x threshold : Binary64)
    (live : Option Binary64) (confirm : Option Int) :
    g.sample c x threshold live confirm =
      (g.memory.get c).step cfg g.isSteady (seen cfg (g.memory.get c) c x live) threshold confirm := by
  unfold sample
  rw [h, isLiveStable_ofConfig h, Memory.filter_ofConfig]
  rfl

/-- The value that is given out is the one that is remembered. -/
theorem sample_remembers (h : g.tuning = .ofConfig cfg) :
    (g.sample c x threshold live confirm).2.prev = some (g.sample c x threshold live confirm).1 := by
  rw [sample_ofConfig h]
  exact Memory.step_remembers _ _ _ _ _ _

/-- A sample that is the value before passes. -/
theorem sample_of_same (h : g.tuning = .ofConfig cfg) (hp : (g.memory.get c).prev = some x) :
    (g.sample c x threshold live confirm).1 = x := by
  rw [sample_ofConfig h]
  exact Memory.step_of_same hp

/-- A filter gives the sample, the value before, the live hashrate, or zero for a first sample that is
out of range. -/
theorem sample_origin (h : g.tuning = .ofConfig cfg) (hm : (g.memory.get c).Finite) (x threshold : Binary64)
    (live : Option Binary64) (confirm : Option Int) :
    (g.sample c x threshold live confirm).1 = x ∨
      (g.memory.get c).prev = some (g.sample c x threshold live confirm).1 ∨
      (inRange cfg c x = false ∧ (g.sample c x threshold live confirm).1 = 0) ∨
      (c.isHashrate = true ∧ live = some (g.sample c x threshold live confirm).1) := by
  rw [sample_ofConfig h]
  rcases Memory.step_cases cfg g.isSteady (g.memory.get c) (seen cfg (g.memory.get c) c x live) threshold
    confirm with ⟨hn, hs⟩ | hs | ⟨hv, hs⟩
  · rw [hs]
    rcases Memory.firstValue_cases cfg c x live hm hn with ⟨-, hv⟩ | hz | ⟨hc, l, hl, -, hv⟩
    · exact .inl hv
    · exact .inr (.inr (.inl hz))
    · exact .inr (.inr (.inr ⟨hc, by rw [hv, hl]⟩))
  · exact .inr (.inl hs)
  · exact .inl (hs.trans (seen_candidate hv))

/-- A finite value is given out, and it is all that is new in the memory. -/
theorem isFinite_sample (h : g.tuning = .ofConfig cfg) (hm : (g.memory.get c).Finite) :
    (g.sample c x threshold live confirm).1.isFinite = true ∧
      (g.sample c x threshold live confirm).2.Finite := by
  rw [sample_ofConfig h]
  exact hm.step

end Guard

end HashrateChart
