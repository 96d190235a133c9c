/-
When a step of a channel is confirmed, without a live hashrate.

The filter remembers a count and a direction, and the rule is one about the samples
themselves: a step is given out when as many samples in a row as are needed have
stepped the same way. The two are tied by one invariant (`Tracks`): in either
direction the count is the number of answers, from the newest one back, that have
held back a step that way. It is kept because a step that is given out is none from
itself, which takes a threshold that is not negative.
-/
import HashrateChart.Proofs.Binary64
import HashrateChart.Proofs.Guard.Run

namespace HashrateChart

open Arithmetic (Raw)

/-! ## Thresholds that are not negative -/

theorem Number.not_lt_zero {θ : Number} (h : Number.zero.le θ = true) (s : Bool) :
    θ.lt (.real (.finite s .zero)) = false := by
  have hzero : Binary64.signed s Magnitude.zero.units = 0 := by cases s <;> rfl
  have hnot {a : Int} (ha : 0 ≤ a) : decide (a < Binary64.signed s Magnitude.zero.units) = false := by
    rw [hzero]
    exact decide_eq_false (Int.not_lt.mpr ha)
  cases θ with
  | int i =>
    have hi : (0 : Int) ≤ i := of_decide_eq_true h
    exact hnot (Int.mul_nonneg hi (Int.natCast_nonneg _))
  | real x =>
    cases x with
    | nan => rfl
    | infinite negative =>
      have hx : (0 : Int) ≤ Binary64.signed negative 1 := of_decide_eq_true h
      cases negative with
      | false => exact hnot (Int.natCast_nonneg _)
      | true => cases hx
    | finite negative m =>
      have hx : 0 * (unitsPerOne : Int) ≤ Binary64.signed negative m.units := of_decide_eq_true h
      rw [Int.zero_mul] at hx
      exact hnot hx

namespace Guard

/-- A positive value is no step from itself. -/
theorem relative_self {x : Binary64} (hx : x.isFinite = true) (hpos : (0 : Binary64).lt x = true) :
    relative x x = .finite false .zero := by
  cases x with
  | nan => cases hx
  | infinite s => cases hx
  | finite s m =>
    obtain rfl : s = false := Binary64.not_negative_of_lt hpos
    have hsub : Binary64.finite false m - .finite false m = .finite false .zero := by
      have hsum : Binary64.signed false m.units + Binary64.signed true m.units = 0 := Int.add_right_neg _
      show Binary64.add (.finite false m) (.finite true m) = _
      unfold Binary64.add
      dsimp only
      rw [if_pos hsum]
      rfl
    have hunits : m.units ≠ 0 := by
      intro h0
      have hm : m = .zero := by
        obtain ⟨units, hr⟩ := m
        obtain rfl : units = 0 := h0
        rfl
      rw [hm] at hpos
      exact absurd hpos (by decide +kernel)
    unfold relative
    rw [hsub]
    show Binary64.div (.finite false .zero) (.finite false m) = _
    have hzero : (Magnitude.zero.units : Nat) = 0 := rfl
    simp [Binary64.div, hunits, hzero, Binary64.round, Magnitude.ofRatio?_zero]

/-! ## Settings that can be read -/

/-- Every setting can be read. -/
structure Tuning.Usable (t : Tuning) : Prop where
  confirm : ∃ n, t.confirm = .ok n
  liveTolerance : ∃ x, t.liveTolerance = .ok x
  seedTolerance : ∃ x, t.seedTolerance = .ok x
  bigStep : ∃ x, t.bigStep = .ok x
  stableSamples : ∃ n, t.stableSamples = .ok n
  stableSpread : ∃ x, t.stableSpread = .ok x
  minValid : ∃ x, t.minValid = .ok x
  tempCeiling : ∃ x, t.tempCeiling = .ok x

theorem Tuning.usable_ofConfig (cfg : GuardConfig) : (Tuning.ofConfig cfg).Usable :=
  ⟨⟨_, rfl⟩, ⟨_, rfl⟩, ⟨_, rfl⟩, ⟨_, rfl⟩, ⟨_, rfl⟩, ⟨_, rfl⟩, ⟨_, rfl⟩, ⟨_, rfl⟩⟩

theorem Tuning.Usable.isValid {t : Tuning} (h : t.Usable) (c : Channel) (x : Binary64) :
    ∃ b, Guard.isValid t c x = .ok b := by
  obtain ⟨least, hleast⟩ := h.minValid
  obtain ⟨ceiling, hceiling⟩ := h.tempCeiling
  simp only [Guard.isValid, hleast, hceiling, bind, Except.bind, pure, Except.pure]
  split
  · exact ⟨_, rfl⟩
  · split
    · exact ⟨_, rfl⟩
    · split <;> exact ⟨_, rfl⟩

theorem isFinite_of_isValid {t : Tuning} {c : Channel} {x : Binary64} (h : isValid t c x = .ok true) :
    x.isFinite = true := by
  unfold isValid at h
  cases hf : x.isFinite with
  | true => rfl
  | false =>
    rw [hf] at h
    cases h

/-! ## One sample -/

variable {t : Tuning} {m : Memory} {s : Sample} {c : Channel} {x prev : Binary64} {θ : Number} {k : Int}
  {confirm : Option Json} {stable : Result Bool}

theorem observe_without_live {valid : Bool} (hv : isValid t c x = .ok valid) :
    observe t m c x .null = .ok ⟨valid, if valid then x else fallback m, none⟩ := by
  rw [observe_ok hv fun _ => ⟨_, rfl⟩, liveFor_null]

namespace Memory

/-- A sample without live hashrate, after a value of the channel. -/
theorem filter_without_live {valid : Bool} (hp : m.prev = some prev) (hv : isValid t c x = .ok valid)
    (hk : needed t confirm = .ok k) :
    m.filter t stable c x (.ok θ) .null confirm =
      if !(valid && (0 : Binary64).lt prev && θ.lt (.real (relative x prev))) then
        m.clearSuspect.accept (if valid then x else prev)
      else if k ≤ (m.suspect (heading x prev)).count then
        (m.suspect (heading x prev)).clearSuspect.accept x
      else (m.suspect (heading x prev)).accept prev := by
  unfold filter
  rw [observe_without_live hv, hp]
  dsimp only
  rw [show gate t stable ⟨valid, if valid then x else fallback m, none⟩ prev = .ok .pass from rfl]
  dsimp only
  rw [judge_eq (show isFast t ⟨valid, if valid then x else fallback m, none⟩ prev = .ok false from rfl) hk]
  unfold steps
  cases valid <;> rfl

/-- The first sample without live hashrate is given out when it is valid. -/
theorem filter_first_without_live {valid : Bool} (hp : m.prev = none) (hv : isValid t c x = .ok valid) :
    m.filter t stable c x (.ok θ) .null confirm = m.accept (if valid then x else fallback m) := by
  unfold filter
  rw [observe_without_live hv, hp]
  rfl

end Memory

/-! ## The rule -/

section Rule

variable (t c θ)

/-- A sample was a step in a direction, and the value before it was given out again. -/
structure Held (d : Direction) (a before : Answer) : Prop where
  valid : isValid t c a.sample = .ok true
  positive : (0 : Binary64).lt before.given = true
  far : θ.lt (.real (relative a.sample before.given)) = true
  heading : heading a.sample before.given = d
  again : a.given = before.given

/-- The newest answers of a log, so many of them, have all held back a step in a direction. -/
def HeldFor (d : Direction) : Nat → List Answer → Prop
  | 0, _ => True
  | n + 1, a :: before :: past => Held t c θ d a before ∧ HeldFor d n (before :: past)
  | _ + 1, _ => False

/-- A sample is to be given out: it is in range, and it is no step from the value before, or it is one
and the samples just before it have all been steps that way, one fewer than are needed. -/
def Accepted (k : Int) (x : Binary64) (last : Answer) (past : List Answer) : Prop :=
  isValid t c x = .ok true ∧
    (last.given.le 0 = true ∨ θ.lt (.real (relative x last.given)) = false ∨
      HeldFor t c θ (heading x last.given) (k - 1).toNat (last :: past))

end Rule

/-! ## The count -/

/-- How many suspicious samples in a direction are counted. -/
def Memory.counted (m : Memory) (d : Direction) : Nat := if m.direction = some d then m.count else 0

theorem Memory.counted_clearSuspect (m : Memory) (d : Direction) : m.clearSuspect.counted d = 0 := rfl

theorem Memory.count_suspect (m : Memory) (d : Direction) : (m.suspect d).count = m.counted d + 1 := by
  unfold suspect counted
  split <;> rfl

theorem Memory.counted_suspect (m : Memory) (d e : Direction) :
    (m.suspect d).counted e = if e = d then m.counted d + 1 else 0 := by
  have hd : (m.suspect d).direction = some d := by
    unfold suspect
    split
    · next h => exact h
    · rfl
  rw [counted, hd, Memory.count_suspect]
  simp only [Option.some.injEq, eq_comm]

theorem HeldFor.of_not_held {a : Answer} {log : List Answer} {d : Direction}
    (h : ∀ before past, log = before :: past → ¬ Held t c θ d a before) (n : Nat) :
    HeldFor t c θ d n (a :: log) ↔ n = 0 := by
  cases n with
  | zero => exact iff_of_true trivial rfl
  | succ n =>
    cases log with
    | nil => exact iff_of_false id (Nat.succ_ne_zero n)
    | cons before past => exact iff_of_false (fun hn => h before past rfl hn.1) (Nat.succ_ne_zero n)

/-- The memory of a channel is what its log says. -/
structure Tracks (t : Tuning) (c : Channel) (θ : Number) (m : Memory) (log : List Answer) : Prop where
  prev : m.prev = log.head?.map Answer.given
  finite : m.Finite
  /-- The count is the number of answers that have held back a step. -/
  counted : ∀ d n, HeldFor t c θ d n log ↔ n ≤ m.counted d

theorem Tracks.empty : Tracks t c θ {} [] where
  prev := rfl
  finite := .empty
  counted d n := by
    cases n with
    | zero => exact iff_of_true trivial (Nat.zero_le _)
    | succ n => exact iff_of_false id (by simp [Memory.counted])

theorem Memory.Finite.accept (m : Memory) {v : Binary64} (hv : v.isFinite = true) : (m.accept v).2.Finite where
  prev y hy := by
    cases hy
    exact hv
  window h := by cases h

/-- A sample that is given an answer which holds back no step starts the count anew. -/
theorem Tracks.of_not_held {log : List Answer} {v : Binary64} (hv : v.isFinite = true)
    (hcount : ∀ d, m.counted d = 0)
    (hnot : ∀ d before past, log = before :: past → ¬ Held t c θ d ⟨x, v⟩ before) :
    Tracks t c θ (m.accept v).2 (⟨x, v⟩ :: log) where
  prev := rfl
  finite := .accept m hv
  counted d n := by
    rw [HeldFor.of_not_held (hnot d)]
    show n = 0 ↔ n ≤ m.counted d
    rw [hcount, Nat.le_zero]

section Sample

variable {last : Answer} {past : List Answer}

/-- The first sample of a channel counts nothing. -/
theorem Tracks.first (h : Tracks t c θ m []) (ht : t.Usable) (confirm : Option Json) (stable : Result Bool)
    (x : Binary64) :
    ∃ v, (m.filter t stable c x (.ok θ) .null confirm).1 = .ok v ∧
      Tracks t c θ (m.filter t stable c x (.ok θ) .null confirm).2 [⟨x, v⟩] := by
  obtain ⟨valid, hv⟩ := ht.isValid c x
  have hp : m.prev = none := h.prev
  have hfin : (if valid then x else fallback m).isFinite = true := by
    cases valid with
    | true => exact isFinite_of_isValid hv
    | false =>
      have hzero : fallback m = 0 := by simp [fallback, h.finite.window hp, hp]
      rw [if_neg Bool.false_ne_true, hzero]
      decide +kernel
  have hcount (d : Direction) : m.counted d = 0 := by
    have hn := (h.counted d (m.counted d)).mpr (Nat.le_refl _)
    cases hc : m.counted d with
    | zero => rfl
    | succ n =>
      rw [hc] at hn
      exact hn.elim
  rw [Memory.filter_first_without_live hp hv]
  exact ⟨_, rfl, .of_not_held hfin hcount fun _ _ _ hnil => absurd hnil.symm (List.cons_ne_nil _ _)⟩

/-- A sample that is no step ends the count. -/
theorem Tracks.near {valid : Bool} (h : Tracks t c θ m (last :: past)) (hv : isValid t c x = .ok valid)
    (hnear : (valid && (0 : Binary64).lt last.given && θ.lt (.real (relative x last.given))) = false) :
    Tracks t c θ (m.clearSuspect.accept (if valid then x else last.given)).2
      (⟨x, if valid then x else last.given⟩ :: last :: past) := by
  refine .of_not_held ?_ (Memory.counted_clearSuspect m) ?_
  · cases valid with
    | true => exact isFinite_of_isValid hv
    | false => exact h.finite.prev _ h.prev
  · rintro d before rest heq ⟨hvalid, hpos, hfar, -, -⟩
    cases heq
    obtain rfl : valid = true := Except.ok.inj (hv.symm.trans hvalid)
    rw [hpos, hfar] at hnear
    cases hnear

/-- A step that is given out ends the count: it is no step from itself. -/
theorem Tracks.confirmed (h : Tracks t c θ m (last :: past)) (hθ : Number.zero.le θ = true)
    (hv : isValid t c x = .ok true) (hpos : (0 : Binary64).lt last.given = true)
    (hfar : θ.lt (.real (relative x last.given)) = true) (m' : Memory) :
    Tracks t c θ (m'.clearSuspect.accept x).2 (⟨x, x⟩ :: last :: past) := by
  refine .of_not_held (isFinite_of_isValid hv) (Memory.counted_clearSuspect m') ?_
  rintro d before rest heq ⟨-, -, -, -, hagain⟩
  cases heq
  obtain rfl : x = last.given := hagain
  rw [relative_self (h.finite.prev _ h.prev) hpos, Number.not_lt_zero hθ] at hfar
  cases hfar

/-- A step that is held back is counted in its direction. -/
theorem Tracks.suspected (h : Tracks t c θ m (last :: past)) (hv : isValid t c x = .ok true)
    (hpos : (0 : Binary64).lt last.given = true) (hfar : θ.lt (.real (relative x last.given)) = true) :
    Tracks t c θ ((m.suspect (heading x last.given)).accept last.given).2
      (⟨x, last.given⟩ :: last :: past) := by
  refine ⟨rfl, .accept _ (h.finite.prev _ h.prev), fun d n => ?_⟩
  show _ ↔ n ≤ (m.suspect (heading x last.given)).counted d
  rw [Memory.counted_suspect]
  by_cases hd : d = heading x last.given
  · subst hd
    rw [if_pos rfl]
    cases n with
    | zero => exact iff_of_true trivial (Nat.zero_le _)
    | succ n =>
      have hheld : Held t c θ (heading x last.given) ⟨x, last.given⟩ last := ⟨hv, hpos, hfar, rfl, rfl⟩
      rw [Nat.succ_le_succ_iff, ← h.counted]
      exact ⟨And.right, fun hn => ⟨hheld, hn⟩⟩
  · rw [if_neg hd, Nat.le_zero]
    refine HeldFor.of_not_held ?_ n
    rintro before rest heq hheld
    cases heq
    exact hd hheld.heading.symm

/-- A valid sample that is no step is given out by the rule. -/
theorem Accepted.of_near (hlast : last.given.isFinite = true) (hv : isValid t c x = .ok true)
    (hnear : ((0 : Binary64).lt last.given && θ.lt (.real (relative x last.given))) = false) :
    Accepted t c θ k x last past := by
  refine ⟨hv, ?_⟩
  cases hpos : (0 : Binary64).lt last.given with
  | false =>
    have hzero : (0 : Binary64).isNaN = false := by decide +kernel
    exact .inl (Binary64.le_of_not_lt hzero (Binary64.isNaN_of_isFinite hlast) hpos)
  | true =>
    rw [hpos] at hnear
    exact .inr (.inl hnear)

/-- A step is given out by the rule exactly when the count reaches what is needed. -/
theorem Tracks.accepted_iff (h : Tracks t c θ m (last :: past)) (hv : isValid t c x = .ok true)
    (hpos : (0 : Binary64).lt last.given = true) (hfar : θ.lt (.real (relative x last.given)) = true) :
    Accepted t c θ k x last past ↔ k ≤ (m.suspect (heading x last.given)).count := by
  have hcounted := h.counted (heading x last.given) (k - 1).toNat
  rw [Memory.count_suspect]
  refine ⟨fun ⟨_, hrule⟩ => ?_, fun hle => ⟨hv, .inr (.inr (hcounted.mpr (by omega)))⟩⟩
  rcases hrule with hle | hnear | hheld
  · rw [Binary64.not_le_of_lt hpos] at hle
    cases hle
  · rw [hfar] at hnear
    cases hnear
  · have := hcounted.mp hheld
    omega

/-- A sample after others is given out when the rule says so, and else the value before is; the memory
stays what the log says. -/
theorem Tracks.next (h : Tracks t c θ m (last :: past)) (ht : t.Usable) (hθ : Number.zero.le θ = true)
    (hk : needed t confirm = .ok k) (stable : Result Bool) (x : Binary64) :
    ∃ v, (m.filter t stable c x (.ok θ) .null confirm).1 = .ok v ∧
      Tracks t c θ (m.filter t stable c x (.ok θ) .null confirm).2 (⟨x, v⟩ :: last :: past) ∧
      (Accepted t c θ k x last past → v = x) ∧ (¬ Accepted t c θ k x last past → v = last.given) := by
  obtain ⟨valid, hv⟩ := ht.isValid c x
  rw [Memory.filter_without_live h.prev hv hk]
  cases hstep : valid && (0 : Binary64).lt last.given && θ.lt (.real (relative x last.given)) with
  | false =>
    refine ⟨_, rfl, h.near hv hstep, ?_⟩
    cases valid with
    | false =>
      refine ⟨fun ha => ?_, fun _ => rfl⟩
      cases hv.symm.trans ha.1
    | true => exact ⟨fun _ => rfl, fun hna => absurd (.of_near (h.finite.prev _ h.prev) hv hstep) hna⟩
  | true =>
    obtain ⟨⟨rfl, hpos⟩, hfar⟩ : (valid = true ∧ (0 : Binary64).lt last.given = true) ∧
        θ.lt (.real (relative x last.given)) = true := by
      simpa only [Bool.and_eq_true] using hstep
    have haccepted := h.accepted_iff (k := k) hv hpos hfar
    by_cases hle : k ≤ (m.suspect (heading x last.given)).count
    · simp only [Bool.not_true, Bool.false_eq_true, if_false, if_pos hle]
      exact ⟨x, rfl, h.confirmed hθ hv hpos hfar _, fun _ => rfl, fun hna => absurd (haccepted.mpr hle) hna⟩
    · simp only [Bool.not_true, Bool.false_eq_true, if_false, if_neg hle]
      exact ⟨last.given, rfl, h.suspected hv hpos hfar, fun ha => absurd (haccepted.mp ha) hle, fun _ => rfl⟩

end Sample

/-! ## Runs -/

/-- A call of a run in which a channel has no live hashrate, one threshold and one number of
confirmations, and no setting is changed. -/
def Call.IsPlain (c : Channel) (θ : Number) (confirm : Option Json) : Call → Prop
  | .sample d _ threshold live confirm' => d = c → threshold = .ok θ ∧ live = .null ∧ confirm' = confirm
  | .configure _ => False
  | .observe _ | .reset => True

variable {g : Guard} {log : List Answer} {calls : List Call}

theorem tuning_after_of_plain {call : Call} (h : call.IsPlain c θ confirm) :
    (g.after call).tuning = g.tuning := by
  cases call with
  | sample d value threshold live confirm => exact tuning_filterValue ..
  | observe x => rw [after, observeLive_eq]
  | configure changes => exact h.elim
  | reset => rfl

/-- The memory of a channel stays what its log says. -/
theorem tracks_after {call : Call} (hcall : call.IsPlain c θ confirm) (ht : g.tuning.Usable)
    (hθ : Number.zero.le θ = true) (hk : needed g.tuning confirm = .ok k)
    (h : Tracks g.tuning c θ (g.memory.get c) log) :
    Tracks g.tuning c θ ((g.after call).memory.get c) (g.logged c log call) := by
  rcases call.apart_or c with ha | rfl | ⟨value, threshold, live, confirm', rfl⟩
  · obtain ⟨hm, hl⟩ := memory_after_of_apart g log ha
    rw [hm, hl]
    exact h
  · simpa [after, reset, logged] using Tracks.empty
  · obtain ⟨rfl, rfl, rfl⟩ := hcall rfl
    rcases after_sample_cases (g := g) (c := c) value (.ok θ) .null confirm' log with
      ⟨hg, hl⟩ | ⟨x, -, hm, hl⟩
    · rw [hg, hl]
      exact h
    · rw [hm, hl]
      cases log with
      | nil =>
        obtain ⟨v, hr, htracks⟩ := h.first ht confirm' g.isLiveStable x
        rw [hr]
        exact htracks
      | cons last past =>
        obtain ⟨v, hr, htracks, -⟩ := h.next ht hθ hk g.isLiveStable x
        rw [hr]
        exact htracks

theorem tracks_afterAll (hcalls : ∀ call ∈ calls, call.IsPlain c θ confirm) (ht : g.tuning.Usable)
    (hθ : Number.zero.le θ = true) (hk : needed g.tuning confirm = .ok k)
    (h : Tracks g.tuning c θ (g.memory.get c) log) :
    (g.afterAll calls).tuning = g.tuning ∧
      Tracks g.tuning c θ ((g.afterAll calls).memory.get c) (g.logAfter c log calls) := by
  refine logAfter_induction
    (I := fun q log => q.tuning = g.tuning ∧ Tracks g.tuning c θ (q.memory.get c) log) ⟨rfl, h⟩ ?_
  intro q log call hmem ⟨hq, htracks⟩
  rw [← hq] at ht hk htracks ⊢
  exact ⟨tuning_after_of_plain (hcalls call hmem), tracks_after (hcalls call hmem) ht hθ hk htracks⟩

/-- **When a step is confirmed.** Let a channel be filtered without a live hashrate, with one threshold
that is not negative and one number `k` of confirmations, among any samples of other channels, and
let no setting be changed. After its first sample since a reset, the next one is given out when it
is in range and the value before is not positive, or it is no step from that value, or the last
`k - 1` samples have all been steps in its direction that were held back. In every other case the
value before is given out again. -/
theorem given_of_plain_run (hfresh : g.memory.get c = {}) (ht : g.tuning.Usable)
    (hθ : Number.zero.le θ = true) (hk : needed g.tuning confirm = .ok k)
    (hcalls : ∀ call ∈ calls, call.IsPlain c θ confirm) {last : Answer} {past : List Answer}
    (hlog : g.logAfter c [] calls = last :: past) {value : Json} (hx : value.reading = .ok x) :
    (Accepted g.tuning c θ k x last past →
      ((g.afterAll calls).filterValue c value (.ok θ) .null confirm).1 = .ok x) ∧
    (¬ Accepted g.tuning c θ k x last past →
      ((g.afterAll calls).filterValue c value (.ok θ) .null confirm).1 = .ok last.given) := by
  have hstart : Tracks g.tuning c θ (g.memory.get c) [] := hfresh ▸ Tracks.empty
  obtain ⟨htuning, htracks⟩ := tracks_afterAll hcalls ht hθ hk hstart
  rw [hlog] at htracks
  obtain ⟨v, hr, -, hyes, hno⟩ := htracks.next ht hθ hk (g.afterAll calls).isLiveStable x
  rw [filterValue_of_reading hx, htuning, hr]
  exact ⟨fun ha => congrArg _ (hyes ha), fun hna => congrArg _ (hno hna)⟩

/-- A temperature of 50 °C, and two of 90 °C. -/
def heating : List Call :=
  [50, 90, 90].map fun x => .sample .vregTemp (.real x) (.ok (.real 0.35)) .null (some (.int 3))

/-- The third 90 °C in a row is given out. -/
theorem given_of_third_step :
    (new {}).memory.get .vregTemp = {} ∧ (new {}).tuning.Usable ∧ Number.zero.le (.real 0.35) = true ∧
    needed (new {}).tuning (some (.int 3)) = .ok 3 ∧
    (∀ call ∈ heating, call.IsPlain .vregTemp (.real 0.35) (some (.int 3))) ∧
    (new {}).logAfter .vregTemp [] heating = [⟨90, 50⟩, ⟨90, 50⟩, ⟨50, 50⟩] ∧
    Accepted (new {}).tuning .vregTemp (.real 0.35) 3 90 ⟨90, 50⟩ [⟨90, 50⟩, ⟨50, 50⟩] ∧
    (((new {}).afterAll heating).filterValue .vregTemp (.real 90) (.ok (.real 0.35)) .null
      (some (.int 3))).1 = .ok 90 := by
  have hfresh : (new {}).memory.get .vregTemp = {} := rfl
  have hzero : Number.zero.le (.real 0.35) = true := by decide +kernel
  have hcalls : ∀ call ∈ heating, call.IsPlain .vregTemp (.real 0.35) (some (.int 3)) := by
    simp [heating, Call.IsPlain]
  have hlog : (new {}).logAfter .vregTemp [] heating = [⟨90, 50⟩, ⟨90, 50⟩, ⟨50, 50⟩] := by
    decide +kernel
  have hvalid : isValid (new {}).tuning .vregTemp 90 = .ok true := by
    have hrange : inRange {} .vregTemp 90 = true := by decide +kernel
    exact isValid_ofConfig.trans (congrArg Except.ok hrange)
  have hheld : Held (new {}).tuning .vregTemp (.real 0.35) .up ⟨90, 50⟩ ⟨90, 50⟩ :=
    ⟨hvalid, by decide +kernel, by decide +kernel, by decide +kernel, rfl⟩
  have hfirst : Held (new {}).tuning .vregTemp (.real 0.35) .up ⟨90, 50⟩ ⟨50, 50⟩ :=
    ⟨hvalid, by decide +kernel, by decide +kernel, by decide +kernel, rfl⟩
  have hup : heading 90 50 = .up := by decide +kernel
  have haccepted : Accepted (new {}).tuning .vregTemp (.real 0.35) 3 90 ⟨90, 50⟩
      [⟨90, 50⟩, ⟨50, 50⟩] := by
    refine ⟨hvalid, .inr (.inr ?_)⟩
    rw [hup]
    exact ⟨hheld, hfirst, trivial⟩
  exact ⟨hfresh, Tuning.usable_ofConfig {}, hzero, rfl, hcalls, hlog, haccepted,
    (given_of_plain_run hfresh (Tuning.usable_ofConfig {}) hzero rfl hcalls hlog rfl).1 haccepted⟩

end Guard

end HashrateChart
