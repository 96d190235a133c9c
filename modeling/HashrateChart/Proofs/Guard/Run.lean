/-
Runs of the filter, and what each channel was answered in a run.

The log of a channel holds its samples since the last reset with the values that
were given for them, the newest first. Only the samples of a channel and a reset
touch its log and its memory (`memory_after_of_apart`), so a fact about the two that
one sample keeps holds in every run. The first such fact: the value that a channel
remembers is the one that was given last (`prev_eq_given`), whatever settings were
changed on the way and also when calls have failed.
-/
import HashrateChart.Proofs.Guard

namespace HashrateChart

open Arithmetic (Raw)

namespace Guard

/-- What can be asked of a filter. -/
inductive Call where
  | sample (c : Channel) (value : Json) (threshold : Raw Number) (live : Json) (confirm : Option Json)
  | observe (x : Binary64)
  | configure (changes : List (String × Json))
  | reset

/-- The filter after a call. -/
def after (g : Guard) : Call → Guard
  | .sample c value threshold live confirm => (g.filterValue c value threshold live confirm).2
  | .observe x => g.observeLive x
  | .configure changes => (g.configure changes).toOption.getD g
  | .reset => g.reset

def afterAll (g : Guard) (calls : List Call) : Guard := calls.foldl after g

@[simp] theorem afterAll_nil (g : Guard) : g.afterAll [] = g := rfl

@[simp] theorem afterAll_cons (g : Guard) (call : Call) (calls : List Call) :
    g.afterAll (call :: calls) = (g.after call).afterAll calls := rfl

theorem afterAll_concat (g : Guard) (calls : List Call) (call : Call) :
    g.afterAll (calls ++ [call]) = (g.afterAll calls).after call := by simp [afterAll]

/-! ## The log of a channel -/

/-- A sample of a channel, and the value that was given for it. -/
structure Answer where
  sample : Binary64
  given : Binary64
  deriving DecidableEq

/-- The log of a channel after one more call; a call that fails gives no answer. -/
def logged (c : Channel) (g : Guard) (log : List Answer) : Call → List Answer
  | .sample d value threshold live confirm =>
    if d = c then
      match value.reading, (g.filterValue d value threshold live confirm).1 with
      | .ok x, .ok v => ⟨x, v⟩ :: log
      | _, _ => log
    else log
  | .observe _ | .configure _ => log
  | .reset => []

/-- The log of a channel after calls. -/
def logAfter (c : Channel) (g : Guard) (log : List Answer) : List Call → List Answer
  | [] => log
  | call :: calls => (g.after call).logAfter c (g.logged c log call) calls

/-- What every call keeps of a filter and the log of a channel holds after a run. -/
theorem logAfter_induction {c : Channel} {I : Guard → List Answer → Prop} {g : Guard}
    {log : List Answer} {calls : List Call} (h : I g log)
    (step : ∀ g log, ∀ call ∈ calls, I g log → I (g.after call) (g.logged c log call)) :
    I (g.afterAll calls) (g.logAfter c log calls) := by
  induction calls generalizing g log with
  | nil => exact h
  | cons call calls ih =>
    exact ih (step g log call List.mem_cons_self h) fun g log other ho =>
      step g log other (List.mem_cons_of_mem _ ho)

/-! ## One call -/

variable {g : Guard} {c : Channel} {log : List Answer}

/-- A call that neither is about a channel nor resets the filter. -/
def Call.Apart (c : Channel) : Call → Prop
  | .sample d .. => d ≠ c
  | .observe _ | .configure _ => True
  | .reset => False

theorem Call.apart_or (c : Channel) (call : Call) :
    call.Apart c ∨ call = .reset ∨
      ∃ value threshold live confirm, call = .sample c value threshold live confirm := by
  cases call with
  | sample d value threshold live confirm =>
    by_cases hd : d = c
    · subst hd
      exact .inr (.inr ⟨value, threshold, live, confirm, rfl⟩)
    · exact .inl hd
  | observe x | configure changes => exact .inl trivial
  | reset => exact .inr (.inl rfl)

theorem observeLive_eq (g : Guard) (x : Binary64) : g.observeLive x = { g with ring := (g.observeLive x).ring } := by
  unfold observeLive
  split <;> rfl

theorem memory_configured (g : Guard) (changes : List (String × Json)) :
    ((g.configure changes).toOption.getD g).memory = g.memory := by
  unfold configure
  split <;> rfl

/-- A sample of one channel leaves the others alone. -/
theorem memory_filterValue_of_ne {d : Channel} (h : d ≠ c) (value : Json) (threshold : Raw Number)
    (live : Json) (confirm : Option Json) :
    (g.filterValue d value threshold live confirm).2.memory.get c = g.memory.get c := by
  unfold filterValue
  cases value.reading with
  | error e => rfl
  | ok x => exact PerChannel.get_set_other _ _ h.symm

theorem memory_after_of_apart (g : Guard) (log : List Answer) {call : Call} (h : call.Apart c) :
    (g.after call).memory.get c = g.memory.get c ∧ g.logged c log call = log := by
  cases call with
  | sample d value threshold live confirm => exact ⟨memory_filterValue_of_ne h .., if_neg h⟩
  | observe x =>
    refine ⟨?_, rfl⟩
    rw [after, observeLive_eq]
  | configure changes => exact ⟨congrArg (·.get c) (memory_configured g changes), rfl⟩
  | reset => cases h

theorem tuning_filterValue (g : Guard) (c : Channel) (value : Json) (threshold : Raw Number) (live : Json)
    (confirm : Option Json) : (g.filterValue c value threshold live confirm).2.tuning = g.tuning := by
  unfold filterValue
  cases value.reading <;> rfl

theorem ring_filterValue (g : Guard) (c : Channel) (value : Json) (threshold : Raw Number) (live : Json)
    (confirm : Option Json) : (g.filterValue c value threshold live confirm).2.ring = g.ring := by
  unfold filterValue
  cases value.reading <;> rfl

/-- A sample that is read goes through the memory of its channel. -/
theorem filterValue_of_reading {value : Json} {x : Binary64} (hx : value.reading = .ok x)
    (threshold : Raw Number) (live : Json) (confirm : Option Json) :
    g.filterValue c value threshold live confirm =
      (((g.memory.get c).filter g.tuning g.isLiveStable c x threshold live confirm).1,
        { g with memory := g.memory.set c <|
            ((g.memory.get c).filter g.tuning g.isLiveStable c x threshold live confirm).2 }) := by
  rw [filterValue, hx]
  rfl

/-- A sample of a channel takes it from its memory and its log to those after the sample. -/
theorem after_sample_cases (value : Json) (threshold : Raw Number) (live : Json) (confirm : Option Json)
    (log : List Answer) :
    (g.after (.sample c value threshold live confirm) = g ∧
      g.logged c log (.sample c value threshold live confirm) = log) ∨
    ∃ x, value.reading = .ok x ∧
      let r := (g.memory.get c).filter g.tuning g.isLiveStable c x threshold live confirm
      (g.after (.sample c value threshold live confirm)).memory.get c = r.2 ∧
      g.logged c log (.sample c value threshold live confirm) =
        match r.1 with
        | .ok v => ⟨x, v⟩ :: log
        | .error _ => log := by
  simp only [after, logged, if_true]
  cases hx : value.reading with
  | error e => exact .inl ⟨by rw [filterValue, hx], rfl⟩
  | ok x =>
    refine .inr ⟨x, rfl, ?_, ?_⟩
    · rw [filterValue_of_reading hx]
      exact PerChannel.get_set_self _ _ _
    · rw [filterValue_of_reading hx]
      dsimp only
      cases ((g.memory.get c).filter g.tuning g.isLiveStable c x threshold live confirm).1 <;> rfl

/-! ## One sample -/

section Observed

variable {t : Tuning} {m : Memory} {x : Binary64} {live : Json}

/-- The live hashrate that counts for a sample: a positive one, for a hashrate. -/
def liveFor (c : Channel) (live : Json) : Option Binary64 :=
  if c.isHashrate then live.reading.toOption.filter Binary64.isPositive else none

/-- A sample is seen as what it is when it and the live hashrate can be judged. -/
theorem observe_ok {valid : Bool} (hv : isValid t c x = .ok valid)
    (hl : c.isHashrate = true → ∃ l, live.reading = .ok l) :
    observe t m c x live = .ok ⟨valid, if valid then x else fallback m, liveFor c live⟩ := by
  unfold observe liveFor
  rw [hv]
  cases hc : c.isHashrate with
  | false => rfl
  | true =>
    obtain ⟨l, hl⟩ := hl hc
    rw [hl]
    rfl

/-- What is seen of a sample. -/
theorem observe_eq {s : Sample} (h : observe t m c x live = .ok s) :
    isValid t c x = .ok s.valid ∧ s.candidate = (if s.valid then x else fallback m) ∧
      s.live = liveFor c live := by
  cases hv : isValid t c x with
  | error e =>
    rw [observe, hv] at h
    cases h
  | ok valid =>
    have hl : c.isHashrate = true → ∃ l, live.reading = .ok l := by
      intro hc
      cases hl : live.reading with
      | error e =>
        rw [observe, hv, hc, hl] at h
        cases h
      | ok l => exact ⟨l, rfl⟩
    rw [observe_ok hv hl] at h
    cases h
    exact ⟨rfl, rfl, rfl⟩

theorem liveFor_null (c : Channel) : liveFor c .null = none := by
  unfold liveFor
  cases c.isHashrate <;> rfl

theorem liveFor_of_reading {l : Binary64} (hc : c.isHashrate = true) (hl : live.reading = .ok l)
    (hpos : l.isPositive = true) : liveFor c live = some l := by
  rw [liveFor, if_pos hc, hl]
  exact Option.filter_some_pos hpos

end Observed

namespace Memory

variable {t : Tuning} {m : Memory} {s : Sample} {prev x : Binary64} {threshold : Raw Number}
  {confirm : Option Json}

/-- What a sample does to the count of suspicious samples: nothing, it ends the count, or it is counted. -/
inductive Recount (m : Memory) : Memory → Prop
  | same : Recount m m
  | ended : Recount m m.clearSuspect
  | counted (d : Direction) : Recount m (m.suspect d)

theorem Recount.prev_eq {m' : Memory} (h : Recount m m') : m'.prev = m.prev := by
  cases h with
  | same => rfl
  | ended => rfl
  | counted d => unfold suspect; split <;> rfl

/-- A sample that the live hashrate lets pass gives the value before again or a valid sample, unless a
setting fails. -/
theorem judge_result (m : Memory) (s : Sample) (prev : Binary64) (threshold : Raw Number)
    (confirm : Option Json) :
    ∃ m', Recount m m' ∧ ((∃ e, m.judge t s prev threshold confirm = (.error e, m')) ∨
      ∃ v, m.judge t s prev threshold confirm = m'.accept v ∧
        (v = prev ∨ (s.valid = true ∧ v = s.candidate))) := by
  unfold judge
  cases hs : isSuspicious s prev threshold with
  | error e => exact ⟨m, .same, .inl ⟨e, rfl⟩⟩
  | ok suspicious =>
    cases suspicious with
    | false =>
      refine ⟨_, .ended, .inr ⟨_, rfl, ?_⟩⟩
      cases hv : s.valid with
      | true => exact .inr ⟨rfl, rfl⟩
      | false => exact .inl rfl
    | true =>
      have hv : s.valid = true := by
        unfold isSuspicious at hs
        split at hs
        · next h => exact (Bool.and_eq_true_iff.mp h).1
        · cases hs
      dsimp only
      cases isFast t s prev with
      | error e => exact ⟨m, .same, .inl ⟨e, rfl⟩⟩
      | ok fast =>
        cases fast with
        | true => exact ⟨_, .ended, .inr ⟨_, rfl, .inr ⟨hv, rfl⟩⟩⟩
        | false =>
          unfold confirmStep
          generalize (if (0 : Binary64).le (s.candidate - prev) then Direction.up else .down) = d
          dsimp only
          cases needed t confirm with
          | error e => exact ⟨_, .counted d, .inl ⟨e, rfl⟩⟩
          | ok n =>
            have hclear : (m.suspect d).clearSuspect = m.clearSuspect := by
              unfold suspect
              split <;> rfl
            by_cases hn : n ≤ (m.suspect d).count
            · simp only [if_pos hn, hclear]
              exact ⟨_, .ended, .inr ⟨_, rfl, .inr ⟨hv, rfl⟩⟩⟩
            · simp only [if_neg hn]
              exact ⟨_, .counted d, .inr ⟨_, rfl, .inl rfl⟩⟩

/-- How a channel comes to a value that it gives and remembers: as its first one, as the value before
again, or as a valid sample that the live hashrate has let pass. -/
inductive Reason (t : Tuning) (stable : Result Bool) (m : Memory) (c : Channel) (x : Binary64) (live : Json) :
    Binary64 → Prop
  | first {s : Sample} {v : Binary64} : m.prev = none → observe t m c x live = .ok s → seed t s = .ok v →
      Reason t stable m c x live v
  | again {v : Binary64} : m.prev = some v → Reason t stable m c x live v
  | sample {s : Sample} {prev : Binary64} : m.prev = some prev → observe t m c x live = .ok s →
      gate t stable s prev = .ok .pass → s.valid = true → Reason t stable m c x live s.candidate

/-- What a sample can do: a setting fails, the value before is given and nothing is remembered, or a
value is given for a reason and remembered. -/
theorem filter_result (t : Tuning) (stable : Result Bool) (m : Memory) (c : Channel) (x : Binary64)
    (threshold : Raw Number) (live : Json) (confirm : Option Json) :
    ∃ m', Recount m m' ∧ ((∃ e, m.filter t stable c x threshold live confirm = (.error e, m')) ∨
      (∃ prev, m.prev = some prev ∧ m.filter t stable c x threshold live confirm = (.ok prev, m')) ∨
      ∃ v, m.filter t stable c x threshold live confirm = m'.accept v ∧ Reason t stable m c x live v) := by
  unfold filter
  cases ho : observe t m c x live with
  | error e => exact ⟨m, .same, .inl ⟨e, rfl⟩⟩
  | ok s =>
    dsimp only
    cases hp : m.prev with
    | none =>
      dsimp only
      cases hs : seed t s with
      | error e => exact ⟨m, .same, .inl ⟨e, rfl⟩⟩
      | ok v => exact ⟨m, .same, .inr (.inr ⟨v, rfl, .first hp ho hs⟩)⟩
    | some prev =>
      dsimp only
      cases hg : gate t stable s prev with
      | error e => exact ⟨m, .same, .inl ⟨e, rfl⟩⟩
      | ok gate =>
        cases gate with
        | again => exact ⟨m, .same, .inr (.inr ⟨prev, rfl, .again hp⟩)⟩
        | hold => exact ⟨m, .same, .inr (.inl ⟨prev, rfl, rfl⟩)⟩
        | pass =>
          obtain ⟨m', hm, ⟨e, hr⟩ | ⟨v, hr, hv⟩⟩ := m.judge_result (t := t) s prev threshold confirm
          · exact ⟨m', hm, .inl ⟨e, hr⟩⟩
          · refine ⟨m', hm, .inr (.inr ⟨v, hr, ?_⟩)⟩
            rcases hv with rfl | ⟨hvalid, rfl⟩
            · exact .again hp
            · exact .sample hp ho hg hvalid

/-- What a filter gives it remembers; and what differs from the value before is a valid sample that
the live hashrate has let pass. -/
theorem filter_cases (t : Tuning) (stable : Result Bool) (m : Memory) (c : Channel) (x : Binary64)
    (threshold : Raw Number) (live : Json) (confirm : Option Json) :
    (∃ e, (m.filter t stable c x threshold live confirm).1 = .error e ∧
      (m.filter t stable c x threshold live confirm).2.prev = m.prev) ∨
    ∃ v, (m.filter t stable c x threshold live confirm).1 = .ok v ∧
      (m.filter t stable c x threshold live confirm).2.prev = some v ∧
      ∀ prev, m.prev = some prev → v ≠ prev → ∃ s, observe t m c x live = .ok s ∧
        gate t stable s prev = .ok .pass ∧ s.valid = true ∧ v = s.candidate := by
  obtain ⟨m', hm, ⟨e, hr⟩ | ⟨prev, hp, hr⟩ | ⟨v, hr, hreason⟩⟩ :=
    filter_result t stable m c x threshold live confirm
  · exact .inl ⟨e, by rw [hr], by rw [hr]; exact hm.prev_eq⟩
  · refine .inr ⟨prev, by rw [hr], by rw [hr]; exact hm.prev_eq.trans hp, fun _ he hne => ?_⟩
    exact absurd (Option.some.inj (hp.symm.trans he)) hne
  · refine .inr ⟨v, by rw [hr]; rfl, by rw [hr]; rfl, fun prev he hne => ?_⟩
    cases hreason with
    | first hnone ho hs => cases hnone.symm.trans he
    | again hp => exact absurd (Option.some.inj (hp.symm.trans he)) hne
    | sample hp ho hg hvalid =>
      cases hp.symm.trans he
      exact ⟨_, ho, hg, hvalid, rfl⟩

end Memory

/-! ## The value before -/

/-- The value that a channel remembers is the one that was given last since the last reset. -/
theorem prev_eq_given (c : Channel) {g : Guard} {log : List Answer}
    (h : (g.memory.get c).prev = log.head?.map Answer.given) (calls : List Call) :
    ((g.afterAll calls).memory.get c).prev = (g.logAfter c log calls).head?.map Answer.given := by
  refine logAfter_induction (I := fun g log => (g.memory.get c).prev = log.head?.map Answer.given) h ?_
  intro g log call _ h
  rcases call.apart_or c with ha | rfl | ⟨value, threshold, live, confirm, rfl⟩
  · obtain ⟨hm, hl⟩ := memory_after_of_apart g log ha
    rw [hm, hl]
    exact h
  · simp [after, reset, logged]
  · rcases after_sample_cases (g := g) (c := c) value threshold live confirm log with
      ⟨hg, hl⟩ | ⟨x, -, hm, hl⟩
    · rw [hg, hl]
      exact h
    · rw [hm, hl]
      rcases Memory.filter_cases g.tuning g.isLiveStable (g.memory.get c) c x threshold live confirm with
        ⟨e, hr, hp⟩ | ⟨v, hr, hp, -⟩
      · rw [hr, hp]
        exact h
      · rw [hr, hp]
        rfl

end Guard

end HashrateChart
