/-
Channels that do not disturb each other, and curves that pass unchanged.

What a sample is given depends on the settings, the memory of its channel and the live
hashrates that are remembered, and a sample of another channel touches none of them
(`SameFor`). So a run answers a channel as the run without the samples of the others
does.

A sample that is no step from the one before it passes the filter whatever is counted,
and with a live hashrate also the gate when it is near that hashrate. It is then the
value before for the next one, so a smooth curve passes from its first sample on.
-/
import HashrateChart.Proofs.Guard.LiveGate

namespace HashrateChart

open Arithmetic (Raw)

namespace Guard

variable {cfg : GuardConfig} {c : Channel} {g g' : Guard}

/-! ## Answers of a channel -/

/-- What is asked for one sample of a channel. -/
structure Request where
  value : Json
  threshold : Raw Number
  live : Json
  confirm : Option Json

/-- What a call asks for a channel. -/
def Call.request? (c : Channel) : Call → Option Request
  | .sample d value threshold live confirm => if d = c then some ⟨value, threshold, live, confirm⟩ else none
  | .observe _ | .configure _ | .reset => none

/-- What the filter answers a request of a channel. -/
def reply (g : Guard) (c : Channel) (r : Request) : Result Binary64 :=
  (g.filterValue c r.value r.threshold r.live r.confirm).1

/-- What a channel is answered in a run of calls, one after the other, also where a call fails. -/
def answers (c : Channel) (g : Guard) : List Call → List (Result Binary64)
  | [] => []
  | call :: calls => ((call.request? c).map (g.reply c)).toList ++ (g.after call).answers c calls

/-- Whether a call is a sample of another channel. -/
def Call.isElsewhere (c : Channel) : Call → Bool
  | .sample d .. => d ≠ c
  | .observe _ | .configure _ | .reset => false

theorem request?_of_elsewhere {call : Call} (h : call.isElsewhere c = true) : call.request? c = none := by
  cases call with
  | sample d value threshold live confirm => exact if_neg (of_decide_eq_true h)
  | observe x | configure changes | reset => rfl

/-! ## Separate channels -/

/-- Two filters are the same for a channel. -/
structure SameFor (c : Channel) (g g' : Guard) : Prop where
  tuning : g.tuning = g'.tuning
  ring : g.ring = g'.ring
  memory : g.memory.get c = g'.memory.get c

theorem SameFor.isLiveStable (h : SameFor c g g') : g.isLiveStable = g'.isLiveStable := by
  unfold Guard.isLiveStable
  rw [h.tuning, h.ring]

theorem SameFor.reply (h : SameFor c g g') (r : Request) : g.reply c r = g'.reply c r := by
  unfold Guard.reply filterValue filter
  rw [h.tuning, h.isLiveStable, h.memory]
  cases r.value.reading <;> rfl

/-- A sample of another channel changes nothing for a channel. -/
theorem sameFor_after {call : Call} (h : call.isElsewhere c = true) (g : Guard) : SameFor c (g.after call) g := by
  cases call with
  | sample d value threshold live confirm =>
    exact ⟨tuning_filterValue .., ring_filterValue .., memory_filterValue_of_ne (of_decide_eq_true h) ..⟩
  | observe x | configure changes | reset => cases h

theorem SameFor.trans {g'' : Guard} (h : SameFor c g g') (h' : SameFor c g' g'') : SameFor c g g'' :=
  ⟨h.tuning.trans h'.tuning, h.ring.trans h'.ring, h.memory.trans h'.memory⟩

/-- The same call leaves two filters the same for a channel. -/
theorem SameFor.after (h : SameFor c g g') (call : Call) : SameFor c (g.after call) (g'.after call) := by
  cases call with
  | sample d value threshold live confirm =>
    refine ⟨?_, ?_, ?_⟩
    · exact (tuning_filterValue ..).trans (h.tuning.trans (tuning_filterValue ..).symm)
    · exact (ring_filterValue ..).trans (h.ring.trans (ring_filterValue ..).symm)
    · by_cases hd : d = c
      · subst hd
        show (g.filterValue ..).2.memory.get d = (g'.filterValue ..).2.memory.get d
        unfold filterValue filter
        cases value.reading with
        | error e => exact h.memory
        | ok x =>
          dsimp only
          rw [PerChannel.get_set_self, PerChannel.get_set_self, h.tuning, h.isLiveStable, h.memory]
      · exact (memory_filterValue_of_ne hd ..).trans (h.memory.trans (memory_filterValue_of_ne hd ..).symm)
  | observe x =>
    show SameFor c (g.observeLive x) (g'.observeLive x)
    unfold observeLive
    split
    · exact ⟨h.tuning, congrArg (pushBounded ringSize · x) h.ring, h.memory⟩
    · exact h
  | configure changes =>
    show SameFor c ((g.configure changes).toOption.getD g) ((g'.configure changes).toOption.getD g')
    unfold configure
    split
    · exact h
    · exact ⟨by simp [Except.toOption, h.tuning], h.ring, h.memory⟩
  | reset => exact ⟨h.tuning, rfl, rfl⟩

/-- Two filters that are the same for a channel answer it the same, when only samples of other channels
are left out. -/
theorem SameFor.answers (h : SameFor c g g') (calls : List Call) :
    g.answers c calls = g'.answers c (calls.filter fun call => !call.isElsewhere c) := by
  induction calls generalizing g g' with
  | nil => rfl
  | cons call calls ih =>
    rw [Guard.answers]
    cases he : call.isElsewhere c with
    | true =>
      rw [List.filter_cons_of_neg (by simp [he]), request?_of_elsewhere he]
      exact ih ((sameFor_after he g).trans h)
    | false =>
      rw [List.filter_cons_of_pos (by simp [he]), Guard.answers, ih (h.after call)]
      cases call.request? c with
      | none => rfl
      | some r => rw [Option.map_some, Option.map_some, h.reply r]

/-! ## Smooth curves -/

/-- A sample fits the one before it: it is in range and no step, and near the live hashrate when it
comes with one. A first sample may be further from the live hashrate. -/
structure Fits (cfg : GuardConfig) (c : Channel) (before : Option Binary64) (r : Request) (x : Binary64) :
    Prop where
  reading : r.value.reading = .ok x
  inRange : inRange cfg c x = true
  live : c.isHashrate = true → ∃ l, r.live.reading = .ok l
  first : before = none → ∀ l ∈ liveFor c r.live,
    (relative x l).le (Arithmetic.larger 0.05 cfg.liveTolerance * 2) = true
  near : ∀ prev ∈ before, ∀ l ∈ liveFor c r.live, (relative x l).le 0.25 = true
  noStep : ∀ prev ∈ before, ∃ θ, r.threshold = .ok θ ∧ (Number.real (relative x prev)).le θ = true

/-- Each sample fits the one before it. -/
def Smooth (cfg : GuardConfig) (c : Channel) : Option Binary64 → List Request → Prop
  | _, [] => True
  | before, r :: rest => ∃ x, Fits cfg c before r x ∧ Smooth cfg c (some x) rest

/-- A sample that fits passes. -/
theorem filter_of_fits {m : Memory} {r : Request} {x : Binary64} (h : Fits cfg c m.prev r x)
    (stable : Result Bool) :
    (m.filter (.ofConfig cfg) stable c x r.threshold r.live r.confirm).1 = .ok x ∧
      (m.filter (.ofConfig cfg) stable c x r.threshold r.live r.confirm).2.prev = some x := by
  have hvalid : isValid (.ofConfig cfg) c x = .ok true := h.inRange ▸ isValid_ofConfig
  have hobserve := observe_ok (t := .ofConfig cfg) (m := m) hvalid h.live
  rw [if_pos rfl] at hobserve
  unfold Memory.filter
  rw [hobserve]
  dsimp only
  cases hp : m.prev with
  | none =>
    have hfirst : firstValue cfg ⟨true, x, liveFor c r.live⟩ = x := by
      unfold firstValue
      dsimp only
      cases hl : liveFor c r.live with
      | none => rfl
      | some l =>
        have hle := Binary64.not_lt_of_le (h.first hp l hl)
        simp only [Bool.not_true, Bool.false_or, hle, Bool.false_eq_true, if_false]
    dsimp only
    rw [seed_ofConfig, hfirst]
    exact ⟨rfl, rfl⟩
  | some prev =>
    have hgate : gate (.ofConfig cfg) stable ⟨true, x, liveFor c r.live⟩ prev = .ok .pass := by
      unfold gate
      dsimp only
      cases hl : liveFor c r.live with
      | none => rfl
      | some l =>
        dsimp only
        rw [not_beyond_gate (h.near prev hp l hl)]
        rfl
    obtain ⟨θ, hθ, hle⟩ := h.noStep prev hp
    have hsteps : steps ⟨true, x, liveFor c r.live⟩ prev θ = false := by
      unfold steps
      dsimp only
      rw [Number.not_lt_of_le hle, Bool.and_false]
    dsimp only
    rw [hgate]
    dsimp only
    unfold Memory.judge
    rw [hθ, isSuspicious_eq, hsteps]
    exact ⟨rfl, rfl⟩

/-- A call with a sample or a live hashrate. -/
def Call.IsReading : Call → Prop
  | .sample .. | .observe _ => True
  | .configure _ | .reset => False

/-- A call of a channel with a sample that fits passes it, and leaves it as the value before. -/
theorem reply_of_fits (ht : g.tuning = .ofConfig cfg) {r : Request} {x : Binary64}
    (h : Fits cfg c (g.memory.get c).prev r x) :
    g.reply c r = .ok x ∧
      ((g.filterValue c r.value r.threshold r.live r.confirm).2.memory.get c).prev = some x := by
  obtain ⟨hout, hprev⟩ := filter_of_fits h g.isLiveStable
  rw [reply, filterValue_of_reading h.reading, ht]
  dsimp only
  rw [PerChannel.get_set_self]
  exact ⟨hout, hprev⟩

/-- A smooth curve passes unchanged. -/
theorem answers_of_smooth (ht : g.tuning = .ofConfig cfg) {calls : List Call}
    (hcalls : ∀ call ∈ calls, call.IsReading)
    (h : Smooth cfg c (g.memory.get c).prev (calls.filterMap (·.request? c))) :
    g.answers c calls = (calls.filterMap (·.request? c)).map (·.value.reading) := by
  induction calls generalizing g with
  | nil => rfl
  | cons call calls ih =>
    have hrest : ∀ other ∈ calls, other.IsReading := fun other ho => hcalls other (List.mem_cons_of_mem _ ho)
    rw [answers]
    cases call with
    | configure changes => exact (hcalls _ List.mem_cons_self).elim
    | reset => exact (hcalls _ List.mem_cons_self).elim
    | observe x =>
      refine ih ?_ hrest ?_
      · rw [after, observeLive_eq]
        exact ht
      · rw [after, observeLive_eq]
        exact h
    | sample d value threshold live confirm =>
      have htuning : (g.after (.sample d value threshold live confirm)).tuning = .ofConfig cfg :=
        (tuning_filterValue ..).trans ht
      by_cases hd : d = c
      · subst hd
        have hrequest : (Call.sample d value threshold live confirm).request? d =
            some ⟨value, threshold, live, confirm⟩ := if_pos rfl
        rw [List.filterMap_cons_some hrequest] at h ⊢
        obtain ⟨x, hfits, hsmooth⟩ := h
        obtain ⟨hreply, hprev⟩ := reply_of_fits ht hfits
        rw [hrequest, Option.map_some, hreply, ih htuning hrest (hprev ▸ hsmooth), List.map_cons, hfits.reading]
        rfl
      · have hrequest : (Call.sample d value threshold live confirm).request? c = none := if_neg hd
        rw [List.filterMap_cons_none hrequest] at h ⊢
        rw [hrequest]
        exact ih htuning hrest ((memory_filterValue_of_ne hd ..).symm ▸ h)

/-- **Smooth curves pass unchanged, and channels do not disturb each other.** In a run of a new filter
in which only samples and live hashrates come, a channel on which each sample fits the one before it is
answered with its samples, whatever the other channels are sent. And in any run of any filter, also one
with failing calls, changed settings and resets, a channel is answered as in the run that is left without
the samples of the other channels. -/
theorem answers_smooth_and_separate (cfg : GuardConfig) (c : Channel) :
    (∀ calls : List Call, (∀ call ∈ calls, call.IsReading) →
      Smooth cfg c none (calls.filterMap (·.request? c)) →
      (new cfg).answers c calls = (calls.filterMap (·.request? c)).map (·.value.reading)) ∧
    ∀ (g : Guard) (calls : List Call),
      g.answers c calls = g.answers c (calls.filter fun call => !call.isElsewhere c) := by
  refine ⟨fun calls hcalls h => answers_of_smooth rfl hcalls ?_,
    fun g calls => SameFor.answers ⟨rfl, rfl, rfl⟩ calls⟩
  have hnew : ((new cfg).memory.get c).prev = none := by simp [new]
  rwa [hnew]

/-- A hashrate of 100 and then one of 101 pass, between temperatures that jump. -/
theorem answers_smooth_and_separate_of_jumps :
    let first : Request := ⟨.real 100, .ok (.real 0.02), .real 100, none⟩
    let second : Request := ⟨.real 101, .ok (.real 0.02), .real 100, none⟩
    let calls : List Call :=
      [.sample .asicTemp (.real 50) (.ok (.real 0.1)) .null none,
        .sample .hashrate1m first.value first.threshold first.live first.confirm, .observe 100,
        .sample .asicTemp (.real 90) (.ok (.real 0.1)) .null none,
        .sample .hashrate1m second.value second.threshold second.live second.confirm]
    (∀ call ∈ calls, call.IsReading) ∧ Smooth {} .hashrate1m none [first, second] ∧
    (new {}).answers .hashrate1m calls = [.ok 100, .ok 101] ∧
    (new {}).answers .hashrate1m calls =
      (new {}).answers .hashrate1m (calls.filter fun call => !call.isElsewhere .hashrate1m) := by
  intro first second calls
  have hcalls : ∀ call ∈ calls, call.IsReading := by simp [calls, Call.IsReading]
  have hlive : liveFor .hashrate1m (.real 100) = some 100 := by decide +kernel
  have hfirst : Fits {} .hashrate1m none first 100 :=
    { reading := rfl
      inRange := by decide +kernel
      live := fun _ => ⟨100, rfl⟩
      first := fun _ l hl => by
        obtain rfl : 100 = l := Option.some.inj (hlive.symm.trans hl)
        decide +kernel
      near := nofun
      noStep := nofun }
  have hsecond : Fits {} .hashrate1m (some 100) second 101 :=
    { reading := rfl
      inRange := by decide +kernel
      live := fun _ => ⟨100, rfl⟩
      first := nofun
      near := fun _ _ l hl => by
        obtain rfl : 100 = l := Option.some.inj (hlive.symm.trans hl)
        decide +kernel
      noStep := fun prev hp => by
        obtain rfl : 100 = prev := Option.some.inj hp
        exact ⟨_, rfl, by decide +kernel⟩ }
  have hsmooth : Smooth {} .hashrate1m none [first, second] := ⟨100, hfirst, 101, hsecond, trivial⟩
  obtain ⟨hpasses, hseparate⟩ := answers_smooth_and_separate {} .hashrate1m
  exact ⟨hcalls, hsmooth, hpasses calls hcalls hsmooth, hseparate (new {}) calls⟩

end Guard

end HashrateChart
