/-
Where the values that a filter gives come from, and that its memory is coherent.

What is remembered of a channel always fits together (`Memory.Coherent`): the value
before is the newest of the accepted ones, and a direction is there exactly when
samples are counted. So before the first sample nothing stands for an invalid one but
zero, and after it the median that stands for one is never given out.

A value has an origin in the calls since the last reset (`Origin`): a valid sample, or
what became of the first one. An origin stays one when calls follow that are no reset,
so a value that is given again keeps the origin that it had.
-/
import Mathlib.Data.List.Induction
import HashrateChart.Proofs.Action
import HashrateChart.Proofs.Guard.Run

namespace HashrateChart

open Arithmetic (Raw)

namespace Guard

variable {t : Tuning} {m : Memory} {c : Channel} {x v : Binary64} {live : Json}

/-! ## Coherent memory -/

/-- What is remembered of a channel fits together. -/
structure Memory.Coherent (m : Memory) : Prop where
  /-- The value before is the newest accepted one, and there is none without one. -/
  prev : m.prev = m.window.getLast?
  length : m.window.length ≤ windowSize
  /-- A direction is remembered exactly while samples are counted. -/
  counted : m.direction = none ↔ m.count = 0

namespace Memory

theorem Coherent.empty : Coherent {} where
  prev := rfl
  length := Nat.zero_le _
  counted := iff_of_true rfl rfl

theorem Coherent.recount {m' : Memory} (h : m.Coherent) (hm : Recount m m') : m'.Coherent := by
  cases hm with
  | same => exact h
  | ended => exact ⟨h.prev, h.length, iff_of_true rfl rfl⟩
  | counted d =>
    unfold suspect
    split
    · next hd => exact ⟨h.prev, h.length, iff_of_false (by simp [hd]) (Nat.succ_ne_zero _)⟩
    · exact ⟨h.prev, h.length, iff_of_false nofun Nat.one_ne_zero⟩

theorem getLast?_pushBounded {β : Type} {size : Nat} (hsize : 0 < size) (xs : List β) (x : β) :
    (pushBounded size xs x).getLast? = some x := by
  rw [pushBounded, List.getLast?_drop, if_neg (by simp; omega), List.getLast?_concat]

theorem Coherent.accept (h : m.Coherent) (v : Binary64) : (m.accept v).2.Coherent where
  prev := (getLast?_pushBounded (by decide) m.window v).symm
  length := Nat.le_trans (Nat.le_of_eq (length_pushBounded _ _ _)) (Nat.min_le_right _ _)
  counted := h.counted

/-- Every sample leaves a coherent memory, also when a setting fails. -/
theorem Coherent.filter (h : m.Coherent) (t : Tuning) (stable : Result Bool) (c : Channel) (x : Binary64)
    (threshold : Raw Number) (live : Json) (confirm : Option Json) :
    (m.filter t stable c x threshold live confirm).2.Coherent := by
  obtain ⟨m', hm, ⟨e, hr⟩ | ⟨prev, -, hr⟩ | ⟨v, hr, -⟩⟩ :=
    filter_result t stable m c x threshold live confirm
  · rw [hr]
    exact h.recount hm
  · rw [hr]
    exact h.recount hm
  · rw [hr]
    exact (h.recount hm).accept v

end Memory

/-! ## The first value -/

/-- The first value is the live hashrate, a valid sample, or what stands for an invalid one. -/
theorem seed_cases {s : Sample} (h : seed t s = .ok v) :
    s.live = some v ∨ (s.valid = true ∧ v = s.candidate) ∨
      (s.valid = false ∧ s.live = none ∧ v = s.candidate) := by
  unfold seed at h
  split at h
  · next hl =>
    cases h
    cases hv : s.valid with
    | true => exact .inr (.inl ⟨rfl, rfl⟩)
    | false => exact .inr (.inr ⟨rfl, hl, rfl⟩)
  · next l hl =>
    obtain ⟨tolerance, -, h⟩ := exists_of_bind h
    cases h
    split
    · exact .inl hl
    · next hnot =>
      -- an invalid sample would have been replaced
      simp only [Bool.or_eq_true, not_or, Bool.not_eq_true', Bool.not_eq_false] at hnot
      exact .inr (.inl ⟨hnot.1, rfl⟩)

/-- Nothing but zero stands for an invalid first sample. -/
theorem Memory.Coherent.fallback (h : m.Coherent) (hp : m.prev = none) : Guard.fallback m = 0 := by
  have hwindow : m.window = [] := List.getLast?_eq_none_iff.mp (h.prev.symm.trans hp)
  simp [Guard.fallback, hwindow, hp]

/-! ## Origins -/

/-- Where a value comes from that is given at the end of a run of calls: it is a sample of the channel that
was valid when it came, or the first sample that was answered made it the first value. A reset leaves
no origin. -/
inductive Origin (cfg : GuardConfig) (c : Channel) : List Call → Binary64 → Prop
  | sample {before : List Call} {value : Json} {threshold : Raw Number} {live : Json} {confirm : Option Json}
      {x : Binary64} : value.reading = .ok x → isValid ((new cfg).afterAll before).tuning c x = .ok true →
      Origin cfg c (before ++ [.sample c value threshold live confirm]) x
  /-- The live hashrate that came with the first sample. -/
  | live {before : List Call} {value : Json} {threshold : Raw Number} {live : Json} {confirm : Option Json}
      {l : Binary64} : (new cfg).logAfter c [] before = [] → liveFor c live = some l →
      Origin cfg c (before ++ [.sample c value threshold live confirm]) l
  /-- Zero, for a first sample that was invalid and came without a live hashrate. -/
  | zero {before : List Call} {value : Json} {threshold : Raw Number} {live : Json} {confirm : Option Json}
      {x : Binary64} : (new cfg).logAfter c [] before = [] → value.reading = .ok x →
      isValid ((new cfg).afterAll before).tuning c x = .ok false → liveFor c live = none →
      Origin cfg c (before ++ [.sample c value threshold live confirm]) 0
  | later {calls : List Call} {call : Call} {v : Binary64} : call ≠ .reset → Origin cfg c calls v →
      Origin cfg c (calls ++ [call]) v

/-- What holds after every run of a filter: the memory of a channel is coherent, and the value before has
an origin. -/
structure Sound (cfg : GuardConfig) (c : Channel) (calls : List Call) : Prop where
  coherent : (((new cfg).afterAll calls).memory.get c).Coherent
  origin : ∀ v, (((new cfg).afterAll calls).memory.get c).prev = some v → Origin cfg c calls v

variable {cfg : GuardConfig} {calls : List Call}

theorem Sound.new (cfg : GuardConfig) (c : Channel) : Sound cfg c [] where
  coherent := by
    show ((PerChannel.replicate {}).get c : Memory).Coherent
    rw [PerChannel.get_replicate]
    exact .empty
  origin v hv := by
    change ((PerChannel.replicate {}).get c : Memory).prev = some v at hv
    rw [PerChannel.get_replicate] at hv
    cases hv

/-- A channel that remembers no value has answered nothing since the last reset. -/
theorem logAfter_of_no_prev (h : (((Guard.new cfg).afterAll calls).memory.get c).prev = none) :
    (Guard.new cfg).logAfter c [] calls = [] := by
  have hnew : ((Guard.new cfg).memory.get c).prev = ([] : List Answer).head?.map Answer.given := by
    simp [Guard.new]
  rw [prev_eq_given c hnew calls, Option.map_eq_none_iff, List.head?_eq_none_iff] at h
  exact h

/-- What a sample gives has an origin. -/
theorem Sound.given (h : Sound cfg c calls) {value : Json} {threshold : Raw Number} {live : Json}
    {confirm : Option Json}
    (hout : (((Guard.new cfg).afterAll calls).filterValue c value threshold live confirm).1 = .ok v) :
    Origin cfg c (calls ++ [.sample c value threshold live confirm]) v := by
  have later (hp : (((Guard.new cfg).afterAll calls).memory.get c).prev = some v) :
      Origin cfg c (calls ++ [.sample c value threshold live confirm]) v := .later nofun (h.origin v hp)
  have hcoherent := h.coherent
  cases hx : value.reading with
  | error e =>
    rw [filterValue, hx] at hout
    cases hout
  | ok x =>
    rw [filterValue_of_reading hx] at hout
    dsimp only at hout
    obtain ⟨m', hm, ⟨e, hr⟩ | ⟨prev, hp, hr⟩ | ⟨w, hr, hreason⟩⟩ := Memory.filter_result
      ((Guard.new cfg).afterAll calls).tuning ((Guard.new cfg).afterAll calls).isLiveStable
      (((Guard.new cfg).afterAll calls).memory.get c) c x threshold live confirm
    · rw [hr] at hout
      cases hout
    · rw [hr] at hout
      cases hout
      exact later hp
    · rw [hr] at hout
      cases hout
      cases hreason with
      | first hp ho hs =>
        have hfirst := logAfter_of_no_prev hp
        obtain ⟨hvalid, hcandidate, hlive⟩ := observe_eq ho
        rcases seed_cases hs with hl | ⟨hv, rfl⟩ | ⟨hv, hl, rfl⟩
        · exact .live hfirst (hlive.symm.trans hl)
        · rw [hv] at hvalid hcandidate
          rw [hcandidate, if_pos rfl]
          exact .sample hx hvalid
        · rw [hv] at hvalid hcandidate
          rw [hcandidate, if_neg Bool.false_ne_true, hcoherent.fallback hp]
          exact .zero hfirst hx hvalid (hlive.symm.trans hl)
      | again hp => exact later hp
      | sample hp ho hg hv =>
        obtain ⟨hvalid, hcandidate, -⟩ := observe_eq ho
        rw [hv] at hvalid hcandidate
        rw [hcandidate, if_pos rfl]
        exact .sample hx hvalid

/-- A call that leaves a channel alone and is no reset keeps what holds of it. -/
theorem Sound.apart (h : Sound cfg c calls) {call : Call} (ha : call.Apart c) : Sound cfg c (calls ++ [call]) := by
  have hm : ((Guard.new cfg).afterAll (calls ++ [call])).memory.get c =
      ((Guard.new cfg).afterAll calls).memory.get c := by
    rw [afterAll_concat]
    exact (memory_after_of_apart _ [] ha).1
  have hne : call ≠ .reset := by
    rintro rfl
    exact ha
  refine ⟨hm ▸ h.coherent, fun v hv => .later hne (h.origin v ?_)⟩
  rwa [hm] at hv

/-- A sample of the channel keeps what holds of it. -/
theorem Sound.next (h : Sound cfg c calls) (value : Json) (threshold : Raw Number) (live : Json)
    (confirm : Option Json) : Sound cfg c (calls ++ [.sample c value threshold live confirm]) := by
  rcases after_sample_cases (g := (Guard.new cfg).afterAll calls) (c := c) value threshold live confirm [] with
    ⟨hg, -⟩ | ⟨x, hx, hm, -⟩
  · rw [← afterAll_concat] at hg
    exact ⟨hg ▸ h.coherent, fun v hv => .later nofun (h.origin v (hg ▸ hv))⟩
  · rw [← afterAll_concat] at hm
    have hcoherent := h.coherent.filter ((Guard.new cfg).afterAll calls).tuning
      ((Guard.new cfg).afterAll calls).isLiveStable c x threshold live confirm
    refine ⟨hm ▸ hcoherent, fun v hv => ?_⟩
    rw [hm] at hv
    rcases Memory.filter_cases ((Guard.new cfg).afterAll calls).tuning
        ((Guard.new cfg).afterAll calls).isLiveStable (((Guard.new cfg).afterAll calls).memory.get c) c x
        threshold live confirm with ⟨e, -, hp⟩ | ⟨w, hr, hp, -⟩
    · rw [hp] at hv
      exact .later nofun (h.origin v hv)
    · rw [hp] at hv
      cases hv
      refine h.given ?_
      rw [filterValue_of_reading hx]
      exact hr

theorem sound_afterAll (cfg : GuardConfig) (c : Channel) (calls : List Call) : Sound cfg c calls := by
  induction calls using List.reverseRecOn with
  | nil => exact .new cfg c
  | append_singleton calls call ih =>
    rcases call.apart_or c with ha | rfl | ⟨value, threshold, live, confirm, rfl⟩
    · exact ih.apart ha
    · -- nothing is left, as in a new filter
      have hm : ((Guard.new cfg).afterAll (calls ++ [.reset])).memory.get c = {} := by
        rw [afterAll_concat]
        exact PerChannel.get_replicate ({} : Memory) c
      refine ⟨hm ▸ Memory.Coherent.empty, fun v hv => ?_⟩
      rw [hm] at hv
      cases hv
    · exact ih.next value threshold live confirm

/-! ## The live hashrates -/

/-- The live hashrates that are remembered: few, and all of them positive. -/
structure FewPositive (ring : List Binary64) : Prop where
  length : ring.length ≤ ringSize
  positive : ∀ x ∈ ring, x.isPositive = true

theorem FewPositive.empty : FewPositive [] where
  length := Nat.zero_le _
  positive _ hx := (List.not_mem_nil hx).elim

theorem FewPositive.after {g : Guard} (h : FewPositive g.ring) (call : Call) : FewPositive (g.after call).ring := by
  cases call with
  | sample d value threshold live confirm => exact (ring_filterValue g d value threshold live confirm).symm ▸ h
  | observe x =>
    show FewPositive (g.observeLive x).ring
    unfold observeLive
    split
    · next hx =>
      refine ⟨Nat.le_trans (Nat.le_of_eq (length_pushBounded _ _ _)) (Nat.min_le_right _ _), fun y hy => ?_⟩
      rcases List.mem_append.mp (List.mem_of_mem_drop hy) with hy | hy
      · exact h.positive y hy
      · rwa [List.mem_singleton.mp hy]
    · exact h
  | configure changes =>
    have hring : ((g.configure changes).toOption.getD g).ring = g.ring := by
      unfold configure
      split <;> rfl
    exact hring ▸ h
  | reset => exact .empty

theorem fewPositive_afterAll {g : Guard} (h : FewPositive g.ring) (calls : List Call) :
    FewPositive (g.afterAll calls).ring := by
  induction calls generalizing g with
  | nil => exact h
  | cons call calls ih => exact ih (h.after call)

/-! ## Every run -/

/-- **The filter never invents values.** After every run of calls, whatever settings were changed in it,
every value that is given for a sample has an origin in the calls since the last reset; the memory of
every channel is coherent; and the live hashrates that are remembered are few, and all positive. -/
theorem origin_of_run (cfg : GuardConfig) (calls : List Call) (c : Channel) :
    let g := (new cfg).afterAll calls
    (∀ value threshold live confirm v, (g.filterValue c value threshold live confirm).1 = .ok v →
      Origin cfg c (calls ++ [.sample c value threshold live confirm]) v) ∧
    (g.memory.get c).Coherent ∧ FewPositive g.ring := by
  intro g
  have hsound := sound_afterAll cfg c calls
  exact ⟨fun value threshold live confirm v hout => hsound.given hout, hsound.coherent,
    fewPositive_afterAll .empty calls⟩

/-- A first hashrate that is undefined and comes with a live one, and a step that is held back: the live
hashrate is given again. -/
theorem origin_of_run_of_held_step :
    let calls : List Call :=
      [.observe 100, .sample .hashrate1m (.real .nan) (.ok (.real 0.01)) (.real 100) none]
    let g := (new {}).afterAll calls
    (g.filterValue .hashrate1m (.real 150) (.ok (.real 0.01)) .null none).1 = .ok 100 ∧
    Origin {} .hashrate1m (calls ++ [.sample .hashrate1m (.real 150) (.ok (.real 0.01)) .null none]) 100 ∧
    (g.memory.get .hashrate1m).Coherent ∧ FewPositive g.ring := by
  intro calls g
  have hout : (g.filterValue .hashrate1m (.real 150) (.ok (.real 0.01)) .null none).1 = .ok 100 :=
    ok_of_toOption (by decide +kernel)
  obtain ⟨horigin, hcoherent, hring⟩ := origin_of_run {} calls .hashrate1m
  exact ⟨hout, horigin _ _ _ _ _ hout, hcoherent, hring⟩

end Guard

end HashrateChart
