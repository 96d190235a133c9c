/-
The reload that follows a restart: when it is planned and when it fires.

A run is told by milestones: a gap is drawn, the 1m curve starts, a reload is
planned, the reload fires. A gap empties the slot and lets the curve start again,
so whatever waits in the slot was planned since the last gap. The gap is planned
for once, because its label is kept as `consumed`, and the start that plans is not
before the cooldown, which only moves on.

A gap can be asked for at a time that has no place. Then no gap is drawn, but the
curve starts a second time after the same gap. If that start plans the reload, the
first one did not because of the cooldown, so it was the earlier one
(`Tracks.blocked`).
-/
import Mathlib.Algebra.Order.Group.Unbundled.Int
import Mathlib.Data.List.Induction
import HashrateChart.Proofs.Chart.Values

namespace HashrateChart

/-- Something on the way from a restart to its reload. -/
inductive Milestone where
  /-- A gap was drawn, at its label. -/
  | cut (label : Int)
  /-- The 1m curve started with a sample, at its time. -/
  | started (t : Int)
  /-- A sample planned a reload for a gap; the reload is due later. -/
  | planned (token t due : Int)
  /-- The reload that was planned for a gap was fired by a poll. -/
  | fired (token now : Int)
  deriving DecidableEq

namespace Milestone

/-! ## Histories -/

/-- A gap was drawn last at a label, and this is what came since. -/
def CutLast (history : List Milestone) (label : Int) (since : List Milestone) : Prop :=
  (∃ old, history = old ++ .cut label :: since) ∧ ∀ other, .cut other ∉ since

def lastCut (history : List Milestone) : Option Int :=
  history.foldl (fun last m => match m with
    | .cut label => some label
    | _ => last) none

/-- What came since the last gap, or from the start when there was none. -/
def sinceCut (history : List Milestone) : List Milestone :=
  history.foldl (fun since m => match m with
    | .cut _ => []
    | m => since ++ [m]) []

variable {history : List Milestone} {m : Milestone} {label t : Int}

theorem lastCut_concat (history : List Milestone) (m : Milestone) :
    lastCut (history ++ [m]) = match m with
      | .cut label => some label
      | _ => lastCut history := by
  simp only [lastCut, List.foldl_append, List.foldl_cons, List.foldl_nil]

theorem sinceCut_concat (history : List Milestone) (m : Milestone) :
    sinceCut (history ++ [m]) = match m with
      | .cut _ => []
      | m => sinceCut history ++ [m] := by
  simp only [sinceCut, List.foldl_append, List.foldl_cons, List.foldl_nil]

theorem cut_not_mem_sinceCut (history : List Milestone) (label : Int) : .cut label ∉ sinceCut history := by
  induction history using List.reverseRecOn with
  | nil => exact List.not_mem_nil
  | append_singleton history m ih =>
    rw [sinceCut_concat]
    cases m with
    | cut other => exact List.not_mem_nil
    | started t => simpa using ih
    | planned token t due => simpa using ih
    | fired token now => simpa using ih

theorem cutLast_of_lastCut (h : lastCut history = some label) : CutLast history label (sinceCut history) := by
  refine ⟨?_, cut_not_mem_sinceCut history⟩
  induction history using List.reverseRecOn with
  | nil => cases h
  | append_singleton history m ih =>
    rw [lastCut_concat] at h
    rw [sinceCut_concat]
    cases m with
    | cut other =>
      cases h
      exact ⟨history, rfl⟩
    | started t | planned token t due | fired token now =>
      obtain ⟨old, hold⟩ := ih h
      exact ⟨old, by rw [← List.cons_append, ← List.append_assoc, ← hold]⟩

/-- Without a gap in between, what was there since the last gap is there still. -/
theorem mem_sinceCut_append {between : List Milestone} (hm : m ∈ sinceCut history)
    (hb : ∀ label, .cut label ∉ between) : m ∈ sinceCut (history ++ between) := by
  induction between using List.reverseRecOn with
  | nil => rwa [List.append_nil]
  | append_singleton between x ih =>
    have hrest := ih fun label hl => hb label (List.mem_append_left _ hl)
    rw [← List.append_assoc, sinceCut_concat]
    cases x with
    | cut label => exact absurd (List.mem_append_right _ (List.mem_singleton_self _)) (hb label)
    | started t | planned token t due | fired token now => exact List.mem_append_left _ hrest

/-! ## What may follow a history -/

/-- What a milestone has to agree with in the history before it. -/
def Allowed (cfg : StartupConfig) (history : List Milestone) : Milestone → Prop
  | .fired token now =>
    lastCut history = some token ∧ (∀ token now, .fired token now ∉ sinceCut history) ∧
      (∃ t, .started t ∈ sinceCut history ∧ .planned token t (t + cfg.smoothWindow) ∈ sinceCut history) ∧
      ∀ t, .started t ∈ sinceCut history → t + cfg.smoothWindow ≤ now
  | .planned _ t _ => ∀ token u due, .planned token u due ∈ history → cfg.reloadCooldown ≤ |t - u|
  | _ => True

def AllAllowed (cfg : StartupConfig) (history : List Milestone) : Prop :=
  ∀ before m after, history = before ++ m :: after → Allowed cfg before m

variable {cfg : StartupConfig}

theorem AllAllowed.nil : AllAllowed cfg [] := by
  intro before m after h
  cases before <;> cases h

theorem AllAllowed.concat (h : AllAllowed cfg history) (hm : Allowed cfg history m) :
    AllAllowed cfg (history ++ [m]) := by
  intro before x after he
  rcases List.eq_nil_or_concat after with rfl | ⟨init, last, rfl⟩
  · obtain ⟨rfl, hx⟩ := List.append_inj' he rfl
    cases hx
    exact hm
  · rw [List.concat_eq_append, ← List.cons_append, ← List.append_assoc] at he
    obtain ⟨hold, -⟩ := List.append_inj' he rfl
    exact h before x init hold

end Milestone

namespace Chart

/-! ## Milestones of a run -/

/-- Drawing a gap, unless its time has no place. -/
def cutMilestones (p : Chart) (t : Int) : List Milestone := (p.series.insertBreak t).1.toList.map .cut

/-- What a sample has put into the slot. -/
def planMilestones (t : Int) (before after : Deferred Int) : List Milestone :=
  if after = before then [] else after.pending.toList.map fun (token, due) => .planned token t due

/-- Offering the 1m value of a sample. -/
def offerMilestones (importing : Bool) (p : Chart) (s : History.Sample) : List Milestone :=
  let q := (p.offer importing s).2
  (if !p.startup.started && q.startup.started then [.started (p.lifted s.time)] else []) ++
    planMilestones (p.lifted s.time) p.reload.slot q.reload.slot

def sampleMilestones (importing : Bool) (p : Chart) (s : History.Sample) : List Milestone :=
  match (p.importSample importing s).1 with
  | .seen => []
  | .cut => p.offerMilestones importing s ++ (p.relocked importing s).cutMilestones (p.lifted s.time - 1)
  | .stored => p.offerMilestones importing s

def allMilestones (importing : Bool) : Chart → List History.Sample → List Milestone
  | _, [] => []
  | p, s :: rest => p.sampleMilestones importing s ++ (p.take importing s).allMilestones importing rest

/-- The gap of a restart that a live poll has detected. -/
def openedMilestones (p : Chart) (t : Int) : List Milestone :=
  if p.warmup.breakPending then p.cutMilestones (t - 1) else []

def samplesMilestones (importing : Bool) (p : Chart) (samples : List History.Sample) : List Milestone :=
  match samples.filter p.accepts with
  | [] => []
  | s :: rest => p.openedMilestones s.time ++ (p.opened s.time).allMilestones importing (s :: rest)

def batchMilestones (p : Chart) (batch : Option HistoryBatch) (importing : Bool) : List Milestone :=
  match History.decode batch with
  | .ok samples => p.samplesMilestones importing samples
  | .error _ => []

/-- A poll that finds the planned reload due. -/
def pollMilestones (p : Chart) (now : Int) : List Milestone :=
  match p.reload.slot.poll (.int now) with
  | (some token, _) => [.fired token now]
  | (none, _) => []

def milestones (p : Chart) : Call → List Milestone
  | .importBatch batch importing => p.batchMilestones batch importing
  | .reload batch => (if p.isReplacedBy batch then p.emptied else p).batchMilestones batch true
  | .pollDeferred now => p.pollMilestones now
  | .observe .. | .commit .. | .clear _ | .frame .. | .takeReload => []

/-- The milestones of a run. -/
def milestonesOf (p : Chart) : List Call → List Milestone
  | [] => []
  | call :: calls => p.milestones call ++ (p.after call).milestonesOf calls

/-! ## The invariant -/

open Milestone

variable {p q : Chart} {history : List Milestone} {importing : Bool} {s : History.Sample} {t : Int}

/-- What planning a reload looks at. -/
def planning (p : Chart) : Config × Option Int × Bool × Bool × Deferred Int × Option Int × Int :=
  (p.config, p.restartToken, p.startup.started, p.startup.smoothArmed, p.reload.slot, p.reload.consumed,
    p.reload.cooldownUntil)

/-- The chart is where its history has led. -/
structure Tracks (p : Chart) (history : List Milestone) : Prop where
  token : p.restartToken = lastCut history
  /-- After a gap the next start of the 1m curve plans. -/
  armed : ∀ token, p.restartToken = some token → p.startup.started = false → p.startup.smoothArmed = true
  /-- What waits was planned since the last gap, by the last start of the 1m curve. -/
  pending : ∀ token due, p.reload.slot.pending = some (token, due) →
    p.restartToken = some token ∧ p.reload.consumed = some token ∧ p.startup.started = true ∧
      (∀ token now, .fired token now ∉ sinceCut history) ∧
      (∃ t, .started t ∈ sinceCut history ∧ .planned token t due ∈ sinceCut history ∧
        due = t + p.config.startup.smoothWindow) ∧
      ∀ t, .started t ∈ sinceCut history → t + p.config.startup.smoothWindow ≤ due
  /-- Only the cooldown has kept a start from planning for the last gap. -/
  blocked : ∀ token, p.restartToken = some token → p.reload.consumed ≠ some token →
    (∀ token now, .fired token now ∉ sinceCut history) ∧
      ∀ t, .started t ∈ sinceCut history → t < p.reload.cooldownUntil
  cooled : p.config.startup.reloadCooldown ≠ 0 → ∀ token t due, .planned token t due ∈ history →
    t + p.config.startup.reloadCooldown ≤ p.reload.cooldownUntil
  allowed : AllAllowed p.config.startup history

/-- A reload is planned after restarts, some time after the 1m curve has started. -/
structure Plans (cfg : StartupConfig) : Prop where
  on : cfg.reloadAfterSmooth = true
  window : 0 < cfg.smoothWindow
  cooldown : 0 ≤ cfg.reloadCooldown

theorem Tracks.new (config : Config) (storage : Option Storage) : (Chart.new config storage).Tracks [] where
  token := rfl
  armed _ h := by cases h
  pending _ _ h := by cases h
  blocked _ h := by cases h
  cooled _ _ _ _ h := by cases h
  allowed := .nil

theorem Tracks.congr (h : p.Tracks history) (hq : q.planning = p.planning) : q.Tracks history := by
  simp only [planning, Prod.mk.injEq] at hq
  obtain ⟨hconfig, htoken, hstarted, harmed, hslot, hconsumed, huntil⟩ := hq
  refine ⟨htoken ▸ h.token, ?_, ?_, ?_, ?_, hconfig ▸ h.allowed⟩
  · rw [htoken, hstarted, harmed]
    exact h.armed
  · rw [hslot, htoken, hconsumed, hstarted, hconfig]
    exact h.pending
  · rw [htoken, hconsumed, huntil]
    exact h.blocked
  · rw [hconfig, huntil]
    exact h.cooled

theorem Tracks.insertBreak (h : p.Tracks history) (t : Int) :
    (p.insertBreak t).Tracks (history ++ p.cutMilestones t) := by
  have hplanning : (p.insertBreak t).planning = (p.config, (p.series.insertBreak t).1.or p.restartToken,
      false, true, .empty, p.reload.consumed, p.reload.cooldownUntil) := by rw [insertBreak_eq]; rfl
  unfold cutMilestones
  revert hplanning
  generalize p.insertBreak t = q
  intro hq
  simp only [planning, Prod.mk.injEq] at hq
  obtain ⟨hconfig, htoken, hstarted, harmed, hslot, hconsumed, huntil⟩ := hq
  cases hc : (p.series.insertBreak t).1 with
  | none =>
    rw [hc, Option.none_or] at htoken
    simp only [Option.toList_none, List.map_nil, List.append_nil]
    refine ⟨htoken ▸ h.token, fun _ _ _ => harmed, ?_, ?_, ?_, hconfig ▸ h.allowed⟩
    · intro token due hp
      rw [hslot] at hp
      cases hp
    · rw [htoken, hconsumed, huntil]
      exact h.blocked
    · rw [hconfig, huntil]
      exact h.cooled
  | some label =>
    rw [hc, Option.some_or] at htoken
    simp only [Option.toList_some, List.map_cons, List.map_nil]
    refine ⟨?_, fun _ _ _ => harmed, ?_, ?_, ?_, hconfig ▸ h.allowed.concat trivial⟩
    · rw [htoken, lastCut_concat]
    · intro token due hp
      rw [hslot] at hp
      cases hp
    · intro token _ _
      rw [sinceCut_concat]
      exact ⟨fun _ _ => List.not_mem_nil, fun _ hm => by cases hm⟩
    · intro hcool token u due hm
      rw [hconfig] at hcool ⊢
      rw [huntil]
      rcases List.mem_append.mp hm with hm | hm
      · exact h.cooled hcool token u due hm
      · cases List.mem_singleton.mp hm

/-! ## Starting and planning -/

/-- What planning a reload comes to: there was no gap yet, or the gap had its turn or the cooldown is not
over, or the reload goes into the slot. -/
theorem planReload_cases (hcfg : Plans p.config.startup) (t : Int) :
    (p.restartToken = none ∧ p.planReload t = p) ∨
    (∃ token, p.restartToken = some token ∧ (p.reload.consumed = some token ∨ t < p.reload.cooldownUntil) ∧
      p.planReload t = { p with startup := { p.startup with smoothArmed := false } }) ∨
    (∃ token, p.restartToken = some token ∧ p.reload.consumed ≠ some token ∧ p.reload.cooldownUntil ≤ t ∧
      p.planReload t = { p with
        startup := { p.startup with smoothArmed := false }
        reload := { p.reload with
          slot := ⟨some (token, t + p.config.startup.smoothWindow)⟩
          consumed := some token
          cooldownUntil := if p.config.startup.reloadCooldown = 0 then p.reload.cooldownUntil
            else t + p.config.startup.reloadCooldown } }) := by
  cases htoken : p.restartToken with
  | none => exact .inl ⟨rfl, by simp only [planReload, htoken]⟩
  | some token =>
    have hon : (p.config.startup.reloadAfterSmooth && decide (0 < p.config.startup.smoothWindow)) = true := by
      rw [hcfg.on, decide_eq_true hcfg.window, Bool.and_self]
    simp only [planReload, htoken, if_pos hon]
    by_cases hb : p.reload.consumed = some token ∨ t < p.reload.cooldownUntil
    · rw [if_pos hb]
      exact .inr (.inl ⟨token, rfl, hb, rfl⟩)
    · rw [if_neg hb]
      obtain ⟨hconsumed, ht⟩ := not_or.mp hb
      exact .inr (.inr ⟨token, rfl, hconsumed, Int.not_lt.mp ht, rfl⟩)

/-- A start of the 1m curve that plans nothing. -/
theorem Tracks.start (h : p.Tracks history) (hslot : p.reload.slot = .empty) (t : Int)
    (hblocked : ∀ token, p.restartToken = some token →
      p.reload.consumed = some token ∨ t < p.reload.cooldownUntil)
    (hq : q.planning = { p with startup := { p.startup with
      started := true, smoothArmed := q.startup.smoothArmed } }.planning) :
    q.Tracks (history ++ [.started t]) := by
  refine Tracks.congr ?_ hq
  refine ⟨by rw [lastCut_concat]; exact h.token, fun _ _ hs => (by cases hs), ?_, ?_, ?_,
    h.allowed.concat trivial⟩
  · intro token due hp
    rw [hslot] at hp
    cases hp
  · intro token htoken hconsumed
    obtain ⟨hfired, hbefore⟩ := h.blocked token htoken hconsumed
    rw [sinceCut_concat]
    refine ⟨fun k now hm => ?_, fun u hu => ?_⟩
    · simp only [List.mem_append, List.mem_singleton, reduceCtorEq, or_false] at hm
      exact hfired k now hm
    · rcases List.mem_append.mp hu with hu | hu
      · exact hbefore u hu
      · cases List.mem_singleton.mp hu
        exact (hblocked token htoken).resolve_left hconsumed
  · intro hcool token u due hm
    simp only [List.mem_append, List.mem_singleton, reduceCtorEq, or_false] at hm
    exact h.cooled hcool token u due hm

/-- A start of the 1m curve that plans the reload for the last gap. -/
theorem Tracks.plan (h : p.Tracks history) (hcfg : Plans p.config.startup) {token : Int}
    (htoken : p.restartToken = some token) (hconsumed : p.reload.consumed ≠ some token)
    (ht : p.reload.cooldownUntil ≤ t)
    (hq : q.planning = (p.config, some token, true, false, ⟨some (token, t + p.config.startup.smoothWindow)⟩,
      some token, if p.config.startup.reloadCooldown = 0 then p.reload.cooldownUntil
        else t + p.config.startup.reloadCooldown)) :
    q.Tracks (history ++ [.started t] ++ [.planned token t (t + p.config.startup.smoothWindow)]) := by
  obtain ⟨hfired, hbefore⟩ := h.blocked token htoken hconsumed
  have hcool := hcfg.cooldown
  simp only [planning, Prod.mk.injEq] at hq
  obtain ⟨hconfig, hqtoken, hqstarted, -, hslot, hqconsumed, huntil⟩ := hq
  refine ⟨?_, fun _ _ hs => ?_, fun token' due hp => ?_, fun token' hk hn => ?_, ?_, ?_⟩
  · rw [hqtoken, lastCut_concat, lastCut_concat, ← h.token, htoken]
  · rw [hqstarted] at hs
    cases hs
  · rw [hslot] at hp
    cases hp
    rw [sinceCut_concat, sinceCut_concat, hconfig]
    -- what waits now is this plan: nothing has fired since the gap, and no start since then is later
    refine ⟨hqtoken, hqconsumed, hqstarted, fun k now hm => ?_, ⟨t, by simp, by simp, rfl⟩, fun u hu => ?_⟩
    · simp only [List.append_assoc, List.mem_append, List.mem_singleton, reduceCtorEq, or_false] at hm
      exact hfired k now hm
    · simp only [List.mem_append, List.mem_singleton, started.injEq, reduceCtorEq, or_false] at hu
      rcases hu with hu | rfl
      · have := hbefore u hu
        omega
      · exact Int.le_refl _
  · rw [hqconsumed, ← hqtoken] at hn
    exact absurd hk hn
  · intro hne token' u due hm
    rw [hconfig] at hne ⊢
    rw [huntil, if_neg hne]
    simp only [List.mem_append, List.mem_singleton, reduceCtorEq, or_false, planned.injEq] at hm
    rcases hm with hm | ⟨-, rfl, -⟩
    · have := h.cooled hne token' u due hm
      omega
    · exact Int.le_refl _
  · rw [hconfig]
    refine (h.allowed.concat (by trivial)).concat fun token' u due hm => ?_
    simp only [List.mem_append, List.mem_singleton, reduceCtorEq, or_false] at hm
    -- without a cooldown nothing is asked of the distance to the plan before
    by_cases hne : p.config.startup.reloadCooldown = 0
    · rw [hne]
      exact abs_nonneg _
    · have := h.cooled hne token' u due hm
      exact Int.le_trans (by omega) (le_abs_self _)

/-- Before the 1m curve starts nothing waits. -/
theorem Tracks.slot_empty (h : p.Tracks history) (hs : p.startup.started = false) : p.reload.slot = .empty := by
  cases hp : p.reload.slot.pending with
  | none => exact congrArg Deferred.mk hp
  | some pending =>
    have hstarted := (h.pending pending.1 pending.2 hp).2.2.1
    rw [hs] at hstarted
    cases hstarted

theorem planMilestones_self (t : Int) (slot : Deferred Int) : planMilestones t slot slot = [] := if_pos rfl

theorem planMilestones_empty (t token due : Int) :
    planMilestones t .empty ⟨some (token, due)⟩ = [.planned token t due] := rfl

/-- Starting the 1m curve. -/
theorem Tracks.startHashrate (h : p.Tracks history) (hcfg : Plans p.config.startup)
    (hs : p.startup.started = false) (t : Int) :
    (p.startHashrate t).Tracks
      (history ++ .started t :: planMilestones t p.reload.slot (p.startHashrate t).reload.slot) := by
  have hslot := h.slot_empty hs
  rw [startHashrate_def]
  cases harmed : p.startup.smoothArmed with
  | false =>
    have htoken : p.restartToken = none := Option.eq_none_iff_forall_not_mem.mpr fun token hk => by
      rw [h.armed token hk hs] at harmed
      cases harmed
    rw [if_neg Bool.false_ne_true]
    refine (planMilestones_self t p.reload.slot).symm ▸ h.start hslot t (fun token hk => ?_) rfl
    rw [htoken] at hk
    cases hk
  | true =>
    rw [if_pos rfl]
    rcases planReload_cases (p := p.started t) hcfg t with
      ⟨hnone, hq⟩ | ⟨token, hk, hb, hq⟩ | ⟨token, hk, hconsumed, hcool, hq⟩
    · rw [hq]
      refine (planMilestones_self t p.reload.slot).symm ▸ h.start hslot t (fun token hk => ?_) rfl
      cases hnone.symm.trans hk
    · rw [hq]
      refine (planMilestones_self t p.reload.slot).symm ▸ h.start hslot t (fun token' hk' => ?_) rfl
      cases hk.symm.trans hk'
      exact hb
    · have hplan := h.plan hcfg (q := (p.started t).planReload t) hk hconsumed hcool (by rw [hq, ← hk]; rfl)
      have hnew : ((p.started t).planReload t).reload.slot =
          ⟨some (token, t + p.config.startup.smoothWindow)⟩ := by rw [hq]; rfl
      rw [List.append_assoc] at hplan
      rw [hnew, hslot, planMilestones_empty]
      exact hplan

theorem Tracks.offer (h : p.Tracks history) (hcfg : Plans p.config.startup) (importing : Bool)
    (s : History.Sample) :
    (p.offer importing s).2.Tracks (history ++ p.offerMilestones importing s) := by
  unfold offerMilestones
  dsimp only
  unfold Chart.offer candidate
  cases hs : p.startup.started with
  | true =>
    rw [if_pos rfl, planMilestones_self]
    simpa using h
  | false =>
    rw [if_neg Bool.false_ne_true]
    by_cases hm : p.mayStart (p.clean s).hashrate1m importing = true
    · rw [if_pos hm]
      rw [startHashrate_started]
      exact h.startHashrate hcfg hs _
    · rw [if_neg hm, planMilestones_self, hs]
      simpa using h

/-! ## Every call -/

theorem Tracks.take (h : p.Tracks history) (hcfg : Plans p.config.startup) (importing : Bool)
    (s : History.Sample) :
    (p.take importing s).Tracks (history ++ p.sampleMilestones importing s) := by
  unfold Chart.take sampleMilestones
  rcases p.importSample_cases importing s with ⟨-, hi⟩ | ⟨-, -, hi⟩ | ⟨-, -, hi⟩ <;> rw [hi]
  · rw [List.append_nil]
    exact h.congr rfl
  · have hlocked : (p.relocked importing s).Tracks (history ++ p.offerMilestones importing s) :=
      (h.offer hcfg importing s).congr rfl
    rw [← List.append_assoc]
    exact (hlocked.insertBreak (p.lifted s.time - 1)).congr rfl
  · exact (h.offer hcfg importing s).congr rfl

theorem Tracks.importAll (h : p.Tracks history) (hcfg : Plans p.config.startup) (importing : Bool)
    (samples : List History.Sample) :
    (p.importAll importing samples).2.Tracks (history ++ p.allMilestones importing samples) := by
  induction samples generalizing p history with
  | nil => simpa [allMilestones] using h
  | cons s rest ih =>
    have hconfig : (p.take importing s).config = p.config :=
      congrArg Prod.fst (settings_of_unimported (take_unimported p importing s))
    rw [importAll_cons, allMilestones, ← List.append_assoc]
    exact ih (h.take hcfg importing s) (hconfig ▸ hcfg)

theorem Tracks.opened (h : p.Tracks history) (t : Int) :
    (p.opened t).Tracks (history ++ p.openedMilestones t) := by
  unfold openedMilestones
  cases hb : p.warmup.breakPending with
  | true =>
    rw [opened_of_pending hb, if_pos rfl]
    exact Tracks.insertBreak (p := { p with warmup := p.warmup.consumeBreak.2 }) (h.congr rfl) (t - 1)
  | false =>
    rw [opened_of_not_pending hb, if_neg Bool.false_ne_true, List.append_nil]
    exact h

theorem Tracks.imported (h : p.Tracks history) (hcfg : Plans p.config.startup) (batch : Option HistoryBatch)
    (importing : Bool) :
    (p.imported batch importing).Tracks (history ++ p.batchMilestones batch importing) := by
  unfold batchMilestones
  cases hd : History.decode batch with
  | error e =>
    rw [imported_of_error hd, List.append_nil]
    exact h
  | ok samples =>
    rw [imported_of_ok hd]
    dsimp only
    unfold samplesMilestones
    cases hf : samples.filter p.accepts with
    | nil =>
      rw [importSamples_of_nil hf, List.append_nil]
      exact h
    | cons s rest =>
      have hconfig : (p.opened s.time).config = p.config :=
        congrArg Prod.fst (settings_of_unimported (opened_unimported p s.time))
      rw [importSamples_of_cons hf, ← List.append_assoc]
      exact (h.opened s.time).importAll (hconfig ▸ hcfg) importing (s :: rest)

theorem Tracks.pollDeferred (h : p.Tracks history) (now : Int) :
    (p.pollDeferred now).2.Tracks (history ++ p.pollMilestones now) := by
  unfold Chart.pollDeferred pollMilestones
  rcases hpoll : p.reload.slot.poll (.int now) with ⟨_ | token, rest⟩
  · cases Deferred.poll_eq_none hpoll
    simpa using h.congr rfl
  · obtain ⟨⟨due, hslot, hdue⟩, rfl⟩ := Deferred.poll_eq_some hpoll
    obtain ⟨htoken, hconsumed, -, hfired, ⟨t, hstart, hplanned, rfl⟩, hlast⟩ := h.pending token due hslot
    have hnow : t + p.config.startup.smoothWindow ≤ now :=
      Int.not_lt.mp (of_decide_eq_false hdue)
    refine ⟨?_, h.armed, fun _ _ hp => ?_, fun token' hk hn => ?_, ?_, h.allowed.concat ?_⟩
    · rw [lastCut_concat]
      exact h.token
    · cases hp
    · cases htoken.symm.trans hk
      exact absurd hconsumed hn
    · intro hcool token' u due hm
      simp only [List.mem_append, List.mem_singleton, reduceCtorEq, or_false] at hm
      exact h.cooled hcool token' u due hm
    · exact ⟨h.token ▸ htoken, hfired, ⟨t, hstart, hplanned⟩, fun u hu => Int.le_trans (hlast u hu) hnow⟩

theorem Tracks.effect (h : p.Tracks history) (hcfg : Plans p.config.startup) (call : Call) :
    (p.effect call).Tracks (history ++ p.milestones call) := by
  have hidle (hm : p.milestones call = []) (hq : (p.effect call).planning = p.planning) :
      (p.effect call).Tracks (history ++ p.milestones call) := by
    rw [hm, List.append_nil]
    exact h.congr hq
  cases call with
  | observe now info =>
    refine hidle rfl ?_
    unfold Chart.effect observe unlock
    dsimp only
    split <;> rfl
  | importBatch batch importing => exact h.imported hcfg batch importing
  | reload batch =>
    simp only [Chart.effect, milestones]
    split
    · exact Tracks.imported (p := p.emptied) (h.congr rfl) hcfg batch true
    · exact h.imported hcfg batch true
  | commit now clock persist => exact hidle rfl rfl
  | clear now => exact hidle rfl rfl
  | frame now window visibility => exact hidle rfl rfl
  | pollDeferred now => exact h.pollDeferred now
  | takeReload => exact hidle rfl rfl

theorem Tracks.afterAll (h : p.Tracks history) (hcfg : Plans p.config.startup) (calls : List Call) :
    (p.afterAll calls).Tracks (history ++ p.milestonesOf calls) := by
  induction calls generalizing p history with
  | nil => simpa [milestonesOf] using h
  | cons call calls ih =>
    obtain ⟨storage, hs⟩ := after_eq p call
    have hconfig : (p.effect call).config = p.config := congrArg Prod.fst (effect_settings p call)
    rw [afterAll_cons, milestonesOf, ← List.append_assoc, hs]
    exact ih ((h.effect hcfg call).congr rfl) (hconfig ▸ hcfg)

/-! ## Any run -/

/-- A reload has fired in the history exactly when the poll says so. -/
theorem pollDeferred_fst (p : Chart) (now : Int) :
    (p.pollDeferred now).1 = true ↔ ∃ token, .fired token now ∈ p.milestones (.pollDeferred now) := by
  simp only [Chart.pollDeferred, milestones, pollMilestones]
  rcases p.reload.slot.poll (.int now) with ⟨_ | token, rest⟩ <;> simp

/-- What a history and the slot that it has led to have in common when reloads are planned. -/
structure Disciplined (cfg : StartupConfig) (history : List Milestone) (slot : Deferred Int) : Prop where
  /-- What waits is the reload of the last gap. -/
  pending : ∀ token due, slot.pending = some (token, due) → ∃ since, CutLast history token since
  /-- A gap has at most one reload: another one fires only after another gap. -/
  once : ∀ before token now between token' now' after,
    history = before ++ .fired token now :: between ++ .fired token' now' :: after →
      ∃ label, .cut label ∈ between
  /-- A reload that fires is the one of the last gap. It was planned by a start of the 1m curve since
  then, and the time to smooth has passed since that start and every other one. -/
  due : ∀ before token now after, history = before ++ .fired token now :: after →
    ∃ since, CutLast before token since ∧
      (∃ t, .started t ∈ since ∧ .planned token t (t + cfg.smoothWindow) ∈ since) ∧
      ∀ t, .started t ∈ since → t + cfg.smoothWindow ≤ now
  /-- Two plans are at least the cooldown apart. -/
  spaced : ∀ before token t due between token' t' due' after,
    history = before ++ .planned token t due :: between ++ .planned token' t' due' :: after →
      cfg.reloadCooldown ≤ |t' - t|

theorem Tracks.disciplined (h : p.Tracks history) : Disciplined p.config.startup history p.reload.slot where
  pending token due hp := by
    obtain ⟨htoken, -⟩ := h.pending token due hp
    exact ⟨_, cutLast_of_lastCut (h.token ▸ htoken)⟩
  once before token now between token' now' after he := by
    obtain ⟨-, hfired, -⟩ := h.allowed _ _ _ he
    by_contra hno
    have hmem : .fired token now ∈ sinceCut (before ++ [.fired token now]) := by
      rw [sinceCut_concat]
      exact List.mem_append_right _ (List.mem_singleton_self _)
    have hstill := mem_sinceCut_append hmem fun label hl => hno ⟨label, hl⟩
    rw [List.append_assoc] at hstill
    exact hfired _ _ hstill
  due before token now after he := by
    obtain ⟨hlast, -, hplanned, hbefore⟩ := h.allowed _ _ _ he
    exact ⟨_, cutLast_of_lastCut hlast, hplanned, hbefore⟩
  spaced before token t due between token' t' due' after he :=
    h.allowed _ _ _ he token t due (List.mem_append_right _ List.mem_cons_self)

/-- **The reload after a restart.** In every run of a new chart the reload that waits is the one of the
last gap; each gap has at most one that fires, not before the 1m curve has started again and had its
time to smooth; and two of them are planned at least the cooldown apart. -/
theorem reload_disciplined {config : Config} (hcfg : Plans config.startup) (storage : Option Storage)
    (calls : List Call) :
    Disciplined config.startup ((Chart.new config storage).milestonesOf calls)
      ((Chart.new config storage).afterAll calls).reload.slot := by
  have htracks := (Tracks.new config storage).afterAll hcfg calls
  have hconfig : ((Chart.new config storage).afterAll calls).config = config :=
    afterAll_induction (I := fun p => p.config = config) calls rfl
      (fun p call _ hp => (congrArg Prod.fst (effect_settings p call)).trans hp) fun _ _ hp => hp
  have hd := htracks.disciplined
  rw [hconfig] at hd
  exact hd

/-- Reloads are planned one second after the 1m curve starts, and the warmup is short. -/
def promptConfig : Config :=
  { startup := { reloadAfterSmooth := true, smoothWindow := 1000 }
    warmup := { vregDelay := 0, asicDelay := 0, hashrateDelay := 0 } }

/-- A sample, one that shows a restart, a poll that ends the warmup, the next sample, and a poll of the
reload. -/
def restartCalls : List Call :=
  let batch (seconds rate : Binary64) : Option HistoryBatch :=
    some ⟨0, [seconds], { PerChannel.replicate [6000] with hashrate1m := [rate] }⟩
  [.importBatch (batch 20 6000) true, .importBatch (batch 30 0) true,
    .observe 40000 ⟨500, 500, 2040, 1, some 60, some 60, none, none⟩,
    .importBatch (batch 50 6000) true, .pollDeferred 51000]

/-- The restart cuts the curve at 29999, the curve starts again at 50000, and the reload fires once its
time to smooth has passed. -/
theorem reload_disciplined_of_restart :
    let history := [.started 20000, .cut 29999, .started 50000, .planned 29999 50000 51000, .fired 29999 51000]
    Plans promptConfig.startup ∧ (Chart.new promptConfig none).milestonesOf restartCalls = history ∧
      Disciplined promptConfig.startup history .empty := by
  intro history
  have hcfg : Plans promptConfig.startup := ⟨rfl, by decide, by decide⟩
  have hhistory : (Chart.new promptConfig none).milestonesOf restartCalls = history := by decide +kernel
  have hslot : ((Chart.new promptConfig none).afterAll restartCalls).reload.slot = .empty := by decide +kernel
  have hd := reload_disciplined hcfg none restartCalls
  rw [hhistory, hslot] at hd
  exact ⟨hcfg, hhistory, hd⟩

end Chart

end HashrateChart
