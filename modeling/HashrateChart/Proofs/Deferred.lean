/-
A slot over any number of calls, with actions that use the slot while they run.

A run is told by its log: all that happened to the slot, in the order in which it happened.
A poll that finds an action due stands in the log before all that the action asks of the
slot, because the slot is emptied before the action runs. What a scheduled action waits for
is read off the log alone (`Waits`): it waits until something else is scheduled, it is
cancelled, or a poll is not before its time. The slot holds exactly the action that waits
(`Follows.pending_iff`), so a poll runs it exactly when it is due (`punctual_of_run`).
-/
import Mathlib.Data.List.Induction
import HashrateChart.Deferred
import HashrateChart.Proofs.Binary64.Order

namespace HashrateChart

/-- A reading of a clock. -/
structure Moment where
  time : Number
  defined : time.isUndefined = false

/-- Whether a time has come. -/
def Moment.reaches (now : Moment) (due : Int) : Bool := (Number.int due).le now.time

theorem Moment.reaches_eq (now : Moment) (due : Int) : now.reaches due = !now.time.lt (.int due) :=
  Number.int_le_eq now.defined due

namespace Deferred

variable {κ : Type}

/-! ## Runs -/

/-- What can be asked of a slot at any time. -/
inductive Request (κ : Type) where
  | schedule (action : κ) (due : Int)
  | cancel

/-- What happens to a slot. -/
inductive Event (κ : Type) where
  | scheduled (action : κ) (due : Int)
  | cancelled
  | polled (now : Moment) (ran : Option κ)

def Request.event : Request κ → Event κ
  | .schedule action due => .scheduled action due
  | .cancel => .cancelled

/-- The slot after a request, whatever it held before. -/
def Request.slot : Request κ → Deferred κ
  | .schedule action due => ⟨some (action, due)⟩
  | .cancel => empty

/-- What is called from outside. -/
inductive Call (κ : Type) where
  | ask (request : Request κ)
  | poll (now : Moment)

/-- What an action asks of the slot while it runs, which may depend on all that has happened. -/
abbrev Behaviour (κ : Type) := List (Event κ) → κ → List (Request κ)

/-- A slot with the log of what happened to it and the answers of the polls. -/
structure Run (κ : Type) where
  slot : Deferred κ
  log : List (Event κ)
  answers : List Bool

namespace Run

def new : Run κ := ⟨empty, [], []⟩

def ask (run : Run κ) : Request κ → Run κ
  | .schedule action due =>
    { run with slot := run.slot.schedule action due, log := run.log ++ [.scheduled action due] }
  | .cancel => { run with slot := run.slot.cancel.2, log := run.log ++ [.cancelled] }

/-- Runs the action that is due, and answers whether there was one. -/
def poll (does : Behaviour κ) (now : Moment) (run : Run κ) : Run κ :=
  match run.slot.poll now.time with
  | (none, slot) => ⟨slot, run.log ++ [.polled now none], run.answers ++ [false]⟩
  | (some action, slot) =>
    let log := run.log ++ [.polled now (some action)]
    let after := (does log action).foldl ask { run with slot, log }
    { after with answers := after.answers ++ [true] }

def call (does : Behaviour κ) (run : Run κ) : Call κ → Run κ
  | .ask request => run.ask request
  | .poll now => run.poll does now

/-- The run of some calls on an empty slot. -/
def ofCalls (does : Behaviour κ) (calls : List (Call κ)) : Run κ := calls.foldl (call does) new

end Run

/-! ## Reading a log -/

/-- Whether an action for a time goes on waiting. -/
def Event.Spares (due : Int) : Event κ → Prop
  | .scheduled .. | .cancelled => False
  | .polled now _ => now.reaches due = false

def Event.ran? : Event κ → Option κ
  | .polled _ ran => ran
  | _ => none

def Event.scheduled? : Event κ → Option κ
  | .scheduled action _ => some action
  | _ => none

def Event.answer? : Event κ → Option Bool
  | .polled _ ran => some ran.isSome
  | _ => none

/-- The action that was scheduled at place `i` of the log still waits at place `n`. -/
structure Waits (log : List (Event κ)) (i n : Nat) (action : κ) (due : Int) : Prop where
  scheduled : log[i]? = some (.scheduled action due)
  lt : i < n
  spared : ∀ (k : Nat) (e : Event κ), i < k → k < n → log[k]? = some e → e.Spares due

variable {log : List (Event κ)} {i j n : Nat} {action : κ} {due : Int} {e : Event κ} {slot slot' : Deferred κ}

/-- An action that was due at a poll does not wait after it. -/
theorem Waits.not_after_due {now : Moment} {ran : Option κ} {k : Nat} (hj : log[j]? = some (.polled now ran))
    (hdue : now.reaches due = true) (hi : i < j) (hk : j < k) : ¬ Waits log i k action due := fun h =>
  absurd (hdue.symm.trans (h.spared j _ hi hk hj)) nofun

/-- What happens later does not matter. -/
theorem waits_append (hn : n ≤ log.length) (more : List (Event κ)) :
    Waits (log ++ more) i n action due ↔ Waits log i n action due := by
  have hget {k : Nat} (hk : k < n) : (log ++ more)[k]? = log[k]? :=
    List.getElem?_append_left (Nat.lt_of_lt_of_le hk hn)
  constructor
  · intro h
    exact ⟨hget h.lt ▸ h.scheduled, h.lt, fun k e hik hkn hk => h.spared k e hik hkn ((hget hkn).trans hk)⟩
  · intro h
    exact ⟨(hget h.lt).trans h.scheduled, h.lt, fun k e hik hkn hk => h.spared k e hik hkn (hget hkn ▸ hk)⟩

/-- After one more event: an action that was just scheduled, or one that was spared. -/
theorem waits_concat :
    (∃ i, Waits (log ++ [e]) i (log.length + 1) action due) ↔
      e = .scheduled action due ∨ (∃ i, Waits log i log.length action due) ∧ e.Spares due := by
  have hlast : (log ++ [e])[log.length]? = some e := List.getElem?_concat_length
  constructor
  · rintro ⟨i, h⟩
    rcases Nat.lt_or_eq_of_le (Nat.le_of_lt_succ h.lt) with hi | rfl
    · have hspares := h.spared log.length e hi (Nat.lt_succ_self _) hlast
      have hbefore : Waits (log ++ [e]) i log.length action due :=
        ⟨h.scheduled, hi, fun k f hik hkn hk => h.spared k f hik (Nat.lt_succ_of_lt hkn) hk⟩
      exact .inr ⟨⟨i, (waits_append (Nat.le_refl _) [e]).mp hbefore⟩, hspares⟩
    · exact .inl (Option.some.inj (hlast.symm.trans h.scheduled))
  · rintro (rfl | ⟨⟨i, h⟩, hspares⟩)
    · exact ⟨log.length, hlast, Nat.lt_succ_self _, fun k f hik hkn _ => by omega⟩
    · have hbefore := (waits_append (Nat.le_refl _) [e]).mpr h
      refine ⟨i, hbefore.scheduled, Nat.lt_succ_of_lt h.lt, fun k f hik hkn hk => ?_⟩
      rcases Nat.lt_or_eq_of_le (Nat.le_of_lt_succ hkn) with hlt | rfl
      · exact hbefore.spared k f hik hlt hk
      · cases hlast.symm.trans hk
        exact hspares

/-! ## One event -/

/-- The slot holds what waits, and every poll of the log has run what was waiting and due. -/
structure Follows (slot : Deferred κ) (log : List (Event κ)) : Prop where
  pending_iff : ∀ action due, slot.pending = some (action, due) ↔ ∃ i, Waits log i log.length action due
  ran_iff : ∀ (j : Nat) (now : Moment) (ran : Option κ), log[j]? = some (.polled now ran) →
    ∀ action, ran = some action ↔ ∃ i due, Waits log i j action due ∧ now.reaches due = true

theorem Follows.new : Follows (empty : Deferred κ) [] where
  pending_iff _ _ := ⟨nofun, fun ⟨_, h⟩ => absurd h.lt (Nat.not_lt_zero _)⟩
  ran_iff _ _ _ := nofun

/-- What one more event has to do to the slot, and a poll to the action that waits in it. -/
theorem Follows.concat (h : Follows slot log)
    (hpending : ∀ action due, slot'.pending = some (action, due) ↔
      e = .scheduled action due ∨ slot.pending = some (action, due) ∧ e.Spares due)
    (hran : ∀ now ran, e = .polled now ran → ∀ action, ran = some action ↔
      ∃ due, slot.pending = some (action, due) ∧ now.reaches due = true) :
    Follows slot' (log ++ [e]) where
  pending_iff action due := by
    rw [List.length_append, List.length_singleton, waits_concat, hpending, h.pending_iff]
  ran_iff j now ran hj action := by
    rcases Nat.lt_trichotomy j log.length with hlt | rfl | hgt
    · rw [List.getElem?_append_left hlt] at hj
      rw [h.ran_iff j now ran hj]
      simp only [waits_append (Nat.le_of_lt hlt)]
    · rw [List.getElem?_concat_length] at hj
      rw [hran now ran (Option.some.inj hj)]
      simp only [waits_append (Nat.le_refl _), h.pending_iff]
      constructor
      · rintro ⟨due, ⟨i, hi⟩, hdue⟩
        exact ⟨i, due, hi, hdue⟩
      · rintro ⟨i, due, hi, hdue⟩
        exact ⟨due, ⟨i, hi⟩, hdue⟩
    · rw [List.getElem?_eq_none (by simp; omega)] at hj
      cases hj

/-- A poll leaves the slot as it is while what waits is not due, and else takes it out. -/
theorem poll_cases (slot : Deferred κ) (now : Moment) :
    slot.poll now.time = (none, slot) ∧
      (∀ action due, slot.pending = some (action, due) → now.reaches due = false) ∨
    ∃ action due, slot.poll now.time = (some action, empty) ∧ slot.pending = some (action, due) ∧
      now.reaches due = true := by
  unfold poll
  cases hp : slot.pending with
  | none => exact .inl ⟨rfl, nofun⟩
  | some waiting =>
    obtain ⟨action, due⟩ := waiting
    simp only [Moment.reaches_eq]
    cases hlt : now.time.lt (.int due) with
    | true =>
      refine .inl ⟨rfl, fun other time h => ?_⟩
      cases h
      rw [hlt]
      rfl
    | false =>
      refine .inr ⟨action, due, rfl, rfl, ?_⟩
      rw [hlt]
      rfl

theorem Follows.ask (h : Follows slot log) (request : Request κ) :
    Follows request.slot (log ++ [request.event]) := by
  cases request with
  | schedule action due =>
    refine h.concat (fun other time => ?_) nofun
    constructor
    · intro hp
      cases hp
      exact .inl rfl
    · rintro (he | ⟨-, hspares⟩)
      · cases he
        rfl
      · cases hspares
  | cancel => exact h.concat (fun _ _ => ⟨nofun, fun he => he.elim nofun fun hs => hs.2.elim⟩) nofun

/-- A poll that finds nothing due. -/
theorem Follows.wait (h : Follows slot log) {now : Moment}
    (hnot : ∀ action due, slot.pending = some (action, due) → now.reaches due = false) :
    Follows slot (log ++ [.polled now none]) := by
  refine h.concat (fun action due => ?_) fun now' ran he action => ?_
  · exact ⟨fun hp => .inr ⟨hp, hnot action due hp⟩, fun he => he.elim nofun And.left⟩
  · cases he
    refine ⟨nofun, fun ⟨due, hp, hdue⟩ => ?_⟩
    rw [hnot action due hp] at hdue
    cases hdue

/-- A poll that takes out the action that is due. -/
theorem Follows.fire (h : Follows slot log) {now : Moment} (hp : slot.pending = some (action, due))
    (hdue : now.reaches due = true) : Follows empty (log ++ [.polled now (some action)]) := by
  refine h.concat (fun other time => ⟨nofun, ?_⟩) fun now' ran he other => ?_
  · rintro (he | ⟨hother, hspares⟩)
    · cases he
    · cases hp.symm.trans hother
      exact absurd (hdue.symm.trans hspares) nofun
  · cases he
    constructor
    · intro hsame
      cases hsame
      exact ⟨due, hp, hdue⟩
    · rintro ⟨time, hother, -⟩
      cases hp.symm.trans hother
      rfl

/-! ## Whole runs -/

/-- What has run, and then what waits, was scheduled in that order. -/
def InTurn (slot : Deferred κ) (log : List (Event κ)) : Prop :=
  (log.filterMap Event.ran? ++ (slot.pending.map Prod.fst).toList).Sublist (log.filterMap Event.scheduled?)

theorem InTurn.sublist (h : InTurn slot log) :
    (log.filterMap Event.ran?).Sublist (log.filterMap Event.scheduled?) :=
  (List.sublist_append_left _ _).trans h

theorem InTurn.ask (h : InTurn slot log) (request : Request κ) : InTurn request.slot (log ++ [request.event]) := by
  unfold InTurn
  rw [List.filterMap_append, List.filterMap_append]
  cases request with
  | schedule action due => exact (List.append_nil (log.filterMap Event.ran?)).symm ▸ h.sublist.append_right [action]
  | cancel =>
    show ((log.filterMap Event.ran? ++ []) ++ []).Sublist (log.filterMap Event.scheduled? ++ [])
    rw [List.append_nil, List.append_nil, List.append_nil]
    exact h.sublist

theorem InTurn.wait (h : InTurn slot log) (now : Moment) : InTurn slot (log ++ [.polled now none]) := by
  unfold InTurn
  rw [List.filterMap_append, List.filterMap_append]
  show ((log.filterMap Event.ran? ++ []) ++ _).Sublist (log.filterMap Event.scheduled? ++ [])
  rw [List.append_nil, List.append_nil]
  exact h

theorem InTurn.fire (h : InTurn slot log) (hp : slot.pending = some (action, due)) (now : Moment) :
    InTurn empty (log ++ [.polled now (some action)]) := by
  unfold InTurn at h ⊢
  rw [hp] at h
  rw [List.filterMap_append, List.filterMap_append]
  show ((log.filterMap Event.ran? ++ [action]) ++ []).Sublist (log.filterMap Event.scheduled? ++ [])
  rw [List.append_nil, List.append_nil]
  exact h

/-- What every event keeps true of a slot and its log. -/
structure Kept (slot : Deferred κ) (log : List (Event κ)) : Prop where
  follows : Follows slot log
  inTurn : InTurn slot log

theorem Kept.ask (h : Kept slot log) (request : Request κ) : Kept request.slot (log ++ [request.event]) :=
  ⟨h.follows.ask request, h.inTurn.ask request⟩

variable {run : Run κ} {now : Moment}

theorem ask_eq (run : Run κ) (request : Request κ) :
    run.ask request = ⟨request.slot, run.log ++ [request.event], run.answers⟩ := by
  cases request <;> rfl

/-- Requests leave what the last of them leaves. -/
theorem foldl_ask (run : Run κ) (requests : List (Request κ)) :
    requests.foldl Run.ask run =
      ⟨(requests.getLast?.map Request.slot).getD run.slot, run.log ++ requests.map Request.event,
        run.answers⟩ := by
  induction requests using List.reverseRecOn with
  | nil =>
    rw [List.map_nil, List.append_nil]
    rfl
  | append_singleton requests request ih =>
    rw [List.foldl_append, ih, List.foldl_cons, List.foldl_nil, ask_eq, List.getLast?_concat, List.map_append,
      ← List.append_assoc]
    rfl

theorem Kept.foldl_ask (run : Run κ) (h : Kept run.slot run.log) (requests : List (Request κ)) :
    Kept (requests.foldl Run.ask run).slot (requests.foldl Run.ask run).log := by
  induction requests generalizing run with
  | nil => exact h
  | cons request requests ih =>
    refine ih _ ?_
    rw [ask_eq]
    exact h.ask request

/-- A run as it should be: every poll runs the action that waits and is due, which then waits no longer, and
answers whether it did; no action is run more often than it was scheduled, and the one that still waits is in
the slot. -/
structure Run.Punctual (run : Run κ) : Prop where
  ran_iff : ∀ (j : Nat) (now : Moment) (ran : Option κ), run.log[j]? = some (.polled now ran) →
    ∀ action, ran = some action ↔ ∃ i due, Waits run.log i j action due ∧ now.reaches due = true
  once : ∀ (i j k : Nat) (now : Moment) (ran : Option κ) (action : κ) (due : Int),
    run.log[j]? = some (.polled now ran) → Waits run.log i j action due → now.reaches due = true → j < k →
    ¬ Waits run.log i k action due
  ran_sublist : (run.log.filterMap Event.ran?).Sublist (run.log.filterMap Event.scheduled?)
  pending_iff : ∀ action due, run.slot.pending = some (action, due) ↔
    ∃ i, Waits run.log i run.log.length action due
  answers_eq : run.answers = run.log.filterMap Event.answer?

/-- A run whose slot follows its log, with an answer for every poll. -/
structure Run.Sound (run : Run κ) : Prop extends Kept run.slot run.log where
  answers_eq : run.answers = run.log.filterMap Event.answer?

theorem Run.Sound.punctual (h : run.Sound) : run.Punctual where
  ran_iff := h.follows.ran_iff
  once _ _ _ _ _ _ _ hj hwaits hdue hk := Waits.not_after_due hj hdue hwaits.lt hk
  ran_sublist := h.inTurn.sublist
  pending_iff := h.follows.pending_iff
  answers_eq := h.answers_eq

theorem answers_of_requests (log : List (Event κ)) (requests : List (Request κ)) :
    (log ++ requests.map Request.event).filterMap Event.answer? = log.filterMap Event.answer? := by
  have hnone : (requests.map Request.event).filterMap Event.answer? = [] := by
    rw [List.filterMap_map, List.filterMap_eq_nil_iff]
    intro request _
    cases request <;> rfl
  rw [List.filterMap_append, hnone, List.append_nil]

theorem Run.Sound.ask (h : run.Sound) (request : Request κ) : (run.ask request).Sound := by
  rw [ask_eq]
  exact ⟨h.toKept.ask request, h.answers_eq.trans (answers_of_requests run.log [request]).symm⟩

/-- What a poll leaves when an action is due: what the action asked for last. -/
theorem poll_of_due (does : Behaviour κ) (run : Run κ) (h : run.slot.poll now.time = (some action, slot)) :
    let log := run.log ++ [.polled now (some action)]
    let asked := does log action
    run.poll does now = ⟨(asked.getLast?.map Request.slot).getD slot, log ++ asked.map Request.event,
      run.answers ++ [true]⟩ := by
  dsimp only
  rw [Run.poll, h]
  dsimp only
  rw [foldl_ask]

theorem Run.Sound.poll (h : run.Sound) (does : Behaviour κ) (now : Moment) : (run.poll does now).Sound := by
  rcases poll_cases run.slot now with ⟨hpoll, hnot⟩ | ⟨action, due, hpoll, hp, hdue⟩
  · have hwait : run.poll does now = ⟨run.slot, run.log ++ [.polled now none], run.answers ++ [false]⟩ := by
      rw [Run.poll, hpoll]
    rw [hwait]
    refine ⟨⟨h.follows.wait hnot, h.inTurn.wait now⟩, ?_⟩
    rw [List.filterMap_append, ← h.answers_eq]
    rfl
  · have hfire : Kept empty (run.log ++ [.polled now (some action)]) :=
      ⟨h.follows.fire hp hdue, h.inTurn.fire hp now⟩
    have hafter := Kept.foldl_ask ⟨empty, _, []⟩ hfire (does (run.log ++ [.polled now (some action)]) action)
    rw [foldl_ask] at hafter
    rw [poll_of_due does run hpoll]
    refine ⟨hafter, ?_⟩
    rw [answers_of_requests, List.filterMap_append, ← h.answers_eq]
    rfl

theorem Run.sound_ofCalls (does : Behaviour κ) (calls : List (Call κ)) : (ofCalls does calls).Sound := by
  unfold ofCalls
  induction calls using List.reverseRecOn with
  | nil => exact ⟨⟨Follows.new, List.Sublist.refl _⟩, rfl⟩
  | append_singleton calls call ih =>
    rw [List.foldl_append]
    cases call with
    | ask request => exact ih.ask request
    | poll now => exact ih.poll does now

/-- **A slot runs its action when it is due, and once.** Whatever the clock reads and whatever the actions ask of
the slot while they run, the run is punctual. A poll that runs an action adds itself to the log and then what
the action asks, and no other poll; the slot is left as the last request leaves it, empty when there is none. -/
theorem punctual_of_run (does : Behaviour κ) (calls : List (Call κ)) :
    (Run.ofCalls does calls).Punctual ∧
    ∀ now action slot, (Run.ofCalls does calls).slot.poll now.time = (some action, slot) →
      let log := (Run.ofCalls does calls).log ++ [.polled now (some action)]
      let asked := does log action
      (Run.ofCalls does (calls ++ [.poll now])).log = log ++ asked.map Request.event ∧
      (Run.ofCalls does (calls ++ [.poll now])).slot = (asked.getLast?.map Request.slot).getD empty := by
  refine ⟨(Run.sound_ofCalls does calls).punctual, fun now action slot hpoll => ?_⟩
  obtain ⟨-, rfl⟩ := poll_eq_some hpoll
  have hlast : Run.ofCalls does (calls ++ [.poll now]) = (Run.ofCalls does calls).poll does now := by
    rw [Run.ofCalls, List.foldl_append]
    rfl
  rw [hlast, poll_of_due does _ hpoll]
  exact ⟨rfl, rfl⟩

end Deferred

end HashrateChart
