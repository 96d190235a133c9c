/-
A machine that was reset becomes ready again: four polls do, each as far behind the one before as
a stage waits, and of these only the first one has to be healthy. Polls of any other kind may lie
between them.

Nothing that a waiting machine has noted is taken back by a poll (`GoesOn`), so three facts last
once they hold: every sensor was valid by a time, the regulator is enabled by a time, the chip is.
The poll that is due makes the next one of them true. None of the times that a machine has noted
lies ahead of a poll (`Clocked`), for the polls come in order: so a machine that was faster than
the four polls satisfies the same facts.
-/
import HashrateChart.Proofs.Warmup.Delays

namespace HashrateChart

namespace Warmup

variable {m w x : Warmup} {now t s : Int} {q : Poll}

/-! ## Nothing is taken back -/

/-- One machine is as far as another, or farther: it keeps what the other one has noted. -/
structure GoesOn (m w : Warmup) : Prop where
  cfg : w.cfg = m.cfg
  rank : m.stage.rank ≤ w.stage.rank
  vregFirst : ∀ t, m.timers.vregFirst = some t → w.timers.vregFirst = some t
  asicFirst : ∀ t, m.timers.asicFirst = some t → w.timers.asicFirst = some t
  liveFirst : ∀ t, m.timers.liveFirst = some t → w.timers.liveFirst = some t
  vregEnabled : Stage.asicWait.rank ≤ m.stage.rank → w.timers.vregEnabled = m.timers.vregEnabled
  asicEnabled : Stage.hashrateWait.rank ≤ m.stage.rank → w.timers.asicEnabled = m.timers.asicEnabled

namespace GoesOn

theorem refl (m : Warmup) : m.GoesOn m :=
  ⟨rfl, Nat.le_refl _, fun _ h => h, fun _ h => h, fun _ h => h, fun _ => rfl, fun _ => rfl⟩

theorem trans (h : m.GoesOn w) (h' : w.GoesOn x) : m.GoesOn x where
  cfg := h'.cfg.trans h.cfg
  rank := Nat.le_trans h.rank h'.rank
  vregFirst t ht := h'.vregFirst t (h.vregFirst t ht)
  asicFirst t ht := h'.asicFirst t (h.asicFirst t ht)
  liveFirst t ht := h'.liveFirst t (h.liveFirst t ht)
  vregEnabled hr := (h'.vregEnabled (Nat.le_trans hr h.rank)).trans (h.vregEnabled hr)
  asicEnabled hr := (h'.asicEnabled (Nat.le_trans hr h.rank)).trans (h.asicEnabled hr)

theorem begun (m : Warmup) (q : Poll) : m.GoesOn (m.begun q) where
  cfg := rfl
  rank := by
    change m.stage.rank ≤ (transition m.stage .start).rank
    cases m.stage <;> decide
  vregFirst _ h := noteFirst_of_some h q.now _
  asicFirst _ h := noteFirst_of_some h q.now _
  liveFirst _ h := noteFirst_of_some h q.now _
  vregEnabled _ := rfl
  asicEnabled _ := rfl

theorem left (h : m.isDue now = true) : m.GoesOn (m.left now) := by
  rcases left_cases h with ⟨hs, -, hl⟩ | ⟨hs, -, hl⟩ | ⟨hs, -, hl⟩
  · rw [hl]
    exact ⟨rfl, hs ▸ Nat.le_succ _, fun _ h => h, fun _ h => h, fun _ h => h,
      fun hr => absurd hr (by rw [hs]; decide), fun _ => rfl⟩
  · rw [hl]
    exact ⟨rfl, hs ▸ Nat.le_succ _, fun _ h => h, fun _ h => h, fun _ h => h, fun _ => rfl,
      fun hr => absurd hr (by rw [hs]; decide)⟩
  · rw [hl]
    exact ⟨rfl, hs ▸ Nat.le_succ _, fun _ h => h, fun _ h => h, fun _ h => h, fun _ => rfl, fun _ => rfl⟩

theorem advance (m : Warmup) (now : Int) : m.GoesOn (m.advance now) := by
  rw [advance_eq]
  split
  · next h => exact left h
  · exact refl m

theorem walk (m : Warmup) (now : Int) : m.GoesOn (m.walk now) :=
  walk_induction (I := m.GoesOn) (fun _ hd h => h.trans (left hd)) (refl m)

end GoesOn

/-! ## What is behind a machine -/

/-- A positive time was noted that is no later than another. -/
def NotedBy (t : Option Int) (limit : Int) : Prop := ∃ s, t = some s ∧ 0 < s ∧ s ≤ limit

/-- Every sensor was valid by a time. -/
structure SeenBy (m : Warmup) (limit : Int) : Prop where
  vreg : NotedBy m.timers.vregFirst limit
  asic : NotedBy m.timers.asicFirst limit
  live : NotedBy m.timers.liveFirst limit

/-- The regulator's channel is enabled by a time. -/
structure VregBy (m : Warmup) (limit : Int) : Prop where
  rank : Stage.asicWait.rank ≤ m.stage.rank
  noted : NotedBy m.timers.vregEnabled limit

/-- The chip's channel is enabled by a time. -/
structure AsicBy (m : Warmup) (limit : Int) : Prop where
  rank : Stage.hashrateWait.rank ≤ m.stage.rank
  noted : NotedBy m.timers.asicEnabled limit

theorem SeenBy.goesOn (h : m.SeenBy t) (hw : m.GoesOn w) : w.SeenBy t where
  vreg := h.vreg.imp fun s hs => ⟨hw.vregFirst s hs.1, hs.2⟩
  asic := h.asic.imp fun s hs => ⟨hw.asicFirst s hs.1, hs.2⟩
  live := h.live.imp fun s hs => ⟨hw.liveFirst s hs.1, hs.2⟩

theorem VregBy.goesOn (h : m.VregBy t) (hw : m.GoesOn w) : w.VregBy t where
  rank := Nat.le_trans h.rank hw.rank
  noted := (hw.vregEnabled h.rank).symm ▸ h.noted

theorem AsicBy.goesOn (h : m.AsicBy t) (hw : m.GoesOn w) : w.AsicBy t where
  rank := Nat.le_trans h.rank hw.rank
  noted := (hw.asicEnabled h.rank).symm ▸ h.noted

/-! ## Clocks -/

/-- Whatever time was noted is positive and no later than another. -/
def Within (t : Option Int) (limit : Int) : Prop := ∀ s, t = some s → 0 < s ∧ s ≤ limit

/-- No time that a machine has noted lies ahead, and of the channels that are enabled one was noted. -/
structure Clocked (m : Warmup) (now : Int) : Prop where
  vregFirst : Within m.timers.vregFirst now
  asicFirst : Within m.timers.asicFirst now
  liveFirst : Within m.timers.liveFirst now
  vreg : Stage.asicWait.rank ≤ m.stage.rank → NotedBy m.timers.vregEnabled now
  asic : Stage.hashrateWait.rank ≤ m.stage.rank → NotedBy m.timers.asicEnabled now

theorem NotedBy.mono {o : Option Int} (h : NotedBy o s) (hst : s ≤ t) : NotedBy o t :=
  h.imp fun _ hs => ⟨hs.1, hs.2.1, Int.le_trans hs.2.2 hst⟩

theorem Within.mono {o : Option Int} (h : Within o s) (hst : s ≤ t) : Within o t :=
  fun u hu => ⟨(h u hu).1, Int.le_trans (h u hu).2 hst⟩

theorem Within.noteFirst {o : Option Int} (h : Within o now) (hnow : 0 < now) (holds : Bool) :
    Within (Warmup.noteFirst o now holds) now := by
  intro s hs
  unfold Warmup.noteFirst at hs
  split at hs
  · cases hs
    exact ⟨hnow, Int.le_refl _⟩
  · exact h s hs

/-- After a valid reading the first one is noted. -/
theorem Within.notedBy {o : Option Int} (h : Within o now) (hnow : 0 < now) :
    NotedBy (Warmup.noteFirst o now true) now := by
  cases o with
  | none => exact ⟨now, rfl, hnow, Int.le_refl _⟩
  | some s => exact ⟨s, rfl, h s rfl⟩

namespace Clocked

theorem of_reset (m : Warmup) (t now : Int) : (m.reset t).Clocked now where
  vregFirst _ h := by cases h
  asicFirst _ h := by cases h
  liveFirst _ h := by cases h
  vreg := nofun
  asic := nofun

theorem mono (h : m.Clocked s) (hst : s ≤ t) : m.Clocked t where
  vregFirst := h.vregFirst.mono hst
  asicFirst := h.asicFirst.mono hst
  liveFirst := h.liveFirst.mono hst
  vreg hr := (h.vreg hr).mono hst
  asic hr := (h.asic hr).mono hst

theorem begun (h : m.Clocked q.now) (hnow : 0 < q.now) : (m.begun q).Clocked q.now where
  vregFirst := h.vregFirst.noteFirst hnow _
  asicFirst := h.asicFirst.noteFirst hnow _
  liveFirst := h.liveFirst.noteFirst hnow _
  vreg hr := h.vreg (Staged.rank_of_begun (by decide) hr)
  asic hr := h.asic (Staged.rank_of_begun (by decide) hr)

theorem left (h : m.Clocked now) (hnow : 0 < now) (hd : m.isDue now = true) : (m.left now).Clocked now := by
  rcases left_cases hd with ⟨hs, -, hl⟩ | ⟨hs, -, hl⟩ | ⟨hs, -, hl⟩
  · rw [hl]
    exact ⟨h.vregFirst, h.asicFirst, h.liveFirst, fun _ => ⟨now, rfl, hnow, Int.le_refl _⟩, nofun⟩
  · rw [hl]
    exact ⟨h.vregFirst, h.asicFirst, h.liveFirst, fun _ => h.vreg (le_rank_of_stage hs (by decide)),
      fun _ => ⟨now, rfl, hnow, Int.le_refl _⟩⟩
  · rw [hl]
    exact ⟨h.vregFirst, h.asicFirst, h.liveFirst, fun _ => h.vreg (le_rank_of_stage hs (by decide)),
      fun _ => h.asic (le_rank_of_stage hs (by decide))⟩

theorem advance (h : m.Clocked now) (hnow : 0 < now) : (m.advance now).Clocked now := by
  rw [advance_eq]
  split
  · next hd => exact h.left hnow hd
  · exact h

end Clocked

/-! ## Stages that are due -/

theorem Stage.rank_injective {s s' : Stage} (h : s.rank = s'.rank) : s = s' := by
  cases s <;> cases s' <;> first | rfl | cases h

/-- A stage that is due is left, and one that is past stays so. -/
theorem rank_lt_advance {stage : Stage} (h : stage.rank ≤ m.stage.rank)
    (hdue : m.stage = stage → m.isDue now = true) : stage.rank < (m.advance now).stage.rank := by
  rcases Nat.eq_or_lt_of_le h with heq | hlt
  · have hd := hdue (Stage.rank_injective heq.symm)
    rw [advance_eq, if_pos hd, heq]
    rcases left_cases hd with ⟨hs, -, hl⟩ | ⟨hs, -, hl⟩ | ⟨hs, -, hl⟩
    · rw [hl, hs]
      exact Nat.lt_succ_self _
    · rw [hl, hs]
      exact Nat.lt_succ_self _
    · rw [hl, hs]
      exact Nat.lt_succ_self _
  · exact Nat.lt_of_lt_of_le hlt (GoesOn.advance m now).rank

/-- A poll starts a machine that was locked. -/
theorem rank_begun (m : Warmup) (q : Poll) : Stage.vregWait.rank ≤ (m.begun q).stage.rank := by
  change Stage.vregWait.rank ≤ (transition m.stage .start).rank
  cases m.stage <;> decide

variable {t₀ t₁ t₂ : Int}

/-- A healthy poll has seen every sensor. -/
theorem seenBy_begun (h : m.Clocked q.now) (hnow : 0 < q.now) (hv : q.vregValid m.cfg = true)
    (ha : q.asicValid m.cfg = true) (hl : q.liveValid = true) : (m.begun q).SeenBy q.now := by
  have hvreg : (m.begun q).timers.vregFirst = noteFirst m.timers.vregFirst q.now true :=
    congrArg (noteFirst _ q.now) hv
  have hasic : (m.begun q).timers.asicFirst = noteFirst m.timers.asicFirst q.now true :=
    congrArg (noteFirst _ q.now) ha
  have hlive : (m.begun q).timers.liveFirst = noteFirst m.timers.liveFirst q.now true :=
    congrArg (noteFirst _ q.now) hl
  exact ⟨hvreg ▸ h.vregFirst.notedBy hnow, hasic ▸ h.asicFirst.notedBy hnow,
    hlive ▸ h.liveFirst.notedBy hnow⟩

/-- The regulator is enabled once it was valid for its delay. -/
theorem vregBy_advance (h : m.Clocked now) (hnow : 0 < now) (hstart : Stage.vregWait.rank ≤ m.stage.rank)
    (hseen : m.SeenBy t₀) (hdelay : m.cfg.vregDelay ≤ now - t₀) : (m.advance now).VregBy now := by
  have hr : Stage.vregWait.rank < (m.advance now).stage.rank := by
    refine rank_lt_advance hstart fun hs => ?_
    obtain ⟨first, hf, -, hle⟩ := hseen.vreg
    simp only [isDue, hs, hf, Option.any_some, decide_eq_true_eq]
    omega
  exact ⟨hr, (h.advance hnow).vreg hr⟩

/-- The chip is enabled once the regulator was for its delay; the chip was seen before that. -/
theorem asicBy_advance (h : m.Clocked now) (hnow : 0 < now) (hseen : m.SeenBy t₀) (hvreg : m.VregBy t₁)
    (ht : t₀ ≤ t₁) (hdelay : m.cfg.asicDelay ≤ now - t₁) : (m.advance now).AsicBy now := by
  have hr : Stage.asicWait.rank < (m.advance now).stage.rank := by
    refine rank_lt_advance hvreg.rank fun hs => ?_
    obtain ⟨first, hf, -, hle⟩ := hseen.asic
    obtain ⟨enabled, he, hpos, hle'⟩ := hvreg.noted
    simp only [isDue, hs, hf, Option.any_some, decide_eq_true_eq, noted_of_some he hpos]
    omega
  exact ⟨hr, (h.advance hnow).asic hr⟩

/-- The hashrates are enabled once the chip was for their delay. -/
theorem ready_advance (hseen : m.SeenBy t₀) (hasic : m.AsicBy t₂) (ht : t₀ ≤ t₂)
    (hdelay : m.cfg.hashrateDelay ≤ now - t₂) : (m.advance now).stage = .ready := by
  have hr : Stage.hashrateWait.rank < (m.advance now).stage.rank := by
    refine rank_lt_advance hasic.rank fun hs => ?_
    obtain ⟨first, hf, -, hle⟩ := hseen.live
    obtain ⟨enabled, he, hpos, hle'⟩ := hasic.noted
    simp only [isDue, hs, hf, Option.any_some, decide_eq_true_eq, noted_of_some he hpos]
    omega
  -- no stage is beyond the ready one
  refine Stage.rank_injective (Nat.le_antisymm ?_ hr)
  cases (m.advance now).stage <;> decide

/-! ## Runs of polls -/

/-- Four of some polls, each as far behind the one before as a stage waits. The first one is healthy. -/
structure FourPolls (cfg : WarmupConfig) (polls : List Poll) where
  i₀ : Fin polls.length
  i₁ : Fin polls.length
  i₂ : Fin polls.length
  i₃ : Fin polls.length
  le₁ : i₀ ≤ i₁
  le₂ : i₁ ≤ i₂
  le₃ : i₂ ≤ i₃
  vregValid : polls[i₀].vregValid cfg = true
  asicValid : polls[i₀].asicValid cfg = true
  liveValid : polls[i₀].liveValid = true
  vregDelay : cfg.vregDelay ≤ polls[i₁].now - polls[i₀].now
  asicDelay : cfg.asicDelay ≤ polls[i₂].now - polls[i₁].now
  hashrateDelay : cfg.hashrateDelay ≤ polls[i₃].now - polls[i₂].now

/-- What is behind a machine after the polls up to a place. -/
structure Recovers {cfg : WarmupConfig} {polls : List Poll} (four : FourPolls cfg polls) (m : Warmup)
    (n : Nat) : Prop where
  cfg : m.cfg = cfg
  clocked : ∀ i : Fin polls.length, n ≤ i → m.Clocked polls[i].now
  seen : four.i₀ < n → m.SeenBy polls[four.i₀].now
  vreg : four.i₁ < n → m.VregBy polls[four.i₁].now
  asic : four.i₂ < n → m.AsicBy polls[four.i₂].now
  ready : four.i₃ < n → m.stage = .ready

variable {cfg : WarmupConfig} {polls : List Poll} {four : FourPolls cfg polls}

theorem now_le_now (horder : polls.Pairwise (·.now ≤ ·.now)) {i j : Fin polls.length} (hij : i ≤ j) :
    polls[i].now ≤ polls[j].now := by
  rcases Nat.eq_or_lt_of_le hij with heq | hlt
  · exact Int.le_of_eq (congrArg (fun i : Fin polls.length => polls[i].now) (Fin.ext heq))
  · exact List.pairwise_iff_getElem.mp horder i j i.isLt j.isLt hlt

namespace Recovers

variable {n : Fin polls.length}

theorem clocked_begun (h : Recovers four m n) (hnow : 0 < polls[n].now) :
    (m.begun polls[n]).Clocked polls[n].now := (h.clocked n (Nat.le_refl _)).begun hnow

/-- The first of the four polls, or one before it, has seen every sensor. -/
theorem seen_begun (h : Recovers four m n) (hnow : 0 < polls[n].now) (hn : four.i₀ ≤ n) :
    (m.begun polls[n]).SeenBy polls[four.i₀].now := by
  rcases Nat.lt_or_eq_of_le hn with hlt | heq
  · exact (h.seen hlt).goesOn (.begun m _)
  · obtain rfl := Fin.ext heq
    refine seenBy_begun (h.clocked _ (Nat.le_refl _)) hnow ?_ ?_ four.liveValid
    · rw [h.cfg]
      exact four.vregValid
    · rw [h.cfg]
      exact four.asicValid

/-- The second one enables the regulator, if it is not enabled yet. -/
theorem vreg_advance (h : Recovers four m n) (hnow : 0 < polls[n].now) (hn : four.i₁ ≤ n) :
    ((m.begun polls[n]).advance polls[n].now).VregBy polls[four.i₁].now := by
  rcases Nat.lt_or_eq_of_le hn with hlt | heq
  · exact (h.vreg hlt).goesOn ((GoesOn.begun m _).trans (.advance _ _))
  · obtain rfl := Fin.ext heq
    refine vregBy_advance (h.clocked_begun hnow) hnow (rank_begun m _) (h.seen_begun hnow four.le₁) ?_
    rw [(GoesOn.begun m _).cfg, h.cfg]
    exact four.vregDelay

/-- The third one enables the chip. -/
theorem asic_advance (h : Recovers four m n) (hnow : 0 < polls[n].now)
    (horder : polls.Pairwise (·.now ≤ ·.now)) (hn : four.i₂ ≤ n) :
    (((m.begun polls[n]).advance polls[n].now).advance polls[n].now).AsicBy polls[four.i₂].now := by
  have hfirst : m.GoesOn ((m.begun polls[n]).advance polls[n].now) := (GoesOn.begun m _).trans (.advance _ _)
  rcases Nat.lt_or_eq_of_le hn with hlt | heq
  · exact (h.asic hlt).goesOn (hfirst.trans (.advance _ _))
  · obtain rfl := Fin.ext heq
    have hseen := (h.seen_begun hnow (Fin.le_trans four.le₁ four.le₂)).goesOn (.advance _ polls[four.i₂].now)
    refine asicBy_advance ((h.clocked_begun hnow).advance hnow) hnow hseen (h.vreg_advance hnow four.le₂)
      (now_le_now horder four.le₁) ?_
    rw [hfirst.cfg, h.cfg]
    exact four.asicDelay

/-- The fourth one enables the hashrates. -/
theorem ready_walk (h : Recovers four m n) (hnow : 0 < polls[n].now)
    (horder : polls.Pairwise (·.now ≤ ·.now)) (hwait : m.stage ≠ .ready) (hn : four.i₃ ≤ n) :
    ((m.begun polls[n]).walk polls[n].now).stage = .ready := by
  rcases Nat.lt_or_eq_of_le hn with hlt | heq
  · exact absurd (h.ready hlt) hwait
  · obtain rfl := Fin.ext heq
    have hle₁ := Fin.le_trans four.le₁ (Fin.le_trans four.le₂ four.le₃)
    have hsecond := (GoesOn.advance (m.begun polls[four.i₃]) polls[four.i₃].now).trans
      (.advance _ polls[four.i₃].now)
    have ht := Int.le_trans (now_le_now horder four.le₁) (now_le_now horder four.le₂)
    refine ready_advance ((h.seen_begun hnow hle₁).goesOn hsecond) (h.asic_advance hnow horder four.le₃) ht ?_
    rw [hsecond.cfg, (GoesOn.begun m _).cfg, h.cfg]
    exact four.hashrateDelay

/-- The next poll brings a waiting machine as far as the polls up to it allow. -/
theorem step (h : Recovers four m n) (hpos : ∀ q ∈ polls, 0 < q.now)
    (horder : polls.Pairwise (·.now ≤ ·.now)) (hwait : m.stage ≠ .ready) :
    Recovers four (m.after (.observe polls[n])) (n + 1) := by
  have hnow : 0 < polls[n].now := hpos _ (List.getElem_mem _)
  have hcb := h.clocked_begun hnow
  have hlast (w : Warmup) : w.GoesOn (w.advance polls[n].now) := .advance w _
  rw [after_observe_of_waiting hwait]
  exact {
    cfg := (GoesOn.walk _ _).cfg.trans h.cfg
    clocked := fun i hi =>
      (((hcb.advance hnow).advance hnow).advance hnow).mono (now_le_now horder (Nat.le_of_succ_le hi))
    seen := fun hn => (h.seen_begun hnow (Nat.le_of_lt_succ hn)).goesOn (.walk _ _)
    vreg := fun hn => (h.vreg_advance hnow (Nat.le_of_lt_succ hn)).goesOn ((hlast _).trans (hlast _))
    asic := fun hn => (h.asic_advance hnow horder (Nat.le_of_lt_succ hn)).goesOn (hlast _)
    ready := fun hn => h.ready_walk hnow horder hwait (Nat.le_of_lt_succ hn) }

end Recovers

/-- **Recovery completes.** A machine that was reset and takes polls with positive times that do not go
back is ready at some point up to the last of any four polls that follow each other after the delays,
whatever the other polls read. -/
theorem ready_of_four_polls (m : Warmup) (resetTime : Int) {polls : List Poll}
    (four : FourPolls m.cfg polls) (hpos : ∀ q ∈ polls, 0 < q.now) (horder : polls.Pairwise (·.now ≤ ·.now)) :
    ∃ n ≤ four.i₃.val + 1, ((m.reset resetTime).afterAll ((polls.take n).map .observe)).stage = .ready := by
  refine Classical.byContradiction fun hnever => ?_
  have hwait (n : Nat) (hn : n ≤ four.i₃.val + 1) :
      ((m.reset resetTime).afterAll ((polls.take n).map .observe)).stage ≠ .ready :=
    fun hs => hnever ⟨n, hn, hs⟩
  have hrun (n : Nat) (hn : n ≤ four.i₃.val + 1) :
      Recovers four ((m.reset resetTime).afterAll ((polls.take n).map .observe)) n := by
    induction n with
    | zero => exact ⟨rfl, fun i _ => .of_reset m resetTime _, nofun, nofun, nofun, nofun⟩
    | succ n ih =>
      have hlen : n < polls.length := Nat.lt_of_le_of_lt (Nat.le_of_succ_le_succ hn) four.i₃.isLt
      have hle := Nat.le_of_succ_le hn
      rw [List.take_succ_eq_append_getElem hlen, List.map_append, List.map_singleton, afterAll_concat]
      exact (ih hle).step (n := ⟨n, hlen⟩) hpos horder (hwait n hle)
  exact hwait _ (Nat.le_refl _) ((hrun _ (Nat.le_refl _)).ready (Nat.lt_succ_self _))

/-- A boot with gaps: every other poll is silent. -/
def patchyBoot : List Poll :=
  [silentPoll 600, soundPoll 1000, silentPoll 1500, soundPoll 2400, silentPoll 2500, soundPoll 3200,
    silentPoll 3300, soundPoll 3500]

/-- The sound polls of the boot with gaps. -/
def patchyFour : FourPolls {} patchyBoot where
  i₀ := ⟨1, by decide⟩
  i₁ := ⟨3, by decide⟩
  i₂ := ⟨5, by decide⟩
  i₃ := ⟨7, by decide⟩
  le₁ := by decide
  le₂ := by decide
  le₃ := by decide
  vregValid := by decide +kernel
  asicValid := by decide +kernel
  liveValid := by decide +kernel
  vregDelay := by decide
  asicDelay := by decide
  hashrateDelay := by decide

theorem ready_of_patchy_boot :
    let m := (Warmup.new {} .ready).reset 500
    (m.afterAll ((patchyBoot.take 7).map .observe)).stage = .hashrateWait ∧
      ∃ n ≤ 8, (m.afterAll ((patchyBoot.take n).map .observe)).stage = .ready :=
  have hpos : ∀ q ∈ patchyBoot, 0 < q.now := by simp [patchyBoot, soundPoll, silentPoll]
  have horder : patchyBoot.Pairwise (·.now ≤ ·.now) := by simp [patchyBoot, soundPoll, silentPoll]
  ⟨by decide +kernel, ready_of_four_polls (.new {} .ready) 500 patchyFour hpos horder⟩

end Warmup

end HashrateChart
