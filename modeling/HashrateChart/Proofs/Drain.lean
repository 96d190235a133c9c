/-
A drain ends, and it only moves forward, whatever the device answers.

Nothing counts the rounds of a drain: it goes on as long as chunks come full and the last label of
the chart moves. An import never takes that label back, and once it is past every time that the
device gives, no chunk moves it. So each round that is followed by another one raises the label, and
what is left up to the latest time bounds the rounds. The first round of an empty chart finds no
label, and counts as one more.

A host may be anything that drains a chart of its state and leaves the curves alone otherwise
(`Host.Drives`). A fetch may look at that state and change the rest of it as it likes. A monitor is
such a host, so its drain ends as well (`drainHost_ends`).
-/
import HashrateChart.Drain.Script
import HashrateChart.Proofs.Chart.Forward
import HashrateChart.Proofs.Monitor.Moves

namespace HashrateChart

namespace Drain

open HashrateChart.Action (Keeps keeps_of_preserves exists_of_runOn_bind)

/-! ## Hosts -/

variable {σ : Type}

/-- The curves of the chart that a state holds. -/
def curves (view : σ → Chart) (s : σ) : Series := (view s).series

/-- A host drains the chart of a state: it takes a chunk as an import, and none of its other actions
touches the curves before the drain ends. -/
structure Host.Drives (host : Host (Action σ)) (view : σ → Chart) : Prop where
  take : ∀ b s, view ((host.take b).runOn s).2 = (view s).imported (some b) true
  lastLabel : ∀ s, host.lastLabel.runOn s = (.ok (view s).series.lastLabel?, s)
  clock : Keeps (curves view) host.clock
  stopping : Keeps (curves view) host.stopping
  render : ∀ act, host.render = some act → Keeps (curves view) act

theorem Script.readClock_keeps : Keeps (curves Script.chart) Script.readClock := by
  intro s
  simp only [readClock, Action.runOn_bind, Action.runOn_get]
  split <;> rfl

theorem Script.host_drives (renders : Bool) : (Script.host renders).Drives Script.chart where
  take b s := by
    rw [← Chart.importBatch_runOn]
    simp only [Script.host, Script.onChart, Action.runOn_bind, Action.runOn_get, Action.runOn_modify,
      Action.runOn_liftM]
  lastLabel s := rfl
  clock := Script.readClock_keeps
  stopping := .bind .get fun _ => .pure _
  render act h := by
    cases renders with
    | false => cases h
    | true =>
      cases h
      exact .modify fun _ => rfl

/-! ## Rounds -/

/-- What asks the device for a chunk since a time. -/
abbrev Fetch (σ : Type) := Option Int → Action σ (Option HistoryBatch)

variable {host : Host (Action σ)} {view : σ → Chart} {cfg : DrainConfig} {fetch : Fetch σ}
  {d e : Drain} {s t : σ}

/-- One round of a drain: it fetches a chunk and takes it. -/
def round (host : Host (Action σ)) (cfg : DrainConfig) (fetch : Fetch σ) (d : Drain) : Action σ Next := do
  receive host cfg d (← fetch d.cursor)

/-- A run is a round, and the rest of the run unless the drain has ended. -/
theorem run_runOn (fuel : Nat) (d : Drain) (s : σ) :
    (run host cfg fetch (fuel + 1) d).runOn s =
      match (round host cfg fetch d).runOn s with
      | (.ok (.waiting e), t) => (run host cfg fetch fuel e).runOn t
      | (.ok (.finished total), t) => (.ok (some total), t)
      | (.error e, t) => (.error e, t) := by
  simp only [run, round, Action.runOn_bind]
  rcases (fetch d.cursor).runOn s with ⟨_ | chunk, u⟩
  · rfl
  · dsimp only
    rcases (receive host cfg d chunk).runOn u with ⟨_ | ⟨_ | _⟩, t⟩ <;> rfl

/-- The rounds of a run: the drain of each, and the state in which it fetches. -/
def rounds (host : Host (Action σ)) (cfg : DrainConfig) (fetch : Fetch σ) :
    Nat → Drain → σ → List (Drain × σ)
  | 0, _, _ => []
  | fuel + 1, d, s =>
    (d, s) ::
      match (round host cfg fetch d).runOn s with
      | (.ok (.waiting e), t) => rounds host cfg fetch fuel e t
      | _ => []

theorem renderBetween_keeps (hhost : host.Drives view) (cfg : DrainConfig) (last : Int) :
    Keeps (curves view) (renderBetween host cfg last) :=
  keeps_of_preserves fun c => renderBetween_preserves (hhost.clock.preserves c)
    (fun act hact => (hhost.render act hact).preserves c) cfg last

theorem label_of_runOn (hhost : host.Drives view) {label : Option Int}
    (h : host.lastLabel.runOn s = (.ok label, t)) : (curves view s).lastLabel? = label ∧ s = t := by
  cases (hhost.lastLabel s).symm.trans h
  exact ⟨rfl, rfl⟩

theorem cursorAfter_eq_some {b : HistoryBatch} {before after : Option Int} {cursor : Int}
    (h : cursorAfter cfg b before after = some cursor) :
    ∃ last, after = some last ∧ before ≠ some last ∧ cursor = last + 1 := by
  unfold cursorAfter at h
  cases after with
  | none => cases h
  | some last =>
    dsimp only at h
    split at h
    · cases h
    · next hn =>
      cases h
      exact ⟨last, rfl, fun hb => hn (.inl hb.symm), rfl⟩

/-- A drain that goes on after a chunk has moved the last label, and asks for what follows it. -/
theorem receive_waiting (hhost : host.Drives view) {chunk : Option HistoryBatch}
    (h : (receive host cfg d chunk).runOn s = (.ok (.waiting e), t)) :
    ∃ b last, chunk = some b ∧ curves view t = ((view s).imported (some b) true).series ∧
      (curves view t).lastLabel? = some last ∧ (curves view s).lastLabel? ≠ some last ∧
      e.cursor = some (last + 1) := by
  unfold receive at h
  cases hc : chunk.filter fun b => !b.times.isEmpty with
  | none =>
    rw [hc] at h
    exact (not_waiting_of_finish h).elim
  | some b =>
    rw [hc] at h
    obtain ⟨before, u, hbefore, hu⟩ := exists_of_runOn_bind h
    obtain ⟨stored, w, htake, hw⟩ := exists_of_runOn_bind hu
    obtain ⟨after, x, hafter, hx⟩ := exists_of_runOn_bind hw
    obtain ⟨lastRender, y, hrender, hy⟩ := exists_of_runOn_bind hx
    -- looking at the label leaves the state, and drawing leaves the curves
    obtain ⟨rfl, rfl⟩ := label_of_runOn hhost hbefore
    obtain ⟨rfl, rfl⟩ := label_of_runOn hhost hafter
    have htaken : curves view w = ((view s).imported (some b) true).series := by
      rw [← hhost.take b s, htake, curves]
    have hdrawn : curves view y = curves view w :=
      (renderBetween_keeps hhost cfg d.lastRender).eq_of_runOn hrender
    cases hcursor : cursorAfter cfg b (curves view s).lastLabel? (curves view w).lastLabel? with
    | none =>
      rw [hcursor] at hy
      exact (not_waiting_of_finish hy).elim
    | some cursor =>
      rw [hcursor] at hy
      obtain ⟨stopping, z, hstopping, hz⟩ := exists_of_runOn_bind hy
      have hasked : curves view z = curves view w := (hhost.stopping.eq_of_runOn hstopping).trans hdrawn
      cases stopping with
      | true => cases hz
      | false =>
        cases hz
        obtain ⟨last, hlast, hne, rfl⟩ := cursorAfter_eq_some hcursor
        exact ⟨b, last, (Option.filter_eq_some_iff.mp hc).1, hasked.trans htaken, hasked ▸ hlast, hne, rfl⟩

/-- What a round does that another one follows: it takes the chunk that was fetched, which moves the last
label, and the next round asks for what follows the label. -/
theorem round_waiting (hhost : host.Drives view) (hfetch : ∀ start, Keeps (curves view) (fetch start))
    (h : (round host cfg fetch d).runOn s = (.ok (.waiting e), t)) :
    ∃ b u last, (fetch d.cursor).runOn s = (.ok (some b), u) ∧ curves view u = curves view s ∧
      curves view t = ((view u).imported (some b) true).series ∧ (curves view t).lastLabel? = some last ∧
      (curves view s).lastLabel? ≠ some last ∧ e.cursor = some (last + 1) := by
  unfold round at h
  obtain ⟨chunk, u, hchunk, hu⟩ := exists_of_runOn_bind h
  obtain ⟨b, last, rfl, htaken, hlast, hne, hcursor⟩ := receive_waiting hhost hu
  have hkept : curves view u = curves view s := (hfetch d.cursor).eq_of_runOn hchunk
  exact ⟨b, u, last, hchunk, hkept, htaken, hlast, hkept ▸ hne, hcursor⟩

/-! ## Forward -/

/-- From one round to the next the last label was raised, and the next one asks for what follows it. -/
def MovesOn (view : σ → Chart) (x y : Drain × σ) : Prop :=
  ∃ last, (curves view y.2).lastLabel? = some last ∧ y.1.cursor = some (last + 1) ∧
    ∀ before, (curves view x.2).lastLabel? = some before → before < last

/-- What a round fetches has no sample after a time. -/
def BringsUpTo (fetch : Fetch σ) (latest : Int) (x : Drain × σ) : Prop :=
  ∀ b, ((fetch x.1.cursor).runOn x.2).1 = .ok (some b) → ∀ y ∈ History.samples (some b), y.time ≤ latest

variable {fuel : Nat} {before latest : Int}

theorem movesOn_of_waiting (hhost : host.Drives view) (hfetch : ∀ start, Keeps (curves view) (fetch start))
    (h : (round host cfg fetch d).runOn s = (.ok (.waiting e), t)) : MovesOn view (d, s) (e, t) := by
  obtain ⟨b, u, last, -, hkept, htaken, hlast, hne, hcursor⟩ := round_waiting hhost hfetch h
  refine ⟨last, hlast, hcursor, fun before hbefore => ?_⟩
  obtain ⟨next, hnext, hle⟩ :=
    Chart.follows_imported (view u) (some b) true before ((congrArg Series.lastLabel? hkept).trans hbefore)
  obtain rfl : next = last := Option.some.inj (hnext.symm.trans (htaken ▸ hlast))
  have hbn : before ≠ next := fun hb => hne (hb ▸ hbefore)
  omega

/-- A round that another one follows starts from a label that is not past the latest time. -/
theorem le_latest_of_waiting (hhost : host.Drives view) (hfetch : ∀ start, Keeps (curves view) (fetch start))
    (hup : BringsUpTo fetch latest (d, s)) (hbefore : (curves view s).lastLabel? = some before)
    (h : (round host cfg fetch d).runOn s = (.ok (.waiting e), t)) : before ≤ latest := by
  obtain ⟨b, u, last, hchunk, hkept, htaken, hlast, hne, -⟩ := round_waiting hhost hfetch h
  refine Int.not_lt.mp fun hlt => hne ?_
  -- a chunk that is past leaves the label where it is
  have hpast : (view u).imported (some b) true = view u := by
    refine Chart.imported_of_past ((congrArg Series.lastLabel? hkept).trans hbefore) fun x hx => ?_
    exact Int.lt_of_le_of_lt (hup b (congrArg Prod.fst hchunk) x hx) hlt
  rw [hpast] at htaken
  exact (congrArg Series.lastLabel? (htaken.trans hkept)).symm.trans hlast

/-! ## Runs -/

theorem rounds_of_waiting (h : (round host cfg fetch d).runOn s = (.ok (.waiting e), t)) (fuel : Nat) :
    rounds host cfg fetch (fuel + 1) d s = (d, s) :: rounds host cfg fetch fuel e t := by
  rw [rounds, h]

/-- A run goes on after its first round, or it ends with it. -/
theorem rounds_cases (host : Host (Action σ)) (cfg : DrainConfig) (fetch : Fetch σ) (d : Drain) (s : σ) :
    (∃ e t, (round host cfg fetch d).runOn s = (.ok (.waiting e), t)) ∨
      ∀ fuel, rounds host cfg fetch (fuel + 1) d s = [(d, s)] ∧
        ((run host cfg fetch (fuel + 1) d).runOn s).1 ≠ .ok none := by
  cases hr : (round host cfg fetch d).runOn s with
  | mk r t =>
    cases r with
    | error e =>
      refine .inr fun fuel => ⟨by rw [rounds, hr], ?_⟩
      rw [run_runOn, hr]
      exact nofun
    | ok next =>
      cases next with
      | waiting e => exact .inl ⟨e, t, rfl⟩
      | finished total =>
        refine .inr fun fuel => ⟨by rw [rounds, hr], ?_⟩
        rw [run_runOn, hr]
        exact nofun

/-- A run that has not ended has made as many rounds as it was allowed to. -/
theorem length_rounds_of_run (h : ((run host cfg fetch fuel d).runOn s).1 = .ok none) :
    (rounds host cfg fetch fuel d s).length = fuel := by
  induction fuel generalizing d s with
  | zero => rfl
  | succ fuel ih =>
    rcases rounds_cases host cfg fetch d s with ⟨e, t, hr⟩ | hend
    · rw [run_runOn, hr] at h
      rw [rounds_of_waiting hr, List.length_cons, ih h]
    · exact absurd h (hend fuel).2

/-- What the rounds of a run fetch, those after the first one fetch. -/
theorem bringsUpTo_of_waiting (h : (round host cfg fetch d).runOn s = (.ok (.waiting e), t))
    (hup : ∀ fuel, ∀ x ∈ rounds host cfg fetch fuel d s, BringsUpTo fetch latest x) :
    ∀ fuel, ∀ x ∈ rounds host cfg fetch fuel e t, BringsUpTo fetch latest x := by
  intro fuel x hx
  refine hup (fuel + 1) x ?_
  rw [rounds_of_waiting h]
  exact List.mem_cons_of_mem _ hx

/-- The label that a run starts from bounds its rounds. -/
theorem length_rounds_le (hhost : host.Drives view) (hfetch : ∀ start, Keeps (curves view) (fetch start))
    (hup : ∀ fuel, ∀ x ∈ rounds host cfg fetch fuel d s, BringsUpTo fetch latest x)
    (hbefore : (curves view s).lastLabel? = some before) (fuel : Nat) :
    (rounds host cfg fetch fuel d s).length ≤ (latest + 1 - before).toNat + 1 := by
  induction fuel generalizing d s before with
  | zero => exact Nat.zero_le _
  | succ fuel ih =>
    rcases rounds_cases host cfg fetch d s with ⟨e, t, hr⟩ | hend
    · obtain ⟨last, hlast, -, hlt⟩ := movesOn_of_waiting hhost hfetch hr
      have hle := le_latest_of_waiting hhost hfetch (hup 1 (d, s) List.mem_cons_self) hbefore hr
      have hlt := hlt before hbefore
      have hrest : (rounds host cfg fetch fuel e t).length ≤ (latest + 1 - last).toNat + 1 :=
        ih (bringsUpTo_of_waiting hr hup) hlast
      rw [rounds_of_waiting hr, List.length_cons]
      omega
    · rw [(hend fuel).1]
      exact Nat.le_add_left 1 _

/-- Whatever curves a run starts from, its rounds are bounded: an empty chart has its label after the
first one. -/
theorem exists_length_rounds_le (hhost : host.Drives view)
    (hfetch : ∀ start, Keeps (curves view) (fetch start))
    (hup : ∀ fuel, ∀ x ∈ rounds host cfg fetch fuel d s, BringsUpTo fetch latest x) :
    ∃ n, ∀ fuel, (rounds host cfg fetch fuel d s).length ≤ n := by
  cases hs : (curves view s).lastLabel? with
  | some before => exact ⟨_, length_rounds_le hhost hfetch hup hs⟩
  | none =>
    rcases rounds_cases host cfg fetch d s with ⟨e, t, hr⟩ | hend
    · obtain ⟨last, hlast, -, -⟩ := movesOn_of_waiting hhost hfetch hr
      have hrest := length_rounds_le hhost hfetch (bringsUpTo_of_waiting hr hup) hlast
      refine ⟨(latest + 1 - last).toNat + 2, fun fuel => ?_⟩
      cases fuel with
      | zero => exact Nat.zero_le _
      | succ fuel =>
        rw [rounds_of_waiting hr, List.length_cons]
        exact Nat.succ_le_succ (hrest fuel)
    · refine ⟨1, fun fuel => ?_⟩
      cases fuel with
      | zero => exact Nat.zero_le _
      | succ fuel =>
        rw [(hend fuel).1]
        exact Nat.le_refl 1

theorem movesOn_of_rounds (hhost : host.Drives view) (hfetch : ∀ start, Keeps (curves view) (fetch start))
    {k : Nat} {x y : Drain × σ} (hx : (rounds host cfg fetch fuel d s)[k]? = some x)
    (hy : (rounds host cfg fetch fuel d s)[k + 1]? = some y) : MovesOn view x y := by
  induction fuel generalizing d s k with
  | zero => cases hx
  | succ fuel ih =>
    rcases rounds_cases host cfg fetch d s with ⟨e, t, hr⟩ | hend
    · rw [rounds_of_waiting hr] at hx hy
      rw [List.getElem?_cons_succ] at hy
      cases k with
      | zero =>
        cases hx
        cases fuel with
        | zero => cases hy
        | succ fuel =>
          cases hy
          exact movesOn_of_waiting hhost hfetch hr
      | succ k => exact ih hx hy
    · rw [(hend fuel).1] at hy
      cases hy

/-- There is a number of fetches that a run never exceeds, and with more to spend it has ended. -/
theorem exists_fetches_bound (hhost : host.Drives view) (hfetch : ∀ start, Keeps (curves view) (fetch start))
    (hup : ∀ fuel, ∀ x ∈ rounds host cfg fetch fuel d s, BringsUpTo fetch latest x) :
    ∃ n, ∀ fuel, (rounds host cfg fetch fuel d s).length ≤ n ∧
      (n < fuel → ((run host cfg fetch fuel d).runOn s).1 ≠ .ok none) := by
  obtain ⟨n, hn⟩ := exists_length_rounds_le hhost hfetch hup
  refine ⟨n, fun fuel => ⟨hn fuel, fun hlt hout => ?_⟩⟩
  have hlen := length_rounds_of_run hout
  have hle := hn fuel
  omega

/-- From the third fetch on each asks for a later time than the one before. -/
theorem cursor_lt_of_rounds (hhost : host.Drives view) (hfetch : ∀ start, Keeps (curves view) (fetch start))
    {k : Nat} {x y : Drain × σ} (hx : (rounds host cfg fetch fuel d s)[k]? = some x)
    (hy : (rounds host cfg fetch fuel d s)[k + 1]? = some y) (hk : 1 ≤ k) :
    ∃ c c', x.1.cursor = some c ∧ y.1.cursor = some c' ∧ c < c' := by
  -- the round before has raised the label that the cursor of this one follows
  obtain ⟨j, rfl⟩ := Nat.exists_eq_add_of_le' hk
  obtain ⟨w, hw⟩ : ∃ w, (rounds host cfg fetch fuel d s)[j]? = some w := by
    have hlen := (List.getElem?_eq_some_iff.mp hx).1
    exact ⟨_, List.getElem?_eq_getElem (by omega)⟩
  obtain ⟨before, hbefore, hcursor, -⟩ := movesOn_of_rounds hhost hfetch hw hx
  obtain ⟨last, -, hcursor', hlt⟩ := movesOn_of_rounds hhost hfetch hx hy
  have := hlt before hbefore
  exact ⟨before + 1, last + 1, hcursor, hcursor', by omega⟩

/-- **A drain ends and only moves forward.** However the device answers a drain, as long as its samples
are not after some time, and whatever chart the drain finds: there is a number of fetches that it never
exceeds, and with more to spend it has ended. Each round that another one follows raises the last label,
and from the third fetch on each asks for a later time than the one before. -/
theorem ends_of_bounded (hhost : host.Drives view) (hfetch : ∀ start, Keeps (curves view) (fetch start))
    (cfg : DrainConfig) (d : Drain) (s : σ) (latest : Int)
    (hup : ∀ fuel, ∀ x ∈ rounds host cfg fetch fuel d s, BringsUpTo fetch latest x) :
    (∃ n, ∀ fuel, (rounds host cfg fetch fuel d s).length ≤ n ∧
      (n < fuel → ((run host cfg fetch fuel d).runOn s).1 ≠ .ok none)) ∧
    ∀ fuel (k : Nat) (x y : Drain × σ), (rounds host cfg fetch fuel d s)[k]? = some x →
      (rounds host cfg fetch fuel d s)[k + 1]? = some y →
      MovesOn view x y ∧
        (1 ≤ k → ∃ c c', x.1.cursor = some c ∧ y.1.cursor = some c' ∧ c < c') := by
  refine ⟨exists_fetches_bound hhost hfetch hup, fun fuel k x y hx hy => ?_⟩
  exact ⟨movesOn_of_rounds hhost hfetch hx hy, cursor_lt_of_rounds hhost hfetch hx hy⟩

/-- A sample of a device that works, at 10 s. -/
def earlyChunk : HistoryBatch := ⟨0, [10], .replicate [6000]⟩

/-- The same sample again and one at 20 s. -/
def lateChunk : HistoryBatch := ⟨0, [10, 20], .replicate [6000, 6000]⟩

/-- A device that ignores the time it is asked for, once it is asked for one. -/
def deafFetch : Fetch Script := fun start =>
  pure (some (if start.isNone then earlyChunk else lateChunk))

theorem ends_of_deaf_fetch :
    let cfg : DrainConfig := { chunkSize := 1 }
    let s : Script := ⟨.new {} none, 50000, [], [], none, 0, false, []⟩
    (∃ n, ∀ fuel, (rounds (Script.host true) cfg deafFetch fuel ⟨none, 0, 0⟩ s).length ≤ n ∧
      (n < fuel → ((run (Script.host true) cfg deafFetch fuel ⟨none, 0, 0⟩).runOn s).1 ≠ .ok none)) ∧
    ∀ fuel (k : Nat) (x y : Drain × Script),
      (rounds (Script.host true) cfg deafFetch fuel ⟨none, 0, 0⟩ s)[k]? = some x →
      (rounds (Script.host true) cfg deafFetch fuel ⟨none, 0, 0⟩ s)[k + 1]? = some y →
      MovesOn Script.chart x y ∧
        (1 ≤ k → ∃ c c', x.1.cursor = some c ∧ y.1.cursor = some c' ∧ c < c') := by
  intro cfg s
  let values : PerChannel Binary64 := .ofFn fun c => if c.isHashrate then 60000000000 else 60
  have hearly : History.decode (some earlyChunk) = .ok [⟨10000, values⟩] :=
    History.decode_of_rows (by decide +kernel) (by decide +kernel) (List.pairwise_singleton _ _)
  have hlate : History.decode (some lateChunk) = .ok [⟨10000, values⟩, ⟨20000, values⟩] :=
    History.decode_of_rows (by decide +kernel) (by decide +kernel) (by simp)
  refine ends_of_bounded (Script.host_drives true) (fun _ => .pure _) cfg ⟨none, 0, 0⟩ s 20000 ?_
  intro fuel x hx b hb
  cases hb
  split
  · rw [History.samples_of_ok hearly]
    simp
  · rw [History.samples_of_ok hlate]
    simp

/-! ## The drain of a monitor -/

/-- The drain of a monitor works on the monitor's chart; drawing it remembers axes, no curves. -/
theorem drainHost_drives : Monitor.drainHost.Drives Monitor.chart where
  take b m := by
    rw [← Chart.importBatch_runOn]
    have htake := Monitor.onChart_runOn (Chart.importBatch (some b) true) m
    exact congrArg (·.2.chart) htake
  lastLabel m := rfl
  clock := .bind .get fun _ => .pure _
  stopping := .bind .get fun _ => .pure _
  render act h := by
    cases h
    have hframe now window visibility : Keeps Chart.series (Chart.frame now window visibility) := fun p => by
      rw [Chart.frame_runOn]
    exact Monitor.chart_of_seen (Monitor.render_keeps hframe)

/-- The drain of a monitor ends as well, and only moves forward: whatever happens to the monitor while it
waits for the device, as long as the curves are left to the drain and no sample is after some time. -/
theorem drainHost_ends {fetch : Fetch Monitor} (hfetch : ∀ start, Keeps (curves Monitor.chart) (fetch start))
    (cfg : DrainConfig) (d : Drain) (m : Monitor) (latest : Int)
    (hup : ∀ fuel, ∀ x ∈ rounds Monitor.drainHost cfg fetch fuel d m, BringsUpTo fetch latest x) :
    (∃ n, ∀ fuel, (rounds Monitor.drainHost cfg fetch fuel d m).length ≤ n ∧
      (n < fuel → ((run Monitor.drainHost cfg fetch fuel d).runOn m).1 ≠ .ok none)) ∧
    ∀ fuel (k : Nat) (x y : Drain × Monitor), (rounds Monitor.drainHost cfg fetch fuel d m)[k]? = some x →
      (rounds Monitor.drainHost cfg fetch fuel d m)[k + 1]? = some y →
      MovesOn Monitor.chart x y ∧
        (1 ≤ k → ∃ c c', x.1.cursor = some c ∧ y.1.cursor = some c' ∧ c < c') := by
  refine ⟨exists_fetches_bound drainHost_drives hfetch hup, fun fuel k x y hx hy => ?_⟩
  exact ⟨movesOn_of_rounds drainHost_drives hfetch hx hy, cursor_lt_of_rounds drainHost_drives hfetch hx hy⟩

end Drain

end HashrateChart
