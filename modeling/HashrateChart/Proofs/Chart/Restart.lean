/-
A chart that is started again: what one chart commits another takes back.

The labels come back as they are, and each curve goes through a fresh filter on its
way (`refilterAll`): the filter is not told what confirmed a step when it was drawn
first, nor the live hashrate of that time. So a curve comes back unchanged when it is
`calm`, that is when no value of it is a step that needs more than itself to be
confirmed, and a step that was confirmed is held back once more. What is lost
depends on the curve alone, not on the other curves nor on what else is stored.
-/
import HashrateChart.Proofs.Chart.Redelivery
import HashrateChart.Proofs.Chart.Restore

namespace HashrateChart

namespace Series

theorem trim_of_none {s : Series} {now window : Int} (h : (s.trim now window).1 = 0) :
    (s.trim now window).2 = s := by
  have hcount : s.olderCount (now - max 0 window) = 0 := h
  have hdata : s.data.map (·.drop 0) = s.data := PerChannel.ext_get fun c => by simp
  rw [trim, hcount, List.drop_zero, hdata]

/-- Labels that a commit stores as they are: strictly increasing, exact as binary64 numbers, not too
many, and none before the window. -/
structure Storable (s : Series) (most now window : Int) : Prop where
  ascending : s.labels.Pairwise (· < ·)
  exact : ∀ t ∈ s.labels, Binary64.IsExact t
  length_le : s.labels.length ≤ most.toNat
  untrimmed : (s.trim now window).1 = 0

end Series

namespace Guard

/-- Without live hashrates nothing is known to agree. -/
theorem isSteady_of_no_ring {g : Guard} {cfg : GuardConfig} (ht : g.tuning = .ofConfig cfg)
    (hr : g.ring = []) : g.isSteady = false := by
  have hstable : g.isLiveStable = .ok false := by
    unfold isLiveStable
    rw [ht, hr]
    simp only [Tuning.ofConfig, bind, Except.bind, List.length_nil]
    rw [if_pos (by omega)]
    rfl
  rw [isSteady, hstable]
  rfl

end Guard

namespace Chart

variable {p : Chart} {config : Config} {c : Channel} {m : Guard.Memory} {x : Binary64}

/-! ## The filters once more -/

/-- Whether the values of a channel are filtered when they are taken back. -/
def isFiltered (config : Config) (c : Channel) : Bool := c.isTemperature || config.guard.spikeGuard

/-- What the filters make of a stored value, by what they remember of the channel. -/
def refilter (config : Config) (c : Channel) (m : Guard.Memory) (x : Binary64) :
    Binary64 × Guard.Memory :=
  let x := Sanitize.sample config.sanitize c x
  if x.isFinite && isFiltered config c then
    m.step config.guard.cfg false (Guard.seen config.guard.cfg m c x none)
      (config.guard.thresholds.get c) none
  else (x, m)

/-- What the filters make of a stored curve, value by value. -/
def refilterAll (config : Config) (c : Channel) : Guard.Memory → List Binary64 → List Binary64
  | _, [] => []
  | m, x :: xs => (refilter config c m x).1 :: refilterAll config c (refilter config c m x).2 xs

/-- The filters run with the settings of the configuration, and no live hashrate is known. -/
structure Unlit (p : Chart) : Prop where
  tuning : p.guard.tuning = .ofConfig p.config.guard.cfg
  ring : p.guard.ring = []

theorem Unlit.refilterValue (h : p.Unlit) (c : Channel) (x : Binary64) :
    p.refilterValue c x = refilter p.config c (p.guard.memory.get c) x := by
  unfold Chart.refilterValue refilter isFiltered
  dsimp only
  rw [Guard.sample_ofConfig h.tuning, Guard.isSteady_of_no_ring h.tuning h.ring]

theorem Unlit.restoreRow (h : p.Unlit) (t : Int) (row : PerChannel Binary64) :
    (p.restoreRow t row).Unlit := ⟨h.tuning, h.ring⟩

/-- Rows that are taken back at later and later times are added, each channel filtered by itself. -/
theorem data_replay {rs : List (Int × PerChannel Binary64)} (h : p.Unlit)
    (hasc : (p.series.lastLabel?.toList ++ rs.map (·.1)).Pairwise (· < ·)) (c : Channel) :
    (p.replay rs).series.data.get c =
      p.series.data.get c ++ refilterAll p.config c (p.guard.memory.get c) (rs.map (·.2.get c)) := by
  induction rs generalizing p with
  | nil => exact (List.append_nil _).symm
  | cons r rs ih =>
    obtain ⟨t, row⟩ := r
    have hne : p.series.lastLabel? ≠ some t := by
      intro hl
      rw [hl] at hasc
      exact Int.lt_irrefl t ((List.pairwise_cons.mp hasc).1 t List.mem_cons_self)
    have hseries : (p.restoreRow t row).series = p.series.append t (p.refiltered row) := by
      rw [series_restoreRow, Series.upsert_of_ne hne]
    have hmemory : (p.restoreRow t row).guard.memory.get c =
        (refilter p.config c (p.guard.memory.get c) (row.get c)).2 := by
      rw [← h.refilterValue]
      simp [Chart.restoreRow]
    have hrest : ((p.restoreRow t row).series.lastLabel?.toList ++ rs.map (·.1)).Pairwise (· < ·) := by
      rw [hseries, Series.lastLabel?_append]
      exact (List.pairwise_append.mp hasc).2.1
    rw [replay_cons, ih (h.restoreRow t row) hrest, hseries, hmemory]
    simp only [Series.append, refiltered, PerChannel.get_ofFn, h.refilterValue, List.map_cons,
      refilterAll, List.append_assoc, List.singleton_append]
    rfl

theorem map_get_rows {s : Series} (h : s.Aligned) (c : Channel) :
    (rows s).map (·.2.get c) = s.data.get c := by
  refine List.ext_getElem (by simp [rows, h c]) fun k hk hd => ?_
  simp [rows, hd]

/-- Curves that are taken back: each is filtered once more, from its start. -/
theorem data_restore {stored : Series} (ht : p.guard.tuning = .ofConfig p.config.guard.cfg)
    (hs : stored.InOrder) (c : Channel) :
    (p.restore stored).series.data.get c = refilterAll p.config c {} (stored.data.get c) := by
  have hblank : p.blank.Unlit := ⟨ht, rfl⟩
  have hasc : (p.blank.series.lastLabel?.toList ++ (rows stored).map (·.1)).Pairwise (· < ·) := by
    rw [map_fst_rows]
    exact hs.ascending
  rw [series_restore, data_replay hblank hasc, map_get_rows hs.aligned]
  simp [blank, Series.empty, Guard.reset]

/-! ## Committing -/

/-- The time of the last sample is stored, unless it is beyond the range. -/
theorem storage_saveLast {s : Storage} (hp : p.storage = some s) {n : Number} {i : Int}
    (hn : n.truncate = .ok i) :
    ((discard (onStorage (Storage.saveLast (some n)))).runOn p).2.storage = some s ∨
      ((discard (onStorage (Storage.saveLast (some n)))).runOn p).2.storage =
        some (s.written StorageKeys.lastTimestamp (Decimal.intText i)) := by
  rw [Action.runOn_discard, onStorage_runOn hp]
  rcases Storage.saveLast_runOn s hn with h | h
  · rw [h]
    exact .inl rfl
  · rw [h]
    exact .inr rfl

theorem storage_lastSeen {s : Storage} (hp : p.storage = some s) (last : Option Int) :
    ((if last.isSome then discard <| onStorage (Storage.saveLast (last.map .int)) else pure ()
        : Action Chart Unit).runOn p).2.storage = some s ∨
      ∃ i, ((if last.isSome then discard <| onStorage (Storage.saveLast (last.map .int)) else pure ()
        : Action Chart Unit).runOn p).2.storage =
          some (s.written StorageKeys.lastTimestamp (Decimal.intText i)) := by
  cases last with
  | none => exact .inl hp
  | some i =>
    have hint : (Number.int i).truncate = .ok i := rfl
    rw [if_pos (Option.isSome_some (a := i)), Option.map_some]
    generalize Number.int i = n at hint ⊢
    exact (storage_saveLast hp hint).imp_right fun h => ⟨i, h⟩

/-- What a commit leaves in a storage: the curves, and perhaps the time of the last sample. -/
theorem storage_commit {s : Storage} {st : StoredSeries} {most : Int} (hp : p.storage = some s)
    (hl : p.loaded = true) (hmost : s.maxPoints = .ok most) (now clock : Int)
    (hst : (p.trim now).series.toStored = .ok st) :
    let kept := s.written StorageKeys.chartData ((StoredSeries.normalize st.labels st.data most).print clock)
    ((commit now clock true).runOn p).2.storage = some kept ∨
      ∃ i, ((commit now clock true).runOn p).2.storage =
        some (kept.written StorageKeys.lastTimestamp (Decimal.intText i)) := by
  intro kept
  simp only [commit, Action.runOn_bind, Action.runOn_modify, Action.runOn_get]
  have hq : (p.trim now).storage = some s := hp
  have hready : (true && (p.trim now).storage.isSome && (p.trim now).loaded) = true := by
    rw [hq]
    exact hl
  generalize p.trim now = q at hst hq hready ⊢
  rw [if_pos hready, Action.runOn_bind, Action.runOn_liftM, hst]
  dsimp only
  rw [Action.runOn_bind, Action.runOn_discard, onStorage_runOn hq, Storage.saveSeries_runOn hmost]
  dsimp only [Except.map]
  exact storage_lastSeen (s := kept) rfl q.lastSeen

/-- A commit leaves a storage in order, with its settings. -/
theorem storage_commit_inOrder {s : Storage} {st : StoredSeries} {most : Int} (hp : p.storage = some s)
    (hl : p.loaded = true) (horder : s.InOrder) (hmost : s.maxPoints = .ok most) (now clock : Int)
    (hst : (p.trim now).series.toStored = .ok st) :
    ∃ s', ((commit now clock true).runOn p).2.storage = some s' ∧ s'.InOrder ∧
      s'.maxPoints = .ok most ∧ s'.keys = s.keys := by
  rcases storage_commit hp hl hmost now clock hst with hc | ⟨i, hc⟩
  · exact ⟨_, hc, horder.written _ _, hmost, rfl⟩
  · exact ⟨_, hc, (horder.written _ _).written _ _, hmost, rfl⟩

/-! ## Calm curves -/

/-- Whether a value is a step from the value before that has to be confirmed. -/
def isStep (config : Config) (c : Channel) (x prev : Binary64) : Bool :=
  (0 : Binary64).lt prev && (config.guard.thresholds.get c).lt (Guard.relative x prev)

/-- Whether a value passes the filters after the value before it: it is plausible and, in a channel
that is filtered, in range and no step that has to wait for others. -/
def passes (config : Config) (c : Channel) (prev : Option Binary64) (x : Binary64) : Bool :=
  x.isFinite && decide (Sanitize.sample config.sanitize c x = x) &&
    (!isFiltered config c || (Guard.inRange config.guard.cfg c x &&
      (decide (Guard.confirmations config.guard.cfg none ≤ 1) || prev.all fun v => !isStep config c x v)))

/-- Whether every value of a curve is a gap or passes the filters after the value before it. -/
def calm (config : Config) (c : Channel) : Option Binary64 → List Binary64 → Bool
  | _, [] => true
  | prev, x :: xs =>
    if x = .nan then calm config c prev xs else passes config c prev x && calm config c (some x) xs

theorem refilter_nan (config : Config) (c : Channel) (m : Guard.Memory) :
    refilter config c m .nan = (.nan, m) := by
  have hnan : Sanitize.sample config.sanitize c .nan = .nan := by
    rcases Sanitize.sample_cases config.sanitize c .nan with h | ⟨h, -⟩ <;> exact h
  unfold refilter
  rw [hnan]
  rfl

theorem seen_of_inRange {cfg : GuardConfig} (hr : Guard.inRange cfg c x = true) :
    Guard.seen cfg m c x none = ⟨true, x, none⟩ := by
  unfold Guard.seen
  rw [hr]
  cases c.isHashrate <;> rfl

/-- Without a live hashrate only a step can be held back, and only until it is confirmed. -/
theorem stepFrom_of_inRange {cfg : GuardConfig} {stable : Bool} {v threshold : Binary64}
    (hr : Guard.inRange cfg c x = true)
    (hs : Guard.confirmations cfg none ≤ 1 ∨ ((0 : Binary64).lt v && threshold.lt (Guard.relative x v)) = false) :
    (m.stepFrom cfg stable (Guard.seen cfg m c x none) v threshold none).1 = x := by
  rw [seen_of_inRange hr]
  unfold Guard.Memory.stepFrom Guard.gateOf Guard.leadsToLive Guard.isJump
  simp only [Bool.true_and, Bool.false_eq_true, if_false, if_true]
  rcases hs with hs | hs
  · have hcount : Guard.confirmations cfg none ≤
        (m.suspect (Guard.Memory.directionOf ⟨true, x, none⟩ v)).count := by
      refine Int.le_trans hs ?_
      unfold Guard.Memory.suspect
      split
      · exact Int.ofNat_le.mpr (Nat.le_add_left 1 m.count)
      · exact Int.le_refl 1
    rw [if_pos hcount]
    split <;> rfl
  · rw [hs]
    rfl

theorem refilter_of_passes {prev : Option Binary64} (h : passes config c prev x = true)
    (hm : isFiltered config c = true → m.prev = prev) :
    (refilter config c m x).1 = x ∧
      (isFiltered config c = true → (refilter config c m x).2.prev = some x) := by
  simp only [passes, Bool.and_eq_true, decide_eq_true_eq] at h
  obtain ⟨⟨hfin, hclean⟩, hrest⟩ := h
  unfold refilter
  rw [hclean]
  dsimp only
  rw [hfin]
  cases hf : isFiltered config c with
  | false => exact ⟨rfl, nofun⟩
  | true =>
    rw [hf] at hrest
    simp only [Bool.not_true, Bool.false_or, Bool.and_eq_true, Bool.or_eq_true, decide_eq_true_eq] at hrest
    obtain ⟨hrange, hstep⟩ := hrest
    simp only [Bool.and_self, if_true]
    have hgiven : (m.step config.guard.cfg false (Guard.seen config.guard.cfg m c x none)
        (config.guard.thresholds.get c) none).1 = x := by
      cases hp : m.prev with
      | none =>
        rw [Guard.Memory.step_of_none hp, seen_of_inRange hrange]
        rfl
      | some v =>
        rw [Guard.Memory.step_of_some hp]
        refine stepFrom_of_inRange hrange (hstep.imp_right fun hall => ?_)
        rw [← hm hf, hp] at hall
        show isStep config c x v = false
        simpa using hall
    refine ⟨hgiven, fun _ => ?_⟩
    rw [Guard.Memory.step_remembers, hgiven]

/-- A calm curve comes out of the filters as it is. -/
theorem refilterAll_of_calm {xs : List Binary64} {prev : Option Binary64} (h : calm config c prev xs = true)
    (hm : isFiltered config c = true → m.prev = prev) : refilterAll config c m xs = xs := by
  induction xs generalizing prev m with
  | nil => rfl
  | cons x xs ih =>
    rw [calm] at h
    rw [refilterAll]
    split at h
    · next hx =>
      rw [hx, refilter_nan]
      exact congrArg _ (ih h hm)
    · rw [Bool.and_eq_true] at h
      obtain ⟨hgiven, hprev⟩ := refilter_of_passes h.1 hm
      rw [hgiven, ih h.2 hprev]

/-! ## Starting again -/

theorem sample_gapped (cfg : SanitizeConfig) (c : Channel) (x : Binary64) :
    Sanitize.sample cfg c (StoredSeries.gapped x) = Sanitize.sample cfg c x := by
  unfold StoredSeries.gapped
  cases h : x.isFinite with
  | true => rfl
  | false =>
    simp only [Bool.false_eq_true, if_false, Sanitize.sample, Sanitize.hashrate, Sanitize.temperature, h]
    rfl

/-- The filters take a value without digits for a gap. -/
theorem refilterAll_gapped (config : Config) (c : Channel) (m : Guard.Memory) (xs : List Binary64) :
    refilterAll config c m (xs.map StoredSeries.gapped) = refilterAll config c m xs := by
  have hone (m : Guard.Memory) (x : Binary64) :
      refilter config c m (StoredSeries.gapped x) = refilter config c m x := by
    unfold refilter
    rw [sample_gapped]
  induction xs generalizing m with
  | nil => rfl
  | cons x xs ih => rw [List.map_cons, refilterAll, refilterAll, hone, ih]

/-- A new chart takes back what its storage holds. -/
theorem series_load_new (config : Config) {s : Storage} {st : StoredSeries} {stored : Series}
    (horder : s.InOrder) (hheld : s.held = .ok (some st)) (hst : Series.ofStored st = .ok stored)
    (hs : stored.InOrder) :
    (load.runOn (.new config (some s))).2.series.labels = stored.labels ∧
      ∀ c, (load.runOn (.new config (some s))).2.series.data.get c =
        refilterAll config c {} (stored.data.get c) := by
  obtain ⟨last, hload⟩ := load_runOn (p := .new config (some s)) rfl
  rw [Storage.held_counted horder.counted, Storage.held_counted horder, hheld] at hload
  rw [hload]
  simp only [taken, hst]
  refine ⟨?_, fun c => data_restore rfl hs c⟩
  rw [labels_restore]
  exact Series.foldl_stamped_of_ascending hs.ascending

/-- A new chart over a storage without curves is empty. -/
theorem series_load_new_of_none (config : Config) {s : Storage} (horder : s.InOrder)
    (hheld : s.held = .ok none) : (load.runOn (.new config (some s))).2.series = .empty := by
  obtain ⟨last, hload⟩ := load_runOn (p := .new config (some s)) rfl
  rw [Storage.held_counted horder.counted, Storage.held_counted horder, hheld] at hload
  rw [hload]
  rfl

/-- A new chart takes back what was printed, each curve through a fresh filter. -/
theorem series_load_print (config : Config) {s : Storage} {st : StoredSeries} {stored : Series}
    {most clock : Int} (horder : s.InOrder) (hmost : s.maxPoints = .ok most) (hreg : st.Regular)
    (hlen : st.labels.length ≤ most.toNat)
    (hclock : (Decimal.digits clock.natAbs).length ≤ Decimal.maxIntDigits)
    (hget : s.store.get? s.keys.chartData = some (st.print clock))
    (hback : Series.ofStored st.withGaps = .ok stored.withGaps) (hs : stored.InOrder) :
    (load.runOn (.new config (some s))).2.series.labels = stored.labels ∧
      ∀ c, (load.runOn (.new config (some s))).2.series.data.get c =
        refilterAll config c {} (stored.data.get c) := by
  have hheld : s.held = .ok (some st.withGaps) := by
    rw [horder.held hget, hmost, StoredSeries.ofText_print_regular hreg hlen hclock]
  obtain ⟨hlabels, hdata⟩ := series_load_new config horder hheld hback hs.withGaps
  refine ⟨hlabels, fun c => ?_⟩
  rw [hdata, Series.withGaps, PerChannel.get_map, refilterAll_gapped]

/-- The chart of the next start: the chart commits, and a new one takes back what is stored. -/
def restarted (p : Chart) (config : Config) (now clock : Int) : Chart :=
  (load.runOn (.new config ((commit now clock true).runOn p).2.storage)).2

/-- What is committed comes back: the labels as they are, and each curve through a fresh filter. -/
theorem series_restarted {s : Storage} {most now clock : Int} (config : Config)
    (hp : p.storage = some s) (hl : p.loaded = true) (horder : s.InOrder) (hmost : s.maxPoints = .ok most)
    (hkeys : p.series.labels ≠ [] → s.keys.chartData ≠ s.keys.lastTimestamp) (haligned : p.series.Aligned)
    (hs : p.series.Storable most now p.config.zoom.maxWindow)
    (hclock : (Decimal.digits clock.natAbs).length ≤ Decimal.maxIntDigits) :
    (p.restarted config now clock).series.labels = p.series.labels ∧
      ∀ c, (p.restarted config now clock).series.data.get c =
        refilterAll config c {} (p.series.data.get c) := by
  have hq : (p.trim now).series = p.series := Series.trim_of_none hs.untrimmed
  obtain ⟨st, hst, hreg, hlabels, hback⟩ := Series.toStored_of_exact haligned hs.exact
  have hlen : st.labels.length ≤ most.toNat := hlabels ▸ hs.length_le
  have hinorder : p.series.InOrder := ⟨hs.ascending, haligned⟩
  have hcommit := storage_commit hp hl hmost now clock (hq ▸ hst)
  rw [StoredSeries.normalize_of_regular hreg hlen] at hcommit
  unfold restarted
  rcases hcommit with hc | ⟨i, hc⟩
  · have hget := (Storage.get?_written horder StorageKeys.chartData (st.print clock) _).trans (if_pos rfl)
    rw [hc]
    exact series_load_print config (horder.written _ _) hmost hreg hlen hclock hget hback hinorder
  · have hwritten := horder.written StorageKeys.chartData (st.print clock)
    have horder' := hwritten.written StorageKeys.lastTimestamp (Decimal.intText i)
    have hget := Storage.get?_written hwritten StorageKeys.lastTimestamp (Decimal.intText i) s.keys.chartData
    rw [hc]
    by_cases hk : s.keys.chartData = s.keys.lastTimestamp
    · -- the time of the last sample is written over the curves, of which there are none
      have hnil : p.series.labels = [] := Decidable.byContradiction fun hne => hkeys hne hk
      have hheld := (horder'.held (hget.trans (if_pos hk))).trans (StoredSeries.ofText_intText i _)
      rw [series_load_new_of_none config horder' hheld, hnil]
      refine ⟨rfl, fun c => ?_⟩
      have hdata : p.series.data.get c = [] :=
        List.length_eq_zero_iff.mp (by rw [haligned c, hnil, List.length_nil])
      rw [hdata]
      simp [Series.empty, refilterAll]
    · have hkept := (Storage.get?_written horder StorageKeys.chartData (st.print clock) _).trans (if_pos rfl)
      exact series_load_print config horder' hmost hreg hlen hclock (hget.trans ((if_neg hk).trans hkept))
        hback hinorder

theorem replay_keeps (p : Chart) (rs : List (Int × PerChannel Binary64)) :
    (p.replay rs).config = p.config ∧ (p.replay rs).storage = p.storage ∧
      (p.replay rs).loaded = p.loaded := by
  induction rs generalizing p with
  | nil => exact ⟨rfl, rfl, rfl⟩
  | cons r rs ih => exact ih (p.restoreRow r.1 r.2)

/-- What a load leaves of a new chart, whatever is stored. -/
theorem load_new (config : Config) (s : Storage) :
    let p := (load.runOn (.new config (some s))).2
    p.config = config ∧ p.storage = some s.counted.counted.counted ∧ p.loaded = true ∧ p.series.Aligned := by
  obtain ⟨last, hload⟩ := load_runOn (p := .new config (some s)) rfl
  intro p
  have hp : p = (taken _ s.counted.counted.held).2 := congrArg Prod.snd hload
  rw [hp]
  unfold taken
  split
  · exact ⟨rfl, rfl, rfl, .empty⟩
  · exact ⟨rfl, rfl, rfl, .empty⟩
  · split
    · exact ⟨rfl, rfl, rfl, .empty⟩
    · exact ⟨(replay_keeps _ _).1, (replay_keeps _ _).2.1, (replay_keeps _ _).2.2, aligned_restore _ _⟩

/-- A chart that took back what is stored, and the one that takes back what it commits. -/
theorem series_load_restarted {s : Storage} {most now clock : Int} (config : Config) (horder : s.InOrder)
    (hmost : s.maxPoints = .ok most) (hclock : (Decimal.digits clock.natAbs).length ≤ Decimal.maxIntDigits)
    (hs : (load.runOn (.new config (some s))).2.series.Storable most now config.zoom.maxWindow)
    (hkeys : (load.runOn (.new config (some s))).2.series.labels ≠ [] →
      s.keys.chartData ≠ s.keys.lastTimestamp) :
    ((load.runOn (.new config (some s))).2.restarted config now clock).series.labels =
        (load.runOn (.new config (some s))).2.series.labels ∧
      ∀ c, ((load.runOn (.new config (some s))).2.restarted config now clock).series.data.get c =
        refilterAll config c {} ((load.runOn (.new config (some s))).2.series.data.get c) := by
  obtain ⟨hconfig, hstorage, hloaded, haligned⟩ := load_new config s
  refine series_restarted config hstorage hloaded horder.counted.counted.counted hmost hkeys haligned
    ?_ hclock
  rw [hconfig]
  exact hs

/-- **Starting again without new samples.** A new chart takes back what is stored, and commits it; the
next new chart has the same labels, and each of its curves is what a fresh filter makes of that
curve. So a calm curve stays as it is. -/
theorem load_again {s : Storage} {most now clock : Int} (config : Config) (horder : s.InOrder)
    (hmost : s.maxPoints = .ok most) (hclock : (Decimal.digits clock.natAbs).length ≤ Decimal.maxIntDigits) :
    let p := (load.runOn (.new config (some s))).2
    let q := p.restarted config now clock
    p.series.Storable most now config.zoom.maxWindow →
    (p.series.labels ≠ [] → s.keys.chartData ≠ s.keys.lastTimestamp) →
    q.series.labels = p.series.labels ∧
      ∀ c, q.series.data.get c = refilterAll config c {} (p.series.data.get c) ∧
        (calm config c none (p.series.data.get c) = true → q.series.data.get c = p.series.data.get c) := by
  intro p q hs hkeys
  obtain ⟨hlabels, hdata⟩ := series_load_restarted config horder hmost hclock hs hkeys
  exact ⟨hlabels, fun c => ⟨hdata c, fun hc => (hdata c).trans (refilterAll_of_calm hc fun _ => rfl)⟩⟩

/-! ## A step that is held back again -/

/-- A storage in which nothing is kept yet. -/
def emptyStorage (config : Config) : Storage :=
  ⟨.ofItems [], config.storage.keys, .ok config.storage.maxPoints⟩

/-- A 10m hashrate that rises by a tenth and stays there. -/
def risingBatch : HistoryBatch :=
  ⟨0, [10, 20, 30, 40],
    { PerChannel.replicate [6000, 6000, 6000, 6000] with hashrate10m := [6000, 6600, 6600, 6600] }⟩

def risingSamples : List History.Sample :=
  let values : PerChannel Binary64 := .ofFn fun c => if c.isHashrate then 60000000000 else 60
  let risen := { values with hashrate10m := 66000000000 }
  [⟨10000, values⟩, ⟨20000, risen⟩, ⟨30000, risen⟩, ⟨40000, risen⟩]

theorem decode_risingBatch : History.decode (some risingBatch) = .ok risingSamples :=
  History.decode_of_rows (by decide +kernel) (by decide +kernel) (by simp [risingSamples])

/-- A chart that started with nothing stored and took such a batch. -/
def risen : Chart :=
  (load.runOn (.new {} (some (emptyStorage {})))).2.after (.importBatch (some risingBatch) true)

/-- The step was confirmed by the sample after it. -/
theorem series_risen : risen.series =
    ⟨[10000, 20000, 30000, 40000],
      { PerChannel.ofFn fun c => List.replicate 4 (if c.isHashrate then 60000000000 else 60) with
        hashrate10m := [60000000000, 60000000000, 66000000000, 66000000000] }⟩ := by
  rw [risen, after_importBatch, imported_of_ok decode_risingBatch]
  decide +kernel

theorem kept_risen : risen.config = {} ∧ risen.storage = some (emptyStorage {}).counted.counted.counted ∧
    risen.loaded = true := by
  have hun : risen.unimported = (load.runOn (.new {} (some (emptyStorage {})))).2.unimported := by
    rw [risen, after_importBatch, imported_unimported]
  obtain ⟨hconfig, hstorage, hloaded, -⟩ := load_new {} (emptyStorage {})
  exact ⟨(congrArg config hun).trans hconfig, (congrArg storage hun).trans hstorage,
    (congrArg loaded hun).trans hloaded⟩

theorem aligned_risen : risen.series.Aligned := fun c => by
  rw [series_risen]
  cases c <;> rfl

theorem storable_of_rising {s : Series} (h : s.labels = [10000, 20000, 30000, 40000]) :
    s.Storable 20000 50000 ({} : Config).zoom.maxWindow where
  ascending := by rw [h]; decide
  exact := by rw [h]; decide
  length_le := by rw [h]; decide
  untrimmed := by
    show Series.olderCount _ _ = 0
    rw [Series.olderCount, h]
    decide +kernel

theorem digits_clock : (Decimal.digits (50000 : Int).natAbs).length ≤ Decimal.maxIntDigits :=
  Decimal.few_digits (k := 4) (by decide) (by decide)

/-- What is kept of the step, and the chart of the next start. -/
theorem stored_risen : ∃ s, ((commit 50000 50000 true).runOn risen).2.storage = some s ∧ s.InOrder ∧
    s.maxPoints = .ok 20000 ∧ s.keys = {} ∧
    (load.runOn (.new {} (some s))).2.series.labels = [10000, 20000, 30000, 40000] ∧
    ∀ c, (load.runOn (.new {} (some s))).2.series.data.get c =
      refilterAll {} c {} (risen.series.data.get c) := by
  obtain ⟨hconfig, hstorage, hloaded⟩ := kept_risen
  have hlabels : risen.series.labels = [10000, 20000, 30000, 40000] := by rw [series_risen]
  have hrisen : risen.series.Storable 20000 50000 risen.config.zoom.maxWindow := by
    rw [hconfig]
    exact storable_of_rising hlabels
  have horder : (emptyStorage {}).counted.counted.counted.InOrder := fun _ => rfl
  obtain ⟨st, hst, -⟩ := Series.toStored_of_exact aligned_risen hrisen.exact
  have hmost : (emptyStorage {}).counted.counted.counted.maxPoints = .ok 20000 := rfl
  have hkept : (risen.trim 50000).series.toStored = .ok st := by
    rw [trim, Series.trim_of_none hrisen.untrimmed]
    exact hst
  obtain ⟨s, hs, hsorder, hsmost, hskeys⟩ :=
    storage_commit_inOrder hstorage hloaded horder hmost 50000 50000 hkept
  have hback := series_restarted {} hstorage hloaded horder rfl (fun _ => by decide) aligned_risen hrisen
    digits_clock
  rw [restarted, hs, hlabels] at hback
  exact ⟨s, hs, hsorder, hsmost, hskeys, hback⟩

/-- The temperatures stay as they are, also at the start after the next. -/
theorem temperature_of_step_after_restart : ∃ s,
    ((commit 50000 50000 true).runOn risen).2.storage = some s ∧
    let p := (load.runOn (.new {} (some s))).2
    p.series.Storable 20000 50000 ({} : Config).zoom.maxWindow ∧
    calm {} .vregTemp none (p.series.data.get .vregTemp) = true ∧
    (p.restarted {} 50000 50000).series.labels = p.series.labels ∧
    (p.restarted {} 50000 50000).series.data.get .vregTemp = p.series.data.get .vregTemp := by
  obtain ⟨s, hs, horder, hmost, hkeys, hlabels, hdata⟩ := stored_risen
  have hcalm : calm {} .vregTemp none ((load.runOn (.new {} (some s))).2.series.data.get .vregTemp) = true := by
    rw [hdata, series_risen]
    decide +kernel
  have hstorable := storable_of_rising hlabels
  obtain ⟨hl, hd⟩ := load_again {} horder hmost digits_clock hstorable fun _ => by rw [hkeys]; decide
  exact ⟨s, hs, hstorable, hcalm, hl, (hd .vregTemp).2 hcalm⟩

/-- A step that was confirmed is held back once more at every start, until nothing is left of it. -/
theorem not_same_after_restart :
    ¬ ∀ (config : Config) (calls : List Call) (now clock : Int),
      let w := (load.runOn (.new config (some (emptyStorage config)))).2.afterAll calls
      let p := (load.runOn (.new config w.storage)).2
      p.series.Storable config.storage.maxPoints now config.zoom.maxWindow →
      (p.restarted config now clock).series = p.series := by
  intro h
  have hsame := h {} [.importBatch (some risingBatch) true, .commit 50000 50000 true] 50000 50000
  obtain ⟨s, hs, horder, hmost, hkeys, hlabels, hdata⟩ := stored_risen
  have hw : ((load.runOn (.new {} (some (emptyStorage {})))).2.afterAll
      [.importBatch (some risingBatch) true, .commit 50000 50000 true]).storage = some s := hs
  dsimp only at hsame
  rw [hw] at hsame
  have hstorable := storable_of_rising hlabels
  have hback := (series_load_restarted {} horder hmost digits_clock hstorable
    fun _ => by rw [hkeys]; decide).2 .hashrate10m
  rw [hsame hstorable, hdata, series_risen] at hback
  -- the step of the last two samples comes back as one of the last sample, and then not at all
  exact absurd hback (by decide +kernel)

end Chart

end HashrateChart
