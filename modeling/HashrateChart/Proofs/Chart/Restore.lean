/-
Taking back stored curves at the next start.

The rows are stored one after the other as in an import, so the labels are the
stored ones with repetitions dropped (`labels_restore`), and they strictly increase
exactly when the stored ones never go back (`ascending_restore`): taking back does
not sort. All six lists get one value for each label whatever was stored.

A load takes back what the text under the key of the curves holds, and finds
nothing when there is no text or none of the right kind (`load_runOn`).
-/
import HashrateChart.Chart.Keep
import HashrateChart.Proofs.Storage.Curves

namespace HashrateChart

namespace Chart

variable {p q : Chart}

/-! ## Rows -/

/-- Takes back rows one after the other. -/
def replay (p : Chart) (rs : List (Int × PerChannel Binary64)) : Chart :=
  rs.foldl (fun p (t, row) => p.restoreRow t row) p

@[simp] theorem replay_nil (p : Chart) : p.replay [] = p := rfl

@[simp] theorem replay_cons (p : Chart) (t : Int) (row : PerChannel Binary64)
    (rs : List (Int × PerChannel Binary64)) :
    p.replay ((t, row) :: rs) = (p.restoreRow t row).replay rs := rfl

/-- What the filters make of a stored row. -/
def refiltered (p : Chart) (row : PerChannel Binary64) : PerChannel Binary64 :=
  .ofFn fun c => (p.refilterValue c (row.get c)).1

theorem series_restoreRow (p : Chart) (t : Int) (row : PerChannel Binary64) :
    (p.restoreRow t row).series = p.series.upsert t (p.refiltered row) := by
  have hrow : (PerChannel.ofFn fun c => p.refilterValue c (row.get c)).map (·.1) = p.refiltered row := rfl
  rw [restoreRow]
  dsimp only
  rw [hrow]

theorem labels_replay (p : Chart) (rs : List (Int × PerChannel Binary64)) :
    (p.replay rs).series.labels = (rs.map (·.1)).foldl Series.stamped p.series.labels := by
  induction rs generalizing p with
  | nil => rfl
  | cons r rs ih =>
    obtain ⟨t, row⟩ := r
    rw [replay_cons, ih, series_restoreRow, Series.labels_upsert]
    rfl

theorem aligned_replay (h : p.series.Aligned) (rs : List (Int × PerChannel Binary64)) :
    (p.replay rs).series.Aligned := by
  induction rs generalizing p with
  | nil => exact h
  | cons r rs ih =>
    obtain ⟨t, row⟩ := r
    refine ih ?_
    rw [series_restoreRow]
    exact h.upsert

theorem map_fst_rows (s : Series) : (rows s).map (·.1) = s.labels := by
  rw [rows, List.map_map]
  exact List.zipIdx_map_fst 0 s.labels

/-! ## Restoring -/

/-- A chart before stored curves are taken back. -/
def blank (p : Chart) : Chart := { p with guard := p.guard.reset, series := .empty }

theorem series_restore (p : Chart) (stored : Series) :
    (p.restore stored).series = (p.blank.replay (rows stored)).series := rfl

theorem labels_restore (p : Chart) (stored : Series) :
    (p.restore stored).series.labels = stored.labels.foldl Series.stamped [] := by
  rw [series_restore, labels_replay, map_fst_rows]
  rfl

theorem aligned_restore (p : Chart) (stored : Series) : (p.restore stored).series.Aligned := by
  rw [series_restore]
  exact aligned_replay .empty _

/-- The labels that are taken back strictly increase exactly when the stored ones never go back. -/
theorem ascending_restore (p : Chart) (stored : Series) :
    (p.restore stored).series.labels.Pairwise (· < ·) ↔ stored.labels.Pairwise (· ≤ ·) := by
  rw [labels_restore, Series.ascending_foldl_stamped .nil]
  rfl

/-! ## Loading -/

/-- Takes back what was found, after the times were. -/
def taken (p : Chart) : Result (Option StoredSeries) → Result Bool × Chart
  | .error e => (.error e, p)
  | .ok none => (.ok false, p)
  | .ok (some st) =>
    match Series.ofStored st with
    | .error e => (.error e, p)
    | .ok stored => (.ok true, p.restore stored)

theorem onStorage_runOn {α : Type} {s : Storage} (hs : p.storage = some s) (act : Action Storage α) :
    (onStorage act).runOn p =
      ((act.runOn s).1.map some, { p with storage := some (act.runOn s).2 }) := by
  simp only [onStorage, Action.runOn_bind, Action.runOn_get, hs]
  rcases act.runOn s with ⟨r, t⟩
  simp only [Action.runOn_modify, Action.runOn_liftM]
  cases r <;> rfl

theorem isFinite_of_finiteNumber? {text : String} {x : Binary64}
    (h : Storage.finiteNumber? text = some x) : x.isFinite = true :=
  (Option.filter_eq_some_iff.mp h).2

/-- The end of a load: what is found is taken back. -/
theorem takeBack_runOn {s : Storage} (hs : p.storage = some s) :
    (do
      match (← onStorage Storage.loadSeries).join with
      | none => return false
      | some stored =>
        let stored ← liftM (m := Except Fault) (Series.ofStored stored)
        modify fun p => p.restore stored
        return true : Action Chart Bool).runOn p =
      { p with storage := some s.counted }.taken s.held := by
  rw [Action.runOn_bind, onStorage_runOn hs, Storage.loadSeries_runOn]
  dsimp only
  cases s.held with
  | error e => rfl
  | ok found =>
    cases found with
    | none => rfl
    | some st =>
      simp only [Except.map, Option.join_some, Action.runOn_bind, Action.runOn_liftM, taken]
      cases Series.ofStored st <;> rfl

/-- A load reads the two times, and then takes back what the text of the curves holds. -/
theorem load_runOn {s : Storage} (hs : p.storage = some s) : ∃ last,
    load.runOn p =
      { p with
        storage := some s.counted.counted.counted
        loaded := true
        historyMin := ((s.textAt StorageKeys.minTimestamp).bind Storage.finiteNumber?).map .real
        lastSeen := last }.taken s.counted.counted.held := by
  have hmin : Action.runOn (liftM Storage.loadMin : Action Storage _) s = _ :=
    Storage.loadNumber_runOn s StorageKeys.minTimestamp
  have hlast : Action.runOn (liftM Storage.loadLast : Action Storage _) s.counted = _ :=
    Storage.loadNumber_runOn s.counted StorageKeys.lastTimestamp
  simp only [load, Action.runOn_bind, Action.runOn_modify, Action.runOn_get, hs, Option.isNone_some,
    Bool.false_eq_true, if_false]
  rw [onStorage_runOn (p := { p with storage := some s, loaded := true }) rfl, hmin]
  simp only [Except.map, Option.join_some]
  rw [onStorage_runOn rfl, hlast]
  simp only [Except.map, Option.join_some]
  cases hl : (s.counted.textAt StorageKeys.lastTimestamp).bind Storage.finiteNumber? with
  | none => exact ⟨p.lastSeen, takeBack_runOn rfl⟩
  | some last =>
    obtain ⟨text, -, hf⟩ := Option.bind_eq_some_iff.mp hl
    obtain ⟨i, hi⟩ := Binary64.truncate_of_isFinite (isFinite_of_finiteNumber? hf)
    refine ⟨some i, ?_⟩
    rw [Action.runOn_bind, Action.runOn_liftM, hi]
    dsimp only
    rw [Action.runOn_bind, Action.runOn_modify]
    exact takeBack_runOn rfl

/-- The times of the labels that a text holds never go back. -/
def Forward (text : String) (most : Int) : Prop :=
  ∀ st stored, StoredSeries.ofText text (.ok most) = .ok (some st) → Series.ofStored st = .ok stored →
    stored.labels.Pairwise (· ≤ ·)

/-- **A readable text is taken back.** Whatever a readable text under the key of the curves holds, and
however often the store fails, the stored curves are regular ones or none, the load does not fail,
and every channel has one value for each label. The labels strictly increase when those of the
text never go back. -/
theorem load_of_readable {s : Storage} {most : Int} (hs : p.storage = some s) (hp : p.series.InOrder)
    (hmost : s.maxPoints = .ok most)
    (hread : ∀ text, s.store.get? s.keys.chartData = some text → StoredSeries.Readable text) :
    (∃ found, (Storage.loadSeries.runOn s).1 = .ok found ∧ ∀ st, found = some st → st.Regular) ∧
    (∃ found, (load.runOn p).1 = .ok found) ∧
    (load.runOn p).2.series.Aligned ∧
    ((∀ text, s.store.get? s.keys.chartData = some text → Forward text most) →
      (load.runOn p).2.series.labels.Pairwise (· < ·)) := by
  refine ⟨?_, ?_⟩
  · rw [Storage.loadSeries_runOn]
    rcases Storage.held_cases hmost hread with hn | ⟨text, st, -, ht, hst⟩
    · exact ⟨none, hn, nofun⟩
    · exact ⟨some st, hst, fun _ h => by cases h; exact (StoredSeries.regular_ofText ht).1⟩
  · obtain ⟨last, hload⟩ := load_runOn hs
    rw [hload]
    rcases Storage.held_cases (s := s.counted.counted) hmost hread with hn | ⟨text, st, hget, ht, hst⟩
    · rw [hn]
      exact ⟨⟨false, rfl⟩, hp.aligned, fun _ => hp.ascending⟩
    · obtain ⟨stored, hok, -⟩ := Series.ofStored_of_regular (StoredSeries.regular_ofText ht).1
      rw [hst]
      simp only [taken, hok]
      exact ⟨⟨true, rfl⟩, aligned_restore _ _, fun hfwd =>
        (ascending_restore _ _).mpr (hfwd text hget st stored ht hok)⟩

/-- A store with a text under the key of the curves, and nothing else. -/
def storing (text : String) : Storage :=
  ⟨.ofItems [(({} : StorageKeys).chartData, text)], {}, .ok ({} : StorageConfig).maxPoints⟩

theorem inOrder_storing (text : String) : (storing text).InOrder := fun _ => rfl

theorem get?_storing (text : String) :
    (storing text).store.get? (storing text).keys.chartData = some text := rfl

/-- A stored text with a label that is no number and a list that is too long. -/
def lenientText : String :=
  "\x7b\"v\": 2, \"state\": \x7b\"labels\": [1000, \"x\", 3000], \"dataData10m\": [6e10, 0, 0, 0]\x7d\x7d"

/-- The curves of such a text are taken back without that label. -/
theorem load_of_lenient_text :
    let p := Chart.new {} (some (storing lenientText))
    StoredSeries.Readable lenientText ∧ Forward lenientText 20000 ∧
    (∃ found, (load.runOn p).1 = .ok found) ∧ (load.runOn p).2.series.Aligned ∧
    (load.runOn p).2.series.labels.Pairwise (· < ·) := by
  intro p
  have hlabels : ((StoredSeries.ofText lenientText (.ok 20000)).toOption.join.bind
      fun st => (Series.ofStored st).toOption).map (·.labels) = some [1000, 3000] := by decide +kernel
  have hread : StoredSeries.Readable lenientText := by
    rcases StoredSeries.ofText_cases lenientText 20000 with ⟨h, -⟩ | ⟨-, e, he⟩
    · exact h
    · rw [he] at hlabels
      cases hlabels
  have hfwd : Forward lenientText 20000 := by
    intro st stored hst hstored
    rw [hst] at hlabels
    simp only [Except.toOption, Option.join_some, Option.bind_some, hstored, Option.map_some,
      Option.some.injEq] at hlabels
    rw [hlabels]
    decide
  have honly (text : String)
      (h : (storing lenientText).store.get? (storing lenientText).keys.chartData = some text) :
      text = lenientText := Option.some.inj (h.symm.trans (get?_storing lenientText))
  have hmost : (storing lenientText).maxPoints = .ok 20000 := rfl
  obtain ⟨-, hok, haligned, hasc⟩ := load_of_readable (p := p) rfl Series.InOrder.empty hmost
    fun text h => honly text h ▸ hread
  exact ⟨hread, hfwd, hok, haligned, hasc fun text h => honly text h ▸ hfwd⟩

/-- A text with a label of 401 digits is not read: the load fails. -/
theorem not_load_of_every_text :
    ¬ ∀ text : String, ∃ found, (Storage.loadSeries.runOn (storing text)).1 = .ok found := by
  intro h
  obtain ⟨found, hf⟩ := h (StoredSeries.hugeText 400)
  rw [Storage.loadSeries_runOn, (inOrder_storing _).held (get?_storing _)] at hf
  rcases StoredSeries.ofText_cases (StoredSeries.hugeText 400) 20000 with ⟨hr, -⟩ | ⟨-, e, he⟩
  · exact StoredSeries.not_readable_hugeText (by decide) (by decide) hr
  · cases he.symm.trans hf

end Chart

end HashrateChart
