/-
What the storage gives and what it keeps, call by call.

A read never fails and changes nothing but the count of calls (`Storage.counted`);
whether the store is in order only decides if a text is there (`textAt`). So the
stored curves are what the text under their key holds, if one is there. In a store
that is always in order what was written last is there, and the other keys give what
they gave (`get?_written`).
-/
import HashrateChart.Proofs.Action
import HashrateChart.Proofs.Storage.Document
import HashrateChart.Storage

namespace HashrateChart

namespace Storage

variable {s : Storage} {key : StorageKeys → String} {text : String} {most : Int}

/-! ## Reading -/

/-- The text that a read gives: none when the store is out of order, and none for an empty one. -/
def textAt (s : Storage) (key : StorageKeys → String) : Option String :=
  (if s.store.isOut then none else s.store.get? (key s.keys)).filter (· ≠ "")

/-- The storage after a read. -/
def counted (s : Storage) : Storage := { s with store := s.store.count }

/-- A call either gives what it says or, when the store is out of order, what stands in for it. -/
theorem attempt_run {α : Type} (s : Storage) (f : StorageKeys → Store → α × Store) (otherwise : α) :
    (attempt (fun keys => Store.access (f keys)) otherwise).run s =
      if s.store.isOut then (otherwise, s.counted)
      else ((f s.keys s.store.count).1, { s with store := (f s.keys s.store.count).2 }) := by
  have haccess := Store.access_run (f s.keys) s.store
  simp only [attempt, StateT.run] at haccess ⊢
  rw [haccess]
  cases s.store.isOut <;> rfl

theorem read_run (s : Storage) (key : StorageKeys → String) :
    (read key).run s = (s.textAt key, s.counted) := by
  have hrun : (read key).run s =
      (((attempt (fun keys => Store.read (key keys)) none).run s).1.filter (· ≠ ""),
        ((attempt (fun keys => Store.read (key keys)) none).run s).2) := rfl
  unfold Store.read at hrun
  rw [hrun, attempt_run, textAt]
  split <;> rfl

theorem read_runOn (s : Storage) (key : StorageKeys → String) :
    Action.runOn (liftM (read key) : Action Storage _) s = (.ok (s.textAt key), s.counted) := by
  have hread : Action.runOn (liftM (read key) : Action Storage _) s =
      (.ok ((read key).run s).1, ((read key).run s).2) := rfl
  rw [hread, read_run]

theorem loadNumber_runOn (s : Storage) (key : StorageKeys → String) :
    Action.runOn (liftM (loadNumber key) : Action Storage _) s =
      (.ok ((s.textAt key).bind finiteNumber?), s.counted) := by
  have hread : Action.runOn (liftM (loadNumber key) : Action Storage _) s =
      (.ok (((read key).run s).1.bind finiteNumber?), ((read key).run s).2) := rfl
  rw [hread, read_run]

theorem get?_of_textAt (h : s.textAt key = some text) : s.store.get? (key s.keys) = some text := by
  have hf := (Option.filter_eq_some_iff.mp h).1
  split at hf
  · cases hf
  · exact hf

/-- The stored curves: what the text under their key holds. -/
def held (s : Storage) : Result (Option StoredSeries) :=
  match s.textAt StorageKeys.chartData with
  | none => .ok none
  | some text => StoredSeries.ofText text s.maxPoints

theorem loadSeries_runOn (s : Storage) : loadSeries.runOn s = (s.held, s.counted) := by
  unfold loadSeries held
  rw [Action.runOn_bind, read_runOn]
  cases s.textAt StorageKeys.chartData with
  | none => rfl
  | some text =>
    simp only [Action.runOn_bind, Action.runOn_liftM]
    have hstate : Option.mapM StoredSeries.state (some text) = some <$> StoredSeries.state text := rfl
    rw [hstate, StoredSeries.ofText]
    cases StoredSeries.state text with
    | error e => rfl
    | ok found =>
      cases found with
      | none => rfl
      | some j =>
        simp only [Functor.map, Except.map, Action.runOn_bind, Action.runOn_get, Action.runOn_liftM]
        have hmost : s.counted.maxPoints = s.maxPoints := rfl
        rw [hmost]
        simp only [bind, Except.bind]
        cases StoredSeries.ofDocument j s.maxPoints <;> rfl

/-- What is stored is regular when its text is readable, and no text at all is as good. -/
theorem held_cases (hmost : s.maxPoints = .ok most)
    (hread : ∀ text, s.store.get? s.keys.chartData = some text → StoredSeries.Readable text) :
    s.held = .ok none ∨ ∃ text st, s.store.get? s.keys.chartData = some text ∧
      StoredSeries.ofText text (.ok most) = .ok (some st) ∧ s.held = .ok (some st) := by
  unfold held
  cases ht : s.textAt StorageKeys.chartData with
  | none => exact .inl rfl
  | some text =>
    have hget := get?_of_textAt ht
    dsimp only
    rw [hmost]
    rcases StoredSeries.ofText_cases text most with ⟨-, hn | ⟨labels, data, hs⟩⟩ | ⟨hn, -⟩
    · exact .inl hn
    · exact .inr ⟨text, _, hget, hs, hs⟩
    · exact absurd (hread text hget) hn

/-! ## Writing -/

/-- The storage after a write. -/
def written (s : Storage) (key : StorageKeys → String) (text : String) : Storage :=
  ((write key text).run s).2

theorem saveSeries_runOn (hmost : s.maxPoints = .ok most) (series : StoredSeries) (now : Int) :
    (saveSeries series now).runOn s =
      (.ok (), s.written StorageKeys.chartData
        ((StoredSeries.normalize series.labels series.data most).print now)) := by
  unfold saveSeries
  rw [Action.runOn_bind, Action.runOn_get]
  dsimp only
  rw [hmost]
  rfl

/-- The time of the last sample is written, unless it is beyond the range. -/
theorem saveLast_runOn (s : Storage) {n : Number} {t : Int} (ht : n.truncate = .ok t) :
    ((saveLast (some n)).runOn s).2 = s ∨
      ((saveLast (some n)).runOn s).2 = s.written StorageKeys.lastTimestamp (Decimal.intText t) := by
  simp only [saveLast, saveWhole, Action.runOn_bind, Action.runOn_liftM]
  cases n.isFinite with
  | error e => exact .inl rfl
  | ok finite =>
    cases finite with
    | false => exact .inl rfl
    | true =>
      simp only [if_true, Action.runOn_bind, Action.runOn_liftM, ht]
      exact .inr rfl

/-- The storage after a key was left out. -/
def removed (s : Storage) (key : StorageKeys → String) : Storage :=
  ((remove key).run s).2

theorem clearSeries_runOn (s : Storage) :
    Action.runOn (liftM clearSeries : Action Storage Unit) s = (.ok (), s.removed StorageKeys.chartData) := rfl

theorem clearLast_runOn (s : Storage) :
    Action.runOn (liftM clearLast : Action Storage Unit) s = (.ok (), s.removed StorageKeys.lastTimestamp) := rfl

/-- A positive integer that is a number is written as the least time of history. -/
theorem saveMin_runOn (s : Storage) {i : Int} (hpos : 0 < i) (hexact : i ≤ 2 ^ 53) :
    (saveMin (some (.int i))).runOn s =
      (.ok (), s.written StorageKeys.minTimestamp (Decimal.intText i)) := by
  obtain ⟨x, hx, -⟩ := Binary64.ofInt?_of_isExact (i := i) (by unfold Binary64.IsExact; omega)
  have hfin : (Number.int i).isFinite = .ok true := by
    show (do let _ : Binary64 ← Arithmetic.ofInt? i; return true : Result Bool) = _
    rw [hx]
    rfl
  have hp : (Number.int i).isPositive = true := decide_eq_true hpos
  simp only [saveMin, saveWhole, Action.runOn_bind, Action.runOn_liftM, hfin, hp, Bool.and_self, if_true]
  rfl

/-! ## A store that is in order -/

/-- The store never fails. -/
def InOrder (s : Storage) : Prop := ∀ call, s.store.outage call = false

theorem InOrder.isOut (h : s.InOrder) : s.store.isOut = false := h _

theorem InOrder.counted (h : s.InOrder) : s.counted.InOrder := h

theorem InOrder.written (h : s.InOrder) (key : StorageKeys → String) (text : String) :
    (s.written key text).InOrder := by
  intro call
  simp only [Storage.written, write, Store.write, attempt_run, h.isOut, Bool.false_eq_true, if_false]
  exact h call

theorem InOrder.textAt (h : s.InOrder) (key : StorageKeys → String) :
    s.textAt key = (s.store.get? (key s.keys)).filter (· ≠ "") := by
  rw [Storage.textAt, h.isOut]
  rfl

/-- In a store that is in order the stored curves are those of the text under their key. -/
theorem InOrder.held (h : s.InOrder) (hg : s.store.get? s.keys.chartData = some text) :
    s.held = StoredSeries.ofText text s.maxPoints := by
  rw [Storage.held, h.textAt, hg]
  by_cases he : text = ""
  · subst he
    rfl
  · rw [Option.filter_some, if_pos (by simpa using he)]

theorem textAt_counted (h : s.InOrder) (key : StorageKeys → String) :
    s.counted.textAt key = s.textAt key := by
  rw [h.textAt, h.counted.textAt]
  rfl

theorem held_counted (h : s.InOrder) : s.counted.held = s.held := by
  rw [held, textAt_counted h]
  rfl

theorem get?_written (h : s.InOrder) (key : StorageKeys → String) (text other : String) :
    (s.written key text).store.get? other =
      if other = key s.keys then some text else s.store.get? other := by
  simp only [written, write, Store.write, attempt_run, h.isOut, Bool.false_eq_true, if_false]
  exact Store.get?_put _ _ _ _

theorem InOrder.removed (h : s.InOrder) (key : StorageKeys → String) : (s.removed key).InOrder := by
  intro call
  simp only [Storage.removed, remove, Store.remove, attempt_run, h.isOut, Bool.false_eq_true, if_false]
  exact h call

theorem get?_removed (h : s.InOrder) (key : StorageKeys → String) (other : String) :
    (s.removed key).store.get? other = if other = key s.keys then none else s.store.get? other := by
  simp only [removed, remove, Store.remove, attempt_run, h.isOut, Bool.false_eq_true, if_false]
  exact Fields.lookup_erase _ _ _

end Storage

end HashrateChart
