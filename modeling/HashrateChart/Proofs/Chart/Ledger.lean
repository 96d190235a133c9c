/-
A record of a run: the rows that the calls add to the curves, rewrite and drop,
and the restarts that they detect.

A chart does not remember which of its rows are gaps or when they came, so a
`Ledger` is kept beside it. It replays what a call says it does
(`Chart.events`), and each of its rows carries how many restarts had been
detected when the row was added and when it was last written.

The ledger is settled while every sample older than the last restart has a gap
after it. Only then may a sample be stored: it can neither join the samples of
before the restart nor rewrite one of them.
-/
import HashrateChart.Proofs.Chart.Run

namespace HashrateChart

/-- Something that a call does to the rows of a chart, or learns about the device. -/
inductive Event where
  /-- A restart was detected. -/
  | detected
  /-- A gap was drawn. -/
  | gap (t : Int)
  /-- A sample was added, or replaced the last row, at a stage of the warmup. -/
  | stored (t : Int) (how : Upserted) (stage : Warmup.Stage)
  /-- Rows at the front were dropped. -/
  | trimmed (n : Nat)
  /-- All rows were dropped. -/
  | emptied
  deriving DecidableEq

namespace Ledger

/-- A row of the curves and how it came. -/
structure Row where
  time : Int
  isGap : Bool
  /-- How many restarts had been detected when the row was added. -/
  added : Nat
  /-- How many restarts had been detected when the row was last written. -/
  written : Nat
  deriving DecidableEq

end Ledger

/-- The rows of a chart, and how often restarts were detected and gaps drawn. -/
structure Ledger where
  rows : List Ledger.Row
  detections : Nat
  gaps : Nat
  deriving DecidableEq

namespace Ledger

variable {l : Ledger} {row : Row} {i k n : Nat}

def empty : Ledger := ⟨[], 0, 0⟩

def add (l : Ledger) (t : Int) (isGap : Bool) : Ledger :=
  { l with rows := l.rows ++ [⟨t, isGap, l.detections, l.detections⟩] }

/-- Writes the last row again. -/
def rewrite (l : Ledger) : Ledger :=
  match l.rows.getLast? with
  | some row => { l with rows := l.rows.dropLast ++ [{ row with written := l.detections }] }
  | none => l

def note (l : Ledger) : Event → Ledger
  | .detected => { l with detections := l.detections + 1 }
  | .gap t => { l.add t true with gaps := l.gaps + 1 }
  | .stored t .appended _ => l.add t false
  | .stored _ .updated _ => l.rewrite
  | .trimmed n => { l with rows := l.rows.drop n }
  | .emptied => { l with rows := [] }

def replay (l : Ledger) (events : List Event) : Ledger := events.foldl note l

@[simp] theorem replay_nil (l : Ledger) : l.replay [] = l := rfl

@[simp] theorem replay_cons (l : Ledger) (e : Event) (events : List Event) :
    l.replay (e :: events) = (l.note e).replay events := rfl

theorem replay_append (l : Ledger) (xs ys : List Event) :
    l.replay (xs ++ ys) = (l.replay xs).replay ys := List.foldl_append

/-! ## What may be stored -/

/-- A sample is stored only while the chart is ready, and only over a sample of the same time. -/
def Admits (l : Ledger) : Event → Prop
  | .stored t how stage =>
    stage = .ready ∧
      (how = .updated → ∃ row, l.rows.getLast? = some row ∧ row.time = t ∧ row.isGap = false)
  | _ => True

/-- Every event is admitted by what the ones before it have left. -/
def AdmitsAll : Ledger → List Event → Prop
  | _, [] => True
  | l, e :: events => l.Admits e ∧ (l.note e).AdmitsAll events

theorem admitsAll_append {xs ys : List Event} :
    l.AdmitsAll (xs ++ ys) ↔ l.AdmitsAll xs ∧ (l.replay xs).AdmitsAll ys := by
  induction xs generalizing l with
  | nil => simp [AdmitsAll]
  | cons e xs ih => simp only [List.cons_append, AdmitsAll, ih, replay_cons, and_assoc]

theorem AdmitsAll.admits {before after : List Event} {e : Event}
    (h : l.AdmitsAll (before ++ e :: after)) : (l.replay before).Admits e :=
  (admitsAll_append.mp h).2.1

/-! ## Gaps between samples -/

def SampleAt (l : Ledger) (i : Nat) (row : Row) : Prop := l.rows[i]? = some row ∧ row.isGap = false

def GapAt (l : Ledger) (k : Nat) : Prop := ∃ row, l.rows[k]? = some row ∧ row.isGap = true

/-- Samples of before and after a restart have a gap between them. -/
structure Sound (l : Ledger) : Prop where
  once : ∀ row ∈ l.rows, row.written = row.added
  past : ∀ row ∈ l.rows, row.added ≤ l.detections
  parted : ∀ i j before after, l.SampleAt i before → l.SampleAt j after → before.added < after.added →
    ∃ k, i < k ∧ k < j ∧ l.GapAt k

/-- Every sample of before the last restart has a gap after it. -/
def Settled (l : Ledger) : Prop :=
  ∀ i row, l.SampleAt i row → row.added < l.detections → ∃ k, i < k ∧ l.GapAt k

theorem Sound.empty : Sound .empty :=
  ⟨by simp [Ledger.empty], by simp [Ledger.empty], by simp [Ledger.empty, SampleAt]⟩

theorem Settled.empty : Settled .empty := by simp [Ledger.empty, Settled, SampleAt]

theorem lt_of_gapAt (h : l.GapAt k) : k < l.rows.length := by
  obtain ⟨row, hk, -⟩ := h
  exact (List.getElem?_eq_some_iff.mp hk).1

/-- A gap is before the last row when that is a sample. -/
theorem succ_lt_of_gapAt (h : l.GapAt k) (hl : l.rows.getLast? = some row) (hg : row.isGap = false) :
    k + 1 < l.rows.length := by
  refine Nat.lt_of_le_of_ne (lt_of_gapAt h) fun hlast => ?_
  obtain ⟨gap, hk, hgap⟩ := h
  have hk' : l.rows.length - 1 = k := by omega
  rw [List.getLast?_eq_getElem?, hk', hk] at hl
  cases hl
  rw [hg] at hgap
  cases hgap

theorem SampleAt.lt (h : l.SampleAt i row) : i < l.rows.length := (List.getElem?_eq_some_iff.mp h.1).1

theorem GapAt.add (h : l.GapAt k) (t : Int) (isGap : Bool) : (l.add t isGap).GapAt k := by
  have hk := lt_of_gapAt h
  obtain ⟨row, hr, hg⟩ := h
  exact ⟨row, by rw [Ledger.add, List.getElem?_append_left hk, hr], hg⟩

/-- A row after an addition was there before, or is the one that was added. -/
theorem getElem?_add {t : Int} {isGap : Bool} (h : (l.add t isGap).rows[i]? = some row) :
    l.rows[i]? = some row ∨
      (i = l.rows.length ∧ row = ⟨t, isGap, l.detections, l.detections⟩) := by
  rcases Nat.lt_or_ge i l.rows.length with hi | hi
  · exact .inl (by rw [Ledger.add, List.getElem?_append_left hi] at h; exact h)
  · rw [Ledger.add, List.getElem?_append_right hi] at h
    have hz : i - l.rows.length = 0 := by
      have := (List.getElem?_eq_some_iff.mp h).1
      simp only [List.length_singleton] at this
      omega
    rw [hz] at h
    exact .inr ⟨by omega, by simpa using h.symm⟩

theorem SampleAt.of_add_gap {t : Int} (h : (l.add t true).SampleAt i row) : l.SampleAt i row := by
  rcases getElem?_add h.1 with hr | ⟨-, rfl⟩
  · exact ⟨hr, h.2⟩
  · cases h.2

theorem gapAt_add_gap (l : Ledger) (t : Int) : (l.add t true).GapAt l.rows.length :=
  ⟨⟨t, true, l.detections, l.detections⟩, by simp [add], rfl⟩

/-- What holds of the rows and of an added one holds of all rows. -/
theorem forall_mem_add {P : Row → Prop} {t : Int} {isGap : Bool} (h : ∀ row ∈ l.rows, P row)
    (hn : P ⟨t, isGap, l.detections, l.detections⟩) : ∀ row ∈ (l.add t isGap).rows, P row := by
  intro row hr
  rcases List.mem_append.mp hr with hr | hr
  · exact h row hr
  · obtain rfl := List.mem_singleton.mp hr
    exact hn

theorem Sound.detected (h : l.Sound) : (l.note .detected).Sound :=
  ⟨h.once, fun row hr => Nat.le_succ_of_le (h.past row hr), h.parted⟩

theorem Sound.gap (h : l.Sound) (t : Int) : (l.note (.gap t)).Sound where
  once := forall_mem_add h.once rfl
  past := forall_mem_add h.past (Nat.le_refl _)
  parted i j before after hi hj hlt := by
    obtain ⟨k, hik, hkj, hk⟩ := h.parted i j before after hi.of_add_gap hj.of_add_gap hlt
    exact ⟨k, hik, hkj, hk.add t true⟩

theorem settled_gap (l : Ledger) (t : Int) : (l.note (.gap t)).Settled := by
  intro i row hi _
  exact ⟨l.rows.length, SampleAt.lt (SampleAt.of_add_gap hi), gapAt_add_gap l t⟩

/-- A sample of now is parted from all that are older than the last restart. -/
theorem Sound.sample (h : l.Sound) (hs : l.Settled) (t : Int) : (l.add t false).Sound where
  once := forall_mem_add h.once rfl
  past := forall_mem_add h.past (Nat.le_refl _)
  parted i j before after hi hj hlt := by
    rcases getElem?_add hi.1 with hri | ⟨-, rfl⟩
    · rcases getElem?_add hj.1 with hrj | ⟨rfl, rfl⟩
      · obtain ⟨k, hik, hkj, hk⟩ := h.parted i j before after ⟨hri, hi.2⟩ ⟨hrj, hj.2⟩ hlt
        exact ⟨k, hik, hkj, hk.add t false⟩
      · obtain ⟨k, hik, hk⟩ := hs i before ⟨hri, hi.2⟩ hlt
        exact ⟨k, hik, lt_of_gapAt hk, hk.add t false⟩
    · have hle : after.added ≤ l.detections :=
        forall_mem_add h.past (Nat.le_refl _) after (List.mem_of_getElem? hj.1)
      exact absurd hlt (Nat.not_lt.mpr hle)

theorem Settled.sample (h : l.Settled) (t : Int) : (l.add t false).Settled := by
  intro i row hi hlt
  rcases getElem?_add hi.1 with hr | ⟨-, rfl⟩
  · obtain ⟨k, hik, hk⟩ := h i row ⟨hr, hi.2⟩ hlt
    exact ⟨k, hik, hk.add t false⟩
  · exact absurd hlt (Nat.lt_irrefl _)

/-- In a settled ledger a sample at the end is of after the last restart, so writing it again
changes nothing that the ledger keeps of it. -/
theorem rewrite_of_settled (h : l.Sound) (hs : l.Settled) (hl : l.rows.getLast? = some row)
    (hg : row.isGap = false) : l.rewrite = l := by
  have hmem : row ∈ l.rows := List.mem_of_getLast? hl
  have hat : l.SampleAt (l.rows.length - 1) row := ⟨by rw [← List.getLast?_eq_getElem?, hl], hg⟩
  have hnew : row.added = l.detections := by
    refine Nat.le_antisymm (h.past row hmem) (Nat.not_lt.mp fun hlt => ?_)
    obtain ⟨k, hk, hgap⟩ := hs _ row hat hlt
    have := lt_of_gapAt hgap
    omega
  have hsame : ({ row with written := l.detections } : Row) = row := by
    obtain ⟨_, _, _, _⟩ := row
    simp only [Row.mk.injEq, true_and]
    exact (hnew.symm.trans (h.once _ hmem).symm)
  obtain ⟨init, hrows⟩ := List.getLast?_eq_some_iff.mp hl
  simp only [rewrite, hl, hsame]
  obtain ⟨rows, d, g⟩ := l
  simp only at hrows
  simp [hrows]

theorem sampleAt_trimmed : (l.note (.trimmed n)).SampleAt i row ↔ l.SampleAt (n + i) row := by
  simp [note, SampleAt]

theorem gapAt_trimmed : (l.note (.trimmed n)).GapAt k ↔ l.GapAt (n + k) := by simp [note, GapAt]

/-- A gap after a row that is left is left too. -/
theorem gap_of_trimmed {P : Nat → Prop} (h : ∃ k, n + i < k ∧ P k ∧ l.GapAt k) :
    ∃ k, i < k ∧ P (n + k) ∧ (l.note (.trimmed n)).GapAt k := by
  obtain ⟨k, hik, hP, hk⟩ := h
  obtain ⟨m, rfl⟩ := Nat.exists_eq_add_of_le (Nat.le_of_lt (Nat.lt_of_le_of_lt (Nat.le_add_right n i) hik))
  exact ⟨m, by omega, hP, gapAt_trimmed.mpr hk⟩

theorem Sound.trimmed (h : l.Sound) (n : Nat) : (l.note (.trimmed n)).Sound where
  once row hr := h.once row (List.mem_of_mem_drop hr)
  past row hr := h.past row (List.mem_of_mem_drop hr)
  parted i j before after hi hj hlt := by
    have hk := h.parted _ _ before after (sampleAt_trimmed.mp hi) (sampleAt_trimmed.mp hj) hlt
    obtain ⟨k, hik, hkj, hk⟩ := gap_of_trimmed (P := (· < n + j)) hk
    exact ⟨k, hik, by omega, hk⟩

theorem Settled.trimmed (h : l.Settled) (n : Nat) : (l.note (.trimmed n)).Settled := by
  intro i row hi hlt
  obtain ⟨k, hik, hk⟩ := h _ row (sampleAt_trimmed.mp hi) hlt
  obtain ⟨k, hik, -, hk⟩ := gap_of_trimmed (P := fun _ => True) ⟨k, hik, trivial, hk⟩
  exact ⟨k, hik, hk⟩

theorem sound_emptied (l : Ledger) : (l.note .emptied).Sound :=
  ⟨by simp [note], by simp [note], by simp [note, SampleAt]⟩

theorem settled_emptied (l : Ledger) : (l.note .emptied).Settled := by simp [note, Settled, SampleAt]

end Ledger

end HashrateChart
