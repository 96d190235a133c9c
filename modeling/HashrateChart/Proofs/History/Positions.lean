/-
From which positions of a batch its samples come.

Every position within the reach of all lists that has a finite time gives one sample,
and what stands in the sample stands at that position of the lists. The sort is stable
(`pairwise_mergeSort_of_pairwise`): samples of one time keep the order of their
positions. So the samples do not depend on the order of the entries when their times
differ, and the earliest of them is at the oldest time of the batch.
-/
import Mathlib.Tactic.IntervalCases
import HashrateChart.Proofs.History

namespace HashrateChart

/-- Of two sorted items that could stand either way, the one that came first stands first. -/
theorem pairwise_mergeSort_of_pairwise {α : Type} {le : α → α → Bool} {R : α → α → Prop}
    {items : List α} (trans : ∀ a b c, le a b = true → le b c = true → le a c = true)
    (total : ∀ a b, (le a b || le b a) = true) (h : items.Pairwise R) :
    (items.mergeSort le).Pairwise fun a b => le a b = true ∧ (le b a = true → R a b) := by
  rw [← List.mergeSort_zipIdx, List.pairwise_map]
  have hperm := List.mergeSort_perm items.zipIdx (List.zipIdxLE le)
  have hsorted := List.pairwise_mergeSort (List.zipIdxLE_trans trans) (List.zipIdxLE_total total) items.zipIdx
  -- the places are those of the items, each of them once
  have hnodup : (items.zipIdx.map Prod.snd).Nodup := by
    rw [List.zipIdx_map_snd]
    exact List.nodup_range'
  have hplaces : (items.zipIdx.mergeSort (List.zipIdxLE le)).Pairwise fun a b => a.2 ≠ b.2 :=
    List.pairwise_map.mp ((hperm.map Prod.snd).nodup_iff.mpr hnodup)
  refine (hsorted.and hplaces).imp_of_mem fun {a b} ha hb ⟨hle, hne⟩ => ?_
  have hitem {p : α × Nat} (hp : p ∈ items.zipIdx.mergeSort (List.zipIdxLE le)) : items[p.2]? = some p.1 :=
    List.mem_zipIdx_iff_getElem?.mp (hperm.mem_iff.mp hp)
  obtain ⟨hi, hai⟩ := List.getElem?_eq_some_iff.mp (hitem ha)
  obtain ⟨hj, hbj⟩ := List.getElem?_eq_some_iff.mp (hitem hb)
  unfold List.zipIdxLE at hle
  split at hle
  · next hab =>
    refine ⟨hab, fun hba => ?_⟩
    rw [if_pos hba] at hle
    have hlt : a.2 < b.2 := Nat.lt_of_le_of_ne (of_decide_eq_true hle) hne
    rw [← hai, ← hbj]
    exact List.pairwise_iff_getElem.mp h _ _ hi hj hlt
  · cases hle

namespace HistoryBatch

theorem reach_le (n : Nat) (lists : List (List Binary64)) :
    reach n lists ≤ n ∧ ∀ xs ∈ lists, reach n lists ≤ xs.length := by
  induction lists generalizing n with
  | nil => exact ⟨Nat.le_refl n, nofun⟩
  | cons ys lists ih =>
    obtain ⟨hn, hlists⟩ := ih (min n ys.length)
    refine ⟨Nat.le_trans hn (Nat.min_le_left _ _), List.forall_mem_cons.mpr ⟨?_, hlists⟩⟩
    exact Nat.le_trans hn (Nat.min_le_right _ _)

theorem reach_mem (n : Nat) (lists : List (List Binary64)) :
    reach n lists = n ∨ ∃ xs ∈ lists, xs.length = reach n lists := by
  induction lists generalizing n with
  | nil => exact .inl rfl
  | cons ys lists ih =>
    rcases ih (min n ys.length) with heq | ⟨xs, hxs, hlen⟩
    · rcases Nat.le_total n ys.length with hle | hle
      · exact .inl (heq.trans (Nat.min_eq_left hle))
      · exact .inr ⟨ys, List.mem_cons_self, (heq.trans (Nat.min_eq_right hle)).symm⟩
    · exact .inr ⟨xs, List.mem_cons_of_mem _ hxs, hlen⟩

/-- All lists reach as far as the shortest one. -/
theorem rowCount_shortest (b : HistoryBatch) :
    (∀ xs ∈ b.lists, b.rowCount ≤ xs.length) ∧ ∃ xs ∈ b.lists, xs.length = b.rowCount := by
  refine ⟨List.forall_mem_cons.mpr (reach_le b.times.length b.values.toList), ?_⟩
  rcases reach_mem b.times.length b.values.toList with heq | ⟨xs, hxs, hlen⟩
  · exact ⟨b.times, List.mem_cons_self, heq.symm⟩
  · exact ⟨xs, List.mem_cons_of_mem _ hxs, hlen⟩

/-- The entries of all lists of a batch, as far as all of them reach, put in another order: the entry at
a place is the one at the position that `order` has there. -/
structure Rearranged (b b' : HistoryBatch) (order : List Nat) : Prop where
  base : b'.base = b.base
  rowCount : b'.rowCount = b.rowCount
  perm : order.Perm (List.range b.rowCount)
  times : ∀ {k i : Nat}, order[k]? = some i → b'.times[k]? = b.times[i]?
  values : ∀ {k i : Nat}, order[k]? = some i → ∀ c, (b'.values.get c)[k]? = (b.values.get c)[i]?

end HistoryBatch

namespace History

variable {b b' : HistoryBatch} {base : Binary64} {i : Nat} {s : Sample}

/-! ## One position -/

/-- Whether a position has a finite time. -/
def HasTime (b : HistoryBatch) (base : Binary64) (i : Nat) : Prop :=
  ∃ t, b.times[i]? = some t ∧ (normalizeReal (t + base)).isFinite = true

/-- A sample that is made of what stands at a position of all lists. -/
structure IsRow (b : HistoryBatch) (base : Binary64) (i : Nat) (s : Sample) : Prop where
  time : ∃ t, b.times[i]? = some t ∧ (normalizeReal (t + base)).truncate = .ok s.time
  value : ∀ c, ∃ x, (b.values.get c)[i]? = some x ∧ s.values.get c = x * scale c

theorem length_values_ge (b : HistoryBatch) (c : Channel) : b.rowCount ≤ (b.values.get c).length :=
  b.rowCount_shortest.1 _ (List.mem_cons_of_mem _ (List.mem_map.mpr ⟨c, Channel.mem_all c, rfl⟩))

/-- The row at a position within reach. -/
theorem isRow_of_row? (hi : i < b.rowCount) (h : row? b base i = some s) : IsRow b base i s := by
  unfold row? at h
  cases ht : b.times[i]? with
  | none => rw [ht] at h; cases h
  | some t =>
    rw [ht] at h
    simp only [bind, Option.bind] at h
    cases hn : (normalizeReal (t + base)).truncate with
    | error e => rw [hn] at h; cases h
    | ok time =>
      rw [hn] at h
      cases h
      refine ⟨⟨t, ht, hn⟩, fun c => ?_⟩
      have hc : i < (b.values.get c).length := Nat.lt_of_lt_of_le hi (length_values_ge b c)
      refine ⟨(b.values.get c)[i], List.getElem?_eq_getElem hc, ?_⟩
      rw [PerChannel.get_ofFn, List.getD_eq_getElem?_getD, List.getElem?_eq_getElem hc]
      rfl

theorem exists_row?_iff : (∃ s, row? b base i = some s) ↔ HasTime b base i := by
  unfold HasTime row?
  cases ht : b.times[i]? with
  | none => exact ⟨fun ⟨s, hs⟩ => (nomatch hs), fun ⟨t, h, _⟩ => (nomatch h)⟩
  | some t =>
    simp only [bind, Option.bind, Option.some.injEq, exists_eq_left']
    cases normalizeReal (t + base) with
    | finite s m => exact ⟨fun _ => rfl, fun _ => ⟨_, rfl⟩⟩
    | _ => exact ⟨fun ⟨s, hs⟩ => (nomatch hs), fun h => (nomatch h)⟩

/-! ## All positions -/

/-- The positions of a batch that give a sample, each with its sample, in the order of the batch. -/
def located (b : HistoryBatch) (base : Binary64) : List (Nat × Sample) :=
  (List.range b.rowCount).filterMap fun i => (row? b base i).map (i, ·)

theorem mem_located {p : Nat × Sample} :
    p ∈ located b base ↔ p.1 < b.rowCount ∧ row? b base p.1 = some p.2 := by
  rw [located, List.mem_filterMap]
  constructor
  · rintro ⟨i, hi, hp⟩
    obtain ⟨s, hs, rfl⟩ := Option.map_eq_some_iff.mp hp
    exact ⟨List.mem_range.mp hi, hs⟩
  · rintro ⟨hi, hs⟩
    exact ⟨p.1, List.mem_range.mpr hi, by rw [hs]; rfl⟩

theorem located_pairwise (b : HistoryBatch) (base : Binary64) :
    (located b base).Pairwise fun p q => p.1 < q.1 := by
  rw [located, List.pairwise_filterMap]
  refine List.pairwise_lt_range.imp fun {i j} hij p hp q hq => ?_
  obtain ⟨s, -, rfl⟩ := Option.map_eq_some_iff.mp hp
  obtain ⟨t, -, rfl⟩ := Option.map_eq_some_iff.mp hq
  exact hij

theorem map_snd_located (b : HistoryBatch) (base : Binary64) : (located b base).map Prod.snd = rows b base := by
  rw [located, rows, List.map_filterMap]
  congr 1
  funext i
  rw [Option.map_map]
  exact Option.map_id' ..

/-- Samples of a batch, each with the position that it comes from. -/
structure Placed (b : HistoryBatch) (base : Binary64) (placed : List (Nat × Sample)) : Prop where
  isRow : ∀ p ∈ placed, IsRow b base p.1 p.2
  /-- No position gives two samples, -/
  nodup : (placed.map Prod.fst).Nodup
  /-- and those that give one are those within reach that have a finite time. -/
  mem_iff : ∀ i, i ∈ placed.map Prod.fst ↔ i < b.rowCount ∧ HasTime b base i
  /-- They are in order of time, those of one time in the order of their positions. -/
  ordered : placed.Pairwise fun p q => p.2.time < q.2.time ∨ p.2.time = q.2.time ∧ p.1 < q.1

/-- The samples of a batch come from its positions by a stable sort. -/
theorem inTime_rows (b : HistoryBatch) (base : Binary64) :
    ∃ placed, Placed b base placed ∧ inTime (rows b base) = placed.map Prod.snd := by
  let le (p q : Nat × Sample) : Bool := decide (p.2.time ≤ q.2.time)
  have hperm : ((located b base).mergeSort le).Perm (located b base) := List.mergeSort_perm _ _
  have trans (p q r : Nat × Sample) (hpq : le p q = true) (hqr : le q r = true) : le p r = true := by
    simp only [le, decide_eq_true_eq] at hpq hqr ⊢
    omega
  have total (p q : Nat × Sample) : (le p q || le q p) = true := by
    simp only [le, Bool.or_eq_true, decide_eq_true_eq]
    omega
  have hsorted := pairwise_mergeSort_of_pairwise trans total (located_pairwise b base)
  refine ⟨(located b base).mergeSort le, ?_, ?_⟩
  · constructor
    case isRow =>
      intro p hp
      obtain ⟨hi, hs⟩ := mem_located.mp (hperm.mem_iff.mp hp)
      exact isRow_of_row? hi hs
    case nodup =>
      refine (hperm.map Prod.fst).nodup_iff.mpr (List.pairwise_map.mpr ?_)
      exact (located_pairwise b base).imp Nat.ne_of_lt
    case mem_iff =>
      intro i
      rw [(hperm.map Prod.fst).mem_iff, List.mem_map, ← exists_row?_iff]
      constructor
      · rintro ⟨p, hp, rfl⟩
        obtain ⟨hi, hs⟩ := mem_located.mp hp
        exact ⟨hi, p.2, hs⟩
      · rintro ⟨hi, s, hs⟩
        exact ⟨(i, s), mem_located.mpr ⟨hi, hs⟩, rfl⟩
    case ordered =>
      refine hsorted.imp fun {p q} ⟨hle, htie⟩ => ?_
      rcases Int.lt_or_eq_of_le (of_decide_eq_true hle) with hlt | heq
      · exact .inl hlt
      · exact .inr ⟨heq, htie (decide_eq_true (Int.le_of_eq heq.symm))⟩
  · rw [inTime, ← map_snd_located]
    exact (List.map_mergeSort (f := Prod.snd) fun p _ q _ => rfl).symm

/-! ## Another order of the entries -/

theorem row?_rearranged {order : List Nat} (h : b.Rearranged b' order) {k : Nat} (hk : order[k]? = some i) :
    row? b' base k = row? b base i := by
  have hv : ∀ c, (b'.values.get c).getD k .nan = (b.values.get c).getD i .nan := by
    intro c
    rw [List.getD_eq_getElem?_getD, List.getD_eq_getElem?_getD, h.values hk c]
  simp only [row?, h.times hk, hv]

theorem rows_rearranged {order : List Nat} (h : b.Rearranged b' order) : (rows b' base).Perm (rows b base) := by
  have hmap : (List.range b'.rowCount).map (row? b' base) = order.map (row? b base) := by
    have hlen : order.length = b'.rowCount := by rw [h.perm.length_eq, List.length_range, h.rowCount]
    refine List.ext_getElem (by rw [List.length_map, List.length_map, List.length_range, hlen]) fun k hk hk' => ?_
    rw [List.getElem_map, List.getElem_map, List.getElem_range]
    exact row?_rearranged h (List.getElem?_eq_getElem _)
  rw [rows_of_map hmap]
  exact h.perm.filterMap _

/-- Samples of different times do not depend on the order of the entries. -/
theorem inTime_rearranged {order : List Nat} (h : b.Rearranged b' order)
    (hdistinct : ((inTime (rows b base)).map Sample.time).Nodup) : inTime (rows b' base) = inTime (rows b base) := by
  have hstrict : (inTime (rows b base)).Pairwise (·.time < ·.time) :=
    ((inTime_pairwise _).and (List.pairwise_map.mp hdistinct)).imp fun ⟨hle, hne⟩ =>
      Int.lt_iff_le_and_ne.mpr ⟨hle, hne⟩
  refine eq_of_perm_of_ordered ?_ (inTime_pairwise _) hstrict
  exact (List.mergeSort_perm _ _).trans ((rows_rearranged h).trans (List.mergeSort_perm _ _).symm)

/-! ## The oldest time -/

theorem earliest?_le {times : List Binary64} {t : Binary64} (hfin : ∀ u ∈ times, u.isFinite = true)
    (h : earliest? times = some t) : ∀ u ∈ times, t.le u = true := by
  cases times with
  | nil => cases h
  | cons u rest =>
    cases h
    have hnan := fun v hv => Binary64.isNaN_of_isFinite (hfin v hv)
    exact (Binary64.foldl_smaller_le (hnan u List.mem_cons_self) fun v hv => hnan v (List.mem_cons_of_mem u hv)).2

theorem isFinite_of_mem_finiteTimes {t : Binary64} (h : t ∈ finiteTimes b base) : t.isFinite = true := by
  obtain ⟨i, x, -, hfin, rfl⟩ := mem_finiteTimes.mp h
  rw [isFinite_normalizeReal, hfin]

/-- The sample of a row is at a finite time of the batch. -/
theorem exists_finiteTime_of_row (h : s ∈ rows b base) : ∃ t ∈ finiteTimes b base, t.truncate = .ok s.time := by
  obtain ⟨i, hi, hrow⟩ := List.mem_filterMap.mp h
  obtain ⟨x, hx, htime⟩ := (isRow_of_row? (List.mem_range.mp hi) hrow).time
  refine ⟨normalizeReal (x + base), mem_finiteTimes.mpr ⟨i, x, hx, ?_, rfl⟩, htime⟩
  rw [← isFinite_normalizeReal]
  cases hn : normalizeReal (x + base) with
  | finite s m => rfl
  | _ => rw [hn] at htime; cases htime

/-- Every finite time has a row, when all lists are as long as the times. -/
theorem exists_row_of_finiteTime (hfull : b.rowCount = b.times.length) {t : Binary64}
    (h : t ∈ finiteTimes b base) : ∃ s ∈ rows b base, t.truncate = .ok s.time := by
  obtain ⟨i, x, hx, hfin, rfl⟩ := mem_finiteTimes.mp h
  rw [← isFinite_normalizeReal] at hfin
  have hi : i < b.rowCount := hfull ▸ (List.getElem?_eq_some_iff.mp hx).1
  obtain ⟨s, hs⟩ := exists_row?_iff.mpr ⟨x, hx, hfin⟩
  obtain ⟨y, hy, htime⟩ := (isRow_of_row? hi hs).time
  cases hx.symm.trans hy
  exact ⟨s, List.mem_filterMap.mpr ⟨i, List.mem_range.mpr hi, hs⟩, htime⟩

theorem rowCount_of_full (h : ∀ c, b.times.length ≤ (b.values.get c).length) : b.rowCount = b.times.length := by
  refine Nat.le_antisymm b.rowCount_le ?_
  obtain ⟨xs, hxs, hlen⟩ := b.rowCount_shortest.2
  rcases List.mem_cons.mp hxs with rfl | hvalues
  · exact Nat.le_of_eq hlen
  · obtain ⟨c, -, rfl⟩ := List.mem_map.mp hvalues
    exact hlen ▸ h c

/-- The first sample is at the oldest time, when all lists are as long as the times. -/
theorem head?_inTime_of_full (hfull : b.rowCount = b.times.length) :
    (earliest? (finiteTimes b base) = none ↔ inTime (rows b base) = []) ∧
      ∀ t, earliest? (finiteTimes b base) = some t →
        ∃ first, (inTime (rows b base)).head? = some first ∧ t.truncate = .ok first.time := by
  have hmem (s : Sample) : s ∈ inTime (rows b base) ↔ s ∈ rows b base := (List.mergeSort_perm _ _).mem_iff
  constructor
  · rw [List.eq_nil_iff_forall_not_mem]
    constructor
    · intro hnone s hs
      obtain ⟨t, ht, -⟩ := exists_finiteTime_of_row ((hmem s).mp hs)
      cases hl : finiteTimes b base with
      | nil => rw [hl] at ht; cases ht
      | cons u rest => rw [hl] at hnone; cases hnone
    · intro hempty
      cases hl : finiteTimes b base with
      | nil => rfl
      | cons u rest =>
        have hu : u ∈ finiteTimes b base := hl ▸ List.mem_cons_self
        obtain ⟨s, hs, -⟩ := exists_row_of_finiteTime hfull hu
        exact absurd ((hmem s).mpr hs) (hempty s)
  · intro t ht
    obtain ⟨s, hs, htime⟩ := exists_row_of_finiteTime hfull (mem_of_earliest? ht)
    have hsorted := inTime_pairwise (rows b base)
    cases hl : inTime (rows b base) with
    | nil =>
      have hs' := (hmem s).mpr hs
      rw [hl] at hs'
      cases hs'
    | cons first rest =>
      refine ⟨first, rfl, ?_⟩
      -- no sample is before the first one, and no time before the oldest one
      obtain ⟨u, hu, hfirst⟩ := exists_finiteTime_of_row ((hmem first).mp (hl ▸ List.mem_cons_self))
      have hle : s.time ≤ first.time :=
        Binary64.truncate_le (earliest?_le (fun _ => isFinite_of_mem_finiteTimes) ht u hu) htime hfirst
      have hge : first.time ≤ s.time := by
        have hs' := (hmem s).mpr hs
        rw [hl] at hs' hsorted
        rcases List.mem_cons.mp hs' with rfl | hrest
        · exact Int.le_refl _
        · exact (List.pairwise_cons.mp hsorted).1 s hrest
      rw [htime, Int.le_antisymm hle hge]

/-! ## A batch -/

/-- **The samples of a batch are its aligned rows, sorted.** For every batch whose base is in range there is
one sample for each position within reach of the shortest list that has a finite time; in it stand the time
and the six values of that position; and the samples are in order of time, those of one time in the order of
their positions. So another order of the entries gives the same samples when their times differ, and when no
list is shorter than the times, the first sample is at the oldest time. -/
theorem decode_sorts_rows (hb : Arithmetic.ofInt? b.base = .ok base) :
    (∀ xs ∈ b.lists, b.rowCount ≤ xs.length) ∧ (∃ xs ∈ b.lists, xs.length = b.rowCount) ∧
    ∃ placed, Placed b base placed ∧ decode (some b) = .ok (placed.map Prod.snd) ∧
      ((placed.map fun p => p.2.time).Nodup → ∀ b' order, b.Rearranged b' order →
        decode (some b') = .ok (placed.map Prod.snd)) ∧
      ((∀ c, b.times.length ≤ (b.values.get c).length) →
        ∃ oldest?, oldest (some b) = .ok oldest? ∧ (oldest? = none ↔ placed = []) ∧
          ∀ t, oldest? = some t → ∃ first, placed.head? = some first ∧ t.truncate = .ok first.2.time) := by
  obtain ⟨placed, hplaced, heq⟩ := inTime_rows b base
  have hdecode : decode (some b) = .ok (placed.map Prod.snd) := heq ▸ decode_of_base hb
  refine ⟨b.rowCount_shortest.1, b.rowCount_shortest.2, placed, hplaced, hdecode, fun hnodup b' order h => ?_,
    fun hfull => ⟨_, oldest_eq hb, ?_⟩⟩
  · have hdistinct : ((inTime (rows b base)).map Sample.time).Nodup := by
      rw [heq, List.map_map]
      exact hnodup
    rw [decode_of_base (h.base ▸ hb), inTime_rearranged h hdistinct, heq]
  · obtain ⟨hnone, hfirst⟩ := @head?_inTime_of_full b base (rowCount_of_full hfull)
    rw [heq] at hnone hfirst
    refine ⟨by rw [hnone, List.map_eq_nil_iff], fun t ht => ?_⟩
    obtain ⟨first, hhead, htime⟩ := hfirst t ht
    rw [List.head?_map] at hhead
    obtain ⟨p, hp, rfl⟩ := Option.map_eq_some_iff.mp hhead
    exact ⟨p, hp, htime⟩

/-- Four entries out of order, one without a time. -/
def shuffledBatch : HistoryBatch :=
  ⟨0, [30, .nan, 10, 20], .ofFn fun c => if c.isHashrate then [3, 4, 1, 2] else [300, 400, 100, 200]⟩

/-- The same entries from the last to the first. -/
def reversedBatch : HistoryBatch :=
  ⟨0, [20, 10, .nan, 30], .ofFn fun c => if c.isHashrate then [2, 1, 4, 3] else [200, 100, 400, 300]⟩

theorem rearranged_reversedBatch : shuffledBatch.Rearranged reversedBatch [3, 2, 1, 0] where
  base := rfl
  rowCount := by decide
  perm := by decide
  times {k i} h := by
    obtain ⟨hk, rfl⟩ := List.getElem?_eq_some_iff.mp h
    simp only [List.length_cons, List.length_nil] at hk
    interval_cases k <;> rfl
  values {k i} h c := by
    obtain ⟨hk, rfl⟩ := List.getElem?_eq_some_iff.mp h
    simp only [List.length_cons, List.length_nil] at hk
    cases c <;> interval_cases k <;> rfl

/-- Both give the samples at 10, 20 and 30 seconds. -/
theorem decode_sorts_rows_of_shuffled :
    Arithmetic.ofInt? shuffledBatch.base = .ok (0 : Binary64) ∧
    shuffledBatch.Rearranged reversedBatch [3, 2, 1, 0] ∧
    (∀ c, shuffledBatch.times.length ≤ (shuffledBatch.values.get c).length) ∧
    ∃ placed, Placed shuffledBatch 0 placed ∧ (placed.map fun p => p.2.time) = [10000, 20000, 30000] ∧
      decode (some shuffledBatch) = .ok (placed.map Prod.snd) ∧
      decode (some reversedBatch) = .ok (placed.map Prod.snd) ∧
      ∃ t, oldest (some shuffledBatch) = .ok (some t) ∧ t.truncate = .ok 10000 := by
  have hbase : Arithmetic.ofInt? shuffledBatch.base = .ok (0 : Binary64) := by decide +kernel
  have hfull : ∀ c, shuffledBatch.times.length ≤ (shuffledBatch.values.get c).length := fun c => by
    cases c <;> decide
  obtain ⟨-, -, placed, hplaced, hdecode, hother, hfirst⟩ := decode_sorts_rows hbase
  have hsorted : inTime (rows shuffledBatch 0) = [2, 3, 0].filterMap (row? shuffledBatch 0) :=
    eq_of_perm_of_ordered ((List.mergeSort_perm _ _).trans (by decide +kernel)) (inTime_pairwise _)
      (by decide +kernel)
  have hsamples : placed.map Prod.snd = [2, 3, 0].filterMap (row? shuffledBatch 0) := by
    rw [decode_of_base hbase, hsorted] at hdecode
    exact (Except.ok.inj hdecode).symm
  have htimes : (placed.map fun p => p.2.time) = [10000, 20000, 30000] := by
    have hmap : (placed.map Prod.snd).map Sample.time = [10000, 20000, 30000] := by
      rw [hsamples]
      decide +kernel
    rwa [List.map_map] at hmap
  refine ⟨hbase, rearranged_reversedBatch, hfull, placed, hplaced, htimes, hdecode,
    hother (by rw [htimes]; decide) _ _ rearranged_reversedBatch, ?_⟩
  obtain ⟨oldest?, holdest, hnone, hsome⟩ := hfirst hfull
  cases oldest? with
  | none =>
    rw [hnone.mp rfl] at htimes
    cases htimes
  | some t =>
    obtain ⟨first, hhead, htime⟩ := hsome t rfl
    refine ⟨t, holdest, htime.trans (congrArg Except.ok ?_)⟩
    have hhead' : ((placed.map fun p => p.2.time).head? : Option Int) = some first.2.time := by
      rw [List.head?_map, hhead]
      rfl
    rw [htimes] at hhead'
    exact (Option.some.inj hhead').symm

end History

end HashrateChart
