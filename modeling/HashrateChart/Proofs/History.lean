/-
Reading batches of history: which samples a batch has, and in what order.

A batch is read row by row and then put in order of time. Rows at the front and
at the back are read alike, so the rows of a batch are those of its parts; its
samples are those of its parts when the parts follow each other in time.
-/
import HashrateChart.History
import HashrateChart.Proofs.Binary64.Order

namespace HashrateChart

namespace HistoryBatch

theorem rowCount_le (b : HistoryBatch) : b.rowCount ≤ b.times.length := by
  unfold rowCount
  generalize b.times.length = n
  induction b.values.toList generalizing n with
  | nil => exact Nat.le_refl n
  | cons xs rest ih => exact Nat.le_trans (ih _) (Nat.min_le_left _ _)

theorem rowCount_of_isEmpty {b : HistoryBatch} (h : b.times.isEmpty = true) : b.rowCount = 0 := by
  have := b.rowCount_le
  rw [List.isEmpty_iff.mp h] at this
  exact Nat.le_zero.mp this

/-! ## Parts -/

/-- The first entries of each list of a batch. -/
def front (b : HistoryBatch) (k : Nat) : HistoryBatch := ⟨b.base, b.times.take k, b.values.map (·.take k)⟩

/-- The entries of each list of a batch after the first ones. -/
def back (b : HistoryBatch) (k : Nat) : HistoryBatch := ⟨b.base, b.times.drop k, b.values.map (·.drop k)⟩

/-- How many entries all of some lists reach. -/
def reach (n : Nat) (lists : List (List Binary64)) : Nat :=
  lists.foldl (fun n xs => min n xs.length) n

theorem reach_take (k n : Nat) (lists : List (List Binary64)) :
    reach (min k n) (lists.map (·.take k)) = min k (reach n lists) := by
  induction lists generalizing n with
  | nil => rfl
  | cons xs lists ih =>
    have hmin : min (min k n) (xs.take k).length = min k (min n xs.length) := by
      rw [List.length_take]; omega
    simp only [reach, List.map_cons, List.foldl_cons] at ih ⊢
    rw [hmin, ih]

theorem reach_drop (k n : Nat) (lists : List (List Binary64)) :
    reach (n - k) (lists.map (·.drop k)) = reach n lists - k := by
  induction lists generalizing n with
  | nil => rfl
  | cons xs lists ih =>
    have hmin : min (n - k) (xs.drop k).length = min n xs.length - k := by
      rw [List.length_drop]; omega
    simp only [reach, List.map_cons, List.foldl_cons] at ih ⊢
    rw [hmin, ih]

theorem rowCount_front (b : HistoryBatch) (k : Nat) : (b.front k).rowCount = min k b.rowCount := by
  have h := reach_take k b.times.length b.values.toList
  rw [← List.length_take] at h
  have hv : (b.front k).values.toList = b.values.toList.map (·.take k) := by
    simp [front, PerChannel.toList]
  rw [← hv] at h
  exact h

theorem rowCount_back (b : HistoryBatch) (k : Nat) : (b.back k).rowCount = b.rowCount - k := by
  have h := reach_drop k b.times.length b.values.toList
  rw [← List.length_drop] at h
  have hv : (b.back k).values.toList = b.values.toList.map (·.drop k) := by
    simp [back, PerChannel.toList]
  rw [← hv] at h
  exact h

end HistoryBatch

namespace History

variable {b : HistoryBatch} {base : Binary64}

/-- The samples of a batch in the order of the batch. -/
def rows (b : HistoryBatch) (base : Binary64) : List Sample :=
  (List.range b.rowCount).filterMap (row? b base)

/-- Samples in order of time, those of the same time in the order they have. -/
def inTime (samples : List Sample) : List Sample :=
  samples.mergeSort fun x y => decide (x.time ≤ y.time)

/-- The samples of a batch; one that cannot be read has none. -/
def samples (batch : Option HistoryBatch) : List Sample := (decode batch).toOption.getD []

theorem samples_of_ok {batch : Option HistoryBatch} {xs : List Sample} (h : decode batch = .ok xs) :
    samples batch = xs := by rw [samples, h]; rfl

theorem decode_of_no_rows (h : b.rowCount = 0) : decode (some b) = .ok [] := if_pos h

theorem decode_of_base (hb : Arithmetic.ofInt? b.base = .ok base) :
    decode (some b) = .ok (inTime (rows b base)) := by
  by_cases h : b.rowCount = 0
  · rw [decode_of_no_rows h]; simp [rows, inTime, h]
  · simp only [decode, if_neg h, hb]; rfl

theorem decode_of_no_base {e : Fault} (h : b.rowCount ≠ 0)
    (hb : (Arithmetic.ofInt? b.base : Result Binary64) = .error e) : decode (some b) = .error e := by
  simp only [decode, if_neg h, hb]; rfl

/-- A batch is read, unless its base is an integer beyond the range. -/
theorem decode_cases (batch : Option HistoryBatch) :
    (∃ xs, decode batch = .ok xs) ∨ (decode batch = .error .overflow ∧
      ∃ b, batch = some b ∧ (Arithmetic.ofInt? b.base : Result Binary64) = .error .overflow) := by
  cases batch with
  | none => exact .inl ⟨[], rfl⟩
  | some b =>
    by_cases h : b.rowCount = 0
    · exact .inl ⟨[], decode_of_no_rows h⟩
    · rcases Arithmetic.ofInt?_cases (α := Binary64) b.base with ⟨base, hb⟩ | hb
      · exact .inl ⟨_, decode_of_base hb⟩
      · exact .inr ⟨decode_of_no_base h hb, b, rfl, hb⟩

theorem ofInt?_of_finite {α : Type} [Arithmetic α] {i : Int}
    (h : Arithmetic.isFinite (Arithmetic.whole i : α) = true) :
    (Arithmetic.ofInt? i : Result α) = .ok (Arithmetic.whole i) := if_pos h

theorem inTime_of_pairwise {samples : List Sample} (h : samples.Pairwise (·.time ≤ ·.time)) :
    inTime samples = samples := List.mergeSort_of_pairwise (h.imp decide_eq_true)

/-- A batch whose rows are in order of time is read as it is. -/
theorem decode_of_rows {samples : List Sample}
    (hb : Arithmetic.isFinite (Arithmetic.whole b.base : Binary64) = true)
    (hr : rows b (Arithmetic.whole b.base) = samples) (hs : samples.Pairwise (·.time ≤ ·.time)) :
    decode (some b) = .ok samples := by
  rw [decode_of_base (ofInt?_of_finite hb), hr, inTime_of_pairwise hs]

theorem inTime_pairwise (samples : List Sample) : (inTime samples).Pairwise (·.time ≤ ·.time) := by
  have h : (inTime samples).Pairwise fun x y => decide (x.time ≤ y.time) = true :=
    List.pairwise_mergeSort
      (fun a b c hab hbc => by simp only [decide_eq_true_eq] at hab hbc ⊢; omega)
      (fun a b => by simp only [Bool.or_eq_true, decide_eq_true_eq]; omega) samples
  exact h.imp of_decide_eq_true

/-- The samples of a batch come in order of time. -/
theorem decode_pairwise {batch : Option HistoryBatch} {samples : List Sample}
    (h : decode batch = .ok samples) : samples.Pairwise (·.time ≤ ·.time) := by
  cases batch with
  | none => cases h; exact .nil
  | some b =>
    by_cases h0 : b.rowCount = 0
    · rw [decode_of_no_rows h0] at h; cases h; exact .nil
    · cases hb : (Arithmetic.ofInt? b.base : Result Binary64) with
      | error e => rw [decode_of_no_base h0 hb] at h; cases h
      | ok base => rw [decode_of_base hb] at h; cases h; exact inTime_pairwise _

/-! ## Parts -/

theorem row?_front {i k : Nat} (h : i < k) : row? (b.front k) base i = row? b base i := by
  have ht : (b.front k).times[i]? = b.times[i]? := List.getElem?_take_of_lt h
  have hv : ∀ c, ((b.front k).values.get c).getD i .nan = (b.values.get c).getD i .nan := by
    intro c
    simp [HistoryBatch.front, List.getD_eq_getElem?_getD, List.getElem?_take_of_lt h]
  simp only [row?, ht, hv]

theorem row?_back (i k : Nat) : row? (b.back k) base i = row? b base (k + i) := by
  have ht : (b.back k).times[i]? = b.times[k + i]? := List.getElem?_drop
  have hv : ∀ c, ((b.back k).values.get c).getD i .nan = (b.values.get c).getD (k + i) .nan := by
    intro c
    simp [HistoryBatch.back, List.getD_eq_getElem?_getD]
  simp only [row?, ht, hv]

theorem rows_of_map {positions : List Nat} {row : Nat → Option Sample}
    (h : (List.range b.rowCount).map (row? b base) = positions.map row) :
    rows b base = positions.filterMap row := by
  have hrows : rows b base = ((List.range b.rowCount).map (row? b base)).filterMap id := by
    rw [List.filterMap_map]; rfl
  rw [hrows, h, List.filterMap_map]
  rfl

/-- The rows of a batch are those of its parts. -/
theorem rows_split (b : HistoryBatch) (base : Binary64) (k : Nat) :
    rows b base = rows (b.front k) base ++ rows (b.back k) base := by
  have hfront : rows (b.front k) base = (List.range (min k b.rowCount)).filterMap (row? b base) := by
    refine rows_of_map ?_
    rw [HistoryBatch.rowCount_front]
    refine List.map_congr_left fun i hi => row?_front ?_
    have := List.mem_range.mp hi
    omega
  have hback : rows (b.back k) base =
      ((List.range (b.rowCount - k)).map (k + ·)).filterMap (row? b base) := by
    refine rows_of_map ?_
    rw [HistoryBatch.rowCount_back, List.map_map]
    exact List.map_congr_left fun i _ => row?_back i k
  rw [hfront, hback, ← List.filterMap_append, rows]
  rcases Nat.le_total k b.rowCount with hk | hk
  · rw [Nat.min_eq_left hk, ← List.range_add, Nat.add_sub_cancel' hk]
  · rw [Nat.min_eq_right hk, Nat.sub_eq_zero_of_le hk]
    simp

/-- Samples of distinct times have one order. -/
theorem eq_of_perm_of_ordered {xs ys : List Sample} (hp : xs.Perm ys)
    (hx : xs.Pairwise (·.time ≤ ·.time)) (hy : ys.Pairwise (·.time < ·.time)) : xs = ys := by
  have hne : xs.Pairwise fun x y => x.time ≠ y.time :=
    (hp.pairwise_iff Ne.symm).mpr (hy.imp Int.ne_of_lt)
  have hlt : xs.Pairwise (·.time < ·.time) :=
    (hx.and hne).imp fun ⟨hle, hne⟩ => by omega
  exact List.Perm.eq_of_pairwise (fun _ _ _ _ hab hba => absurd hab (Int.not_lt.mpr (Int.le_of_lt hba)))
    hlt hy hp

/-- The samples of a batch are those of its parts, when those of the first part come before those
of the second. -/
theorem decode_split {whole : List Sample} {k : Nat} (h : decode (some b) = .ok whole)
    (hw : whole.Pairwise (·.time < ·.time))
    (hparts : ∀ x ∈ samples (some (b.front k)), ∀ y ∈ samples (some (b.back k)), x.time < y.time) :
    ∃ xs ys, decode (some (b.front k)) = .ok xs ∧ decode (some (b.back k)) = .ok ys ∧
      whole = xs ++ ys := by
  by_cases h0 : b.rowCount = 0
  · rw [decode_of_no_rows h0] at h
    cases h
    exact ⟨[], [], decode_of_no_rows (by rw [HistoryBatch.rowCount_front, h0, Nat.min_zero]),
      decode_of_no_rows (by rw [HistoryBatch.rowCount_back, h0, Nat.zero_sub]), rfl⟩
  · cases hb : (Arithmetic.ofInt? b.base : Result Binary64) with
    | error e => rw [decode_of_no_base h0 hb] at h; cases h
    | ok base =>
      have hfront : decode (some (b.front k)) = .ok (inTime (rows (b.front k) base)) := decode_of_base hb
      have hback : decode (some (b.back k)) = .ok (inTime (rows (b.back k) base)) := decode_of_base hb
      rw [decode_of_base hb] at h
      cases h
      rw [samples_of_ok hfront, samples_of_ok hback] at hparts
      refine ⟨_, _, hfront, hback, (eq_of_perm_of_ordered ?_ ?_ hw).symm⟩
      · -- both are the rows of the batch in another order
        have hperm : (inTime (rows (b.front k) base) ++ inTime (rows (b.back k) base)).Perm
            (rows (b.front k) base ++ rows (b.back k) base) :=
          (List.mergeSort_perm _ _).append (List.mergeSort_perm _ _)
        rw [← rows_split] at hperm
        exact hperm.trans (List.mergeSort_perm _ _).symm
      · exact List.pairwise_append.mpr ⟨inTime_pairwise _, inTime_pairwise _, fun x hx y hy =>
          Int.le_of_lt (hparts x hx y hy)⟩

theorem oldest_of_no_times (h : b.times.isEmpty = true) : oldest (some b) = .ok none := if_pos h

/-- The finite times of a batch, in milliseconds. -/
def finiteTimes (b : HistoryBatch) (base : Binary64) : List Binary64 :=
  ((b.times.map (· + base)).filter Binary64.isFinite).map normalizeReal

/-- The smallest of some times, the first of equal ones. -/
def earliest? : List Binary64 → Option Binary64
  | [] => none
  | t :: rest => some (rest.foldl Arithmetic.smaller t)

theorem oldest_eq (hb : Arithmetic.ofInt? b.base = .ok base) :
    oldest (some b) = .ok (earliest? (finiteTimes b base)) := by
  cases h : b.times.isEmpty with
  | true =>
    rw [oldest_of_no_times h, finiteTimes, List.isEmpty_iff.mp h]
    rfl
  | false =>
    simp only [oldest, h, Bool.false_eq_true, if_false]
    rw [hb]
    change (match finiteTimes b base with
      | [] => .ok none
      | t :: rest => .ok (some (rest.foldl Arithmetic.smaller t)) : Result (Option Binary64)) = _
    cases finiteTimes b base <;> rfl

theorem oldest_of_base (hb : Arithmetic.ofInt? b.base = .ok base) : ∃ t, oldest (some b) = .ok t :=
  ⟨_, oldest_eq hb⟩

/-- A batch whose oldest time cannot be told has no samples either. -/
theorem decode_of_oldest_error {e : Fault} (h : oldest (some b) = .error e) :
    decode (some b) = .ok [] ∨ ∃ e, decode (some b) = .error e := by
  cases hb : (Arithmetic.ofInt? b.base : Result Binary64) with
  | ok base => rw [oldest_eq hb] at h; cases h
  | error e' =>
    by_cases h0 : b.rowCount = 0
    · exact .inl (decode_of_no_rows h0)
    · exact .inr ⟨e', decode_of_no_base h0 hb⟩

/-! ## The oldest time -/

/-- A time is finite in milliseconds when it is finite. -/
theorem isFinite_normalizeReal (t : Binary64) : (normalizeReal t).isFinite = t.isFinite := by
  unfold normalizeReal
  split
  · next hs =>
    obtain ⟨hpos, hlt⟩ := Bool.and_eq_true_iff.mp hs
    cases t with
    | nan => cases hlt
    | infinite s => exact Bool.eq_false_iff.mpr fun hfin => nomatch Binary64.isFinite_of_mul hfin
    | finite s m =>
      obtain rfl := Binary64.not_negative_of_lt hpos
      obtain ⟨n, hn, hunits⟩ := Binary64.whole_of_isExact (i := 1000) (by decide)
      have hthousand : (1000 : Binary64) = .finite false n := (Binary64.whole_eq 1000).symm.trans hn
      have hlimit : (1000000000000 : Binary64) = Arithmetic.whole (1000000000000 : Nat) :=
        (Binary64.whole_eq _).symm
      rw [hlimit] at hlt
      have hbelow : m.units < 1000000000000 * unitsPerOne := Binary64.units_lt_of_lt (by decide) hlt
      -- below `10^12` there is room for three more digits
      have hroom : m.units * n.units < twoPow (50 + unitPlaces) * unitsPerOne := by
        rw [hunits, ← Nat.mul_assoc, twoPow_eq, Nat.pow_add, ← twoPow_eq unitPlaces, ← unitsPerOne]
        refine Nat.mul_lt_mul_of_pos_right ?_ unitsPerOne_pos
        calc m.units * 1000 < 1000000000000 * unitsPerOne * 1000 :=
              Nat.mul_lt_mul_of_pos_right hbelow (by decide)
          _ = 1000000000000 * 1000 * unitsPerOne := Nat.mul_right_comm ..
          _ ≤ 2 ^ 50 * unitsPerOne := Nat.mul_le_mul_right _ (by decide)
      rw [hthousand]
      exact Binary64.isFinite_mul_of_lt false false (by rw [unitPlaces_eq]; omega) hroom
  · rfl

theorem mem_foldl_smaller (t : Binary64) (ts : List Binary64) :
    ts.foldl Arithmetic.smaller t ∈ t :: ts := by
  induction ts generalizing t with
  | nil => exact List.mem_cons_self
  | cons u ts ih =>
    rw [List.foldl_cons]
    rcases List.mem_cons.mp (ih (Arithmetic.smaller t u)) with hm | hm
    · rw [hm, Arithmetic.smaller]
      split
      · exact List.mem_cons_of_mem _ List.mem_cons_self
      · exact List.mem_cons_self
    · exact List.mem_cons_of_mem _ (List.mem_cons_of_mem _ hm)

theorem mem_finiteTimes {t : Binary64} :
    t ∈ finiteTimes b base ↔
      ∃ (i : Nat) (x : Binary64), b.times[i]? = some x ∧ (x + base).isFinite = true ∧
        t = normalizeReal (x + base) := by
  simp only [finiteTimes, List.mem_map, List.mem_filter]
  constructor
  · rintro ⟨y, ⟨⟨x, hx, rfl⟩, hfin⟩, rfl⟩
    obtain ⟨i, hi⟩ := List.mem_iff_getElem?.mp hx
    exact ⟨i, x, hi, hfin, rfl⟩
  · rintro ⟨i, x, hi, hfin, rfl⟩
    exact ⟨x + base, ⟨⟨x, List.mem_of_getElem? hi, rfl⟩, hfin⟩, rfl⟩

theorem mem_of_earliest? {times : List Binary64} {t : Binary64} (h : earliest? times = some t) : t ∈ times := by
  cases times with
  | nil => cases h
  | cons u rest =>
    cases h
    exact mem_foldl_smaller u rest

/-- The oldest time of a batch is that of one of its entries. -/
theorem mem_of_oldest {t : Binary64} (hb : Arithmetic.ofInt? b.base = .ok base)
    (h : oldest (some b) = .ok (some t)) : t ∈ finiteTimes b base := by
  rw [oldest_eq hb] at h
  exact mem_of_earliest? (Except.ok.inj h)

/-- The first sample of a batch is its earliest. -/
theorem head?_le_of_mem {batch : Option HistoryBatch} {s : Sample} (h : s ∈ samples batch) :
    ∃ first, (samples batch).head? = some first ∧ first.time ≤ s.time := by
  cases hd : decode batch with
  | error e =>
    rw [samples, hd] at h
    cases h
  | ok xs =>
    rw [samples_of_ok hd] at h ⊢
    cases xs with
    | nil => cases h
    | cons first rest =>
      refine ⟨first, rfl, ?_⟩
      rcases List.mem_cons.mp h with rfl | hr
      · exact Int.le_refl _
      · exact (List.pairwise_cons.mp (decode_pairwise hd)).1 s hr

/-- A batch whose lists are as long as its times has a sample for its oldest time. -/
theorem exists_sample_of_oldest {t : Binary64} {i : Int} (hfull : b.rowCount = b.times.length)
    (h : oldest (some b) = .ok (some t)) (hlt : (Number.real t).lt (.int i) = true) :
    ∃ s ∈ samples (some b), s.time ≤ i := by
  cases hb : (Arithmetic.ofInt? b.base : Result Binary64) with
  | error e =>
    cases he : b.times.isEmpty with
    | true =>
      rw [oldest_of_no_times he] at h
      cases h
    | false =>
      simp only [oldest, he, Bool.false_eq_true, if_false] at h
      rw [hb] at h
      cases h
  | ok base =>
    obtain ⟨k, x, hk, hx, rfl⟩ := mem_finiteTimes.mp (mem_of_oldest hb h)
    have hfin : (normalizeReal (x + base)).isFinite = true := by rw [isFinite_normalizeReal, hx]
    obtain ⟨time, htime, hle⟩ := Number.truncate_le_of_lt hfin hlt
    have hrow : row? b base k =
        some ⟨time, .ofFn fun c => (b.values.get c).getD k .nan * scale c⟩ := by
      unfold row?
      simp only [hk, bind, Option.bind, htime]
    have hkb : k < b.rowCount := by
      rw [hfull]
      exact (List.getElem?_eq_some_iff.mp hk).1
    refine ⟨⟨time, .ofFn fun c => (b.values.get c).getD k .nan * scale c⟩, ?_, hle⟩
    rw [samples_of_ok (decode_of_base hb)]
    refine (List.mergeSort_perm _ _).mem_iff.mpr ?_
    exact List.mem_filterMap.mpr ⟨k, List.mem_range.mpr hkb, hrow⟩

end History

end HashrateChart
