/-
What the operations on the curves do to the labels and to the six lists of
values, and the order they keep: labels strictly increasing, one value of each
channel for every label.

A sample may be stored whenever its time is not before the last label; a gap
finds its own place after it. Neither looks at the rows in front of the last
one, so what is added to curves (`concat`) does not depend on them.
-/
import HashrateChart.Series

namespace HashrateChart

namespace Series

variable {s : Series} {t last : Int} {row : PerChannel Binary64}

/-! ## Last items -/

theorem length_replaceLast {β : Type} (xs : List β) (x : β) : (replaceLast xs x).length = xs.length := by
  unfold replaceLast
  split
  · next h => simp [List.isEmpty_iff.mp h]
  · next h =>
    have : xs.length ≠ 0 := fun h0 => h (by simp [List.length_eq_zero_iff.mp h0])
    simp only [List.length_append, List.length_dropLast, List.length_singleton]
    omega

theorem le_getLast_of_mem {xs : List Int} {x : Int} (h : xs.Pairwise (· < ·)) (hx : x ∈ xs)
    (hl : xs.getLast? = some last) : x ≤ last := by
  obtain ⟨ys, rfl⟩ := List.getLast?_eq_some_iff.mp hl
  rw [List.pairwise_append] at h
  rcases List.mem_append.mp hx with hx | hx
  · exact Int.le_of_lt (h.2.2 x hx last (by simp))
  · exact Int.le_of_eq (by simpa using hx)

theorem ascending_concat {xs : List Int} (h : xs.Pairwise (· < ·))
    (ht : ∀ last, xs.getLast? = some last → last < t) : (xs ++ [t]).Pairwise (· < ·) := by
  rw [List.pairwise_append]
  refine ⟨h, by simp, fun x hx y hy => ?_⟩
  obtain rfl : y = t := by simpa using hy
  cases hl : xs.getLast? with
  | none => simp [List.getLast?_eq_none_iff.mp hl] at hx
  | some last => exact Int.lt_of_le_of_lt (le_getLast_of_mem h hx hl) (ht last hl)

/-! ## Older rows -/

theorem length_takeWhile_le {xs : List Int} {a b : Int} (h : a ≤ b) :
    (xs.takeWhile (· < a)).length ≤ (xs.takeWhile (· < b)).length := by
  induction xs with
  | nil => exact Nat.le_refl _
  | cons x rest ih =>
    by_cases hx : x < a
    · rw [List.takeWhile_cons_of_pos (by simpa using hx),
        List.takeWhile_cons_of_pos (by simpa using Int.lt_of_lt_of_le hx h)]
      exact Nat.succ_le_succ ih
    · rw [List.takeWhile_cons_of_neg (by simpa using hx)]
      exact Nat.zero_le _

/-- Rows that are left out at the front count no longer. -/
theorem length_takeWhile_drop {xs : List Int} {p : Int → Bool} {n : Nat} (h : n ≤ (xs.takeWhile p).length) :
    ((xs.drop n).takeWhile p).length = (xs.takeWhile p).length - n := by
  induction xs generalizing n with
  | nil => simp
  | cons x rest ih =>
    cases n with
    | zero => rfl
    | succ n =>
      by_cases hx : p x
      · rw [List.takeWhile_cons_of_pos hx] at h ⊢
        rw [List.drop_succ_cons, ih (Nat.le_of_succ_le_succ h), List.length_cons, Nat.add_sub_add_right]
      · rw [List.takeWhile_cons_of_neg hx] at h
        cases h

/-! ## Labels -/

@[simp] theorem labels_append (s : Series) (t : Int) (row : PerChannel Binary64) :
    (s.append t row).labels = s.labels ++ [t] := rfl

@[simp] theorem labels_replace (s : Series) (row : PerChannel Binary64) :
    (s.replace row).labels = s.labels := rfl

@[simp] theorem lastLabel?_append (s : Series) (t : Int) (row : PerChannel Binary64) :
    (s.append t row).lastLabel? = some t := by simp [lastLabel?]

@[simp] theorem lastLabel?_empty : empty.lastLabel? = none := rfl

theorem upsert_of_eq (h : s.lastLabel? = some t) : s.upsert t row = s.replace row := if_pos h

theorem upsert_of_ne (h : s.lastLabel? ≠ some t) : s.upsert t row = s.append t row := if_neg h

@[simp] theorem lastLabel?_upsert (s : Series) (t : Int) (row : PerChannel Binary64) :
    (s.upsert t row).lastLabel? = some t := by
  by_cases h : s.lastLabel? = some t
  · rw [upsert_of_eq h]; exact h
  · rw [upsert_of_ne h, lastLabel?_append]

/-- Where a gap asked for at a time is placed. -/
def gapTime (s : Series) (t : Int) : Int :=
  match s.lastLabel? with
  | some last => if t ≤ last then last + 1 else t
  | none => t

theorem insertBreak_of_le (h : t ≤ 0) : s.insertBreak t = (none, s) := if_pos h

theorem insertBreak_of_pos (h : 0 < t) :
    s.insertBreak t = (some (s.gapTime t), s.append (s.gapTime t) (.replicate .nan)) :=
  if_neg (by omega)

theorem le_gapTime (s : Series) (t : Int) : t ≤ s.gapTime t := by
  unfold gapTime
  split
  · split <;> omega
  · exact Int.le_refl t

theorem lt_gapTime (t : Int) (h : s.lastLabel? = some last) : last < s.gapTime t := by
  simp only [gapTime, h]
  split <;> omega

theorem lt_gapTime_of_mem {x : Int} (h : s.labels.Pairwise (· < ·)) (hx : x ∈ s.labels) (t : Int) :
    x < s.gapTime t := by
  cases hl : s.lastLabel? with
  | none => rw [List.getLast?_eq_none_iff.mp hl] at hx; cases hx
  | some last => exact Int.lt_of_le_of_lt (le_getLast_of_mem h hx hl) (lt_gapTime t hl)

/-- A gap goes no further than just after the last label. -/
theorem gapTime_le {u : Int} (ht : t ≤ u) (h : ∀ last, s.lastLabel? = some last → last < u) :
    s.gapTime t ≤ u := by
  unfold gapTime
  split
  · next last hl => have := h last hl; split <;> omega
  · exact ht

/-! ## Order -/

/-- Every channel has one value for each label. -/
def Aligned (s : Series) : Prop := ∀ c, (s.data.get c).length = s.labels.length

namespace Aligned

theorem empty : Aligned .empty := fun c => by simp [Series.empty]

theorem append (h : s.Aligned) : (s.append t row).Aligned := fun c => by simp [Series.append, h c]

theorem replace (h : s.Aligned) : (s.replace row).Aligned := fun c => by
  simp [Series.replace, length_replaceLast, h c]

theorem upsert (h : s.Aligned) : (s.upsert t row).Aligned := by
  unfold Series.upsert
  split
  · exact h.replace
  · exact h.append

theorem insertBreak (h : s.Aligned) (t : Int) : (s.insertBreak t).2.Aligned := by
  by_cases ht : t ≤ 0
  · rw [insertBreak_of_le ht]; exact h
  · rw [insertBreak_of_pos (by omega)]; exact h.append

theorem trim (h : s.Aligned) (now window : Int) : (s.trim now window).2.Aligned := fun c => by
  simp [Series.trim, h c]

end Aligned

/-- The labels strictly increase, and every channel has one value for each of them. -/
structure InOrder (s : Series) : Prop where
  ascending : s.labels.Pairwise (· < ·)
  aligned : s.Aligned

namespace InOrder

theorem empty : InOrder .empty := ⟨.nil, .empty⟩

theorem append (h : s.InOrder) (ht : ∀ last, s.lastLabel? = some last → last < t) :
    (s.append t row).InOrder := ⟨ascending_concat h.ascending ht, h.aligned.append⟩

theorem replace (h : s.InOrder) : (s.replace row).InOrder := ⟨h.ascending, h.aligned.replace⟩

theorem upsert (h : s.InOrder) (ht : ∀ last, s.lastLabel? = some last → last ≤ t) :
    (s.upsert t row).InOrder := by
  by_cases he : s.lastLabel? = some t
  · rw [upsert_of_eq he]; exact h.replace
  · rw [upsert_of_ne he]
    refine h.append fun last hl => ?_
    have hne : last ≠ t := by rintro rfl; exact he hl
    have := ht last hl
    omega

theorem insertBreak (h : s.InOrder) (t : Int) : (s.insertBreak t).2.InOrder := by
  by_cases ht : t ≤ 0
  · rw [insertBreak_of_le ht]; exact h
  · rw [insertBreak_of_pos (by omega)]
    exact h.append fun _ hl => lt_gapTime t hl

theorem trim (h : s.InOrder) (now window : Int) : (s.trim now window).2.InOrder :=
  ⟨h.ascending.sublist (List.drop_sublist _ _), h.aligned.trim now window⟩

end InOrder

/-- The last label outlives a trim that leaves any label. -/
theorem lastLabel?_trim {now window : Int} (h : (s.trim now window).2.lastLabel? = some last) :
    s.lastLabel? = some last := by
  simp only [trim, lastLabel?, List.getLast?_drop] at h
  split at h
  · cases h
  · exact h

/-! ## The last row -/

theorem labels_ne_nil (h : s.lastLabel? = some t) : s.labels ≠ [] := by
  intro hl
  rw [lastLabel?, hl] at h
  cases h

theorem Aligned.ne_nil (h : s.Aligned) (hl : s.labels ≠ []) (c : Channel) : s.data.get c ≠ [] := by
  intro hd
  exact hl (List.length_eq_zero_iff.mp (by rw [← h c, hd, List.length_nil]))

theorem getLast?_replaceLast {β : Type} {xs : List β} (x : β) (h : xs ≠ []) :
    (replaceLast xs x).getLast? = some x := by
  rw [replaceLast, if_neg (by simpa using h)]
  simp

/-- The last row is the one that was stored last. -/
theorem lastRow?_upsert (h : s.Aligned) (t : Int) (row : PerChannel Binary64) :
    (s.upsert t row).lastRow? = some row := by
  have hne : (s.upsert t row).labels ≠ [] := labels_ne_nil (lastLabel?_upsert s t row)
  rw [lastRow?, if_neg (by simpa using hne)]
  refine congrArg some (PerChannel.ext_get fun c => ?_)
  rw [PerChannel.get_map]
  by_cases ht : s.lastLabel? = some t
  · rw [upsert_of_eq ht, replace, PerChannel.get_ofFn,
      getLast?_replaceLast _ (h.ne_nil (labels_ne_nil ht) c)]
    rfl
  · rw [upsert_of_ne ht, append, PerChannel.get_ofFn, List.getLast?_concat]
    rfl

/-! ## Times one after the other -/

/-- The labels after a sample was stored: one more, unless its time is the last one. -/
def stamped (labels : List Int) (t : Int) : List Int :=
  if labels.getLast? = some t then labels else labels ++ [t]

theorem labels_upsert (s : Series) (t : Int) (row : PerChannel Binary64) :
    (s.upsert t row).labels = stamped s.labels t := by
  unfold upsert stamped lastLabel?
  split <;> rfl

theorem prefix_stamped (labels : List Int) (t : Int) : labels <+: stamped labels t := by
  unfold stamped
  split
  · exact List.prefix_refl labels
  · exact List.prefix_append labels [t]

theorem prefix_foldl_stamped (labels ts : List Int) : labels <+: ts.foldl stamped labels := by
  induction ts generalizing labels with
  | nil => exact List.prefix_refl labels
  | cons t ts ih => exact (prefix_stamped labels t).trans (ih (stamped labels t))

/-- Labels stay strictly increasing exactly when the times go on from the last one and never go
back. -/
theorem ascending_foldl_stamped {labels ts : List Int} (h : labels.Pairwise (· < ·)) :
    (ts.foldl stamped labels).Pairwise (· < ·) ↔ (labels.getLast?.toList ++ ts).Pairwise (· ≤ ·) := by
  induction ts generalizing labels with
  | nil => cases labels.getLast? <;> simp [h]
  | cons t ts ih =>
    rw [List.foldl_cons, stamped]
    cases hl : labels.getLast? with
    | none =>
      have hnil := List.getLast?_eq_none_iff.mp hl
      subst hnil
      exact ih (List.pairwise_singleton (· < ·) t)
    | some last =>
      simp only [Option.some.injEq, Option.toList_some, List.singleton_append]
      by_cases heq : last = t
      · subst heq
        rw [if_pos rfl, ih h, hl]
        simp
      · rw [if_neg heq]
        by_cases hlt : last < t
        · have hasc := ascending_concat h fun u hu => by cases hl.symm.trans hu; exact hlt
          rw [ih hasc]
          simp only [List.getLast?_concat, Option.toList_some, List.singleton_append, List.pairwise_cons,
            List.forall_mem_cons]
          refine ⟨fun hp => ⟨⟨Int.le_of_lt hlt, fun u hu => ?_⟩, hp⟩, fun hp => hp.2⟩
          exact Int.le_trans (Int.le_of_lt hlt) (hp.1 u hu)
        · -- the time is before the last label, and it stays where it is
          refine iff_of_false (fun hp => ?_) fun hp => ?_
          · have hpre := hp.sublist (prefix_foldl_stamped (labels ++ [t]) ts).sublist
            have hlast : last ∈ labels := List.mem_of_getLast? hl
            exact hlt ((List.pairwise_append.mp hpre).2.2 last hlast t (List.mem_singleton_self t))
          · have hle := (List.pairwise_cons.mp hp).1 t List.mem_cons_self
            omega

/-- Times that strictly increase are all added. -/
theorem foldl_stamped_of_ascending {labels ts : List Int}
    (h : (labels.getLast?.toList ++ ts).Pairwise (· < ·)) : ts.foldl stamped labels = labels ++ ts := by
  induction ts generalizing labels with
  | nil => rw [List.append_nil]; rfl
  | cons t ts ih =>
    have hne : labels.getLast? ≠ some t := by
      intro hl
      rw [hl, Option.toList_some, List.singleton_append, List.pairwise_cons] at h
      exact Int.lt_irrefl t (h.1 t List.mem_cons_self)
    have hrest : ((labels ++ [t]).getLast?.toList ++ ts).Pairwise (· < ·) := by
      rw [List.getLast?_concat]
      exact (List.pairwise_append.mp h).2.1
    rw [List.foldl_cons, stamped, if_neg hne, ih hrest, List.append_assoc]
    rfl

/-- Times that never go back add each new one of them once. -/
theorem foldl_stamped_of_pairwise {labels ts : List Int} (hs : ts.Pairwise (· ≤ ·))
    (hlast : ∀ last, labels.getLast? = some last → ∀ t ∈ ts, last ≤ t) :
    ∃ new, ts.foldl stamped labels = labels ++ new ∧ new.Pairwise (· < ·) ∧
      ∀ t, t ∈ new ↔ t ∈ ts ∧ ∀ last, labels.getLast? = some last → last < t := by
  induction ts generalizing labels with
  | nil => exact ⟨[], (List.append_nil _).symm, .nil, by simp⟩
  | cons t ts ih =>
    obtain ⟨hlater, hrest⟩ := List.pairwise_cons.mp hs
    rw [List.foldl_cons, stamped]
    by_cases heq : labels.getLast? = some t
    · -- the time is the last label
      obtain ⟨new, hnew, hasc, hmem⟩ := ih hrest fun last hl u hu => hlast last hl u (List.mem_cons_of_mem _ hu)
      refine ⟨new, by rw [if_pos heq, hnew], hasc, fun u => ?_⟩
      rw [hmem, heq, List.mem_cons]
      refine ⟨fun ⟨hu, hlt⟩ => ⟨.inr hu, hlt⟩, fun ⟨hu, hlt⟩ => ⟨hu.resolve_left ?_, hlt⟩⟩
      have := hlt t rfl
      omega
    · have hlast' : ∀ last, (labels ++ [t]).getLast? = some last → ∀ u ∈ ts, last ≤ u := by
        intro last hl u hu
        rw [List.getLast?_concat] at hl
        cases hl
        exact hlater u hu
      obtain ⟨new, hnew, hasc, hmem⟩ := ih hrest hlast'
      simp only [List.getLast?_concat, Option.some.injEq, forall_eq'] at hmem
      have hafter : ∀ last, labels.getLast? = some last → last < t := fun last hl => by
        have hle := hlast last hl t List.mem_cons_self
        have hne : last ≠ t := by
          rintro rfl
          exact heq hl
        omega
      refine ⟨t :: new, by rw [if_neg heq, hnew, List.append_assoc]; rfl,
        List.pairwise_cons.mpr ⟨fun u hu => ((hmem u).mp hu).2, hasc⟩, fun u => ?_⟩
      rw [List.mem_cons, List.mem_cons, hmem]
      constructor
      · rintro (rfl | ⟨hu, hlt⟩)
        · exact ⟨.inl rfl, hafter⟩
        · exact ⟨.inr hu, fun last hl => Int.lt_trans (hafter last hl) hlt⟩
      · rintro ⟨rfl | hu, -⟩
        · exact .inl rfl
        · have hle := hlater u hu
          by_cases hut : u = t
          · exact .inl hut
          · exact .inr ⟨hu, by omega⟩

/-! ## Gaps -/

/-- The row at a position has no value in any curve. -/
def IsGap (s : Series) (k : Nat) : Prop := ∀ c, (s.data.get c)[k]? = some .nan

variable {k : Nat}

theorem getElem?_replaceLast {β : Type} {xs : List β} (x : β) (h : k + 1 < xs.length) :
    (replaceLast xs x)[k]? = xs[k]? := by
  have hne : ¬ xs.isEmpty = true := by
    rw [List.isEmpty_iff_length_eq_zero]
    omega
  rw [replaceLast, if_neg hne, List.getElem?_append_left (by simp; omega), List.getElem?_dropLast,
    if_pos (by omega)]

theorem IsGap.append (h : s.IsGap k) (t : Int) (row : PerChannel Binary64) :
    (s.append t row).IsGap k := by
  intro c
  have hk := (List.getElem?_eq_some_iff.mp (h c)).1
  simp only [Series.append, PerChannel.get_ofFn]
  rw [List.getElem?_append_left hk, h c]

theorem IsGap.replace (h : s.IsGap k) (hs : s.Aligned) (hk : k + 1 < s.labels.length)
    (row : PerChannel Binary64) : (s.replace row).IsGap k := by
  intro c
  simp only [Series.replace, PerChannel.get_ofFn]
  rw [getElem?_replaceLast _ (by rw [hs]; exact hk), h c]

theorem isGap_append (h : s.Aligned) (t : Int) :
    (s.append t (.replicate .nan)).IsGap s.labels.length := by
  intro c
  simp [Series.append, ← h c]

theorem isGap_trim {now window : Int} :
    (s.trim now window).2.IsGap k ↔ s.IsGap ((s.trim now window).1 + k) := by
  simp [IsGap, trim]

/-! ## Rows in front -/

/-- The rows of some curves, and then those of others. -/
def concat (s new : Series) : Series :=
  ⟨s.labels ++ new.labels, .ofFn fun c => s.data.get c ++ new.data.get c⟩

variable {new : Series}

@[simp] theorem concat_empty (s : Series) : s.concat .empty = s := by
  have hd : (PerChannel.ofFn fun c => s.data.get c ++ Series.empty.data.get c) = s.data :=
    PerChannel.ext_get fun c => by simp [Series.empty]
  rw [concat, hd]
  simp [Series.empty]

theorem lastLabel?_concat (s new : Series) :
    (s.concat new).lastLabel? = new.lastLabel?.or s.lastLabel? := by
  simp [lastLabel?, concat, List.getLast?_append]

theorem lastLabel?_concat_of_ne (s : Series) (h : new.labels ≠ []) :
    (s.concat new).lastLabel? = new.lastLabel? := by
  rw [lastLabel?_concat, lastLabel?, List.getLast?_eq_some_getLast h, Option.some_or]

theorem append_concat (s new : Series) (t : Int) (row : PerChannel Binary64) :
    (s.concat new).append t row = s.concat (new.append t row) := by
  simp [Series.append, concat]

theorem replaceLast_append {β : Type} (xs : List β) {ys : List β} (x : β) (h : ys ≠ []) :
    replaceLast (xs ++ ys) x = xs ++ replaceLast ys x := by
  simp [replaceLast, h, List.dropLast_append_of_ne_nil]

theorem replace_concat (s : Series) (ha : new.Aligned) (h : new.labels ≠ []) (row : PerChannel Binary64) :
    (s.concat new).replace row = s.concat (new.replace row) := by
  simp [Series.replace, concat, replaceLast_append _ _ (ha.ne_nil h _)]

/-- Storing a sample does not look at the rows in front, unless there are no others. -/
theorem upsert_concat (ha : new.Aligned) (h : new.labels = [] → s.lastLabel? ≠ some t) :
    (s.concat new).upsert t row = s.concat (new.upsert t row) := by
  by_cases hn : new.labels = []
  · have hl : new.lastLabel? = none := by rw [lastLabel?, hn]; rfl
    have hs : (s.concat new).lastLabel? ≠ some t := by rw [lastLabel?_concat, hl]; exact h hn
    rw [upsert_of_ne hs, upsert_of_ne (by rw [hl]; exact nofun), append_concat]
  · have hl := lastLabel?_concat_of_ne s hn
    by_cases he : new.lastLabel? = some t
    · rw [upsert_of_eq he, upsert_of_eq (hl.trans he), replace_concat s ha hn]
    · rw [upsert_of_ne he, upsert_of_ne (by rw [hl]; exact he), append_concat]

/-- Drawing a gap does not look at the rows in front, when they are all before it. -/
theorem insertBreak_concat (h : new.labels = [] → ∀ last, s.lastLabel? = some last → last < t) :
    (s.concat new).insertBreak t = ((new.insertBreak t).1, s.concat (new.insertBreak t).2) := by
  have hg : (s.concat new).gapTime t = new.gapTime t := by
    by_cases hn : new.labels = []
    · have hl : new.lastLabel? = none := by rw [lastLabel?, hn]; rfl
      rw [gapTime, gapTime, lastLabel?_concat, hl, Option.none_or]
      cases hs : s.lastLabel? with
      | none => rfl
      | some last =>
        have := h hn last hs
        exact if_neg (by omega)
    · rw [gapTime, gapTime, lastLabel?_concat_of_ne s hn]
  by_cases ht : t ≤ 0
  · rw [insertBreak_of_le ht, insertBreak_of_le ht]
  · rw [insertBreak_of_pos (by omega), insertBreak_of_pos (by omega), hg, append_concat]

end Series

end HashrateChart
