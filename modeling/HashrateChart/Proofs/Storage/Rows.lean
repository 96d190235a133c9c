/-
Which positions of a document's lists become the samples of its curves.

The lists may be missing, of a wrong type, too short or too long. All of them are cut at
the same positions (`normalize_positions`): the last of those that have a finite label. So
a sample has its own values, whatever is wrong with the rest of the document, and what was
brought in order once stays as it is.
-/
import HashrateChart.Proofs.Action
import HashrateChart.Proofs.Storage.Document

namespace HashrateChart

namespace Json

/-- The items of a list; what is no list has none. -/
def itemsOf : Json → List Json
  | list items => items
  | _ => []

/-- Whether a value is read as a finite number. -/
def isFiniteReading (j : Json) : Bool :=
  match j.reading with
  | .ok x => x.isFinite
  | .error _ => false

/-- The reading of the item at a position: a gap when there is no such item. -/
def readingAt (j : Json) (i : Nat) : Result Binary64 :=
  match j.itemsOf[i]? with
  | some item => item.reading
  | none => .ok .nan

end Json

namespace StoredSeries

variable {labels : List Binary64} {most : Nat} {j : Json} {i : Nat}

/-! ## Positions -/

/-- The positions of the finite labels. -/
def finitePositions (labels : List Binary64) : List Nat :=
  (List.range labels.length).filter fun i => (labels[i]?.getD .nan).isFinite

theorem mem_finitePositions : i ∈ finitePositions labels ↔ (labels[i]?.getD .nan).isFinite = true := by
  rw [finitePositions, List.mem_filter, List.mem_range, and_iff_right_iff_imp]
  intro h
  -- behind the last label there is a gap, which is not finite
  refine Nat.lt_of_not_le fun hle => ?_
  rw [List.getElem?_eq_none hle] at h
  cases h

theorem finitePositions_pairwise (labels : List Binary64) : (finitePositions labels).Pairwise (· < ·) :=
  List.pairwise_lt_range.sublist List.filter_sublist

theorem finitePositions_cons (t : Binary64) (labels : List Binary64) :
    finitePositions (t :: labels) =
      if t.isFinite then 0 :: (finitePositions labels).map Nat.succ else (finitePositions labels).map Nat.succ := by
  rw [finitePositions, List.length_cons, List.range_succ_eq_map, List.filter_cons, List.filter_map]
  rfl

/-- What is kept of a list stands at the positions of the finite labels. -/
theorem keepFinite_positions {β : Type} (d : β) {items : List β} (h : items.length = labels.length) :
    keepFinite labels items = (finitePositions labels).map fun i => items[i]?.getD d := by
  induction labels generalizing items with
  | nil => rfl
  | cons t labels ih =>
    cases items with
    | nil => cases h
    | cons x items =>
      have hrest : keepFinite labels items =
          ((finitePositions labels).map Nat.succ).map fun i => (x :: items)[i]?.getD d := by
        rw [List.map_map]
        exact ih (Nat.succ.inj h)
      rw [keepFinite_cons, finitePositions_cons, hrest]
      split <;> rfl

theorem length_finitePositions (labels : List Binary64) :
    (finitePositions labels).length = labels.countP Binary64.isFinite := by
  have hkept := keepFinite_positions .nan (rfl : labels.length = labels.length)
  rw [List.countP_eq_length_filter, ← keepFinite_self, hkept, List.length_map]

theorem getElem?_fitLength {n : Nat} (values : List Binary64) (hi : i < n) :
    (Series.fitLength n values)[i]?.getD .nan = values[i]?.getD .nan := by
  rw [Series.fitLength]
  rcases Nat.lt_or_ge i values.length with hlt | hge
  · rw [List.getElem?_append_left (by rw [List.length_take]; omega), List.getElem?_take_of_lt hi]
  · rw [List.getElem?_append_right (by rw [List.length_take]; omega), List.getElem?_eq_none hge,
      List.getElem?_replicate]
    split <;> rfl

theorem newest_map {β γ : Type} (most : Int) (f : β → γ) (items : List β) :
    newest most (items.map f) = (newest most items).map f := by
  rw [newest, newest, List.length_map, List.map_drop]

/-- The positions that are kept of lists under these labels. -/
def keptPositions (labels : List Binary64) (most : Int) : List Nat := newest most (finitePositions labels)

/-- **All lists are cut at the same positions.** -/
theorem normalize_positions (labels : List Binary64) (data : PerChannel (List Binary64)) (most : Int) :
    normalize labels data most =
      ⟨(keptPositions labels most).map fun i => labels[i]?.getD .nan,
        data.map fun values => (keptPositions labels most).map fun i => values[i]?.getD .nan⟩ := by
  refine congr (congrArg StoredSeries.mk ?_) (PerChannel.ext_get fun c => ?_)
  · show newest most (keepFinite labels labels) = _
    rw [keepFinite_positions .nan rfl, newest_map]
    rfl
  · rw [PerChannel.get_map, PerChannel.get_map]
    show newest most (keepFinite labels (Series.fitLength labels.length (data.get c))) = _
    rw [keepFinite_positions .nan (length_fitLength _ _), newest_map]
    refine List.map_congr_left fun i hi => getElem?_fitLength _ ?_
    exact List.mem_range.mp (List.mem_filter.mp (List.mem_of_mem_drop hi)).1

/-- A position that is left out is before all that are kept. -/
theorem lt_of_not_kept (h : i ∈ finitePositions labels) (hnot : i ∉ keptPositions labels most) :
    ∀ k ∈ keptPositions labels most, i < k := by
  unfold keptPositions newest at hnot ⊢
  have hsplit := finitePositions_pairwise labels
  rw [← List.take_append_drop ((finitePositions labels).length - (most : Int).toNat)
    (finitePositions labels)] at h hsplit
  exact (List.pairwise_append.mp hsplit).2.2 i ((List.mem_append.mp h).resolve_right hnot)

/-! ## Documents -/

theorem numbers_eq (j : Json) : numbers j = j.itemsOf.mapM Json.reading := by cases j <;> rfl

theorem readingAt_of_numbers {xs : List Binary64} (h : numbers j = .ok xs) (i : Nat) :
    j.readingAt i = .ok (xs[i]?.getD .nan) := by
  rw [numbers_eq] at h
  unfold Json.readingAt
  have hlen := length_of_mapM h
  cases hx : xs[i]? with
  | none =>
    rw [List.getElem?_eq_none (hlen ▸ List.getElem?_eq_none_iff.mp hx)]
    rfl
  | some x =>
    obtain ⟨item, hitem, hread⟩ := getElem?_of_mapM h hx
    rw [hitem]
    exact hread

theorem countP_of_numbers {xs : List Binary64} (h : numbers j = .ok xs) :
    xs.countP Binary64.isFinite = j.itemsOf.countP Json.isFiniteReading := by
  rw [numbers_eq] at h
  let ok (r : Result Binary64) : Bool :=
    match r with
    | .ok x => x.isFinite
    | .error _ => false
  calc xs.countP Binary64.isFinite = (xs.map Except.ok).countP ok := by
        rw [List.countP_map]
        rfl
    _ = (j.itemsOf.map Json.reading).countP ok := by rw [map_of_mapM h]
    _ = j.itemsOf.countP Json.isFiniteReading := List.countP_map

/-- Whether a document has a finite label at a position. -/
def HasLabel (j : Json) (i : Nat) : Prop := ∃ t, (j.get "labels").readingAt i = .ok t ∧ t.isFinite = true

/-- Curves that are made of what stands at some positions of a document's lists. -/
structure RowsAt (j : Json) (kept : List Nat) (s : StoredSeries) : Prop where
  labels : kept.map (j.get "labels").readingAt = s.labels.map .ok
  data : ∀ c, kept.map (j.get (fieldName c)).readingAt = (s.data.get c).map .ok

/-- The newest positions of a document that have a finite label. -/
structure Newest (j : Json) (most : Nat) (kept : List Nat) : Prop where
  increasing : kept.Pairwise (· < ·)
  hasLabel : ∀ i ∈ kept, HasLabel j i
  /-- A position with a finite label is left out only before all others, -/
  left : ∀ i, HasLabel j i → i ∉ kept → ∀ k ∈ kept, i < k
  /-- and only when there are too many. -/
  length : kept.length = min most ((j.get "labels").itemsOf.countP Json.isFiniteReading)

theorem hasLabel_iff (h : numbers (j.get "labels") = .ok labels) : HasLabel j i ↔ i ∈ finitePositions labels := by
  rw [mem_finitePositions, HasLabel, readingAt_of_numbers h]
  exact ⟨fun ⟨t, ht, hfin⟩ => Except.ok.inj ht ▸ hfin, fun hfin => ⟨_, rfl, hfin⟩⟩

theorem newest_keptPositions (h : numbers (j.get "labels") = .ok labels) :
    Newest j most (keptPositions labels most) where
  increasing := (finitePositions_pairwise labels).sublist (List.drop_sublist _ _)
  hasLabel i hi := (hasLabel_iff h).mpr (List.mem_of_mem_drop hi)
  left i hi hnot := lt_of_not_kept ((hasLabel_iff h).mp hi) hnot
  length := by
    rw [keptPositions, length_newest, length_finitePositions, countP_of_numbers h, Int.toNat_natCast, Nat.min_comm]

theorem rowsAt_normalize {data : PerChannel (List Binary64)} (h : numbers (j.get "labels") = .ok labels)
    (hdata : ∀ c, numbers (j.get (fieldName c)) = .ok (data.get c)) :
    RowsAt j (keptPositions labels most) (normalize labels data most) where
  labels := by
    rw [normalize_positions, List.map_map]
    exact List.map_congr_left fun i _ => readingAt_of_numbers h i
  data c := by
    rw [normalize_positions, PerChannel.get_map, List.map_map]
    exact List.map_congr_left fun i _ => readingAt_of_numbers (hdata c) i

/-! ## Once more -/

/-- Curves as a document that has all their values. -/
def document (s : StoredSeries) : Json :=
  .object (("schema", .int 1) :: ("labels", .list (s.labels.map .real)) ::
    Channel.all.map fun c => (fieldName c, .list ((s.data.get c).map .real)))

theorem ofDocument_document (s : StoredSeries) (most : Int) :
    ofDocument s.document (.ok most) = .ok (normalize s.labels s.data most) := by
  have hread (xs : List Binary64) : numbers (.list (xs.map .real)) = .ok xs := by
    rw [numbers_map (g := id) fun _ => rfl, List.map_id]
  have hlabels : numbers (s.document.get "labels") = .ok s.labels := hread s.labels
  have hdata : PerChannel.ofFnM (fun c => numbers (s.document.get (fieldName c))) = .ok s.data := by
    have hget (c : Channel) : s.document.get (fieldName c) = .list ((s.data.get c).map .real) := by cases c <;> rfl
    simp only [hget, hread]
    rfl
  unfold ofDocument
  rw [hlabels, hdata]
  rfl

/-- **Rows stay aligned.** Every document without an integer beyond the range gives curves of one length: their
samples stand at the newest positions that have a finite label, as many as are kept at most, and each value
is what the list of its channel has at the very position of the label. The curves give themselves again. -/
theorem ofDocument_aligned {fields : List (String × Json)} (h : ListsInRange (.object fields)) (most : Nat) :
    ∃ s kept, ofDocument (.object fields) (.ok most) = .ok s ∧
      Newest (.object fields) most kept ∧ RowsAt (.object fields) kept s ∧
      s.labels.length = kept.length ∧ (∀ c, (s.data.get c).length = kept.length) ∧
      ofDocument s.document (.ok most) = .ok s := by
  rcases ofDocument_cases fields most with ⟨-, labels, data, hlabels, hdata, hok⟩ | ⟨hnot, -⟩
  case inr => exact absurd h hnot
  have hregular := regular_normalize labels data most
  have hlen : (normalize labels data most).labels.length = (keptPositions labels most).length := by
    rw [normalize_positions, List.length_map]
  refine ⟨normalize labels data most, keptPositions labels most, hok, newest_keptPositions hlabels,
    rowsAt_normalize hlabels hdata, hlen, fun c => (hregular.lengths c).trans hlen, ?_⟩
  rw [ofDocument_document, normalize_of_regular hregular (length_normalize labels data most)]

/-- Four labels, one of them no number; a list that is too short, one that is too long, one of a wrong type,
and three that are missing. -/
def mixedFields : List (String × Json) :=
  [("labels", .list [.int 1000, .text "x", .int 3000, .text "4000"]),
    ("dataData1m", .list [.int 1, .int 2, .int 3]),
    ("dataData10m", .list [.int 10, .int 20, .null, .real 40, .int 50]),
    ("dataData1h", .text "none")]

/-- The rows under the last two labels are kept, whatever the lists have elsewhere. -/
def mixedSeries : StoredSeries :=
  ⟨[3000, 4000], ⟨[3, .nan], [.nan, 40], [.nan, .nan], [.nan, .nan], [.nan, .nan], [.nan, .nan]⟩⟩

theorem ofDocument_aligned_of_mixed :
    ListsInRange (.object mixedFields) ∧ ofDocument (.object mixedFields) (.ok 2) = .ok mixedSeries ∧
      (∃ kept, Newest (.object mixedFields) 2 kept ∧ RowsAt (.object mixedFields) kept mixedSeries) ∧
      ofDocument mixedSeries.document (.ok 2) = .ok mixedSeries := by
  have hmixed : ofDocument (.object mixedFields) (.ok (2 : Nat)) = .ok mixedSeries :=
    ok_of_toOption (by decide +kernel)
  have hrange : ListsInRange (.object mixedFields) := by
    rcases ofDocument_cases mixedFields (2 : Nat) with ⟨hrange, -⟩ | ⟨-, herr⟩
    · exact hrange
    · cases hmixed.symm.trans herr
  obtain ⟨s, kept, hs, hnewest, hrows, -, -, hagain⟩ := ofDocument_aligned hrange 2
  cases hmixed.symm.trans hs
  exact ⟨hrange, hmixed, ⟨kept, hnewest, hrows⟩, hagain⟩

end StoredSeries

end HashrateChart
