/-
What a stored text gives when it is read as curves.

Reading is lenient, and yet it fails on two kinds of text: one that nests deeper
than is read, and one of the right version with an integer among its numbers that
is beyond the range of binary64. All others are `Readable`. What is read from a
text is `Regular`: lists of one length under finite labels.

The text of regular curves is readable and gives them back, with a gap for every
value that has no digits.
-/
import HashrateChart.Proofs.Binary64
import HashrateChart.Proofs.Json.RoundTrip
import HashrateChart.Storage.Document

namespace HashrateChart

namespace Json

/-- Whether a value is no integer beyond the range of binary64. -/
def InRange : Json → Prop
  | number n => ∃ x, n.toReal = .ok x
  | _ => True

variable {j : Json}

theorem inRange_int {i : Int} (h : Binary64.IsExact i) : (int i).InRange := ⟨_, Binary64.ofInt?_whole h⟩

/-- A reading fails only where an integer is beyond the range. -/
theorem reading_cases (j : Json) :
    (j.InRange ∧ ∃ x, j.reading = .ok x) ∨ (¬ j.InRange ∧ j.reading = .error .overflow) := by
  cases j with
  | null => exact .inl ⟨trivial, _, rfl⟩
  | bool b => exact .inl ⟨trivial, _, rfl⟩
  | text s =>
    refine .inl ⟨trivial, ?_⟩
    simp only [reading, toReal]
    cases Decimal.readReal? s with
    | none => exact ⟨_, rfl⟩
    | some x => exact ⟨_, rfl⟩
  | list xs => exact .inl ⟨trivial, _, rfl⟩
  | object fields => exact .inl ⟨trivial, _, rfl⟩
  | number n =>
    rcases n.toReal_cases with ⟨x, hx⟩ | hx
    · exact .inl ⟨⟨x, hx⟩, x, by simp only [reading, toReal, number?, hx]⟩
    · exact .inr ⟨fun ⟨x, h⟩ => (by cases hx.symm.trans h), by simp only [reading, toReal, number?, hx]⟩

/-- Items are read when none of them is beyond the range, and else fail as the first one does. -/
theorem mapM_reading (items : List Json) :
    ((∀ x ∈ items, x.InRange) ∧ ∃ xs, items.mapM reading = .ok xs) ∨
      ((¬ ∀ x ∈ items, x.InRange) ∧ items.mapM reading = .error .overflow) := by
  induction items with
  | nil => exact .inl ⟨fun _ h => (by cases h), [], rfl⟩
  | cons j items ih =>
    simp only [List.mapM_cons, List.forall_mem_cons, bind, Except.bind]
    rcases j.reading_cases with ⟨hj, x, hx⟩ | ⟨hj, hx⟩
    · rw [hx]
      rcases ih with ⟨hi, xs, hxs⟩ | ⟨hi, hxs⟩
      · rw [hxs]
        exact .inl ⟨⟨hj, hi⟩, x :: xs, rfl⟩
      · rw [hxs]
        exact .inr ⟨fun h => hi h.2, rfl⟩
    · rw [hx]
      exact .inr ⟨fun h => hj h.1, rfl⟩

end Json

namespace StoredSeries

/-! ## Lists of one length -/

/-- Every channel has one value for each label, and all labels are finite. -/
structure Regular (s : StoredSeries) : Prop where
  lengths : ∀ c, (s.data.get c).length = s.labels.length
  finite : ∀ t ∈ s.labels, t.isFinite = true

variable {labels : List Binary64} {most : Int}

theorem keepFinite_cons {β : Type} (t : Binary64) (labels : List Binary64) (x : β) (items : List β) :
    keepFinite (t :: labels) (x :: items) =
      if t.isFinite then x :: keepFinite labels items else keepFinite labels items := by
  cases h : t.isFinite <;> simp [keepFinite, h]

theorem keepFinite_self (labels : List Binary64) :
    keepFinite labels labels = labels.filter Binary64.isFinite := by
  induction labels with
  | nil => rfl
  | cons t labels ih => rw [keepFinite_cons, ih, List.filter_cons]

theorem length_keepFinite {β : Type} {items : List β} (h : items.length = labels.length) :
    (keepFinite labels items).length = (labels.filter Binary64.isFinite).length := by
  induction labels generalizing items with
  | nil => rfl
  | cons t labels ih =>
    cases items with
    | nil => cases h
    | cons x items =>
      have hrest := ih (Nat.succ.inj h)
      rw [keepFinite_cons, List.filter_cons]
      split
      · rw [List.length_cons, List.length_cons, hrest]
      · exact hrest

theorem keepFinite_of_finite {β : Type} {items : List β} (hf : ∀ t ∈ labels, t.isFinite = true)
    (h : items.length = labels.length) : keepFinite labels items = items := by
  induction labels generalizing items with
  | nil => exact (List.length_eq_zero_iff.mp h).symm
  | cons t labels ih =>
    cases items with
    | nil => cases h
    | cons x items =>
      rw [keepFinite_cons, if_pos (hf t List.mem_cons_self),
        ih (fun u hu => hf u (List.mem_cons_of_mem _ hu)) (Nat.succ.inj h)]

theorem length_newest {β : Type} (most : Int) (items : List β) :
    (newest most items).length = min items.length most.toNat := by
  rw [newest, List.length_drop]
  omega

theorem newest_of_le {β : Type} {items : List β} (h : items.length ≤ most.toNat) :
    newest most items = items := by
  rw [newest, Nat.sub_eq_zero_of_le h, List.drop_zero]

theorem length_fitLength (n : Nat) (values : List Binary64) : (Series.fitLength n values).length = n := by
  rw [Series.fitLength, List.length_append, List.length_take, List.length_replicate]
  omega

theorem fitLength_of_length {n : Nat} {values : List Binary64} (h : values.length = n) :
    Series.fitLength n values = values := by
  rw [Series.fitLength, h, Nat.sub_self, List.replicate_zero, List.append_nil, ← h, List.take_length]

/-- What is normalized is regular. -/
theorem regular_normalize (labels : List Binary64) (data : PerChannel (List Binary64)) (most : Int) :
    (normalize labels data most).Regular where
  lengths c := by
    simp only [normalize, PerChannel.get_map, length_newest]
    rw [length_keepFinite (length_fitLength _ _), keepFinite_self]
  finite t ht := by
    have hmem := List.mem_of_mem_drop ht
    rw [keepFinite_self] at hmem
    exact (List.mem_filter.mp hmem).2

theorem length_normalize (labels : List Binary64) (data : PerChannel (List Binary64)) (most : Int) :
    (normalize labels data most).labels.length ≤ most.toNat := by
  simp only [normalize, length_newest]
  exact Nat.min_le_right _ _

/-- Regular curves are cut to their last samples, and nothing else. -/
theorem normalize_eq_newest {s : StoredSeries} (h : s.Regular) :
    normalize s.labels s.data most = ⟨newest most s.labels, s.data.map (newest most)⟩ := by
  have row {β : Type} {items : List β} (hi : items.length = s.labels.length) :
      newest most (keepFinite s.labels items) = newest most items := by
    rw [keepFinite_of_finite h.finite hi]
  refine congr (congrArg StoredSeries.mk (row rfl)) (PerChannel.ext_get fun c => ?_)
  rw [PerChannel.get_map, PerChannel.get_map, fitLength_of_length (h.lengths c)]
  exact row (h.lengths c)

/-- Regular curves that are not too long stay as they are. -/
theorem normalize_of_regular {s : StoredSeries} (h : s.Regular) (hn : s.labels.length ≤ most.toNat) :
    normalize s.labels s.data most = s := by
  have hdata : s.data.map (newest most) = s.data := PerChannel.ext_get fun c => by
    rw [PerChannel.get_map, newest_of_le (by rw [h.lengths c]; exact hn)]
  rw [normalize_eq_newest h, newest_of_le hn, hdata]

/-! ## Reading -/

/-- The names of the lists in a document. -/
def listNames : List String := "labels" :: Channel.all.map fieldName

/-- Whether the numbers of a value are read. -/
def NumbersInRange (j : Json) : Prop := ∀ items, j = .list items → ∀ x ∈ items, x.InRange

theorem numbers_cases (j : Json) :
    (NumbersInRange j ∧ ∃ xs, numbers j = .ok xs) ∨
      (¬ NumbersInRange j ∧ numbers j = .error .overflow) := by
  cases j with
  | list items =>
    have hiff : NumbersInRange (.list items) ↔ ∀ x ∈ items, x.InRange :=
      ⟨fun h => h items rfl, fun h _ he => by cases he; exact h⟩
    rw [hiff]
    exact Json.mapM_reading items
  | _ => exact .inl ⟨fun _ h => (by cases h), [], rfl⟩

/-- A value for each channel, by a rule that fails only in one way. -/
theorem ofFnM_cases {α : Type} {f : Channel → Result α} {e : Fault}
    (h : ∀ c, (∃ x, f c = .ok x) ∨ f c = .error e) :
    (∃ p, (∀ c, f c = .ok (p.get c)) ∧ PerChannel.ofFnM f = .ok p) ∨
      ((∃ c, f c = .error e) ∧ PerChannel.ofFnM f = .error e) := by
  unfold PerChannel.ofFnM
  simp only [bind, Except.bind]
  rcases h .hashrate1m with ⟨x1m, h1m⟩ | he
  case inr => exact .inr ⟨⟨_, he⟩, by rw [he]⟩
  rcases h .hashrate10m with ⟨x10m, h10m⟩ | he
  case inr => exact .inr ⟨⟨_, he⟩, by rw [h1m, he]⟩
  rcases h .hashrate1h with ⟨x1h, h1h⟩ | he
  case inr => exact .inr ⟨⟨_, he⟩, by rw [h1m, h10m, he]⟩
  rcases h .hashrate1d with ⟨x1d, h1d⟩ | he
  case inr => exact .inr ⟨⟨_, he⟩, by rw [h1m, h10m, h1h, he]⟩
  rcases h .vregTemp with ⟨vreg, hvreg⟩ | he
  case inr => exact .inr ⟨⟨_, he⟩, by rw [h1m, h10m, h1h, h1d, he]⟩
  rcases h .asicTemp with ⟨asic, hasic⟩ | he
  case inr => exact .inr ⟨⟨_, he⟩, by rw [h1m, h10m, h1h, h1d, hvreg, he]⟩
  refine .inl ⟨⟨x1m, x10m, x1h, x1d, vreg, asic⟩, fun c => ?_, ?_⟩
  · cases c <;> assumption
  · rw [h1m, h10m, h1h, h1d, hvreg, hasic]
    rfl

/-- The lists of a document hold no integer beyond the range. -/
def ListsInRange (j : Json) : Prop := ∀ name ∈ listNames, NumbersInRange (j.get name)

theorem listsInRange_iff (j : Json) :
    ListsInRange j ↔ NumbersInRange (j.get "labels") ∧ ∀ c, NumbersInRange (j.get (fieldName c)) := by
  simp only [ListsInRange, listNames, List.forall_mem_cons, List.forall_mem_map]
  exact and_congr_right fun _ => ⟨fun h c => h c (Channel.mem_all c), fun h c _ => h c⟩

/-- A document gives regular curves, unless one of its integers is beyond the range. -/
theorem ofDocument_cases (fields : List (String × Json)) (most : Int) :
    (ListsInRange (.object fields) ∧
      ∃ labels data, numbers ((Json.object fields).get "labels") = .ok labels ∧
        (∀ c, numbers ((Json.object fields).get (fieldName c)) = .ok (data.get c)) ∧
        ofDocument (.object fields) (.ok most) = .ok (normalize labels data most)) ∨
    (¬ ListsInRange (.object fields) ∧ ofDocument (.object fields) (.ok most) = .error .overflow) := by
  rw [listsInRange_iff]
  unfold ofDocument
  simp only [Json.isObject, Bool.not_true, Bool.false_eq_true, if_false, bind, Except.bind]
  generalize Json.object fields = j
  rcases numbers_cases (j.get "labels") with ⟨hl, labels, hlabels⟩ | ⟨hl, hlabels⟩
  case inr =>
    rw [hlabels]
    exact .inr ⟨fun h => hl h.1, rfl⟩
  rw [hlabels]
  have hcases (c : Channel) := numbers_cases (j.get (fieldName c))
  rcases ofFnM_cases fun c => (hcases c).imp And.right And.right with ⟨data, hg, hdata⟩ | ⟨⟨c, hc⟩, hdata⟩
  · rw [hdata]
    refine .inl ⟨⟨hl, fun c => ?_⟩, labels, data, rfl, hg, rfl⟩
    rcases hcases c with ⟨hc, -⟩ | ⟨-, he⟩
    · exact hc
    · cases (hg c).symm.trans he
  · rw [hdata]
    refine .inr ⟨fun h => ?_, rfl⟩
    rcases hcases c with ⟨-, x, hx⟩ | ⟨hn, -⟩
    · cases hx.symm.trans hc
    · exact hn (h.2 c)

/-! ## Texts -/

/-- What a text holds, with how many samples are kept at most. -/
def ofText (text : String) (most : Result Int) : Result (Option StoredSeries) := do
  match ← state text with
  | none => return none
  | some j => return some (← ofDocument j most)

/-- Whether a text is read: it is not too deep, and the numbers of its curves are in range. -/
def Readable (text : String) : Prop :=
  Json.parse text ≠ .error .tooDeep ∧ ∀ j, state text = .ok (some j) → ListsInRange j

/-- The state inside a text is an object, and nothing but its depth can keep a text from being read
that far. -/
theorem state_cases (text : String) :
    (Json.parse text = .error .tooDeep ∧ state text = .error .tooDeep) ∨
      (Json.parse text ≠ .error .tooDeep ∧
        (state text = .ok none ∨ ∃ fields, state text = .ok (some (.object fields)))) := by
  unfold state storedValue
  cases hp : Json.parse text with
  | error flaw =>
    cases flaw with
    | tooDeep => exact .inl ⟨rfl, rfl⟩
    | malformed => exact .inr ⟨nofun, .inl rfl⟩
  | ok j =>
    refine .inr ⟨nofun, ?_⟩
    simp only [bind, Except.bind]
    split
    · next fields _ =>
      cases isCurrent j with
      | false => exact .inl rfl
      | true => exact .inr ⟨fields, rfl⟩
    · exact .inl rfl

/-- A text is read exactly when it is readable; what is read is normalized. -/
theorem ofText_cases (text : String) (most : Int) :
    (Readable text ∧ (ofText text (.ok most) = .ok none ∨
      ∃ labels data, ofText text (.ok most) = .ok (some (normalize labels data most)))) ∨
    (¬ Readable text ∧ ∃ e, ofText text (.ok most) = .error e) := by
  unfold Readable ofText
  rcases state_cases text with ⟨hd, hs⟩ | ⟨hd, hs | ⟨fields, hs⟩⟩
  · rw [hs]
    exact .inr ⟨fun h => h.1 hd, _, rfl⟩
  · rw [hs]
    exact .inl ⟨⟨hd, nofun⟩, .inl rfl⟩
  · rw [hs]
    simp only [bind, Except.bind]
    rcases ofDocument_cases fields most with ⟨hl, labels, data, -, -, hok⟩ | ⟨hl, herr⟩
    · rw [hok]
      exact .inl ⟨⟨hd, fun _ h => by cases h; exact hl⟩, .inr ⟨labels, data, rfl⟩⟩
    · rw [herr]
      exact .inr ⟨fun h => hl (h.2 _ rfl), _, rfl⟩

/-- What is read is regular and not too long. -/
theorem regular_ofText {text : String} {most : Int} {s : StoredSeries}
    (h : ofText text (.ok most) = .ok (some s)) : s.Regular ∧ s.labels.length ≤ most.toNat := by
  rcases ofText_cases text most with ⟨-, hn | ⟨labels, data, hs⟩⟩ | ⟨-, e, he⟩
  · cases h.symm.trans hn
  · cases h.symm.trans hs
    exact ⟨regular_normalize labels data most, length_normalize labels data most⟩
  · cases h.symm.trans he

/-- What starts a number starts no list and no object. -/
theorem digitChar_scalar : ∀ d < 10, Json.Reader.isBlank (Text.digitChar d) = false ∧
    Text.digitChar d ≠ '[' ∧ Text.digitChar d ≠ '\x7b' := by decide

/-- The text of an integer holds no curves. -/
theorem ofText_intText (i : Int) (most : Result Int) : ofText (Decimal.intText i) most = .ok none := by
  have hstart : ∃ c cs, (Decimal.intText i).toList = c :: cs ∧ Json.Reader.isBlank c = false ∧
      c ≠ '[' ∧ c ≠ '\x7b' := by
    rw [Decimal.toList_intText]
    cases decide (i < 0) with
    | true => exact ⟨'-', _, rfl, by decide⟩
    | false =>
      cases hd : Decimal.digits i.natAbs with
      | nil => exact absurd hd (Decimal.digits_ne_nil _)
      | cons d ds =>
        refine ⟨Text.digitChar d, _, rfl, digitChar_scalar d ?_⟩
        exact Decimal.lt_ten_of_mem_digits (hd ▸ List.mem_cons_self)
  obtain ⟨c, cs, hc, hb, hl, ho⟩ := hstart
  have hstate : state (Decimal.intText i) = .ok none := by
    unfold state storedValue
    rcases Json.parse_of_scalar hc hb hl ho with hp | ⟨j, hp, hj⟩
    · rw [hp]
      rfl
    · rw [hp]
      cases j with
      | object fields => exact absurd rfl (hj fields)
      | _ => rfl
  rw [ofText, hstate]
  rfl

/-! ## Writing -/

variable {s : StoredSeries} {now : Int}

/-- A value as it is read back: a gap when it has no digits. -/
def gapped (x : Binary64) : Binary64 := if x.isFinite then x else .nan

/-- The curves as they are read back. -/
def withGaps (s : StoredSeries) : StoredSeries := ⟨s.labels, s.data.map fun values => values.map gapped⟩

theorem Regular.withGaps (h : s.Regular) : s.withGaps.Regular where
  lengths c := by simp [StoredSeries.withGaps, h.lengths c]
  finite := h.finite

theorem reading_finiteOrNull (x : Binary64) : (finiteOrNull x).reading = .ok (gapped x) := by
  unfold finiteOrNull gapped
  cases x.isFinite <;> rfl

theorem numbers_map {β : Type} {f : β → Json} {g : β → Binary64} (h : ∀ x, (f x).reading = .ok (g x))
    (xs : List β) : numbers (.list (xs.map f)) = .ok (xs.map g) := by
  show (xs.map f).mapM Json.reading = _
  induction xs with
  | nil => rfl
  | cons x xs ih =>
    simp only [List.map_cons, List.mapM_cons, h, ih, bind, Except.bind]
    rfl

theorem get_body_labels (s : StoredSeries) : s.body.get "labels" = .list (s.labels.map .real) := rfl

theorem get_body_channel (s : StoredSeries) (c : Channel) :
    s.body.get (fieldName c) = .list ((s.data.get c).map finiteOrNull) := by cases c <;> rfl

theorem ofDocument_body (s : StoredSeries) (most : Int) :
    ofDocument s.body (.ok most) = .ok (normalize s.labels s.withGaps.data most) := by
  have hlabels : numbers (s.body.get "labels") = .ok s.labels := by
    rw [get_body_labels, numbers_map (g := id) fun _ => rfl, List.map_id]
  have hdata : PerChannel.ofFnM (fun c => numbers (s.body.get (fieldName c))) =
      .ok s.withGaps.data := by
    simp only [get_body_channel, numbers_map reading_finiteOrNull]
    rfl
  unfold ofDocument
  rw [hlabels, hdata]
  rfl

theorem printable_digit (room : Nat) {i : Int} (h : i.natAbs < 10) : Json.Printable room (.int i) :=
  .int (Decimal.few_digits (k := 0) h (by decide))

theorem printable_finiteOrNull (room : Nat) (x : Binary64) : Json.Printable room (finiteOrNull x) := by
  unfold finiteOrNull
  split
  · exact .real x
  · exact .null

theorem printable_body (room : Nat) (s : StoredSeries) : Json.Printable (room + 2) s.body := by
  refine .object (.of_keys ("schema" :: listNames) rfl (by decide) (by decide)) fun f hf => ?_
  simp only [List.mem_cons, List.mem_map] at hf
  rcases hf with rfl | rfl | ⟨c, -, rfl⟩
  · exact printable_digit _ (by decide)
  · refine .list fun x hx => ?_
    obtain ⟨t, -, rfl⟩ := List.mem_map.mp hx
    exact .real t
  · refine .list fun x hx => ?_
    obtain ⟨y, -, rfl⟩ := List.mem_map.mp hx
    exact printable_finiteOrNull room y

/-- The curves of a text that was written are those that were written. -/
theorem state_print (s : StoredSeries) (hn : (Decimal.digits now.natAbs).length ≤ Decimal.maxIntDigits) :
    state (s.print now) = .ok (some s.body) := by
  have hprint : Json.Printable Json.Reader.deepest
      (.object [("v", .int version), ("ts", .int now), ("state", s.body)]) := by
    refine .object (.of_keys ["v", "ts", "state"] rfl (by decide) (by decide)) fun f hf => ?_
    simp only [List.mem_cons, List.not_mem_nil, or_false] at hf
    rcases hf with rfl | rfl | rfl
    · exact printable_digit _ (by decide)
    · exact .int hn
    · exact printable_body 985 s
  unfold state storedValue print
  rw [Json.parse_print hprint]
  rfl

/-- **What is written is read back**, cut to the newest samples with a finite label, and with a gap
for every value that has no digits. -/
theorem ofText_print (s : StoredSeries) (most : Int)
    (hn : (Decimal.digits now.natAbs).length ≤ Decimal.maxIntDigits) :
    ofText (s.print now) (.ok most) = .ok (some (normalize s.labels s.withGaps.data most)) := by
  unfold ofText
  rw [state_print s hn]
  simp only [bind, Except.bind]
  rw [ofDocument_body]
  rfl

/-- Regular curves that are not too long are all read back. -/
theorem ofText_print_regular {most : Int} (h : s.Regular) (hlen : s.labels.length ≤ most.toNat)
    (hn : (Decimal.digits now.natAbs).length ≤ Decimal.maxIntDigits) :
    ofText (s.print now) (.ok most) = .ok (some s.withGaps) := by
  rw [ofText_print s most hn]
  exact congrArg (fun st => Except.ok (some st)) (normalize_of_regular h.withGaps hlen)

/-! ## Integers beyond the range -/

/-- A text of the right version with a label of many digits. -/
def hugeText (k : Nat) : String :=
  Json.print (.object [("v", .int version),
    ("state", .object [("labels", .list [.int 1000, .int (10 ^ k : Nat)])])])

theorem state_hugeText {k : Nat} (hk : k < Decimal.maxIntDigits) :
    state (hugeText k) = .ok (some (.object [("labels", .list [.int 1000, .int (10 ^ k : Nat)])])) := by
  have hprint : Json.Printable Json.Reader.deepest (.object [("v", .int version),
      ("state", .object [("labels", .list [.int 1000, .int (10 ^ k : Nat)])])]) := by
    refine .object (.of_keys ["v", "state"] rfl (by decide) (by decide)) fun f hf => ?_
    simp only [List.mem_cons, List.not_mem_nil, or_false] at hf
    rcases hf with rfl | rfl
    · exact printable_digit _ (by decide)
    · refine .object (.of_keys ["labels"] rfl (by decide) (by decide)) fun f hf => ?_
      obtain rfl := List.mem_singleton.mp hf
      refine .list fun x hx => ?_
      simp only [List.mem_cons, List.not_mem_nil, or_false] at hx
      rcases hx with rfl | rfl
      · exact .int (Decimal.few_digits (k := 3) (by decide) (by decide))
      · exact .int (Decimal.few_digits (Nat.pow_lt_pow_succ (by decide)) hk)
  unfold state storedValue hugeText
  rw [Json.parse_print hprint]
  rfl

/-- A label from `2^1024` on keeps a text from being read. -/
theorem not_readable_hugeText {k : Nat} (hlow : 342 ≤ k) (hk : k < Decimal.maxIntDigits) :
    ¬ Readable (hugeText k) := by
  intro h
  have hlabels := h.2 _ (state_hugeText hk) "labels" List.mem_cons_self _ rfl (.int (10 ^ k : Nat))
    (List.mem_cons_of_mem _ List.mem_cons_self)
  obtain ⟨x, hx⟩ : ∃ x : Binary64, Arithmetic.ofInt? ((10 ^ k : Nat) : Int) = .ok x := hlabels
  cases hx.symm.trans (Binary64.ofInt?_ten_pow hlow)

end StoredSeries

end HashrateChart
