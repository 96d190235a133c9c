/-
Curves that were cleared: what the clearing keeps out, and what lets it back in.

A clearing leaves a least time, in the chart and in its storage, and history before
it is not taken. So every row before the least time is a gap (`Series.BlankBefore`):
an import adds no other, a trim drops only some, and what a commit writes is blank
before that time too, since neither the labels nor their stored form come before it
by rounding. The next start reads the least time back from its text, which gives it
exactly, so the charts that follow keep out the same (`Later.sealed`).

One call forgets the least time: a reload whose history replaces the curves.
-/
import HashrateChart.Proofs.Chart.Reload
import HashrateChart.Proofs.Chart.Restart

namespace HashrateChart

open HashrateChart.Action (Preserves)

/-! ## Rows before a time -/

namespace Series

variable {s : Series} {seed t : Int} {row : PerChannel Binary64}

/-- Every row before a time is a gap. -/
def BlankBefore (s : Series) (seed : Int) : Prop :=
  ∀ k t, s.labels[k]? = some t → t < seed → s.IsGap k

namespace BlankBefore

theorem empty (seed : Int) : BlankBefore .empty seed := fun _ _ h => (by cases h)

theorem append (h : s.BlankBefore seed) (hs : s.Aligned) (hrow : t < seed → row = .replicate .nan) :
    (s.append t row).BlankBefore seed := by
  intro k u hk hu
  rw [labels_append] at hk
  by_cases hlt : k < s.labels.length
  · rw [List.getElem?_append_left hlt] at hk
    exact (h k u hk hu).append t row
  · have hk' := (List.getElem?_eq_some_iff.mp hk).1
    rw [List.length_append, List.length_singleton] at hk'
    obtain rfl : k = s.labels.length := by omega
    rw [List.getElem?_concat_length] at hk
    cases hk
    rw [hrow hu]
    exact isGap_append hs t

theorem replace (h : s.BlankBefore seed) (hs : s.Aligned) (ht : s.lastLabel? = some t)
    (hrow : t < seed → row = .replicate .nan) : (s.replace row).BlankBefore seed := by
  intro k u hk hu
  rw [labels_replace] at hk
  have hlt := (List.getElem?_eq_some_iff.mp hk).1
  by_cases hlast : k + 1 < s.labels.length
  · exact (h k u hk hu).replace hs hlast row
  · -- the last row, which the new one takes the place of
    have hend : s.labels.length - 1 = k := by omega
    obtain rfl : t = u := by
      rw [lastLabel?, List.getLast?_eq_getElem?, hend, hk] at ht
      exact (Option.some.inj ht).symm
    rw [hrow hu]
    intro c
    have hne := hs.ne_nil (labels_ne_nil ht) c
    have hget := getLast?_replaceLast (Binary64.nan) hne
    rw [List.getLast?_eq_getElem?, length_replaceLast, hs c, hend] at hget
    simpa only [Series.replace, PerChannel.get_ofFn, PerChannel.get_replicate] using hget

theorem upsert (h : s.BlankBefore seed) (hs : s.Aligned) (hrow : t < seed → row = .replicate .nan) :
    (s.upsert t row).BlankBefore seed := by
  by_cases ht : s.lastLabel? = some t
  · rw [upsert_of_eq ht]
    exact h.replace hs ht hrow
  · rw [upsert_of_ne ht]
    exact h.append hs hrow

theorem insertBreak (h : s.BlankBefore seed) (hs : s.Aligned) (t : Int) :
    (s.insertBreak t).2.BlankBefore seed := by
  by_cases ht : t ≤ 0
  · rw [insertBreak_of_le ht]
    exact h
  · rw [insertBreak_of_pos (by omega)]
    exact h.append hs fun _ => rfl

theorem trim (h : s.BlankBefore seed) (now window : Int) : (s.trim now window).2.BlankBefore seed := by
  intro k t hk ht
  have hlabel : s.labels[(s.trim now window).1 + k]? = some t := List.getElem?_drop.symm.trans hk
  exact isGap_trim.mpr (h _ t hlabel ht)

end BlankBefore

end Series

namespace StoredSeries

variable {s : StoredSeries} {seed : Int}

/-- Every row whose whole label is before a time is a gap. -/
def BlankBefore (s : StoredSeries) (seed : Int) : Prop :=
  ∀ (k : Nat) (x : Binary64) (t : Int), s.labels[k]? = some x → x.truncate = .ok t → t < seed →
    ∀ c, (s.data.get c)[k]? = some .nan

theorem BlankBefore.withGaps (h : s.BlankBefore seed) : s.withGaps.BlankBefore seed := by
  intro k x t hk hx ht c
  have hget := h k x t hk hx ht c
  simp only [StoredSeries.withGaps, PerChannel.get_map, List.getElem?_map, hget]
  rfl

/-- The newest rows of regular curves. -/
theorem BlankBefore.normalize (h : s.BlankBefore seed) (hr : s.Regular) (most : Int) :
    (normalize s.labels s.data most).BlankBefore seed := by
  intro k x t hk hx ht c
  have hdrop {xs : List Binary64} (hlen : xs.length = s.labels.length) :
      newest most (keepFinite s.labels xs) = xs.drop (s.labels.length - most.toNat) := by
    rw [keepFinite_of_finite hr.finite hlen, newest, hlen]
  simp only [StoredSeries.normalize, PerChannel.get_map] at hk ⊢
  rw [hdrop rfl, List.getElem?_drop] at hk
  rw [fitLength_of_length (hr.lengths c), hdrop (hr.lengths c), List.getElem?_drop]
  exact h _ x t hk hx ht c

theorem ofDocument_of_error (j : Json) (e : Fault) : ∃ e', ofDocument j (.error e) = .error e' := by
  unfold ofDocument
  cases j.isObject with
  | false => exact ⟨_, rfl⟩
  | true =>
    simp only [Bool.not_true, Bool.false_eq_true, if_false, bind, Except.bind]
    cases numbers (j.get "labels") with
    | error e' => exact ⟨e', rfl⟩
    | ok labels =>
      cases PerChannel.ofFnM fun c => numbers (j.get (fieldName c)) with
      | error e' => exact ⟨e', rfl⟩
      | ok data => exact ⟨e, rfl⟩

/-- Curves are only read where it is known how many samples are kept. -/
theorem most_of_ofText {text : String} {most : Result Int} (h : ofText text most = .ok (some s)) :
    ∃ n, most = .ok n := by
  cases most with
  | ok n => exact ⟨n, rfl⟩
  | error e =>
    unfold ofText at h
    cases hs : state text with
    | error e' =>
      rw [hs] at h
      cases h
    | ok found =>
      rw [hs] at h
      cases found with
      | none => cases h
      | some j =>
        obtain ⟨e', he⟩ := ofDocument_of_error j e
        simp only [bind, Except.bind, he] at h
        cases h

end StoredSeries

namespace Series

variable {s : Series} {st : StoredSeries} {seed : Int}

/-- A label does not come before an exact time by being stored. -/
theorem BlankBefore.toStored (h : s.BlankBefore seed) (hseed : 0 ≤ seed) (hexact : seed ≤ 2 ^ 53)
    (hst : s.toStored = .ok st) : st.BlankBefore seed := by
  obtain ⟨hlabels, hdata⟩ := of_toStored hst
  intro k x t hk hx ht c
  obtain ⟨u, hu, hux⟩ := getElem?_of_mapM hlabels hk
  have hlt : u < seed := Int.not_le.mp fun hle =>
    absurd ht (Int.not_lt.mpr (Binary64.le_truncate_of_le hseed hexact hle hux hx))
  rw [hdata]
  exact h k u hu hlt c

theorem BlankBefore.ofStored (h : st.BlankBefore seed) (hr : st.Regular) (hs : ofStored st = .ok s) :
    s.BlankBefore seed := by
  unfold Series.ofStored at hs
  simp only [bind, Except.bind] at hs
  split at hs
  · cases hs
  · next ts hts =>
    cases hs
    intro k t hk ht c
    obtain ⟨x, hx, hxt⟩ := getElem?_of_mapM hts hk
    show ((st.data.map (fitLength st.labels.length)).get c)[k]? = _
    rw [PerChannel.get_map, StoredSeries.fitLength_of_length (hr.lengths c)]
    exact h k x t hx hxt ht c

end Series

/-! ## The least time -/

/-- A positive integer of at most 53 bits is a limit that its text gives back: what is not before the
number that is read is not before the integer. -/
theorem le_of_finiteNumber?_intText {seed t : Int} {x : Binary64} (hpos : 0 < seed) (hexact : seed ≤ 2 ^ 53)
    (hx : Storage.finiteNumber? (Decimal.intText seed) = some x)
    (hle : (Number.real x).le (.int t) = true) : seed ≤ t := by
  obtain ⟨m, hm, hunits⟩ := Decimal.readReal?_intText hpos hexact
  rw [Storage.finiteNumber?, hm] at hx
  cases (Option.filter_eq_some_iff.mp hx).1
  have hmul : (m.units : Int) ≤ t * unitsPerOne := of_decide_eq_true hle
  have hone : (0 : Int) < unitsPerOne := by exact_mod_cast unitsPerOne_pos
  have hseed : (m.units : Int) = seed * unitsPerOne := by
    rw [hunits, Int.natCast_mul, Int.natAbs_of_nonneg (Int.le_of_lt hpos)]
  rw [hseed] at hmul
  exact Int.le_of_mul_le_mul_right hmul hone

theorem finiteNumber?_intText {seed : Int} (hpos : 0 < seed) (hexact : seed ≤ 2 ^ 53) :
    ∃ x, Storage.finiteNumber? (Decimal.intText seed) = some x := by
  obtain ⟨m, hm, -⟩ := Decimal.readReal?_intText hpos hexact
  rw [Storage.finiteNumber?, hm]
  exact ⟨_, rfl⟩

theorem intText_ne_empty (i : Int) : Decimal.intText i ≠ "" := by
  intro h
  have hlist := Decimal.toList_intText i
  rw [h] at hlist
  have hnil := (List.append_eq_nil_iff.mp hlist.symm).2
  exact Decimal.digits_ne_nil _ (List.map_eq_nil_iff.mp hnil)

/-! ## Storage -/

namespace Storage

variable {s : Storage} {seed : Int} {text : String}

/-- What a text under the key of the curves gives is blank before a time. -/
def IsBlankText (s : Storage) (seed : Int) (text : String) : Prop :=
  ∀ st, StoredSeries.ofText text s.maxPoints = .ok (some st) → st.Regular ∧ st.BlankBefore seed

/-- The storage keeps the least time, under a key of its own, and curves that are blank before it. -/
structure Seeded (seed : Int) (s : Storage) : Prop where
  order : s.InOrder
  data_ne : s.keys.minTimestamp ≠ s.keys.chartData
  last_ne : s.keys.minTimestamp ≠ s.keys.lastTimestamp
  least : s.store.get? s.keys.minTimestamp = some (Decimal.intText seed)
  curves : ∀ text, s.store.get? s.keys.chartData = some text → s.IsBlankText seed text

namespace Seeded

theorem counted (h : s.Seeded seed) : s.counted.Seeded seed :=
  ⟨h.order.counted, h.data_ne, h.last_ne, h.least, h.curves⟩

theorem isBlankText_intText (s : Storage) (seed i : Int) : s.IsBlankText seed (Decimal.intText i) := by
  intro st hst
  rw [StoredSeries.ofText_intText] at hst
  cases hst

/-- The text of regular curves that are blank before the time gives back no others. -/
theorem isBlankText_print (s : Storage) {st : StoredSeries} (hr : st.Regular) (hb : st.BlankBefore seed)
    {now : Int} (hnow : (Decimal.digits now.natAbs).length ≤ Decimal.maxIntDigits) :
    s.IsBlankText seed (st.print now) := by
  intro back hback
  obtain ⟨most, hmost⟩ := StoredSeries.most_of_ofText hback
  rw [hmost, StoredSeries.ofText_print st most hnow] at hback
  cases hback
  exact ⟨StoredSeries.regular_normalize _ _ _, hb.withGaps.normalize hr.withGaps most⟩

/-- Another key may be written, that of the curves with what is blank before the time. -/
theorem written (h : s.Seeded seed) {key : StorageKeys → String} (hkey : s.keys.minTimestamp ≠ key s.keys)
    (htext : s.IsBlankText seed text) : (s.written key text).Seeded seed where
  order := h.order.written key text
  data_ne := h.data_ne
  last_ne := h.last_ne
  least := by
    rw [get?_written h.order]
    exact (if_neg hkey).trans h.least
  curves := by
    intro other hother
    rw [get?_written h.order] at hother
    split at hother
    · cases hother
      exact htext
    · exact h.curves other hother

/-- What a load finds is blank before the time. -/
theorem held (h : s.Seeded seed) {st : StoredSeries} (hst : s.held = .ok (some st)) :
    st.Regular ∧ st.BlankBefore seed := by
  unfold Storage.held at hst
  split at hst
  · cases hst
  · next text ht => exact h.curves text (get?_of_textAt ht) st hst

theorem textAt_least (h : s.Seeded seed) :
    s.textAt StorageKeys.minTimestamp = some (Decimal.intText seed) := by
  rw [h.order.textAt, h.least, Option.filter_some, if_pos (decide_eq_true (intText_ne_empty seed))]

/-- The time of the last sample is stored under its own key. -/
theorem preserves_saveLast (t : Option Number) : Preserves (Seeded seed) (saveLast t) := by
  cases t with
  | none => exact .pure _
  | some t =>
    refine .liftM_bind fun finite _ => ?_
    cases finite with
    | false => exact .pure _
    | true =>
      refine .liftM_bind fun i _ => ?_
      exact fun s hs => hs.written hs.last_ne (isBlankText_intText s seed i)

/-- Curves that are blank before the time are stored in a text that gives back no others. -/
theorem preserves_saveSeries {st : StoredSeries} (hr : st.Regular) (hb : st.BlankBefore seed) {now : Int}
    (hnow : (Decimal.digits now.natAbs).length ≤ Decimal.maxIntDigits) :
    Preserves (Seeded seed) (saveSeries st now) := by
  refine .get_bind fun s _ => ?_
  cases s.maxPoints with
  | ok most =>
    have hkept := StoredSeries.regular_normalize st.labels st.data most
    exact fun q hq => hq.written hq.data_ne (isBlankText_print q hkept (hb.normalize hr most) hnow)
  | error e =>
    cases e with
    | overflow => exact .throw _
    | _ => exact .pure _

end Seeded

/-- A storage in order in which the curves are cleared and a least time is kept. -/
theorem seeded_of_cleared {s : Storage} {i : Int} (horder : s.InOrder)
    (hdata : s.keys.minTimestamp ≠ s.keys.chartData) (hlast : s.keys.minTimestamp ≠ s.keys.lastTimestamp)
    (hget : s.store.get? s.keys.chartData = none) :
    (s.written StorageKeys.minTimestamp (Decimal.intText i)).Seeded i where
  order := horder.written _ _
  data_ne := hdata
  last_ne := hlast
  least := (get?_written horder _ _ _).trans (if_pos rfl)
  curves := by
    intro text htext
    rw [get?_written horder] at htext
    have hnone := (if_neg (Ne.symm hdata)).symm.trans htext
    cases hget.symm.trans hnone

end Storage

namespace Chart

variable {p q : Chart} {seed : Int}

/-! ## The chart -/

/-- Every row before the least time is a gap, and history before it is not taken. -/
structure Cleared (seed : Int) (p : Chart) : Prop where
  aligned : p.series.Aligned
  blank : p.series.BlankBefore seed
  least : ∀ t, (∀ least, p.historyMin = some least → least.le (.int t) = true) → seed ≤ t

namespace Cleared

theorem congr (h : p.Cleared seed) (hs : q.series = p.series) (hm : q.historyMin = p.historyMin) :
    q.Cleared seed := ⟨hs ▸ h.aligned, hs ▸ h.blank, hm ▸ h.least⟩

theorem le_of_accepts (h : p.Cleared seed) {s : History.Sample} (ha : p.accepts s = true) :
    seed ≤ s.time := h.least s.time (accepts_iff.mp ha).2

theorem insertBreak (h : p.Cleared seed) (t : Int) : (p.insertBreak t).Cleared seed := by
  have hseries := series_insertBreak p t
  have hmin : (p.insertBreak t).historyMin = p.historyMin := by rw [insertBreak_eq]
  refine ⟨?_, ?_, hmin ▸ h.least⟩
  · rw [hseries]
    exact h.aligned.insertBreak t
  · rw [hseries]
    exact h.blank.insertBreak h.aligned t

/-- A sample from the least time on is stored from that time on. -/
theorem take (h : p.Cleared seed) (importing : Bool) {s : History.Sample} (hs : seed ≤ s.time) :
    (p.take importing s).Cleared seed := by
  unfold Chart.take
  rcases p.importSample_cases importing s with ⟨-, hi⟩ | ⟨-, -, hi⟩ | ⟨-, -, hi⟩ <;> rw [hi]
  · exact h.congr rfl rfl
  · have hlocked : (p.relocked importing s).Cleared seed :=
      h.congr relocked_series (by rw [relocked_eq])
    exact (hlocked.insertBreak _).congr rfl rfl
  · have hlate : seed ≤ p.lifted s.time := Int.le_trans hs (p.le_lifted s.time)
    have hseries : ((p.filtered importing s).2.storeRow (p.lifted s.time)
        (p.filtered importing s).1).series =
          p.series.upsert (p.lifted s.time) (p.filtered importing s).1 := by
      show (p.filtered importing s).2.series.upsert _ _ = _
      rw [filtered_series]
    have hmin : ((p.filtered importing s).2.storeRow (p.lifted s.time)
        (p.filtered importing s).1).historyMin = p.historyMin := by
      rw [filtered_eq]
      rfl
    refine ⟨?_, ?_, hmin ▸ h.least⟩
    · rw [hseries]
      exact h.aligned.upsert
    · rw [hseries]
      exact h.blank.upsert h.aligned fun hlt => absurd hlt (Int.not_lt.mpr hlate)

theorem opened (h : p.Cleared seed) (t : Int) : (p.opened t).Cleared seed := by
  cases hb : p.warmup.breakPending with
  | true =>
    have hq : ({ p with warmup := p.warmup.consumeBreak.2 } : Chart).Cleared seed := h.congr rfl rfl
    rw [opened_of_pending hb]
    exact hq.insertBreak (t - 1)
  | false =>
    rw [opened_of_not_pending hb]
    exact h

/-- No batch brings a row before the least time. -/
theorem imported (h : p.Cleared seed) (batch : Option HistoryBatch) (importing : Bool) :
    (p.imported batch importing).Cleared seed :=
  imported_induction h h.opened fun _ _ _ ha hq => hq.take importing (h.le_of_accepts ha)

theorem trim (h : p.Cleared seed) (now : Int) : (p.trim now).Cleared seed :=
  ⟨h.aligned.trim _ _, h.blank.trim _ _, h.least⟩

/-- The chart that a clearing leaves. -/
theorem of_clear (p : Chart) (now : Int) : (p.cleared now).Cleared (now - seedMargin) where
  aligned := .empty
  blank := .empty _
  least _ h := of_decide_eq_true (h _ rfl)

end Cleared

/-! ## Starting again -/

theorem refilterValue_nan (p : Chart) (c : Channel) : (p.refilterValue c .nan).1 = .nan := by
  have hnan : Sanitize.sample p.config.sanitize c .nan = .nan := by
    rcases Sanitize.sample_cases p.config.sanitize c .nan with h | ⟨h, -⟩ <;> exact h
  unfold refilterValue
  rw [hnan]
  rfl

/-- A stored row without values is taken back as a gap. -/
theorem refiltered_gap (p : Chart) : p.refiltered (.replicate .nan) = .replicate .nan := by
  refine PerChannel.ext_get fun c => ?_
  rw [refiltered, PerChannel.get_ofFn, PerChannel.get_replicate]
  exact p.refilterValue_nan c

theorem row_of_blankBefore {stored : Series} (h : stored.BlankBefore seed) {t : Int}
    {row : PerChannel Binary64} (hr : (t, row) ∈ rows stored) (ht : t < seed) : row = .replicate .nan := by
  obtain ⟨⟨u, k⟩, hk, heq⟩ := List.mem_map.mp hr
  cases heq
  have hlabel : stored.labels[k]? = some t := List.mem_zipIdx_iff_getElem?.mp hk
  refine PerChannel.ext_get fun c => ?_
  rw [PerChannel.get_map, PerChannel.get_replicate, List.getD_eq_getElem?_getD, h k t hlabel ht c]
  rfl

namespace Cleared

theorem replay (h : p.Cleared seed) {rs : List (Int × PerChannel Binary64)}
    (hrs : ∀ r ∈ rs, r.1 < seed → r.2 = .replicate .nan) : (p.replay rs).Cleared seed := by
  induction rs generalizing p with
  | nil => exact h
  | cons r rs ih =>
    obtain ⟨t, row⟩ := r
    refine ih ?_ fun r hr => hrs r (List.mem_cons_of_mem _ hr)
    have hrow : t < seed → p.refiltered row = .replicate .nan := fun ht => by
      have hgap : row = .replicate .nan := hrs (t, row) List.mem_cons_self ht
      rw [hgap, refiltered_gap]
    have hseries := series_restoreRow p t row
    refine ⟨?_, ?_, h.least⟩
    · rw [hseries]
      exact h.aligned.upsert
    · rw [hseries]
      exact h.blank.upsert h.aligned hrow

/-- Curves that are blank before the least time are taken back as such. -/
theorem restore (h : p.Cleared seed) {stored : Series} (hs : stored.BlankBefore seed) :
    (p.restore stored).Cleared seed := by
  have hblank : p.blank.Cleared seed := ⟨.empty, .empty seed, h.least⟩
  exact (hblank.replay fun r hr => row_of_blankBefore hs hr).congr rfl rfl

end Cleared

/-! ## The chart and its storage -/

/-- The chart is cleared, and its storage keeps the least time. -/
structure Sealed (seed : Int) (p : Chart) : Prop where
  cleared : p.Cleared seed
  kept : ∃ s, p.storage = some s ∧ s.Seeded seed

namespace Sealed

theorem congr (h : p.Sealed seed) (hs : q.series = p.series) (hm : q.historyMin = p.historyMin)
    (hk : q.storage = p.storage) : q.Sealed seed := ⟨h.cleared.congr hs hm, hk ▸ h.kept⟩

theorem preserves_onStorage {α : Type} {act : Action Storage α}
    (h : Preserves (Storage.Seeded seed) act) : Preserves (Sealed seed) (onStorage act) := by
  rintro p ⟨hc, s, hs, hseeded⟩
  rw [onStorage_runOn hs]
  exact ⟨hc.congr rfl rfl, _, rfl, h s hseeded⟩

/-- What a commit stores gives back no row before the least time that is no gap. -/
theorem preserves_commit (hpos : 0 < seed) (hexact : seed ≤ 2 ^ 53) (now : Int) {clock : Int}
    (hclock : (Decimal.digits clock.natAbs).length ≤ Decimal.maxIntDigits) (persist : Bool) :
    Preserves (Sealed seed) (commit now clock persist) := by
  refine .bind (.modify fun p h => ⟨h.cleared.trim now, h.kept⟩) fun _ => .get_bind fun p hp => ?_
  split
  · refine .liftM_bind fun st hst => ?_
    have hr := Series.regular_toStored hp.cleared.aligned hst
    have hb := hp.cleared.blank.toStored (Int.le_of_lt hpos) hexact hst
    refine .bind ((preserves_onStorage (.preserves_saveSeries hr hb hclock)).map _) fun _ => ?_
    split
    · exact (preserves_onStorage (.preserves_saveLast _)).map _
    · exact .pure _
  · exact .pure _

end Sealed

/-- Whether a call keeps what a clearing says: no other clearing, no reload that replaces the curves,
and a commit at a time that has a text. -/
def KeepsCleared (p : Chart) : Call → Prop
  | .clear _ => False
  | .reload batch => p.isReplacedBy batch = false
  | .commit _ clock _ => (Decimal.digits clock.natAbs).length ≤ Decimal.maxIntDigits
  | _ => True

theorem Sealed.imported (h : p.Sealed seed) (batch : Option HistoryBatch) (importing : Bool) :
    (p.imported batch importing).Sealed seed := by
  have hkept : (p.imported batch importing).storage = p.storage := by
    have hun := congrArg Chart.storage (imported_unimported p batch importing)
    exact hun
  exact ⟨h.cleared.imported batch importing, hkept ▸ h.kept⟩

theorem Sealed.after (hpos : 0 < seed) (hexact : seed ≤ 2 ^ 53) (h : p.Sealed seed) {call : Call}
    (hc : p.KeepsCleared call) : (p.after call).Sealed seed := by
  cases call with
  | observe now info =>
    show (p.observe now info).Sealed seed
    rw [observe_eq]
    exact h.congr rfl rfl rfl
  | importBatch batch importing =>
    rw [after_importBatch]
    exact h.imported batch importing
  | reload batch =>
    have hkept : p.after (.reload batch) = p.imported batch true := by
      simp only [Chart.after, act, Action.runOn_discard]
      exact reloadBatch_of_kept hc
    rw [hkept]
    exact h.imported batch true
  | commit now clock persist => exact preserves_commit hpos hexact now hc persist p h
  | clear now => exact hc.elim
  | frame now window visibility =>
    simp only [Chart.after, act, Action.runOn_discard]
    rw [frame_runOn]
    exact h.congr rfl rfl rfl
  | pollDeferred now =>
    show (p.pollDeferred now).2.Sealed seed
    rw [pollDeferred_eq]
    exact h.congr rfl rfl rfl
  | takeReload => exact h.congr rfl rfl rfl

theorem Cleared.taken (h : p.Cleared seed) {found : Result (Option StoredSeries)}
    (hf : ∀ st, found = .ok (some st) → st.Regular ∧ st.BlankBefore seed) :
    (p.taken found).2.Cleared seed := by
  unfold Chart.taken
  split
  · exact h
  · exact h
  · next st =>
    obtain ⟨hr, hb⟩ := hf st rfl
    split
    · exact h
    · next stored hs => exact h.restore (Series.BlankBefore.ofStored hb hr hs)

/-- The next chart over the same storage keeps out the same. -/
theorem sealed_load (config : Config) {s : Storage} (hpos : 0 < seed) (hexact : seed ≤ 2 ^ 53)
    (hs : s.Seeded seed) : (load.runOn (.new config (some s))).2.Sealed seed := by
  obtain ⟨-, hstorage, -, -⟩ := load_new config s
  refine ⟨?_, _, hstorage, hs.counted.counted.counted⟩
  obtain ⟨last, hload⟩ := load_runOn (p := .new config (some s)) rfl
  obtain ⟨x, hx⟩ := finiteNumber?_intText hpos hexact
  rw [hs.textAt_least, Option.bind_some, hx] at hload
  rw [hload]
  refine Cleared.taken ⟨.empty, .empty seed, fun t ht => ?_⟩ fun st hst => hs.counted.counted.held hst
  exact le_of_finiteNumber?_intText hpos hexact hx (ht _ rfl)

/-- The curves and the last time go, then the least time is written and the rest keeps it. -/
theorem seeded_of_forgetting {s : Storage} {keepLeast keepLast : Action Storage Unit} (horder : s.InOrder)
    (hdata : s.keys.minTimestamp ≠ s.keys.chartData) (hlast : s.keys.minTimestamp ≠ s.keys.lastTimestamp)
    (hleast : ∀ s, keepLeast.runOn s = (.ok (), s.written StorageKeys.minTimestamp (Decimal.intText seed)))
    (hkept : Preserves (Storage.Seeded seed) keepLast) :
    (((do
      Storage.clearSeries
      Storage.clearLast
      keepLeast
      keepLast) : Action Storage Unit).runOn s).2.Seeded seed := by
  have hgone := horder.removed StorageKeys.chartData
  have hget : ((s.removed StorageKeys.chartData).removed StorageKeys.lastTimestamp).store.get?
      s.keys.chartData = none := by
    rw [Storage.get?_removed hgone]
    split
    · rfl
    · rw [Storage.get?_removed horder]
      exact if_pos rfl
  rw [Action.runOn_bind, Storage.clearSeries_runOn]
  dsimp only
  rw [Action.runOn_bind, Storage.clearLast_runOn]
  dsimp only
  rw [Action.runOn_bind, hleast]
  exact hkept _ (Storage.seeded_of_cleared (hgone.removed StorageKeys.lastTimestamp) hdata hlast hget)

/-- What a clearing does to the storage. -/
def forgetBefore (seed : Int) : Action Storage Unit := do
  Storage.clearSeries
  Storage.clearLast
  Storage.saveMin (some (.int seed))
  Storage.saveLast (some (.int seed))

theorem seeded_forgetBefore {s : Storage} (horder : s.InOrder)
    (hdata : s.keys.minTimestamp ≠ s.keys.chartData) (hlast : s.keys.minTimestamp ≠ s.keys.lastTimestamp)
    (hpos : 0 < seed) (hexact : seed ≤ 2 ^ 53) : ((forgetBefore seed).runOn s).2.Seeded seed := by
  have hleast := fun s => Storage.saveMin_runOn s hpos hexact
  have hkept : Preserves (Storage.Seeded seed) (Storage.saveLast (some (.int seed))) :=
    Storage.Seeded.preserves_saveLast _
  exact seeded_of_forgetting horder hdata hlast hleast hkept

theorem sealed_after_clear {s : Storage} {now : Int} (hp : p.storage = some s) (horder : s.InOrder)
    (hdata : s.keys.minTimestamp ≠ s.keys.chartData) (hlast : s.keys.minTimestamp ≠ s.keys.lastTimestamp)
    (hpos : 0 < now - seedMargin) (hexact : now - seedMargin ≤ 2 ^ 53) :
    (p.after (.clear now)).Sealed (now - seedMargin) := by
  have hcleared : (p.after (.clear now)).Cleared (now - seedMargin) := by
    obtain ⟨storage, hs⟩ := after_eq p (.clear now)
    rw [hs]
    exact (Cleared.of_clear p now).congr rfl rfl
  have hrun : p.after (.clear now) =
      ((onStorage (forgetBefore (now - seedMargin))).runOn (p.cleared now)).2 := by
    simp only [Chart.after, act, clear, Action.runOn_bind, Action.runOn_modify, Action.runOn_discard]
    rfl
  have hstorage : (p.cleared now).storage = some s := hp
  refine ⟨hcleared, ?_⟩
  rw [hrun, onStorage_runOn hstorage]
  exact ⟨_, rfl, seeded_forgetBefore horder hdata hlast hpos hexact⟩

/-- The charts that follow one: by calls that keep what a clearing says, and by a new chart over the same
storage that takes back what is stored. -/
inductive Later (p : Chart) : Chart → Prop
  | refl : Later p p
  | call {q : Chart} (call : Call) : Later p q → q.KeepsCleared call → Later p (q.after call)
  | restart {q : Chart} (config : Config) : Later p q →
      Later p (load.runOn (.new config q.storage)).2

theorem Later.sealed (hpos : 0 < seed) (hexact : seed ≤ 2 ^ 53) (hp : p.Sealed seed) (h : Later p q) :
    q.Sealed seed := by
  induction h with
  | refl => exact hp
  | call call _ hc ih => exact ih.after hpos hexact hc
  | restart config _ ih =>
    obtain ⟨s, hs, hseeded⟩ := ih.kept
    rw [hs]
    exact sealed_load config hpos hexact hseeded

/-- **Cleared history stays cleared.** After a clearing of a chart over a storage in order, whose least
time has a key of its own, every row before the least time is a gap, whatever history the device
brings and also after new starts, as long as no reload replaces the curves. -/
theorem isGap_before_clear {s : Storage} {now : Int} (hp : p.storage = some s) (horder : s.InOrder)
    (hdata : s.keys.minTimestamp ≠ s.keys.chartData) (hlast : s.keys.minTimestamp ≠ s.keys.lastTimestamp)
    (hpos : 0 < now - seedMargin) (hexact : now - seedMargin ≤ 2 ^ 53)
    (hq : Later (p.after (.clear now)) q) (k : Nat) (t : Int) (hk : q.series.labels[k]? = some t)
    (ht : t < now - seedMargin) : q.series.IsGap k :=
  (hq.sealed hpos hexact (sealed_after_clear hp horder hdata hlast hpos hexact)).cleared.blank k t hk ht

/-! ## A clearing at 100 s -/

/-- A batch with a sample before the least time and one after it. -/
def mixedBatch : HistoryBatch := ⟨0, [10, 80], .replicate [6000, 6000]⟩

def mixedSamples : List History.Sample :=
  let values : PerChannel Binary64 := .ofFn fun c => if c.isHashrate then 60000000000 else 60
  [⟨10000, values⟩, ⟨80000, values⟩]

theorem decode_mixedBatch : History.decode (some mixedBatch) = .ok mixedSamples :=
  History.decode_of_rows (by decide +kernel) (by decide +kernel) (by simp [mixedSamples])

/-- A chart that started with nothing stored. -/
def freshChart : Chart := (load.runOn (.new {} (some (emptyStorage {})))).2

theorem storage_freshChart : freshChart.storage = some (emptyStorage {}).counted.counted.counted :=
  (load_new {} (emptyStorage {})).2.1

/-- Only the later sample is taken, and nothing before 70 s comes back at the next start. -/
theorem isGap_before_clear_of_mixed :
    let p := freshChart.after (.clear 100000)
    let q := (p.after (.importBatch (some mixedBatch) true)).after (.commit 100000 100000 true)
    let r := (load.runOn (.new {} q.storage)).2
    q.series.labels = [80000] ∧ ∀ k t, r.series.labels[k]? = some t → t < 70000 → r.series.IsGap k := by
  intro p q r
  have hclock : (Decimal.digits (100000 : Int).natAbs).length ≤ Decimal.maxIntDigits :=
    Decimal.few_digits (k := 5) (by decide) (by decide)
  have hlater : Later p r := .restart {} (.call _ (.call _ .refl trivial) hclock)
  have hdata : ({} : StorageKeys).minTimestamp ≠ ({} : StorageKeys).chartData := by decide
  have hlast : ({} : StorageKeys).minTimestamp ≠ ({} : StorageKeys).lastTimestamp := by decide
  refine ⟨?_, isGap_before_clear storage_freshChart (fun _ => rfl) hdata hlast (by decide) (by decide) hlater⟩
  obtain ⟨kept, hp⟩ : ∃ kept, p = (freshChart.cleared 100000).onto kept := after_eq _ (.clear 100000)
  obtain ⟨stored, hq⟩ : ∃ stored,
      q = ((p.after (.importBatch (some mixedBatch) true)).trim 100000).onto stored :=
    after_eq _ (.commit 100000 100000 true)
  have himport : p.after (.importBatch (some mixedBatch) true) =
      ((freshChart.cleared 100000).importSamples true mixedSamples).2.onto kept := by
    rw [after_importBatch, imported_of_ok decode_mixedBatch, hp]
    exact congrArg Prod.snd (importSamples_onto _ _)
  have hlabels : (((freshChart.cleared 100000).importSamples true mixedSamples).2.trim 100000).series.labels =
      [80000] := by decide +kernel
  rw [hq, himport]
  exact hlabels

/-- A reload of an older history after the clearing brings a sample at 10 s. -/
theorem not_isGap_before_clear :
    ¬ ∀ (p : Chart) (s : Storage) (now : Int) (calls : List Call), Reachable p → p.storage = some s →
      s.InOrder → 0 < now - seedMargin → now - seedMargin ≤ 2 ^ 53 →
      (∀ call ∈ calls, ∀ t, call ≠ .clear t) →
      let q := (p.after (.clear now)).afterAll calls
      ∀ k t, q.series.labels[k]? = some t → t < now - seedMargin → q.series.IsGap k := by
  intro h
  have hreach : Reachable freshChart := (Reachable.new _ _).load
  have hgap := h freshChart _ 100000 [.reload (some olderBatch)] hreach storage_freshChart (fun _ => rfl)
    (by decide) (by decide) (by simp)
  obtain ⟨kept, hp⟩ : ∃ kept, freshChart.after (.clear 100000) = (freshChart.cleared 100000).onto kept :=
    after_eq _ (.clear 100000)
  obtain ⟨oldest, ho⟩ := History.oldest_of_base (b := olderBatch)
    (History.ofInt?_of_finite (by decide +kernel))
  -- no curves are left that the history could be compared with
  have hr : (freshChart.after (.clear 100000)).isReplacedBy (some olderBatch) = true := by
    rw [hp]
    simp only [isReplacedBy, ho]
    rfl
  have hseries : ((freshChart.after (.clear 100000)).after (.reload (some olderBatch))).series =
      ((freshChart.cleared 100000).emptied.importSamples true olderSamples).2.series := by
    rw [series_after_reload, hr, if_pos rfl, imported_of_ok decode_olderBatch, hp]
    have honto : (((freshChart.cleared 100000).emptied.onto kept).importSamples true olderSamples).2 = _ :=
      congrArg Prod.snd (importSamples_onto _ _)
    exact (congrArg Chart.series honto :)
  simp only [afterAll_cons, afterAll_nil, hseries] at hgap
  have hrow : ((freshChart.cleared 100000).emptied.importSamples true olderSamples).2.series.labels = [10000] ∧
      (((freshChart.cleared 100000).emptied.importSamples true olderSamples).2.series.data.get .asicTemp)[0]? =
        some 60 := by decide +kernel
  have hnan := hgap 0 10000 (by rw [hrow.1]; rfl) (by decide) .asicTemp
  rw [hrow.2] at hnan
  exact absurd hnan (by decide +kernel)

end Chart

end HashrateChart
