/-
What becomes of a device's answer.

An answer may be any document. One thing in it is not taken leniently: a number of the
history that is out of range, an integer beyond the real numbers in a list or an
infinite base (`Breaks`). It ends the poll in an overflow, which is no fault of the
device, and the health check does not survive it (`ask_outcome`). Every other answer
is system information or a fault of the device, and of a history that is accepted
everything that is no number is left out or stays without a finite value
(`Tolerates`).
-/
import HashrateChart.Device.Client
import HashrateChart.Proofs.Action
import HashrateChart.Proofs.Check
import HashrateChart.Proofs.History

namespace HashrateChart

/-! ## Values that are read -/

namespace Json

/-- An integer beyond the range of real numbers. -/
def IsTooLarge (j : Json) : Prop :=
  ∃ i, j = .int i ∧ (Arithmetic.ofInt? i : Result Binary64) = .error .overflow

theorem toReal_of_isTooLarge {j : Json} (h : j.IsTooLarge) : j.toReal = .error .overflow := by
  obtain ⟨i, rfl, hi⟩ := h
  exact hi

theorem toReal_cases (j : Json) :
    (∃ x, j.toReal = .ok x) ∨ j.toReal = .error .badNumeral ∨ j.toReal = .error .wrongType ∨
      j.IsTooLarge := by
  cases j with
  | number n =>
    cases n with
    | real x => exact .inl ⟨x, rfl⟩
    | int i =>
      rcases Arithmetic.ofInt?_cases (α := Binary64) i with ⟨x, hx⟩ | hx
      · exact .inl ⟨x, hx⟩
      · exact .inr (.inr (.inr ⟨i, rfl, hx⟩))
  | bool b =>
    have hexact : Binary64.IsExact (if b then 1 else 0) := by cases b <;> decide
    exact .inl ⟨_, Binary64.ofInt?_whole hexact⟩
  | text s =>
    cases hread : Decimal.readReal? s with
    | some x => exact .inl ⟨x, by rw [toReal, hread]⟩
    | none => exact .inr (.inl (by rw [toReal, hread]))
  | null | list xs | object fields => exact .inr (.inr (.inl rfl))

theorem toInt_cases (j : Json) :
    (∃ i, j.toInt = .ok i) ∨ j.toInt = .error .badNumeral ∨ j.toInt = .error .wrongType ∨
      j.toInt = .error .undefinedNumber ∨ ∃ s, j = .real (.infinite s) := by
  cases j with
  | number n =>
    cases n with
    | int i => exact .inl ⟨i, rfl⟩
    | real x =>
      cases x with
      | finite s m => exact .inl ⟨_, rfl⟩
      | nan => exact .inr (.inr (.inr (.inl rfl)))
      | infinite s => exact .inr (.inr (.inr (.inr ⟨s, rfl⟩)))
  | bool b => exact .inl ⟨_, rfl⟩
  | text s =>
    cases hread : Decimal.readInt? s with
    | some i => exact .inl ⟨i, by rw [toInt, hread]⟩
    | none => exact .inr (.inl (by rw [toInt, hread]))
  | null | list xs | object fields => exact .inr (.inr (.inl rfl))

/-- The number that a value is taken for: the one that it stands for, or else none. -/
def heard (j : Json) : Binary64 :=
  match j.toReal with
  | .ok x => x
  | .error _ => .nan

/-- A value that stands for no finite number. -/
def IsGarbage (j : Json) : Prop := ∀ x, j.toReal = .ok x → x.isFinite = false

theorem isFinite_heard {j : Json} (h : j.IsGarbage) : j.heard.isFinite = false := by
  unfold heard
  split
  · next x hx => exact h x hx
  · rfl

end Json

/-! ## Batches -/

namespace HistoryBatch

/-- What a document lists under a key. -/
def listed (h : List (String × Json)) (key : String) : List Json :=
  match Fields.lookup key h with
  | some (.list items) => items
  | _ => []

/-- The keys of the lists of a batch. -/
def listKeys : List String := "timestamps" :: Channel.all.map Channel.key

/-- A number of a history is out of range: an integer in a list is beyond the real numbers, or the base
is infinite. -/
def OutOfRange (h : List (String × Json)) : Prop :=
  (∃ s, Fields.lookup "timestampBase" h = some (.real (.infinite s))) ∨
    ∃ key ∈ listKeys, ∃ x ∈ listed h key, x.IsTooLarge

/-- The list that a check reads. -/
def listOf (h : List (String × Json)) (key : String) : Checked (List Binary64) :=
  match Fields.lookup key h with
  | some j => .ofResult (entries j)
  | none => .ok []

/-- The base that a check reads. -/
def baseOf (h : List (String × Json)) : Checked Int :=
  match Fields.lookup "timestampBase" h with
  | some j => .ofResult (lenient 0 j.toInt)
  | none => .ok 0

theorem check_object (h : List (String × Json)) :
    check (.object h) =
      (fun base times d1m d10m d1h d1d vreg asic => ⟨base, times, d1m, d10m, d1h, d1d, vreg, asic⟩)
        <$> baseOf h <*> listOf h "timestamps"
        <*> listOf h (Channel.key .hashrate1m) <*> listOf h (Channel.key .hashrate10m)
        <*> listOf h (Channel.key .hashrate1h) <*> listOf h (Channel.key .hashrate1d)
        <*> listOf h (Channel.key .vregTemp) <*> listOf h (Channel.key .asicTemp) := rfl

theorem lenient_toReal (j : Json) :
    (j.IsTooLarge ∧ lenient .nan j.toReal = .error .overflow) ∨
      (¬ j.IsTooLarge ∧ lenient .nan j.toReal = .ok j.heard) := by
  by_cases hlarge : j.IsTooLarge
  · exact .inl ⟨hlarge, by rw [Json.toReal_of_isTooLarge hlarge]; rfl⟩
  · refine .inr ⟨hlarge, ?_⟩
    unfold Json.heard
    rcases j.toReal_cases with ⟨x, hx⟩ | hx | hx | hx
    · rw [hx]
      rfl
    · rw [hx]
      rfl
    · rw [hx]
      rfl
    · exact absurd hx hlarge

/-- A list is read entry by entry, up to the first one that is too large. -/
theorem entries_list (items : List Json) :
    ((∃ x ∈ items, x.IsTooLarge) ∧ entries (.list items) = .error .overflow) ∨
      ((¬ ∃ x ∈ items, x.IsTooLarge) ∧ entries (.list items) = .ok (items.map Json.heard)) := by
  induction items with
  | nil => exact .inr ⟨by simp, rfl⟩
  | cons x items ih =>
    have hcons : entries (.list (x :: items)) = (do
        let y ← lenient .nan x.toReal
        return y :: (← entries (.list items))) := List.mapM_cons
    have hmem : (∃ y ∈ x :: items, y.IsTooLarge) ↔ x.IsTooLarge ∨ ∃ y ∈ items, y.IsTooLarge := by
      simp only [List.mem_cons, or_and_right, exists_or, exists_eq_left]
    rw [hcons, hmem]
    rcases lenient_toReal x with ⟨hx, hlenient⟩ | ⟨hx, hlenient⟩
    · exact .inl ⟨.inl hx, by rw [hlenient]; rfl⟩
    · rw [hlenient]
      rcases ih with ⟨hmore, hrest⟩ | ⟨hmore, hrest⟩
      · exact .inl ⟨.inr hmore, by rw [hrest]; rfl⟩
      · refine .inr ⟨?_, by rw [hrest]; rfl⟩
        rintro (h | h)
        · exact hx h
        · exact hmore h

open Checked (Gives)

theorem listOf_gives (h : List (String × Json)) (key : String) :
    (listOf h key).Gives (∃ x ∈ listed h key, x.IsTooLarge) ((listed h key).map Json.heard) := by
  unfold listOf listed
  cases Fields.lookup key h with
  | none => exact .of_ok rfl (by simp)
  | some j =>
    cases j with
    | list items =>
      rcases entries_list items with ⟨hx, hentries⟩ | ⟨hx, hentries⟩
      · exact .inl ⟨hx, by dsimp only; rw [hentries]; rfl⟩
      · exact .inr ⟨hx, by dsimp only; rw [hentries]; rfl⟩
    | _ => exact .of_ok rfl (by simp)

theorem baseOf_gives (h : List (String × Json)) :
    ∃ base, (baseOf h).Gives (∃ s, Fields.lookup "timestampBase" h = some (.real (.infinite s))) base := by
  unfold baseOf
  cases Fields.lookup "timestampBase" h with
  | none => exact ⟨0, .of_ok rfl (by simp)⟩
  | some j =>
    have hne {r : Result Int} (hr : j.toInt = r) (hover : r ≠ .error .overflow) :
        ¬ ∃ s, some j = some (.real (.infinite s)) := by
      rintro ⟨s, hj⟩
      obtain rfl := Option.some.inj hj
      exact hover hr.symm
    rcases j.toInt_cases with ⟨i, hi⟩ | hi | hi | hi | ⟨s, rfl⟩
    · exact ⟨i, .of_ok (by dsimp only; rw [hi]; rfl) (hne hi (by simp))⟩
    · exact ⟨0, .of_ok (by dsimp only; rw [hi]; rfl) (hne hi (by simp))⟩
    · exact ⟨0, .of_ok (by dsimp only; rw [hi]; rfl) (hne hi (by simp))⟩
    · exact ⟨0, .of_ok (by dsimp only; rw [hi]; rfl) (hne hi (by simp))⟩
    · exact ⟨0, .inl ⟨⟨s, rfl⟩, rfl⟩⟩

/-- The batch with a base that holds what a document lists, with gaps for what is no number. -/
def listing (base : Int) (h : List (String × Json)) : HistoryBatch where
  base := base
  times := (listed h "timestamps").map Json.heard
  values := .ofFn fun c => (listed h c.key).map Json.heard

/-- An object is a batch, whatever it holds, unless a number of it is out of range. -/
theorem check_gives (h : List (String × Json)) :
    ∃ base, (check (.object h)).Gives (OutOfRange h) (listing base h) := by
  obtain ⟨base, hbase⟩ := baseOf_gives h
  have hlists := listOf_gives h
  refine ⟨base, ?_⟩
  rw [check_object]
  refine ((((((((hbase.map _).seq (hlists _)).seq (hlists _)).seq (hlists _)).seq (hlists _)).seq
    (hlists _)).seq (hlists _)).seq (hlists _)).congr ?_
  simp only [OutOfRange, listKeys, Channel.all, List.map_cons, List.map_nil, List.mem_cons,
    List.not_mem_nil, or_and_right, exists_or, exists_eq_left, or_false, or_assoc]

end HistoryBatch

/-! ## Samples -/

namespace History

open HistoryBatch (listed listing)

/-- The samples of a history hold nothing that is no number: a sample whose time is garbage is left out,
and a value that is garbage is not finite, a gap unless it is infinite. -/
def Tolerates (h : List (String × Json)) (count : Nat) (xs : List Sample) : Prop :=
  ∃ row : Nat → Option Sample, xs.Perm ((List.range count).filterMap row) ∧
    (∀ i j, (listed h "timestamps")[i]? = some j → j.IsGarbage → row i = none) ∧
    ∀ i s, row i = some s → ∀ (c : Channel) j, (listed h c.key)[i]? = some j → j.IsGarbage →
      (s.values.get c).isFinite = false ∧
      ((∀ negative, j.toReal ≠ .ok (.infinite negative)) → s.values.get c = .nan)

variable {h : List (String × Json)} {b : Int} {base : Binary64} {i : Nat} {j : Json} {s : Sample}

theorem row?_of_garbage_time (ht : (listed h "timestamps")[i]? = some j) (hj : j.IsGarbage) :
    row? (listing b h) base i = none := by
  have htime : (listing b h).times[i]? = some j.heard := by
    rw [listing, List.getElem?_map, ht]
    rfl
  have hsum : (j.heard + base).isFinite = false := by
    refine Bool.eq_false_iff.mpr fun hfin => ?_
    have hheard := Binary64.isFinite_of_add hfin
    rw [Json.isFinite_heard hj] at hheard
    cases hheard
  have hreal : (normalizeReal (j.heard + base)).isFinite = false := by rw [isFinite_normalizeReal, hsum]
  unfold row?
  simp only [htime, bind, Option.bind]
  cases hn : normalizeReal (j.heard + base) with
  | finite s m =>
    rw [hn] at hreal
    cases hreal
  | _ => rfl

theorem value_of_row? (hrow : row? (listing b h) base i = some s) (c : Channel)
    (hc : (listed h c.key)[i]? = some j) : s.values.get c = j.heard * scale c := by
  have hvalue : ((listing b h).values.get c).getD i .nan = j.heard := by
    rw [listing, PerChannel.get_ofFn, List.getD_eq_getElem?_getD, List.getElem?_map, hc]
    rfl
  unfold row? at hrow
  simp only [bind, Option.bind] at hrow
  split at hrow
  · cases hrow
  · dsimp only at hrow
    split at hrow
    · cases hrow
      rw [PerChannel.get_ofFn, hvalue]
    · cases hrow

theorem heard_eq_nan (hj : j.IsGarbage) (hne : ∀ negative, j.toReal ≠ .ok (.infinite negative)) :
    j.heard = .nan := by
  unfold Json.heard
  split
  · next x hx =>
    cases x with
    | nan => rfl
    | infinite s => exact absurd hx (hne s)
    | finite s m => cases hj _ hx
  · rfl

/-- A history is decoded whatever it lists, unless it has rows and its base is out of range. -/
theorem decode_listing (b : Int) (h : List (String × Json)) :
    ((listing b h).rowCount ≠ 0 ∧ (Arithmetic.ofInt? b : Result Binary64) = .error .overflow ∧
        decode (some (listing b h)) = .error .overflow) ∨
      ∃ xs, decode (some (listing b h)) = .ok xs ∧ Tolerates h (listing b h).rowCount xs := by
  rcases Arithmetic.ofInt?_cases (α := Binary64) b with ⟨base, hbase⟩ | hbase
  · refine .inr ⟨_, decode_of_base hbase, row? (listing b h) base, List.mergeSort_perm _ _, ?_, ?_⟩
    · exact fun i j ht hj => row?_of_garbage_time ht hj
    · intro i s hrow c j hc hj
      rw [value_of_row? hrow c hc]
      refine ⟨Bool.eq_false_iff.mpr fun hfin => ?_, fun hne => ?_⟩
      · have hheard := Binary64.isFinite_of_mul hfin
        rw [Json.isFinite_heard hj] at hheard
        cases hheard
      · rw [heard_eq_nan hj hne, Binary64.nan_mul]
  · by_cases hrows : (listing b h).rowCount = 0
    · refine .inr ⟨[], decode_of_no_rows hrows, fun _ => none, ?_, fun _ _ _ _ => rfl,
        fun _ _ hrow => nomatch hrow⟩
      rw [hrows]
      exact .nil
    · exact .inl ⟨hrows, hbase, decode_of_no_base hrows hbase⟩

end History

/-! ## Answers -/

namespace SystemInfo

open Check Checked

theorem fault?_pool (j : Json) : (Pool.check j).fault? = none := by
  refine fault?_object (fun o => ?_) j
  simp [fault?_field]

theorem fault?_stratum (j : Json) : (Stratum.check j).fault? = none := by
  refine fault?_object (fun o => ?_) j
  simp [fault?_field, fault?_listOf fault?_pool]

/-- The history alone can end the check of a document in a fault. -/
theorem fault?_checkFields (o : List (String × Json)) :
    (checkFields o).fault? = (field o "history" none (Check.optional HistoryBatch.check)).fault? := by
  simp [checkFields, fault?_field, fault?_optional, fault?_stratum]

/-- The history of an accepted document is what the check of it gave. -/
theorem history_of_checkFields {o : List (String × Json)} {info : SystemInfo} (h : checkFields o = .ok info) :
    field o "history" none (Check.optional HistoryBatch.check) = .ok info.history := by
  obtain ⟨_, history, h₁, hhistory, hinfo⟩ := seq_ok h
  obtain ⟨_, _, h₂, -, rfl⟩ := seq_ok h₁
  obtain ⟨_, _, h₃, -, rfl⟩ := seq_ok h₂
  obtain ⟨_, _, h₄, -, rfl⟩ := seq_ok h₃
  obtain ⟨_, _, h₅, -, rfl⟩ := seq_ok h₄
  obtain ⟨_, _, h₆, -, rfl⟩ := seq_ok h₅
  obtain ⟨_, _, h₇, -, rfl⟩ := seq_ok h₆
  obtain ⟨_, -, rfl⟩ := map_ok h₇
  rw [← hinfo]
  exact hhistory

/-- The history of a document, when it is an object. -/
def historyOf? (fields : List (String × Json)) : Option (List (String × Json)) :=
  match Fields.lookup "history" fields with
  | some (.object h) => some h
  | _ => none

/-- A document has a history with a number that is out of range. -/
def Breaks (fields : List (String × Json)) : Prop :=
  ∃ h, historyOf? fields = some h ∧ HistoryBatch.OutOfRange h

/-- What is kept of the history of a document: nothing when it has none, or else what it lists. -/
def Keeps (fields : List (String × Json)) (history : Option HistoryBatch) : Prop :=
  history = none ∨ ∃ h base, historyOf? fields = some h ∧ history = some (.listing base h)

theorem history_cases (fields : List (String × Json)) :
    (Breaks fields ∧ (field fields "history" none (Check.optional HistoryBatch.check)).fault? = some .overflow) ∨
      (¬ Breaks fields ∧ (field fields "history" none (Check.optional HistoryBatch.check)).fault? = none ∧
        ∀ history, field fields "history" none (Check.optional HistoryBatch.check) = .ok history →
          Keeps fields history) := by
  unfold field Breaks Keeps historyOf?
  cases Fields.lookup "history" fields with
  | none =>
    refine .inr ⟨by simp, rfl, fun history h => .inl ?_⟩
    cases h
    rfl
  | some j =>
    cases j with
    | object h =>
      obtain ⟨base, hgives⟩ := HistoryBatch.check_gives h
      rcases hgives with ⟨hout, hcheck⟩ | ⟨hout, hcheck⟩
      · refine .inl ⟨⟨h, rfl, hout⟩, ?_⟩
        simp only [Check.optional, hcheck]
        rfl
      · refine .inr ⟨?_, ?_, fun history hok => .inr ⟨h, base, rfl, ?_⟩⟩
        · rintro ⟨h', heq, hout'⟩
          obtain rfl := Option.some.inj heq
          exact hout hout'
        · simp only [Check.optional, hcheck]
          rfl
        · simp only [Check.optional, hcheck] at hok
          cases hok
          rfl
    | null =>
      refine .inr ⟨by simp, rfl, fun history h => .inl ?_⟩
      cases h
      rfl
    | _ => exact .inr ⟨by simp, rfl, fun history h => nomatch h⟩

end SystemInfo

namespace Client

open SystemInfo (Breaks Keeps)

/-- A document is system information, or a bad answer, unless its history breaks it. -/
theorem infoOf_object (fields : List (String × Json)) :
    (Breaks fields ∧ infoOf (.object fields) = .error .overflow) ∨
      (¬ Breaks fields ∧ (infoOf (.object fields) = .error .badResponse ∨
        ∃ info, infoOf (.object fields) = .ok info ∧ Keeps fields info.history)) := by
  have hfault := SystemInfo.fault?_checkFields fields
  rcases SystemInfo.history_cases fields with ⟨hbreaks, hhistory⟩ | ⟨hbreaks, hhistory, hkeeps⟩
  · refine .inl ⟨hbreaks, ?_⟩
    rw [infoOf, Checked.failed_of_fault (hfault.trans hhistory)]
  · refine .inr ⟨hbreaks, ?_⟩
    rw [infoOf]
    cases hc : SystemInfo.checkFields fields with
    | ok info => exact .inr ⟨info, rfl, hkeeps _ (SystemInfo.history_of_checkFields hc)⟩
    | invalid problems => exact .inl rfl
    | failed e =>
      rw [hc, hhistory] at hfault
      cases hfault

/-- A reply has a document with a history that breaks it. -/
def Reply.Breaks : Reply → Prop
  | .received status (.object fields) => status < 400 ∧ SystemInfo.Breaks fields
  | _ => False

theorem receive_of_breaks {reply : Reply} (h : reply.Breaks) : receive reply = .error .overflow := by
  cases reply with
  | unreachable | timedOut => cases h
  | received status body =>
    cases body with
    | object fields =>
      obtain ⟨hstatus, hbreaks⟩ := h
      rw [receive, if_neg (Int.not_le.mpr hstatus)]
      rcases infoOf_object fields with ⟨-, hinfo⟩ | ⟨hnot, -⟩
      · exact hinfo
      · exact absurd hbreaks hnot
    | _ => cases h

/-- A reply that does not break says something about the device, or that it is not well. -/
theorem receive_cases {reply : Reply} (h : ¬ reply.Breaks) :
    (∃ e, isDeviceFault e = true ∧ receive reply = .error e) ∨
      ∃ status fields info, reply = .received status (.object fields) ∧ receive reply = .ok info ∧
        Keeps fields info.history := by
  cases reply with
  | unreachable => exact .inl ⟨.connection, rfl, rfl⟩
  | timedOut => exact .inl ⟨.timeout, rfl, rfl⟩
  | received status body =>
    by_cases hstatus : 400 ≤ status
    · exact .inl ⟨.connection, rfl, if_pos hstatus⟩
    rw [receive, if_neg hstatus]
    cases body with
    | object fields =>
      rcases infoOf_object fields with ⟨hbreaks, -⟩ | ⟨-, hbad | ⟨info, hinfo, hkeeps⟩⟩
      · exact absurd ⟨Int.not_le.mp hstatus, hbreaks⟩ h
      · exact .inl ⟨.badResponse, rfl, hbad⟩
      · exact .inr ⟨status, fields, info, rfl, hinfo, hkeeps⟩
    | _ => exact .inl ⟨.badResponse, rfl, rfl⟩

/-! ## Polls -/

/-- What a device is asked: for history since a time, in chunks, over a span. -/
structure Query where
  start : Option Int := none
  chunk : Int := 0
  span : Option Int := none

/-- A number that may be left out. -/
def given : Option Int → Json
  | none => .null
  | some i => .int i

/-- Asks a device over an open session. -/
def ask (ip : String) (q : Query) (reply : Reply) : Result SystemInfo := do
  let _ ← request true ip (given q.start) (.int q.chunk) (given q.span)
  receive reply

/-- Asks a device whether it is well. -/
def health (ip : String) (reply : Reply) : Result Bool := isHealthy (ask ip {} reply)

theorem parameters_ok (q : Query) : ∃ ps, parameters (given q.start) (.int q.chunk) (given q.span) = .ok ps := by
  have hnumber (name : String) (i : Int) : parameter name (.int i) = .ok [(name, Decimal.intText i)] := rfl
  have hnull : Json.null.isNull = true ∧ Json.null.truthy = false := ⟨rfl, rfl⟩
  have hint (i : Int) : (Json.int i).isNull = false := rfl
  unfold parameters
  rcases q with ⟨_ | start, chunk, _ | span⟩
  all_goals
    simp only [given, hnumber, hnull, hint, pure, Except.pure, bind, Except.bind, if_true,
      Bool.false_eq_true, if_false]
    repeat' split
    all_goals exact ⟨_, rfl⟩

/-- Whatever is asked for, the answer is what the reply says. -/
theorem ask_eq (ip : String) (q : Query) (reply : Reply) : ask ip q reply = receive reply := by
  obtain ⟨ps, hps⟩ := parameters_ok q
  rw [ask, request]
  simp only [hps, bind, Except.bind]
  rfl

/-- How the history of accepted system information decodes: without a fault, and with nothing in it that
is no number, unless its base is an integer out of range. -/
def Decodes (fields : List (String × Json)) (history : Option HistoryBatch) : Prop :=
  (history = none ∧ History.decode history = .ok []) ∨
    ∃ h base, SystemInfo.historyOf? fields = some h ∧ history = some (.listing base h) ∧
      (((HistoryBatch.listing base h).rowCount ≠ 0 ∧
          (Arithmetic.ofInt? base : Result Binary64) = .error .overflow ∧
          History.decode history = .error .overflow) ∨
        ∃ xs, History.decode history = .ok xs ∧
          History.Tolerates h (HistoryBatch.listing base h).rowCount xs)

theorem decodes_of_keeps {fields : List (String × Json)} {history : Option HistoryBatch}
    (h : Keeps fields history) : Decodes fields history := by
  rcases h with rfl | ⟨h, base, hhistory, rfl⟩
  · exact .inl ⟨rfl, rfl⟩
  · exact .inr ⟨h, base, hhistory, rfl, History.decode_listing base h⟩

/-- **The outcome of a poll.** A reply ends a poll in an overflow, and the health check with it, exactly
when its history has a number out of range. After every other reply there is system information and the
device is well, or there is a fault of the device and it is not. -/
theorem ask_outcome (ip : String) (q : Query) (reply : Reply) :
    (reply.Breaks ∧ ask ip q reply = .error .overflow ∧ health ip reply = .error .overflow) ∨
    (¬ reply.Breaks ∧
      ((∃ e, isDeviceFault e = true ∧ ask ip q reply = .error e ∧ health ip reply = .ok false) ∨
       ∃ status fields info, reply = .received status (.object fields) ∧ ask ip q reply = .ok info ∧
         health ip reply = .ok true ∧ Decodes fields info.history)) := by
  rw [health, ask_eq, ask_eq]
  by_cases h : reply.Breaks
  · refine .inl ⟨h, receive_of_breaks h, ?_⟩
    rw [receive_of_breaks h]
    rfl
  · refine .inr ⟨h, ?_⟩
    rcases receive_cases h with ⟨e, he, hreceive⟩ | ⟨status, fields, info, hreply, hreceive, hkeeps⟩
    · refine .inl ⟨e, he, hreceive, ?_⟩
      rw [hreceive, isHealthy, he, if_pos rfl]
    · refine .inr ⟨status, fields, info, hreply, hreceive, ?_, decodes_of_keeps hkeeps⟩
      rw [hreceive]
      rfl

/-- A reply whose only time is an integer. -/
def timed (i : Int) : Reply :=
  .received 200 (.object [("history", .object [("timestamps", .list [.int i])])])

theorem breaks_timed {i : Int} (h : (Arithmetic.ofInt? i : Result Binary64) = .error .overflow) :
    (timed i).Breaks :=
  ⟨by decide, _, rfl, .inr ⟨"timestamps", List.mem_cons_self, .int i, List.mem_singleton_self _, i, rfl, h⟩⟩

/-- A time that is too large ends a poll and a health check in a fault that is none of the device. -/
theorem not_ask_outcome :
    ¬ ∀ (ip : String) (q : Query) (reply : Reply),
      ((∃ info, ask ip q reply = .ok info) ∨ ∃ e, isDeviceFault e = true ∧ ask ip q reply = .error e) ∧
      ∃ well, health ip reply = .ok well := by
  intro h
  obtain ⟨-, well, hwell⟩ := h "10.0.0.1" {} (timed (10 ^ 400 : Nat))
  rw [health, ask_eq, receive_of_breaks (breaks_timed (Binary64.ofInt?_ten_pow (k := 400) (by decide)))] at hwell
  cases hwell

end Client

end HashrateChart
