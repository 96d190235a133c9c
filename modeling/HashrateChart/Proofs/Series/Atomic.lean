/-
Calls on the curves that fail, and what they leave.

How many values a sample has, and its time, is looked at before anything is written;
each value is read only when it is written (`upsertValues_of_new`,
`upsertValues_of_last`). So a sample in which a value is no number leaves its label
and the values in front of that one, and the lists are of one length no more
(`Tears`). Every other call is atomic: when it fails it leaves the curves as they
were, and the lists stay of one length.
-/
import HashrateChart.Proofs.Action
import HashrateChart.Proofs.Binary64
import HashrateChart.Proofs.Series

namespace HashrateChart

namespace Series

/-! ## Calls -/

/-- What can be asked of the curves, with arguments that may be anything. -/
inductive Call where
  | upsert (t : Json) (values : List (Result Json))
  | insertBreak (t : Json)
  | trim (now window : Json)
  | clear

/-- What a call does, without its answer. -/
def act : Call → Action Series Unit
  | .upsert t values => discard (upsertValues t values)
  | .insertBreak t => modify fun s => (s.insertBreakAt t).2
  | .trim now window => do
    let (_, s) ← liftM (m := Except Fault) ((← get).trimValues now window)
    set s
  | .clear => set empty

/-- The curves that a call leaves, also one that fails. -/
def after (s : Series) (call : Call) : Series := ((act call).runOn s).2

/-- The curves that a run of calls leaves. -/
def afterAll (s : Series) (calls : List Call) : Series := calls.foldl after s

/-- A property of every call of a run and the curves that it is asked of. -/
def Throughout (P : Series → Call → Prop) (s : Series) (calls : List Call) : Prop :=
  ∀ before call later, calls = before ++ call :: later → P (s.afterAll before) call

theorem throughout_nil (P : Series → Call → Prop) (s : Series) : Throughout P s [] := by
  intro before call later h
  simp at h

theorem throughout_cons (P : Series → Call → Prop) (s : Series) (call : Call) (calls : List Call) :
    Throughout P s (call :: calls) ↔ P s call ∧ Throughout P (s.after call) calls := by
  constructor
  · refine fun h => ⟨h [] call calls rfl, fun before next later hcalls => ?_⟩
    exact h (call :: before) next later (by rw [hcalls]; rfl)
  · rintro ⟨hcall, hrest⟩ before next later hcalls
    cases before with
    | nil =>
      obtain ⟨rfl, rfl⟩ := List.cons.inj hcalls
      exact hcall
    | cons first before =>
      obtain ⟨rfl, rfl⟩ := List.cons.inj hcalls
      exact hrest before next later rfl

variable {s : Series} {values : List (Result Json)} {t : Json} {time : Int}

/-! ## Values -/

/-- The values as numbers; the first one that is none ends it. -/
def numbersOf (values : List (Result Json)) : Result (List Binary64) :=
  values.mapM fun v => v.bind Json.toReal

/-- The numbers in front of the first value that is none. -/
def usable : List (Result Json) → List Binary64
  | [] => []
  | v :: rest =>
    match v.bind Json.toReal with
    | .ok x => x :: usable rest
    | .error _ => []

theorem numbersOf_cons (v : Result Json) (rest : List (Result Json)) :
    numbersOf (v :: rest) = (do return (← v.bind Json.toReal) :: (← numbersOf rest)) := List.mapM_cons ..

/-- The values are read without a fault when all of them are usable. -/
theorem numbersOf_cases (values : List (Result Json)) :
    (numbersOf values = .ok (usable values) ∧ (usable values).length = values.length) ∨
      ((∃ e, numbersOf values = .error e) ∧ (usable values).length < values.length) := by
  induction values with
  | nil => exact .inl ⟨rfl, rfl⟩
  | cons v rest ih =>
    rw [numbersOf_cons, usable]
    cases v.bind Json.toReal with
    | error e => exact .inr ⟨⟨e, rfl⟩, Nat.zero_lt_succ _⟩
    | ok x =>
      rcases ih with ⟨hread, hlen⟩ | ⟨⟨e, hread⟩, hlen⟩ <;> rw [hread]
      · exact .inl ⟨rfl, congrArg Nat.succ hlen⟩
      · exact .inr ⟨⟨e, rfl⟩, Nat.succ_lt_succ hlen⟩

/-! ## Rows -/

/-- The curves when values were put to some channels, one after the other. -/
def putAll (put : List Binary64 → Binary64 → List Binary64) (s : Series)
    (cells : List (Channel × Binary64)) : Series :=
  cells.foldl (fun s (c, x) => { s with data := s.data.set c (put (s.data.get c) x) }) s

variable {put : List Binary64 → Binary64 → List Binary64}

theorem labels_putAll (s : Series) (cells : List (Channel × Binary64)) :
    (putAll put s cells).labels = s.labels := by
  induction cells generalizing s with
  | nil => rfl
  | cons cell cells ih => exact ih _

/-- Each channel gets its own value; one without a value stays as it is. -/
theorem get_putAll (s : Series) {cells : List (Channel × Binary64)} (h : (cells.map Prod.fst).Nodup)
    (c : Channel) :
    (putAll put s cells).data.get c = ((cells.lookup c).map (put (s.data.get c))).getD (s.data.get c) := by
  induction cells generalizing s with
  | nil => rfl
  | cons cell cells ih =>
    obtain ⟨d, x⟩ := cell
    obtain ⟨hd, hrest⟩ := List.nodup_cons.mp h
    refine (ih _ hrest).trans ?_
    rw [List.lookup_cons]
    by_cases hc : c = d
    · subst hc
      have hnone : cells.lookup c = none := List.lookup_eq_none_iff.mpr fun p hp => by
        have hmem : p.1 ∈ cells.map Prod.fst := List.mem_map_of_mem hp
        refine bne_iff_ne.mpr fun he => hd ?_
        rwa [← he] at hmem
      simp only [hnone, beq_self_eq_true, Option.map_none, Option.getD_none, PerChannel.get_set_self,
        Option.map_some, Option.getD_some]
    · have hne : (c == d) = false := beq_eq_false_iff_ne.mpr hc
      simp only [hne, PerChannel.get_set_other _ _ hc]

theorem eq_of_parts {s u : Series} (hlabels : s.labels = u.labels)
    (hdata : ∀ c, s.data.get c = u.data.get c) : s = u := by
  cases s
  cases u
  rw [Series.mk.injEq]
  exact ⟨hlabels, PerChannel.ext_get hdata⟩

/-- Writing values channel by channel stops at the first one that is no number. -/
theorem forM_runOn (put : List Binary64 → Binary64 → List Binary64)
    {write : Channel → Result Json → Action Series Unit} {I : Series → Prop}
    (hwrite : ∀ c v s, I s → (write c v).runOn s =
      match v.bind Json.toReal with
      | .ok x => (.ok (), { s with data := s.data.set c (put (s.data.get c) x) })
      | .error e => (.error e, s))
    (hI : ∀ c x s, I s → I { s with data := s.data.set c (put (s.data.get c) x) })
    {channels : List Channel} (hlen : channels.length = values.length) (hs : I s) :
    ((channels.zip values).forM fun (c, v) => write c v).runOn s =
      ((numbersOf values).map fun _ => ⟨⟩, putAll put s (channels.zip (usable values))) := by
  rw [List.forM_eq_forM]
  induction values generalizing s channels with
  | nil =>
    rw [List.zip_nil_right, usable, List.zip_nil_right]
    rfl
  | cons v rest ih =>
    cases channels with
    | nil => cases hlen
    | cons c channels =>
      rw [List.zip_cons_cons, List.forM_cons, Action.runOn_bind, hwrite c v s hs, numbersOf_cons, usable]
      cases v.bind Json.toReal with
      | error e => rfl
      | ok x =>
        have hrest := ih (Nat.succ.inj hlen) (hI c x s hs)
        dsimp only
        rw [hrest]
        cases numbersOf rest <;> rfl

theorem writeNext_runOn (c : Channel) (v : Result Json) (s : Series) :
    (writeNext c v).runOn s =
      match v.bind Json.toReal with
      | .ok x => (.ok (), { s with data := s.data.set c (s.data.get c ++ [x]) })
      | .error e => (.error e, s) := by
  rw [writeNext, Action.runOn_bind, Action.runOn_liftM]
  cases v.bind Json.toReal <;> rfl

/-- Every channel has a value. -/
def Filled (s : Series) : Prop := ∀ c, s.data.get c ≠ []

theorem writeLast_runOn (c : Channel) (v : Result Json) (s : Series) (h : s.Filled) :
    (writeLast c v).runOn s =
      match v.bind Json.toReal with
      | .ok x => (.ok (), { s with data := s.data.set c (replaceLast (s.data.get c) x) })
      | .error e => (.error e, s) := by
  have hne : (s.data.get c).isEmpty = false := by simpa using h c
  rw [writeLast, Action.runOn_bind, Action.runOn_liftM]
  cases v.bind Json.toReal with
  | error e => rfl
  | ok x =>
    dsimp only
    rw [Action.runOn_bind, Action.runOn_get]
    simp only [hne, Bool.false_eq_true, if_false]
    rfl

theorem replaceLast_ne_nil {xs : List Binary64} (x : Binary64) (h : xs ≠ []) : replaceLast xs x ≠ [] := by
  intro hnil
  have hlast := getLast?_replaceLast x h
  rw [hnil] at hlast
  cases hlast

theorem Filled.set (c : Channel) (x : Binary64) (s : Series) (h : s.Filled) :
    Filled { s with data := s.data.set c (replaceLast (s.data.get c) x) } := by
  intro d
  by_cases hd : d = c
  · subst hd
    exact fun hnil => replaceLast_ne_nil x (h d) ((PerChannel.get_set_self ..).symm.trans hnil)
  · exact fun hnil => h d ((PerChannel.get_set_other _ _ hd).symm.trans hnil)

/-! ## Samples -/

/-- The values of a sample that are written, each with its channel. -/
def cells (values : List (Result Json)) : List (Channel × Binary64) := Channel.all.zip (usable values)

/-- The values go to the first channels. -/
theorem fst_cells (values : List (Result Json)) :
    (cells values).map Prod.fst = Channel.all.take (usable values).length := by
  rw [cells, List.zip_eq_zip_take_min, List.map_fst_zip (by simp only [List.length_take]; omega)]
  exact List.take_eq_take_iff.mpr (by omega)

theorem nodup_cells (values : List (Result Json)) : ((cells values).map Prod.fst).Nodup := by
  have hall : Channel.all.Nodup := by decide
  rw [fst_cells]
  exact hall.sublist (List.take_sublist _ _)

/-- When all values are usable, every channel gets one. -/
theorem exists_lookup_cells (h : (usable values).length = Channel.all.length) (c : Channel) :
    ∃ x, (cells values).lookup c = some x := by
  have hmem : c ∈ (cells values).map Prod.fst := by
    rw [fst_cells, h, List.take_length]
    exact c.mem_all
  obtain ⟨p, hp, rfl⟩ := List.mem_map.mp hmem
  exact Option.isSome_iff_exists.mp (List.lookup_isSome_iff.mpr ⟨p, hp, beq_self_eq_true _⟩)

theorem upsertValues_of_count (s : Series) (t : Json) (h : values.length ≠ Channel.all.length) :
    (upsertValues t values).runOn s = (.error (.channelCount values.length), s) := by
  rw [upsertValues, if_pos h]
  rfl

theorem upsertValues_of_no_time {e : Fault} (s : Series) (h : values.length = Channel.all.length)
    (ht : t.toInt = .error e) : (upsertValues t values).runOn s = (.error e, s) := by
  rw [upsertValues, if_neg (not_not_intro h)]
  simp only [Action.runOn_bind, Action.runOn_liftM, ht]

/-- A sample of the time of the last one replaces its values up to the first one that is no number. -/
theorem upsertValues_of_last (hs : s.Aligned) (h : values.length = Channel.all.length)
    (ht : t.toInt = .ok time) (hl : s.lastLabel? = some time) :
    (upsertValues t values).runOn s =
      ((numbersOf values).map fun _ => .updated, putAll replaceLast s (cells values)) := by
  have hrow := forM_runOn replaceLast (I := Filled) writeLast_runOn Filled.set h.symm
    (hs.ne_nil (labels_ne_nil hl))
  rw [upsertValues, if_neg (not_not_intro h)]
  simp only [Action.runOn_bind, Action.runOn_liftM, ht, Action.runOn_get, hl, if_true]
  rw [hrow]
  cases numbersOf values <;> rfl

/-- A sample of another time is added with its values up to the first one that is no number. -/
theorem upsertValues_of_new (h : values.length = Channel.all.length) (ht : t.toInt = .ok time)
    (hl : s.lastLabel? ≠ some time) :
    (upsertValues t values).runOn s =
      ((numbersOf values).map fun _ => .appended,
        putAll (fun xs x => xs ++ [x]) { s with labels := s.labels ++ [time] } (cells values)) := by
  have hrow := forM_runOn (fun xs x => xs ++ [x]) (I := fun _ => True)
    (fun c v s _ => writeNext_runOn c v s) (fun _ _ _ _ => trivial) h.symm
    (s := { s with labels := s.labels ++ [time] }) trivial
  rw [upsertValues, if_neg (not_not_intro h)]
  simp only [Action.runOn_bind, Action.runOn_liftM, ht, Action.runOn_get, hl, if_false,
    Action.runOn_modify]
  rw [hrow]
  cases numbersOf values <;> rfl

/-! ## Atomic calls -/

/-- A call that fails leaves the curves as they were. -/
def Atomic (s : Series) (call : Call) : Prop :=
  ∀ e, ((act call).runOn s).1 = .error e → s.after call = s

/-- A call writes a part of a sample and fails: the sample has one value for each channel and a time,
but one of the values is no number, and what is written in front of it is not what was there. -/
def Tears (s : Series) : Call → Prop
  | .upsert t values =>
    values.length = Channel.all.length ∧ (usable values).length < values.length ∧
      ∃ time, t.toInt = .ok time ∧ (s.lastLabel? = some time →
        ∃ c x, (cells values).lookup c = some x ∧ (s.data.get c).getLast? ≠ some x)
  | _ => False

theorem upsert_after_of_runOn {r : Result Upserted} {u : Series} (h : (upsertValues t values).runOn s = (r, u)) :
    ((act (.upsert t values)).runOn s).1 = r.map (fun _ => ()) ∧ s.after (.upsert t values) = u := by
  have hact : (act (.upsert t values)).runOn s = (r.map fun _ => (), u) := by
    rw [act, Action.runOn_discard, h]
  rw [after, hact]
  exact ⟨rfl, rfl⟩

/-- What fails without a trace is atomic, and so is what does not fail. -/
theorem atomic_of_eq {call : Call} (h : s.after call = s) : s.Atomic call := fun _ _ => h

theorem atomic_of_ok {call : Call} {a : Unit} (h : ((act call).runOn s).1 = .ok a) : s.Atomic call := by
  intro e he
  rw [h] at he
  cases he

theorem replaceLast_self {xs : List Binary64} {x : Binary64} (h : xs.getLast? = some x) :
    replaceLast xs x = xs := by
  obtain ⟨ys, rfl⟩ := List.getLast?_eq_some_iff.mp h
  rw [replaceLast, if_neg (by simp), List.dropLast_concat]

theorem Aligned.putAll_replaceLast (h : s.Aligned) (values : List (Result Json)) :
    (putAll replaceLast s (cells values)).Aligned := by
  intro c
  rw [get_putAll _ (nodup_cells values), labels_putAll, ← h c]
  cases (cells values).lookup c with
  | none => rfl
  | some x => exact length_replaceLast _ _

theorem Aligned.putAll_append (h : s.Aligned) (hfull : (usable values).length = Channel.all.length) (time : Int) :
    (putAll (fun xs x => xs ++ [x]) { s with labels := s.labels ++ [time] } (cells values)).Aligned := by
  intro c
  obtain ⟨x, hx⟩ := exists_lookup_cells hfull c
  rw [get_putAll _ (nodup_cells values), labels_putAll, hx]
  simp only [Option.map_some, Option.getD_some, List.length_append, List.length_singleton, h c]

/-- A torn sample leaves curves that are not those from before. -/
theorem Tears.not_atomic (hs : s.Aligned) {call : Call} (h : s.Tears call) : ¬ s.Atomic call := by
  cases call with
  | upsert t values =>
    obtain ⟨hlen, hshort, time, ht, hlast⟩ := h
    obtain ⟨⟨e, hread⟩, -⟩ : (∃ e, numbersOf values = .error e) ∧ _ :=
      (numbersOf_cases values).resolve_left fun hall => by omega
    intro hatomic
    by_cases hl : s.lastLabel? = some time
    · obtain ⟨hfault, hafter⟩ := upsert_after_of_runOn (upsertValues_of_last hs hlen ht hl)
      obtain ⟨c, x, hx, hne⟩ := hlast hl
      have hsame : (s.after (.upsert t values)).data.get c = s.data.get c := by
        rw [hatomic e (by rw [hfault, hread]; rfl)]
      rw [hafter, get_putAll _ (nodup_cells values), hx] at hsame
      refine hne ?_
      rw [← hsame]
      exact getLast?_replaceLast x (hs.ne_nil (labels_ne_nil hl) c)
    · obtain ⟨hfault, hafter⟩ := upsert_after_of_runOn (upsertValues_of_new hlen ht hl)
      have hsame : (s.after (.upsert t values)).labels = s.labels := by
        rw [hatomic e (by rw [hfault, hread]; rfl)]
      rw [hafter, labels_putAll] at hsame
      simp at hsame
  | _ => cases h

theorem atomic_upsert (hs : s.Aligned) (h : ¬ s.Tears (.upsert t values)) :
    s.Atomic (.upsert t values) ∧ (s.after (.upsert t values)).Aligned := by
  by_cases hcount : values.length ≠ Channel.all.length
  · obtain ⟨-, hafter⟩ := upsert_after_of_runOn (upsertValues_of_count s t hcount)
    exact ⟨atomic_of_eq hafter, hafter.symm ▸ hs⟩
  have hlen : values.length = Channel.all.length := Decidable.not_not.mp hcount
  cases ht : t.toInt with
  | error e =>
    obtain ⟨-, hafter⟩ := upsert_after_of_runOn (upsertValues_of_no_time s hlen ht)
    exact ⟨atomic_of_eq hafter, hafter.symm ▸ hs⟩
  | ok time =>
    by_cases hl : s.lastLabel? = some time
    · obtain ⟨hfault, hafter⟩ := upsert_after_of_runOn (upsertValues_of_last hs hlen ht hl)
      refine ⟨?_, hafter ▸ hs.putAll_replaceLast values⟩
      rcases numbersOf_cases values with ⟨hread, -⟩ | ⟨-, hshort⟩
      · exact atomic_of_ok (by rw [hfault, hread]; rfl)
      · -- what was written in front of the unusable value was there before
        refine atomic_of_eq (hafter.trans (eq_of_parts (labels_putAll s _) fun c => ?_))
        rw [get_putAll _ (nodup_cells values)]
        cases hx : (cells values).lookup c with
        | none => rfl
        | some x =>
          refine replaceLast_self (Classical.byContradiction fun hne => h ?_)
          exact ⟨hlen, hshort, time, ht, fun _ => ⟨c, x, hx, hne⟩⟩
    · obtain ⟨hfault, hafter⟩ := upsert_after_of_runOn (upsertValues_of_new (s := s) hlen ht hl)
      rcases numbersOf_cases values with ⟨hread, hfull⟩ | ⟨-, hshort⟩
      · exact ⟨atomic_of_ok (by rw [hfault, hread]; rfl), hafter ▸ hs.putAll_append (hfull.trans hlen) time⟩
      · exact absurd ⟨hlen, hshort, time, ht, fun hlast => absurd hlast hl⟩ h

theorem Aligned.insertBreakAt (h : s.Aligned) (t : Json) : (s.insertBreakAt t).2.Aligned := by
  unfold Series.insertBreakAt
  split
  · exact h.insertBreak _
  · exact h

theorem Aligned.trimValues (h : s.Aligned) {now window : Json} {n : Nat} {u : Series}
    (hu : s.trimValues now window = .ok (n, u)) : u.Aligned := by
  obtain ⟨length, -, hu⟩ := exists_of_bind hu
  obtain ⟨now, -, hu⟩ := exists_of_bind hu
  obtain ⟨cutoff, -, hu⟩ := exists_of_bind hu
  cases hu
  intro c
  simp only [PerChannel.get_map, List.length_drop, h c]

/-- **One call.** A call is atomic and leaves one value of each channel for every label, unless it tears
the curves. -/
theorem atomic_iff (hs : s.Aligned) (call : Call) :
    (s.Atomic call ∧ (s.after call).Aligned) ↔ ¬ s.Tears call := by
  refine ⟨fun h htears => htears.not_atomic hs h.1, fun h => ?_⟩
  cases call with
  | upsert t values => exact atomic_upsert hs h
  | insertBreak t => exact ⟨atomic_of_ok (a := ()) rfl, hs.insertBreakAt t⟩
  | clear => exact ⟨atomic_of_ok (a := ()) rfl, .empty⟩
  | trim now window =>
    have hact : (act (.trim now window)).runOn s =
        match s.trimValues now window with
        | .ok (_, u) => (.ok (), u)
        | .error e => (.error e, s) := by
      simp only [act, Action.runOn_bind, Action.runOn_get, Action.runOn_liftM]
      cases s.trimValues now window <;> rfl
    cases hu : s.trimValues now window with
    | error e =>
      rw [hu] at hact
      have hafter : s.after (.trim now window) = s := congrArg Prod.snd hact
      exact ⟨atomic_of_eq hafter, hafter.symm ▸ hs⟩
    | ok r =>
      rw [hu] at hact
      have hafter : s.after (.trim now window) = r.2 := congrArg Prod.snd hact
      exact ⟨atomic_of_ok (congrArg Prod.fst hact), hafter.symm ▸ hs.trimValues hu⟩

/-- **Calls are atomic, but for torn samples.** In a run of calls on curves of one length, every call that
fails leaves the curves as they were and every call leaves them of one length, exactly when no
call of the run tears them. -/
theorem atomic_of_run (hs : s.Aligned) (calls : List Call) :
    Throughout (fun s call => s.Atomic call ∧ (s.after call).Aligned) s calls ↔
      Throughout (fun s call => ¬ s.Tears call) s calls := by
  induction calls generalizing s with
  | nil => exact ⟨fun _ => throughout_nil _ s, fun _ => throughout_nil _ s⟩
  | cons call calls ih =>
    rw [throughout_cons, throughout_cons, atomic_iff hs call]
    refine and_congr_right fun hcall => ih ?_
    exact ((atomic_iff hs call).mpr hcall).2

/-- One row. -/
def oneRow : Series := empty.append 1000 (.replicate 1)

/-- A row that has no first value, for the time of the last one, and a trim that has no time: both fail
and leave the curves as they were. -/
theorem atomic_of_mixed_calls :
    oneRow.Aligned ∧
    Throughout (fun s call => s.Atomic call ∧ (s.after call).Aligned) oneRow
      [.upsert (.int 1000) (.ok .null :: List.replicate 5 (.ok (.real 2))), .trim .null (.int 5),
        .upsert (.text "x") (List.replicate 6 (.ok (.real 2))), .insertBreak (.int 900), .clear] := by
  have hs : oneRow.Aligned := Aligned.empty.append
  refine ⟨hs, (atomic_of_run hs _).mpr ?_⟩
  simp only [throughout_cons]
  refine ⟨?_, id, ?_, id, id, throughout_nil _ _⟩
  · rintro ⟨-, -, time, ht, hlast⟩
    cases ht
    obtain ⟨c, x, hx, -⟩ := hlast rfl
    cases hx
  · rintro ⟨-, hshort, -⟩
    exact absurd hshort (by decide)

/-- Six values, of which the fourth is an integer. -/
def rowAround (i : Int) : List (Result Json) :=
  [.ok (.real 1), .ok (.real 1), .ok (.real 1), .ok (.int i), .ok (.real 1), .ok (.real 1)]

theorem usable_of_ok {j : Json} {x : Binary64} (h : j.toReal = .ok x) (rest : List (Result Json)) :
    usable (.ok j :: rest) = x :: usable rest := by
  simp only [usable, Except.bind, h]

theorem usable_of_error {j : Json} {e : Fault} (h : j.toReal = .error e) (rest : List (Result Json)) :
    usable (.ok j :: rest) = [] := by
  simp only [usable, Except.bind, h]

theorem toReal_real (x : Binary64) : (Json.real x).toReal = .ok x := rfl

/-- A value that is beyond the range fails after the label and three values were written. -/
theorem tears_rowAround {i : Int} {e : Fault} (h : (Arithmetic.ofInt? i : Result Binary64) = .error e) :
    empty.Tears (.upsert (.int 1000) (rowAround i)) := by
  have hreal : (Json.int i).toReal = .error e := h
  have husable : usable (rowAround i) = [1, 1, 1] := by
    rw [rowAround, usable_of_ok (toReal_real 1), usable_of_ok (toReal_real 1), usable_of_ok (toReal_real 1),
      usable_of_error hreal]
  refine ⟨rfl, ?_, 1000, rfl, fun hlast => absurd hlast (by simp)⟩
  rw [husable]
  exact (by decide : 3 < 6)

theorem not_atomic_of_run :
    ¬ ∀ (s : Series) (calls : List Call), s.Aligned →
      Throughout (fun s call => s.Atomic call ∧ (s.after call).Aligned) s calls := by
  intro h
  have hrun := h empty [.upsert (.int 1000) (rowAround (10 ^ 400 : Nat))] .empty
  rw [throughout_cons, atomic_iff .empty] at hrun
  exact hrun.1 (tears_rowAround (Binary64.ofInt?_ten_pow (k := 400) (by decide)))

end Series

end HashrateChart
