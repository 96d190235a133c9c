/-
Running an action step by step: what each of its parts gives and leaves.

`Action.Keeps` says that an action leaves a view of the state as it is, also
when it fails half-way, `Action.Preserves` that it leaves a property of the
state true, and `Action.SeesOnly` that nothing but a view of the state decides
what it gives and what it leaves of the view. All go through sequences, so what
a long action does follows from what its parts do.
-/
import HashrateChart.Fault

namespace HashrateChart

theorem ok_of_toOption {α : Type} {r : Result α} {a : α} (h : r.toOption = some a) : r = .ok a := by
  cases r with
  | error e => cases h
  | ok x => exact congrArg Except.ok (Option.some.inj h)

theorem bind_of_ok {α β : Type} {r : Result α} {a : α} (h : r = .ok a) (f : α → Result β) :
    (r >>= f) = f a := by
  rw [h]
  rfl

/-- What a sequence gives without a fault, its parts give one after the other. -/
theorem exists_of_bind {α β : Type} {r : Result α} {f : α → Result β} {b : β} (h : (r >>= f) = .ok b) :
    ∃ a, r = .ok a ∧ f a = .ok b := by
  cases r with
  | error e => cases h
  | ok a => exact ⟨a, rfl, h⟩

theorem bind_congr_of_ok {α β : Type} {r : Result α} {f g : α → Result β}
    (h : ∀ a, r = .ok a → f a = g a) : (r >>= f) = (r >>= g) := by
  cases r with
  | error e => rfl
  | ok a => exact h a rfl

/-! ## Lists without a fault -/

/-- A list that is gone through without a fault gives one result for each item. -/
theorem map_of_mapM {α β : Type} {f : α → Result β} {xs : List α} {ys : List β} (h : xs.mapM f = .ok ys) :
    xs.map f = ys.map .ok := by
  induction xs generalizing ys with
  | nil =>
    cases h
    rfl
  | cons x xs ih =>
    simp only [List.mapM_cons, bind, Except.bind] at h
    split at h
    · cases h
    · next y hy =>
      split at h
      · cases h
      · next zs hzs =>
        cases h
        rw [List.map_cons, List.map_cons, hy, ih hzs]

theorem length_of_mapM {α β : Type} {f : α → Result β} {xs : List α} {ys : List β}
    (h : xs.mapM f = .ok ys) : ys.length = xs.length := by
  have hlen := congrArg List.length (map_of_mapM h)
  rw [List.length_map, List.length_map] at hlen
  exact hlen.symm

theorem getElem?_of_mapM {α β : Type} {f : α → Result β} {xs : List α} {ys : List β}
    (h : xs.mapM f = .ok ys) {k : Nat} {y : β} (hy : ys[k]? = some y) :
    ∃ x, xs[k]? = some x ∧ f x = .ok y := by
  have hget := congrArg (·[k]?) (map_of_mapM h)
  simp only [List.getElem?_map, hy, Option.map_some] at hget
  exact Option.map_eq_some_iff.mp hget

theorem mapM_of_map {α β : Type} {f : α → Result β} {xs : List α} {ys : List β}
    (h : xs.map f = ys.map .ok) : xs.mapM f = .ok ys := by
  induction xs generalizing ys with
  | nil =>
    obtain rfl := List.map_eq_nil_iff.mp h.symm
    rfl
  | cons x xs ih =>
    obtain ⟨y, zs, rfl, hy, hzs⟩ := List.map_eq_cons_iff.mp h.symm
    rw [List.mapM_cons, ← hy, ih hzs.symm]
    rfl

theorem mapM_drop {α β : Type} {f : α → Result β} {xs : List α} {ys : List β} (h : xs.mapM f = .ok ys)
    (n : Nat) : (xs.drop n).mapM f = .ok (ys.drop n) :=
  mapM_of_map (by rw [List.map_drop, map_of_mapM h, List.map_drop])

namespace Action

variable {σ α β γ : Type}

theorem runOn_bind (act : Action σ α) (f : α → Action σ β) (s : σ) :
    (act >>= f).runOn s =
      match act.runOn s with
      | (.ok a, t) => (f a).runOn t
      | (.error e, t) => (.error e, t) := by
  simp only [runOn, ExceptT.run_bind, StateT.run_bind]
  rcases (ExceptT.run act).run s with ⟨_ | _, t⟩ <;> rfl

@[simp] theorem runOn_map (f : α → β) (act : Action σ α) (s : σ) :
    (f <$> act).runOn s = ((act.runOn s).1.map f, (act.runOn s).2) := by
  simp only [runOn, ExceptT.run_map, StateT.run_map]
  rcases (ExceptT.run act).run s with ⟨_ | _, t⟩ <;> rfl

@[simp] theorem runOn_discard (act : Action σ α) (s : σ) :
    (discard act).runOn s = ((act.runOn s).1.map fun _ => (), (act.runOn s).2) := runOn_map _ act s

@[simp] theorem runOn_get (s : σ) : (get : Action σ σ).runOn s = (.ok s, s) := rfl

@[simp] theorem runOn_set (s t : σ) : (set t : Action σ PUnit).runOn s = (.ok ⟨⟩, t) := rfl

@[simp] theorem runOn_modify (f : σ → σ) (s : σ) :
    (modify f : Action σ Unit).runOn s = (.ok (), f s) := rfl

@[simp] theorem runOn_modifyGet (f : σ → α × σ) (s : σ) :
    (modifyGet f : Action σ α).runOn s = (.ok (f s).1, (f s).2) := rfl

@[simp] theorem runOn_liftM (r : Result α) (s : σ) :
    (liftM (m := Except Fault) r : Action σ α).runOn s = (r, s) := by
  cases r <;> rfl

/-- What a sequence gives without failing, its parts give one after the other. -/
theorem exists_of_runOn_bind {act : Action σ α} {f : α → Action σ β} {s t : σ} {b : β}
    (h : (act >>= f).runOn s = (.ok b, t)) :
    ∃ a u, act.runOn s = (.ok a, u) ∧ (f a).runOn u = (.ok b, t) := by
  rw [runOn_bind] at h
  split at h
  · next a u he => exact ⟨a, u, he, h⟩
  · cases h

theorem exists_of_runOn_liftM_bind {r : Result α} {f : α → Action σ β} {s t : σ} {b : β}
    (h : (liftM (m := Except Fault) r >>= f).runOn s = (.ok b, t)) :
    ∃ a, r = .ok a ∧ (f a).runOn s = (.ok b, t) := by
  rw [runOn_bind, runOn_liftM] at h
  cases r with
  | error e => cases h
  | ok a => exact ⟨a, rfl, h⟩

/-! ## Results -/

/-- Whatever the action gives has a property. -/
def Gives (Q : α → Prop) (act : Action σ α) : Prop := ∀ s a, (act.runOn s).1 = .ok a → Q a

theorem Gives.pure {Q : α → Prop} {a : α} (h : Q a) : Gives Q (pure a : Action σ α) := fun _ _ ha => by
  cases ha
  exact h

/-- What a sequence gives comes from its last part. -/
theorem Gives.bind {Q : β → Prop} {act : Action σ α} {f : α → Action σ β} (h : ∀ a, Gives Q (f a)) :
    Gives Q (act >>= f) := by
  intro s b hb
  obtain ⟨a, t, -, ht⟩ := exists_of_runOn_bind (Prod.ext hb rfl : _ = (Except.ok b, _))
  exact h a t b (congrArg Prod.fst ht)

theorem Gives.map {Q : β → Prop} {act : Action σ α} (f : α → β) (h : Gives (fun a => Q (f a)) act) :
    Gives Q (f <$> act) := by
  intro s b hb
  rw [runOn_map] at hb
  cases ha : (act.runOn s).1 with
  | error e =>
    rw [ha] at hb
    cases hb
  | ok a =>
    rw [ha] at hb
    cases hb
    exact h s a ha

/-! ## Frames -/

/-- The action leaves the view of the state as it is, whether or not it fails. -/
def Keeps (view : σ → γ) (act : Action σ α) : Prop := ∀ s, view (act.runOn s).2 = view s

variable {view : σ → γ}

theorem Keeps.eq_of_runOn {act : Action σ α} {s t : σ} {r : Result α} (h : Keeps view act)
    (hr : act.runOn s = (r, t)) : view t = view s := by
  have hs := h s
  rwa [hr] at hs

theorem Keeps.pure (a : α) : Keeps view (pure a : Action σ α) := fun _ => rfl

theorem Keeps.get : Keeps view (get : Action σ σ) := fun _ => rfl

theorem Keeps.liftM (r : Result α) : Keeps view (liftM (m := Except Fault) r : Action σ α) := by
  intro s; rw [runOn_liftM]

theorem Keeps.modify {f : σ → σ} (h : ∀ s, view (f s) = view s) :
    Keeps view (modify f : Action σ Unit) := h

theorem Keeps.map {act : Action σ α} (f : α → β) (h : Keeps view act) : Keeps view (f <$> act) := by
  intro s; rw [runOn_map]; exact h s

theorem Keeps.discard {act : Action σ α} (h : Keeps view act) : Keeps view (discard act) := h.map _

theorem Keeps.bind {act : Action σ α} {f : α → Action σ β} (h : Keeps view act)
    (hf : ∀ a, Keeps view (f a)) : Keeps view (act >>= f) := by
  intro s
  rw [runOn_bind]
  have ha := h s
  split
  · next a t he => rw [he] at ha; exact (hf a t).trans ha
  · next e t he => rw [he] at ha; exact ha

/-! ## Invariants -/

/-- The action leaves a state with the property in such a state, whether or not it fails. -/
def Preserves (I : σ → Prop) (act : Action σ α) : Prop := ∀ s, I s → I (act.runOn s).2

variable {I : σ → Prop}

theorem Preserves.of_runOn {act : Action σ α} {s t : σ} {r : Result α} (h : Preserves I act)
    (hr : act.runOn s = (r, t)) (hs : I s) : I t := by
  have ht := h s hs
  rwa [hr] at ht

/-- An action leaves a view as it is when it leaves each value of the view as it is. -/
theorem keeps_of_preserves {act : Action σ α} (h : ∀ c, Preserves (fun s => view s = c) act) :
    Keeps view act := fun s => h (view s) s rfl

theorem Keeps.preserves {act : Action σ α} (h : Keeps view act) (c : γ) :
    Preserves (fun s => view s = c) act := fun s hs => (h s).trans hs

theorem Preserves.pure (a : α) : Preserves I (pure a : Action σ α) := fun _ h => h

theorem Preserves.throw (e : Fault) : Preserves I (throw e : Action σ α) := fun _ h => h

theorem Preserves.modify {f : σ → σ} (h : ∀ s, I s → I (f s)) :
    Preserves I (modify f : Action σ Unit) := h

theorem Preserves.map {act : Action σ α} (f : α → β) (h : Preserves I act) : Preserves I (f <$> act) := by
  intro s hs
  rw [runOn_map]
  exact h s hs

theorem Preserves.bind {act : Action σ α} {f : α → Action σ β} (h : Preserves I act)
    (hf : ∀ a, Preserves I (f a)) : Preserves I (act >>= f) := by
  intro s hs
  rw [runOn_bind]
  have ht := h s hs
  split
  · next a t he =>
    rw [he] at ht
    exact hf a t ht
  · next e t he =>
    rw [he] at ht
    exact ht

/-- What follows a look at the state may rely on the property of what was seen. -/
theorem Preserves.get_bind {f : σ → Action σ β} (h : ∀ s, I s → Preserves I (f s)) :
    Preserves I (get >>= f) := by
  intro s hs
  rw [runOn_bind, runOn_get]
  exact h s hs s hs

/-- What follows a result may rely on where it comes from. -/
theorem Preserves.liftM_bind {r : Result α} {f : α → Action σ β} (h : ∀ a, r = .ok a → Preserves I (f a)) :
    Preserves I (liftM (m := Except Fault) r >>= f) := by
  intro s hs
  rw [runOn_bind, runOn_liftM]
  cases r with
  | error e => exact hs
  | ok a => exact h a rfl s hs

/-! ## Views that are enough -/

/-- Two states of the same view give the same result, and the same view after it. -/
def SeesOnly (view : σ → γ) (act : Action σ α) : Prop :=
  ∀ s t, view s = view t →
    (act.runOn s).1 = (act.runOn t).1 ∧ view (act.runOn s).2 = view (act.runOn t).2

theorem SeesOnly.pure (a : α) : SeesOnly view (pure a : Action σ α) := fun _ _ h => ⟨rfl, h⟩

theorem SeesOnly.throw (e : Fault) : SeesOnly view (throw e : Action σ α) := fun _ _ h => ⟨rfl, h⟩

theorem SeesOnly.liftM (r : Result α) : SeesOnly view (liftM (m := Except Fault) r : Action σ α) := by
  intro s t h
  rw [runOn_liftM, runOn_liftM]
  exact ⟨rfl, h⟩

theorem SeesOnly.modify {f : σ → σ} (h : ∀ s t, view s = view t → view (f s) = view (f t)) :
    SeesOnly view (modify f : Action σ Unit) := fun s t hv => ⟨rfl, h s t hv⟩

theorem SeesOnly.map {act : Action σ α} (f : α → β) (h : SeesOnly view act) : SeesOnly view (f <$> act) := by
  intro s t hv
  obtain ⟨hr, hs⟩ := h s t hv
  rw [runOn_map, runOn_map]
  exact ⟨congrArg (Except.map f) hr, hs⟩

theorem SeesOnly.bind {act : Action σ α} {f : α → Action σ β} (h : SeesOnly view act)
    (hf : ∀ a, SeesOnly view (f a)) : SeesOnly view (act >>= f) := by
  intro s t hv
  obtain ⟨hr, hs⟩ := h s t hv
  rw [runOn_bind, runOn_bind]
  rcases he : act.runOn s with ⟨e | a, s'⟩ <;> rcases he' : act.runOn t with ⟨e' | a', t'⟩ <;>
    rw [he, he'] at hr hs <;> cases hr
  · exact ⟨rfl, hs⟩
  · exact hf a s' t' hs

/-- What follows a look at the state sees only the view when the look goes no further. -/
theorem SeesOnly.get_bind {f : σ → Action σ β} (h : ∀ s t, view s = view t → f s = f t)
    (hf : ∀ s, SeesOnly view (f s)) : SeesOnly view (get >>= f) := by
  intro s t hv
  rw [runOn_bind, runOn_bind, runOn_get, runOn_get]
  dsimp only
  rw [h s t hv]
  exact hf t s t hv

end Action

end HashrateChart
