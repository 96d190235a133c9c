/-
Documents that are read back from their text.

A document is `Printable` when its integers have no more digits than are read,
its texts are of plain characters, its objects have each key once, and it nests
no deeper than is read. Undefined and infinite numbers have words of their own.
What follows a value is the end of the text or goes on with a list or an object,
so that no number runs into it.

Reading is by fuel; the length of the text of a value is enough for it.
-/
import HashrateChart.Json.Printer
import HashrateChart.Proofs.Json.Number

namespace HashrateChart

namespace Json

open Reader (Ends)

/-! ## Plain texts -/

/-- A character that stands for itself between quotes. -/
def PlainChar (c : Char) : Prop := 32 ≤ c.toNat ∧ c.toNat < 127 ∧ c ≠ '"' ∧ c ≠ '\\'

def PlainText (s : String) : Prop := ∀ c ∈ s.toList, PlainChar c

instance (c : Char) : Decidable (PlainChar c) :=
  inferInstanceAs (Decidable (32 ≤ c.toNat ∧ c.toNat < 127 ∧ c ≠ '"' ∧ c ≠ '\\'))

instance (s : String) : Decidable (PlainText s) :=
  List.decidableBAll PlainChar s.toList

theorem PlainChar.ne_of_toNat {c d : Char} (h : PlainChar c) (hd : d.toNat < 32 ∨ 127 ≤ d.toNat) :
    c ≠ d := by
  rintro rfl
  have := h.1
  have := h.2.1
  omega

theorem pieces_of_plain {cs : List Char} (h : ∀ c ∈ cs, PlainChar c) :
    Text.pieces cs = cs.map .char := by
  have hw : (cs.map Text.Piece.char).flatMap Text.Piece.written = cs := by
    induction cs with
    | nil => rfl
    | cons c cs ih =>
      have hc : c ≠ Text.mark := (h c List.mem_cons_self).ne_of_toNat (.inr (by decide))
      rw [List.map_cons, List.flatMap_cons, ih fun d hd => h d (List.mem_cons_of_mem _ hd),
        Text.Piece.written, if_neg hc]
      rfl
  have hp : Text.pieces ((cs.map Text.Piece.char).flatMap Text.Piece.written) = cs.map Text.Piece.char :=
    Text.pieces_written fun n hn => by simp at hn
  rwa [hw] at hp

theorem character_of_plain {c : Char} (h : PlainChar c) : Printer.character c = [c] := by
  have control {d : Char} (hd : d.toNat < 32) : c ≠ d := h.ne_of_toNat (.inl hd)
  rw [Printer.character, if_neg h.2.2.1, if_neg h.2.2.2, if_neg (control (by decide)),
    if_neg (control (by decide)), if_neg (control (by decide)), if_neg (control (by decide)),
    if_neg (control (by decide)), if_pos ⟨h.1, h.2.1⟩]

theorem text_of_plain {s : String} (h : PlainText s) : Printer.text s = '"' :: s.toList ++ ['"'] := by
  have hp : ∀ cs : List Char, (∀ c ∈ cs, PlainChar c) →
      (cs.map Text.Piece.char).flatMap Printer.piece = cs := by
    intro cs
    induction cs with
    | nil => exact fun _ => rfl
    | cons c cs ih =>
      intro h
      rw [List.map_cons, List.flatMap_cons, ih fun d hd => h d (List.mem_cons_of_mem _ hd)]
      exact congrArg (· ++ cs) (character_of_plain (h c List.mem_cons_self))
  rw [Printer.text, pieces_of_plain h, hp _ h]

namespace Reader

theorem characters?_plain {cs rest : List Char} {fuel : Nat} (h : ∀ c ∈ cs, PlainChar c)
    (hf : cs.length < fuel) : characters? fuel (cs ++ '"' :: rest) = some (cs, rest) := by
  induction cs generalizing fuel with
  | nil =>
    obtain ⟨fuel, rfl⟩ : ∃ k, fuel = k + 1 := ⟨fuel - 1, by simp only [List.length_nil] at hf; omega⟩
    rfl
  | cons c cs ih =>
    obtain ⟨fuel, rfl⟩ : ∃ k, fuel = k + 1 := ⟨fuel - 1, by omega⟩
    have hc := h c List.mem_cons_self
    have hrest : characters? fuel (cs ++ '"' :: rest) = some (cs, rest) :=
      ih (fun d hd => h d (List.mem_cons_of_mem _ hd)) (by simp only [List.length_cons] at hf; omega)
    rw [List.cons_append, characters?, if_neg (by have := hc.1; omega), hrest]
    · rfl
    · exact fun h => hc.2.2.1 h
    · exact fun h => hc.2.2.2 h

theorem text?_plain {s : String} {rest : List Char} (h : PlainText s) :
    text? (s.toList ++ '"' :: rest) = some (s, rest) := by
  rw [text?, characters?_plain h (by simp only [List.length_append, List.length_cons]; omega)]
  exact congrArg (fun t => some (t, rest)) (String.ofList_toList (s := s))

/-! ## Words and numbers -/

theorem word?_eq {ws cs rest : List Char} (h : word? ws cs = some rest) : cs = ws ++ rest := by
  induction ws generalizing cs with
  | nil => exact Option.some.inj h
  | cons w ws ih =>
    cases cs with
    | nil => cases h
    | cons c cs =>
      rw [word?] at h
      split at h
      · next hw => rw [hw, ih h]; rfl
      · cases h

/-- A number is no word. -/
theorem named?_of_number? {cs : List Char} {r : Number × List Char} (h : number? cs = some r) :
    named? cs = none := by
  unfold named?
  rw [List.findSome?_eq_none_iff]
  rintro ⟨w, j⟩ hw
  cases hr : word? w.toList cs with
  | none => exact congrArg (Option.map _) hr
  | some rest =>
    exfalso
    rw [word?_eq hr] at h
    simp only [words, List.mem_cons, List.not_mem_nil, or_false, Prod.mk.injEq] at hw
    rcases hw with ⟨rfl, -⟩ | ⟨rfl, -⟩ | ⟨rfl, -⟩ | ⟨rfl, -⟩ | ⟨rfl, -⟩ | ⟨rfl, -⟩ <;> cases h

theorem value_of_number? {cs rest : List Char} {n : Number} (h : number? cs = some (n, rest))
    (fuel room : Nat) : value (fuel + 1) room cs = .ok (.number n, rest) := by
  have hn := named?_of_number? h
  unfold value
  split
  · contradiction
  · cases h
  · cases h
  · cases h
  · next heq _ _ _ =>
    cases heq
    rw [hn, h]
    rfl

/-! ## Where a value starts -/

/-- No value starts with a blank, nor with the end of a list. -/
theorem value_of_no_start {c : Char} (h : isBlank c = true ∨ c = ']') (fuel room : Nat) (cs : List Char) :
    value fuel room (c :: cs) = .error .malformed := by
  have hc : c = ' ' ∨ c = '\t' ∨ c = '\n' ∨ c = '\r' ∨ c = ']' := by
    simpa [isBlank, or_assoc] using h
  cases fuel with
  | zero => rw [value]
  | succ fuel => rcases hc with rfl | rfl | rfl | rfl | rfl <;> rfl

theorem value_nil (fuel room : Nat) : value fuel room [] = .error .malformed := by
  cases fuel with
  | zero => rw [value]
  | succ fuel => rfl

/-- What starts as neither a list nor an object is none of them, and not too deep. -/
theorem value_of_scalar {c : Char} (hl : c ≠ '[') (ho : c ≠ '\x7b') (fuel room : Nat) (cs : List Char) :
    value fuel room (c :: cs) = .error .malformed ∨
      ∃ j rest, value fuel room (c :: cs) = .ok (j, rest) ∧ ∀ fields, j ≠ .object fields := by
  unfold value
  split
  · exact .inl rfl
  · next heq => cases heq; exact absurd rfl hl
  · next heq => cases heq; exact absurd rfl ho
  · next cs _ =>
    cases text? cs with
    | none => exact .inl rfl
    | some found => exact .inr ⟨.text found.1, found.2, rfl, nofun⟩
  · cases hn : named? (c :: cs) with
    | some found =>
      refine .inr ⟨found.1, found.2, rfl, ?_⟩
      obtain ⟨⟨w, j⟩, hw, hf⟩ := List.exists_of_findSome?_eq_some hn
      obtain ⟨rest, -, rfl⟩ := Option.map_eq_some_iff.mp hf
      have hwords : ∀ p ∈ words, ∀ fields, p.2 ≠ .object fields := by simp [words, real]
      exact hwords (w, j) hw
    | none =>
      cases number? (c :: cs) with
      | none => exact .inl rfl
      | some found => exact .inr ⟨.number found.1, found.2, rfl, nofun⟩

/-- From the front of its text and whatever follows it there, a value is read with a given room. -/
def ReadsBack (room : Nat) (j : Json) : Prop :=
  ∀ fuel rest, (Printer.value j).length ≤ fuel → Ends rest →
    value fuel room (Printer.value j ++ rest) = .ok (j, rest)

variable {room fuel : Nat} {j : Json} {rest : List Char}

theorem ends_nil : Ends [] := fun _ h => by cases h

/-- The text of a value starts where the value does. -/
theorem ReadsBack.starts (h : ReadsBack room j) :
    ∃ c cs, Printer.value j = c :: cs ∧ isBlank c = false ∧ c ≠ ']' := by
  have hread := h _ [] (Nat.le_refl _) ends_nil
  rw [List.append_nil] at hread
  cases hv : Printer.value j with
  | nil => rw [hv, value_nil] at hread; cases hread
  | cons c cs =>
    rw [hv] at hread
    refine ⟨c, cs, rfl, ?_, ?_⟩
    · refine Bool.eq_false_iff.mpr fun hc => ?_
      rw [value_of_no_start (.inl hc)] at hread
      cases hread
    · intro hc
      rw [value_of_no_start (.inr hc)] at hread
      cases hread

theorem ReadsBack.skip (h : ReadsBack room j) (rest : List Char) :
    skip (Printer.value j ++ rest) = Printer.value j ++ rest := by
  obtain ⟨c, cs, hv, hb, -⟩ := h.starts
  rw [hv]
  exact List.dropWhile_cons_of_neg (by rw [hb]; exact Bool.false_ne_true)

theorem skip_blank (cs : List Char) : skip (' ' :: cs) = skip cs := rfl

/-! ## Lists -/

theorem items_cons_cons (x y : Json) (xs : List Json) :
    Printer.items (x :: y :: xs) = Printer.value x ++ ',' :: ' ' :: Printer.items (y :: xs) := by
  rw [Printer.items]

theorem exists_items_eq (x : Json) (xs : List Json) :
    ∃ cs, Printer.items (x :: xs) = Printer.value x ++ cs := by
  cases xs with
  | nil => exact ⟨[], by rw [Printer.items, List.append_nil]⟩
  | cons y xs => exact ⟨_, items_cons_cons x y xs⟩

/-- The items of a list are skipped to where they start. -/
theorem skip_items {x : Json} (hx : ReadsBack room x) (xs : List Json) (rest : List Char) :
    skip (Printer.items (x :: xs) ++ rest) = Printer.items (x :: xs) ++ rest := by
  obtain ⟨cs, hcs⟩ := exists_items_eq x xs
  rw [hcs, List.append_assoc, hx.skip]

theorem ends_cons {c : Char} (h : c = ',' ∨ c = ']' ∨ c = '\x7d') (cs : List Char) : Ends (c :: cs) :=
  fun _ hd => by cases hd; exact h

theorem items_readsBack {x : Json} {xs : List Json} (h : ∀ y ∈ x :: xs, ReadsBack room y)
    (hf : (Printer.items (x :: xs)).length < fuel) :
    items fuel room (Printer.items (x :: xs) ++ ']' :: rest) = .ok (x :: xs, rest) := by
  induction xs generalizing x fuel with
  | nil =>
    obtain ⟨fuel, rfl⟩ : ∃ k, fuel = k + 1 := ⟨fuel - 1, by omega⟩
    rw [Printer.items] at hf ⊢
    rw [items, h x List.mem_cons_self fuel _ (by omega) (ends_cons (.inr (.inl rfl)) rest)]
    rfl
  | cons y xs ih =>
    obtain ⟨fuel, rfl⟩ : ∃ k, fuel = k + 1 := ⟨fuel - 1, by omega⟩
    have hy : ∀ z ∈ y :: xs, ReadsBack room z := fun z hz => h z (List.mem_cons_of_mem _ hz)
    have hlen := congrArg List.length (items_cons_cons x y xs)
    simp only [List.length_append, List.length_cons] at hlen
    rw [items_cons_cons, List.append_assoc, List.cons_append, List.cons_append, items,
      h x List.mem_cons_self fuel _ (by omega) (ends_cons (.inl rfl) _)]
    show (items fuel room (skip _) >>= fun found => .ok (x :: found.1, found.2)) = _
    rw [skip_blank, skip_items (hy y List.mem_cons_self), ih hy (by omega)]
    rfl

theorem within_bind {α : Type} (room : Nat) (f : Nat → Except Flaw α) :
    (within (room + 1) >>= f) = f room := rfl

/-- A list that does not end where it opens. -/
theorem value_list {c : Char} {cs ds : List Char} {xs : List Json} (hs : skip cs = c :: ds)
    (hc : c ≠ ']') (hi : items fuel room (c :: ds) = .ok (xs, rest)) :
    value (fuel + 1) (room + 1) ('[' :: cs) = .ok (.list xs, rest) := by
  rw [value, within_bind, hs]
  split
  · next heq => cases heq; exact absurd rfl hc
  · rw [hi]; rfl

theorem readsBack_list {xs : List Json} (h : ∀ x ∈ xs, ReadsBack room x) :
    ReadsBack (room + 1) (.list xs) := by
  intro fuel rest hf _
  have htext : Printer.value (.list xs) ++ rest = '[' :: (Printer.items xs ++ ']' :: rest) := by
    simp [Printer.value]
  have hlen := congrArg List.length htext
  simp only [List.length_append, List.length_cons] at hlen
  obtain ⟨fuel, rfl⟩ : ∃ k, fuel = k + 1 := ⟨fuel - 1, by omega⟩
  rw [htext]
  cases xs with
  | nil => rfl
  | cons x xs =>
    have hx := h x List.mem_cons_self
    obtain ⟨c, cs, hc, -, hne⟩ := hx.starts
    obtain ⟨ds, hds⟩ := exists_items_eq x xs
    have hstart : Printer.items (x :: xs) ++ ']' :: rest = c :: (cs ++ ds ++ ']' :: rest) := by
      rw [hds, hc]; rfl
    have hread : items fuel room (c :: (cs ++ ds ++ ']' :: rest)) = .ok (x :: xs, rest) := by
      rw [← hstart]
      exact items_readsBack h (by omega)
    exact value_list (by rw [skip_items hx, hstart]) hne hread

/-! ## Objects -/

theorem insert_of_new {β : Type} {key : String} {fields : Fields β} (v : β)
    (h : key ∉ fields.map Prod.fst) : Fields.insert key v fields = fields ++ [(key, v)] := by
  induction fields with
  | nil => rfl
  | cons p fields ih =>
    obtain ⟨k, w⟩ := p
    simp only [List.map_cons, List.mem_cons, not_or] at h
    rw [Fields.insert, if_neg (Ne.symm h.1), ih h.2]
    rfl

theorem fields_cons_cons (k : String) (x : Json) (f : String × Json) (fs : List (String × Json)) :
    Printer.fields ((k, x) :: f :: fs) =
      Printer.text k ++ ':' :: ' ' :: Printer.value x ++ ',' :: ' ' :: Printer.fields (f :: fs) := by
  rw [Printer.fields]

/-- A field that is read, up to what follows its value. -/
theorem fields_of_value {k : String} {x : Json} (before : List (String × Json)) (hk : PlainText k)
    (hx : ReadsBack room x) (hf : (Printer.value x).length ≤ fuel) (he : Ends rest) :
    fields (fuel + 1) room before (Printer.text k ++ ':' :: ' ' :: Printer.value x ++ rest) =
      match skip rest with
      | '\x7d' :: rest => .ok (Fields.insert k x before, rest)
      | ',' :: rest => fields fuel room (Fields.insert k x before) (skip rest)
      | _ => .error .malformed := by
  have htext : Printer.text k ++ ':' :: ' ' :: Printer.value x ++ rest =
      '"' :: (k.toList ++ '"' :: (':' :: ' ' :: (Printer.value x ++ rest))) := by
    rw [text_of_plain hk]; simp
  have hread : value fuel room (skip (' ' :: (Printer.value x ++ rest))) = .ok (x, rest) := by
    rw [skip_blank, hx.skip, hx _ _ hf he]
  rw [htext, fields, text?_plain hk]
  show (value fuel room (skip (' ' :: (Printer.value x ++ rest))) >>= _) = _
  rw [hread]
  rfl

/-- Fields as they are printed: keys of plain characters, each once. -/
structure Distinct (before fs : List (String × Json)) : Prop where
  plain : ∀ k ∈ fs.map Prod.fst, PlainText k
  nodup : ((before ++ fs).map Prod.fst).Nodup

theorem Distinct.of_keys {fs : List (String × Json)} (keys : List String)
    (h : fs.map Prod.fst = keys) (hp : ∀ k ∈ keys, PlainText k) (hn : keys.Nodup) : Distinct [] fs := by
  subst h
  exact ⟨hp, hn⟩

theorem Distinct.insert {before fs : List (String × Json)} {k : String} {x : Json}
    (h : Distinct before ((k, x) :: fs)) :
    Fields.insert k x before = before ++ [(k, x)] ∧ Distinct (before ++ [(k, x)]) fs := by
  have hn := h.nodup
  rw [List.map_append, List.nodup_append] at hn
  refine ⟨insert_of_new x fun hk => ?_, fun f hf => h.plain f (List.mem_cons_of_mem _ hf), ?_⟩
  · exact hn.2.2 k hk k (by simp) rfl
  · rw [List.append_assoc]
    exact h.nodup

/-- Fields are skipped to where they start. -/
theorem skip_fields (f : String × Json) (fs : List (String × Json)) (rest : List Char) :
    skip (Printer.fields (f :: fs) ++ rest) = Printer.fields (f :: fs) ++ rest := by
  obtain ⟨k, x⟩ := f
  cases fs <;> rfl

theorem fields_readsBack {before : List (String × Json)} {f : String × Json}
    {fs : List (String × Json)} (hd : Distinct before (f :: fs)) (h : ∀ g ∈ f :: fs, ReadsBack room g.2)
    (hf : (Printer.fields (f :: fs)).length < fuel) :
    fields fuel room before (Printer.fields (f :: fs) ++ '\x7d' :: rest) =
      .ok (before ++ f :: fs, rest) := by
  induction fs generalizing before f fuel with
  | nil =>
    obtain ⟨k, x⟩ := f
    have hk : PlainText k := hd.plain _ List.mem_cons_self
    have hx : ReadsBack room x := h _ List.mem_cons_self
    obtain ⟨fuel, rfl⟩ : ∃ n, fuel = n + 1 := ⟨fuel - 1, by omega⟩
    rw [Printer.fields] at hf ⊢
    simp only [List.length_append, List.length_cons] at hf
    rw [fields_of_value before hk hx (by omega) (ends_cons (.inr (.inr rfl)) rest), ← hd.insert.1]
    rfl
  | cons g fs ih =>
    obtain ⟨k, x⟩ := f
    have hk : PlainText k := hd.plain _ List.mem_cons_self
    have hx : ReadsBack room x := h _ List.mem_cons_self
    obtain ⟨fuel, rfl⟩ : ∃ n, fuel = n + 1 := ⟨fuel - 1, by omega⟩
    obtain ⟨hinsert, hrest⟩ := hd.insert
    have hlen := congrArg List.length (fields_cons_cons k x g fs)
    simp only [List.length_append, List.length_cons] at hlen
    rw [fields_cons_cons, List.append_assoc, List.cons_append, List.cons_append,
      fields_of_value before hk hx (by omega) (ends_cons (.inl rfl) _)]
    show fields fuel room (Fields.insert k x before) (skip (' ' :: _)) = _
    rw [skip_blank, skip_fields, hinsert,
      ih hrest (fun y hy => h y (List.mem_cons_of_mem _ hy)) (by omega), List.append_assoc]
    rfl

/-- An object that does not end where it opens. -/
theorem value_object {c : Char} {cs ds : List Char} {fs : List (String × Json)} (hs : skip cs = c :: ds)
    (hc : c ≠ '\x7d') (hi : fields fuel room [] (c :: ds) = .ok (fs, rest)) :
    value (fuel + 1) (room + 1) ('\x7b' :: cs) = .ok (.object fs, rest) := by
  rw [value, within_bind, hs]
  split
  · next heq => cases heq; exact absurd rfl hc
  · rw [hi]; rfl

theorem readsBack_object {fs : List (String × Json)} (hd : Distinct [] fs)
    (h : ∀ f ∈ fs, ReadsBack room f.2) : ReadsBack (room + 1) (.object fs) := by
  intro fuel rest hf _
  have htext : Printer.value (.object fs) ++ rest =
      '\x7b' :: (Printer.fields fs ++ '\x7d' :: rest) := by
    simp [Printer.value]
  have hlen := congrArg List.length htext
  simp only [List.length_append, List.length_cons] at hlen
  obtain ⟨fuel, rfl⟩ : ∃ k, fuel = k + 1 := ⟨fuel - 1, by omega⟩
  rw [htext]
  cases fs with
  | nil => rfl
  | cons f fs =>
    have hread : fields fuel room [] (Printer.fields (f :: fs) ++ '\x7d' :: rest) = .ok (f :: fs, rest) :=
      fields_readsBack hd h (by omega)
    have hskip := skip_fields f fs ('\x7d' :: rest)
    obtain ⟨ds, hds⟩ : ∃ ds, Printer.fields (f :: fs) ++ '\x7d' :: rest = '"' :: ds := by
      obtain ⟨k, x⟩ := f
      cases fs <;> exact ⟨_, rfl⟩
    rw [hds] at hread hskip ⊢
    exact value_object hskip (by decide) hread

/-! ## Values -/

theorem readsBack_word {w : String} (h : (w, j) ∈ words) (hv : Printer.value j = w.toList) :
    ReadsBack room j := by
  intro fuel rest hf _
  rw [hv] at hf ⊢
  simp only [words, List.mem_cons, List.not_mem_nil, or_false, Prod.mk.injEq] at h
  cases fuel with
  | zero =>
    rcases h with ⟨rfl, -⟩ | ⟨rfl, -⟩ | ⟨rfl, -⟩ | ⟨rfl, -⟩ | ⟨rfl, -⟩ | ⟨rfl, -⟩ <;> cases hf
  | succ fuel =>
    rcases h with ⟨rfl, rfl⟩ | ⟨rfl, rfl⟩ | ⟨rfl, rfl⟩ | ⟨rfl, rfl⟩ | ⟨rfl, rfl⟩ | ⟨rfl, rfl⟩ <;>
      rfl

theorem readsBack_number {n : Number}
    (h : ∀ rest, Ends rest → number? ((Printer.number n).toList ++ rest) = some (n, rest)) :
    ReadsBack room (.number n) := by
  intro fuel rest hf he
  rw [Printer.value] at hf ⊢
  cases fuel with
  | zero =>
    have hn := h [] ends_nil
    rw [List.length_eq_zero_iff.mp (Nat.le_zero.mp hf)] at hn
    cases hn
  | succ fuel => exact value_of_number? (h rest he) fuel room

theorem readsBack_real (x : Binary64) : ReadsBack room (.number (.real x)) := by
  match x with
  | .nan => exact readsBack_word (w := "NaN") (by simp [words, real]) rfl
  | .infinite false => exact readsBack_word (w := "Infinity") (by simp [words, real]) rfl
  | .infinite true => exact readsBack_word (w := "-Infinity") (by simp [words, real]) rfl
  | .finite s m => exact readsBack_number fun rest he => number?_shortestText Decimal.stored rfl he

theorem readsBack_text {s : String} (h : PlainText s) : ReadsBack room (.text s) := by
  intro fuel rest hf _
  rw [Printer.value, text_of_plain h] at hf ⊢
  cases fuel with
  | zero => simp at hf
  | succ fuel =>
    have htext : '"' :: s.toList ++ ['"'] ++ rest = '"' :: (s.toList ++ '"' :: rest) := by simp
    rw [htext, value, text?_plain h]
    rfl

end Reader

/-- A document that is read back, by how deep it may nest. -/
inductive Printable : Nat → Json → Prop
  | null {room : Nat} : Printable room .null
  | bool {room : Nat} (b : Bool) : Printable room (.bool b)
  | int {room : Nat} {i : Int} (h : (Decimal.digits i.natAbs).length ≤ Decimal.maxIntDigits) :
    Printable room (.number (.int i))
  | real {room : Nat} (x : Binary64) : Printable room (.number (.real x))
  | text {room : Nat} {s : String} (h : PlainText s) : Printable room (.text s)
  | list {room : Nat} {xs : List Json} (h : ∀ x ∈ xs, Printable room x) : Printable (room + 1) (.list xs)
  | object {room : Nat} {fs : List (String × Json)} (hd : Reader.Distinct [] fs)
    (h : ∀ f ∈ fs, Printable room f.2) : Printable (room + 1) (.object fs)

theorem Printable.readsBack {room : Nat} {j : Json} (h : Printable room j) :
    Reader.ReadsBack room j := by
  induction h with
  | null => exact Reader.readsBack_word (w := "null") (by simp [Reader.words]) rfl
  | bool b =>
    cases b with
    | false => exact Reader.readsBack_word (w := "false") (by simp [Reader.words]) rfl
    | true => exact Reader.readsBack_word (w := "true") (by simp [Reader.words]) rfl
  | int h => exact Reader.readsBack_number fun rest he => Reader.number?_int h he
  | real x => exact Reader.readsBack_real x
  | text h => exact Reader.readsBack_text h
  | list _ ih => exact Reader.readsBack_list ih
  | object hd _ ih => exact Reader.readsBack_object hd ih

/-- **What is printed is read back.** -/
theorem parse_print {j : Json} (h : Printable Reader.deepest j) : parse j.print = .ok j := by
  have hread := h.readsBack ((Printer.value j).length + 1) [] (Nat.le_succ _) Reader.ends_nil
  have hskip := h.readsBack.skip []
  rw [List.append_nil] at hread hskip
  unfold parse print
  dsimp only
  rw [String.toList_ofList, hskip, hread]
  rfl

/-- A text that starts as neither a list nor an object holds none of them, and is not too deep. -/
theorem parse_of_scalar {s : String} {c : Char} {cs : List Char} (h : s.toList = c :: cs)
    (hb : Reader.isBlank c = false) (hl : c ≠ '[') (ho : c ≠ '\x7b') :
    parse s = .error .malformed ∨ ∃ j, parse s = .ok j ∧ ∀ fields, j ≠ .object fields := by
  have hskip : Reader.skip (c :: cs) = c :: cs :=
    List.dropWhile_cons_of_neg (by rw [hb]; exact Bool.false_ne_true)
  unfold parse
  dsimp only
  rw [h, hskip]
  rcases Reader.value_of_scalar hl ho ((c :: cs).length + 1) Reader.deepest cs with hv | ⟨j, rest, hv, hj⟩
  · rw [hv]
    exact .inl rfl
  · rw [hv]
    simp only [bind, Except.bind]
    split
    · exact .inr ⟨j, rfl, hj⟩
    · exact .inl rfl

end Json

end HashrateChart
