import VectorWrap.Proofs.Scan.Lookahead

/-!
# Sweeping a composed text

A sweep drops layout, then reads an item, a gap or one character.  A text that consists of layout
and of complete pieces, which the item reads to their ends whatever follows, is swept in the same
way wherever it stands at the front: what follows it is added to the rests of its items, and then
swept on its own (`sweep_append`).

The steps are stated apart (`sweep_layout`, `sweep_item`, `sweep_gap`, `sweep_char`), for a text
that begins with the character that decides.  Proofs about a sweep go by induction on the length of
the text and use one of the four at each place.
-/

namespace VectorWrap

namespace Text

theorem byteLength_append (s t : Text) : byteLength (s ++ t) = byteLength s + byteLength t := by
  induction s with
  | nil => simp [byteLength]
  | cons c s ih => simp only [List.cons_append, byteLength, ih, Nat.add_assoc]

theorem byteLength_le_of_suffix {s t : Text} (h : s <:+ t) : byteLength s ≤ byteLength t := by
  obtain ⟨w, rfl⟩ := h
  rw [byteLength_append]
  exact Nat.le_add_left _ _

end Text

namespace Found

variable {α : Type}

/-- The same thing found where `t` follows the text. -/
def extend (t : Text) (f : Found α) : Found α :=
  ⟨f.value, f.here ++ t, f.rest ++ t⟩

@[simp]
theorem value_extend (t : Text) (f : Found α) : (f.extend t).value = f.value := rfl

@[simp]
theorem text_extend (t : Text) (f : Found α) : (f.extend t).text = f.text :=
  Text.upTo_append _ _ _

@[simp]
theorem span_extend (t : Text) (f : Found α) (file : Option Nat) (s : Text) :
    (f.extend t).span file (s ++ t) = f.span file s := by
  simp only [span, extend, Span.between, Text.byteLength_append, Nat.add_sub_add_right]

end Found

namespace Scan

variable {α : Type} {item : Scan α} {gap : Scan Unit}

/-! ### Steps of a sweep -/

/-- Nothing is found in layout. -/
theorem sweep_of_nil {s : Text} (h : s.dropWhile Text.isLayout = []) : sweep item gap s = [] := by
  rw [sweep.eq_def]
  split <;> rename_i e
  · rfl
  · rw [h] at e
    cases e

/-- The step of a sweep, behind layout. -/
theorem sweep_of_cons {c : Char} {s r : Text} (h : s.dropWhile Text.isLayout = c :: r) :
    sweep item gap s =
      match progress item (c :: r) with
      | some (a, ⟨rest, _⟩) => ⟨a, c :: r, rest⟩ :: sweep item gap rest
      | none =>
          match progress gap (c :: r) with
          | some (_, ⟨rest, _⟩) => sweep item gap rest
          | none => sweep item gap r := by
  rw [sweep.eq_def]
  split <;> rename_i e
  · rw [h] at e
    cases e
  · rw [h] at e
    cases e
    rfl

@[simp]
theorem sweep_nil : sweep item gap [] = [] :=
  sweep_of_nil rfl

/-- Only what follows the layout at the front matters. -/
theorem sweep_congr {s s' : Text} (h : s.dropWhile Text.isLayout = s'.dropWhile Text.isLayout) :
    sweep item gap s = sweep item gap s' := by
  cases e : s.dropWhile Text.isLayout with
  | nil => rw [sweep_of_nil e, sweep_of_nil (h.symm.trans e)]
  | cons c r => rw [sweep_of_cons e, sweep_of_cons (h.symm.trans e)]

theorem sweep_layout {c : Char} (hc : Text.isLayout c = true) (s : Text) :
    sweep item gap (c :: s) = sweep item gap s :=
  sweep_congr (List.dropWhile_cons_of_pos hc)

/-- An item that is read is found, and the sweep goes on behind it. -/
theorem sweep_item {c : Char} {s r : Text} {a : α} (hc : Text.isLayout c = false)
    (h : item (c :: s) = some (a, r)) (hr : r.length < (c :: s).length) :
    sweep item gap (c :: s) = ⟨a, c :: s, r⟩ :: sweep item gap r := by
  rw [sweep_of_cons (List.dropWhile_cons_of_neg (by simp [hc])),
    (progress_eq_some hr).mpr h]

/-- A gap that is read is passed. -/
theorem sweep_gap {c : Char} {s r : Text} {u : Unit} (hc : Text.isLayout c = false)
    (hi : item (c :: s) = none) (h : gap (c :: s) = some (u, r))
    (hr : r.length < (c :: s).length) :
    sweep item gap (c :: s) = sweep item gap r := by
  rw [sweep_of_cons (List.dropWhile_cons_of_neg (by simp [hc])), progress_of_none hi,
    (progress_eq_some hr).mpr h]

/-- Where neither reads anything one character is passed over. -/
theorem sweep_char {c : Char} {s : Text} (hc : Text.isLayout c = false)
    (hi : item (c :: s) = none) (hg : gap (c :: s) = none) :
    sweep item gap (c :: s) = sweep item gap s := by
  rw [sweep_of_cons (List.dropWhile_cons_of_neg (by simp [hc])), progress_of_none hi,
    progress_of_none hg]

/-- What is found is what the item reads where it is found. -/
theorem item_of_mem_sweep {s : Text} {f : Found α} (h : f ∈ sweep item gap s) :
    item f.here = some (f.value, f.rest) := by
  fun_induction sweep item gap s with
  | case1 => cases h
  | case2 s c r _ a rest hr hp ih =>
    rcases List.mem_cons.mp h with rfl | h
    · exact (progress_eq_some _).mp hp
    · exact ih h
  | case3 _ _ _ _ _ _ _ _ _ ih => exact ih h
  | case4 _ _ _ _ _ _ ih => exact ih h

/-! ### Composed texts -/

/-- A text of layout and of complete pieces. -/
inductive Composed (complete : Text → Prop) : Text → Prop where
  | nil : Composed complete []
  | layout {c : Char} {s : Text} (hc : Text.isLayout c = true) (hs : Composed complete s) :
      Composed complete (c :: s)
  | piece {c : Char} {w s : Text} (hc : Text.isLayout c = false) (hw : complete (c :: w))
      (hs : Composed complete s) : Composed complete (c :: w ++ s)

/-- **What stands after a composed text has no part in how that text is swept.** -/
theorem sweep_append {complete : Text → Prop}
    (hc : ∀ {w}, complete w → ∃ a, ∀ t, item (w ++ t) = some (a, t)) {s : Text}
    (hs : Composed complete s) (t : Text) :
    sweep item gap (s ++ t) = (sweep item gap s).map (Found.extend t) ++ sweep item gap t := by
  induction hs with
  | nil => simp
  | layout hl _ ih => rw [List.cons_append, sweep_layout hl, sweep_layout hl, ih]
  | @piece c w s hl hw _ ih =>
    obtain ⟨a, ha⟩ := hc hw
    have h₁ : sweep item gap (c :: w ++ s) = ⟨a, c :: w ++ s, s⟩ :: sweep item gap s :=
      sweep_item hl (ha s) (Text.length_lt_cons_append c w s)
    have h₂ : sweep item gap (c :: w ++ (s ++ t)) =
        ⟨a, c :: w ++ (s ++ t), s ++ t⟩ :: sweep item gap (s ++ t) :=
      sweep_item hl (ha (s ++ t)) (Text.length_lt_cons_append c w (s ++ t))
    rw [List.append_assoc, h₁, h₂, ih]
    simp [Found.extend]

end Scan

end VectorWrap
