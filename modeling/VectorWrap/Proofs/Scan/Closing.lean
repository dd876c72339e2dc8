import VectorWrap.Proofs.Scan.Written
import VectorWrap.Proofs.Text.Level

/-!
# Closing parentheses

A scanner finds the parenthesis that closes a text by counting the open ones: it is the first before
which all others are matched (`closing?_eq_some_iff`).  A reading of groups comes to a stop there,
or at the end of the text if no parenthesis closes it (`closeEnd`), and a parenthesised text is what
stands before a stop at a parenthesis (`parenthesised_eq`).

`closeRest` is the scanner without what it has read.  One lemma for each kind of character says how
it goes on (`closeRest_open`, `closeRest_close_succ`, `closeRest_char`), and from these come the
laws for several parentheses (`closeRest_add`) and for a text in two parts (`closeRest_append`),
which the grammar's groups are compared with.
-/

namespace VectorWrap

namespace Scan
open Text

/-! ### Closing parentheses -/

/-- A character that does not close the text is before the one that does. -/
theorem closing?_cons {d : Nat} {c : Char} (hc : ¬ (c = ')' ∧ d = 0)) (s : Text) :
    closing? d (c :: s) = (closing? (depthBehind d c) s).map fun p => (c :: p.1, p.2) := by
  by_cases ho : c = '('
  · simp [closing?, depthBehind, ho]
  by_cases hclose : c = ')'
  · obtain ⟨k, rfl⟩ := Nat.exists_eq_succ_of_ne_zero fun h => hc ⟨hclose, h⟩
    simp [closing?, depthBehind, hclose]
  · simp [closing?, depthBehind, ho, hclose]

/-- **The closing parenthesis** is the first one before which all others are matched. -/
theorem closing?_eq_some_iff {d : Nat} {s a r : Text} : closing? d s = some (a, r) ↔
    s = a ++ ')' :: r ∧ Enclosed ')' d a ∧ (d : Int) + level a = 0 := by
  induction s generalizing d a with
  | nil => simp [closing?]
  | cons c s ih =>
    by_cases hc : c = ')' ∧ d = 0
    · obtain ⟨rfl, rfl⟩ := hc
      constructor
      · rintro ⟨⟩
        exact ⟨rfl, trivial, by simp⟩
      · rintro ⟨hs, enclosed, -⟩
        cases a with
        | nil =>
          cases hs
          rfl
        | cons x a =>
          obtain ⟨rfl, -⟩ := List.cons_eq_cons.mp hs
          exact absurd ⟨rfl, rfl⟩ enclosed.1
    · have depth := cast_depthBehind hc
      rw [closing?_cons hc, Option.map_eq_some_iff]
      constructor
      · rintro ⟨⟨b, t⟩, h, e⟩
        cases e
        obtain ⟨rfl, enclosed, hl⟩ := ih.mp h
        refine ⟨rfl, ⟨by simpa using hc, depth ▸ enclosed⟩, ?_⟩
        rw [level_cons, ← add_assoc, ← depth, hl]
      · rintro ⟨hs, enclosed, hl⟩
        cases a with
        | nil =>
          obtain ⟨rfl, -⟩ := List.cons_eq_cons.mp hs
          exact absurd ⟨rfl, by simpa using hl⟩ hc
        | cons x a =>
          obtain ⟨rfl, rfl⟩ := List.cons_eq_cons.mp hs
          rw [level_cons, ← add_assoc, ← depth] at hl
          exact ⟨(a, r), ih.mpr ⟨rfl, depth ▸ enclosed.2, hl⟩, rfl⟩

/-! ### What follows a closing parenthesis -/

/-- What follows the parenthesis that closes one opened before the text, `depth` more being open. -/
def closeRest (depth : Nat) (s : Text) : Option Text :=
  (closing? depth s).map Prod.snd

variable {d : Nat} {s : Text}

@[simp]
theorem closeRest_open : closeRest d ('(' :: s) = closeRest (d + 1) s := by
  simp [closeRest, closing?, Function.comp_def]

@[simp]
theorem closeRest_close_zero : closeRest 0 (')' :: s) = some s := rfl

@[simp]
theorem closeRest_close_succ : closeRest (d + 1) (')' :: s) = closeRest d s := by
  simp [closeRest, closing?, Function.comp_def]

theorem closeRest_char {c : Char} (ho : c ≠ '(') (hc : c ≠ ')') :
    closeRest d (c :: s) = closeRest d s := by
  simp [closeRest, closing?, ho, hc, Function.comp_def]

/-- An inner group is closed before the outer one. -/
theorem closeRest_add (k d : Nat) (s : Text) :
    closeRest (k + 1 + d) s = (closeRest k s).bind (closeRest d) := by
  induction s generalizing k with
  | nil => rfl
  | cons c s ih =>
    by_cases ho : c = '('
    · subst ho
      rw [closeRest_open, closeRest_open, ← ih, Nat.add_right_comm, Nat.add_right_comm k 1 1]
    · by_cases hc : c = ')'
      · subst hc
        cases k with
        | zero => rw [Nat.zero_add, Nat.add_comm, closeRest_close_succ]; rfl
        | succ k =>
          rw [closeRest_close_succ, ← ih, Nat.add_right_comm (k + 1), closeRest_close_succ,
            Nat.add_right_comm]
      · rw [closeRest_char ho hc, closeRest_char ho hc, ih]

theorem closeRest_succ (d : Nat) (s : Text) :
    closeRest (d + 1) s = (closeRest 0 s).bind (closeRest d) := by
  rw [← closeRest_add, Nat.zero_add, Nat.add_comm]

/-- Text without parentheses has no part in it. -/
theorem closeRest_append {u : Text} (ho : '(' ∉ u) (hc : ')' ∉ u) :
    closeRest d (u ++ s) = closeRest d s := by
  induction u with
  | nil => rfl
  | cons c u ih =>
    obtain ⟨ho, ho'⟩ : '(' ≠ c ∧ '(' ∉ u := by simpa using ho
    obtain ⟨hc, hc'⟩ : ')' ≠ c ∧ ')' ∉ u := by simpa using hc
    rw [List.cons_append, closeRest_char ho.symm hc.symm, ih ho' hc']

/-- A run without parentheses may be dropped. -/
theorem closeRest_dropWhile {p : Char → Bool} (ho : p '(' = false) (hc : p ')' = false) (d : Nat)
    (s : Text) : closeRest d (s.dropWhile p) = closeRest d s := by
  conv_rhs => rw [← List.takeWhile_append_dropWhile (p := p) (l := s)]
  refine (closeRest_append (fun h => ?_) (fun h => ?_)).symm
  · have := List.mem_takeWhile_imp h
    rw [ho] at this
    cases this
  · have := List.mem_takeWhile_imp h
    rw [hc] at this
    cases this

theorem length_closeRest {r : Text} (h : closeRest d s = some r) : r.length < s.length := by
  obtain ⟨⟨a, r⟩, hs, rfl⟩ := Option.map_eq_some_iff.mp h
  exact (closed_closing d).shrinks hs

/-- Where a reading of groups comes to a stop. -/
def closeEnd (s : Text) : Text :=
  match closeRest 0 s with
  | some r => ')' :: r
  | none => []

/-- Reads groups and characters up to where a reading of groups comes to a stop. -/
def groups : Scan Text := fun s => some (Text.upTo s (closeEnd s), closeEnd s)

/-- The stop of a text that is closed is its parenthesis. -/
theorem closeEnd_of_closing? {s a r : Text} (h : closing? 0 s = some (a, r)) :
    closeEnd s = ')' :: r := by
  rw [closeEnd, closeRest, h]
  rfl

/-- A parenthesised text is what stands up to the place where its groups come to a stop, if a
closing parenthesis stands there. -/
theorem parenthesised_eq : parenthesised = (do
    symbol "("
    layout
    let inner ← groups
    symbol ")"
    pure inner) := by
  have inside : ∀ s : Text, closing? 0 s = (do
      let inner ← groups
      symbol ")"
      pure inner : Scan Text) s := by
    intro s
    have read : groups s = some (Text.upTo s (closeEnd s), closeEnd s) := rfl
    rw [bind_of_some read]
    cases h : closing? 0 s with
    | none =>
      have stop : closeEnd s = [] := by
        rw [closeEnd, closeRest, h]
        rfl
      rw [stop]
      rfl
    | some v =>
      obtain ⟨a, r⟩ := v
      have close : symbol ")" (')' :: r) = some ((), r) := symbol_eq_some.mpr rfl
      have whole : s = a ++ ')' :: r := closing?_eq h
      rw [closeEnd_of_closing? h, bind_of_some close, whole, Text.upTo_append_self]
      rfl
  funext s
  exact congrArg (fun p : Scan Text => (do symbol "("; layout; p : Scan Text) s) (funext inside)

end Scan

end VectorWrap
