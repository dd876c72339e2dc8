import Mathlib.Algebra.BigOperators.Group.List.Basic
import Mathlib.Algebra.Ring.Int.Defs
import VectorWrap.Text.Split

/-!
# Open parentheses

The count of open parentheses is signed: a surplus `)` makes it negative.  A character is looked for
where the count is zero, and a text is passed over in which it stands nowhere so (`Enclosed`);
otherwise the text is divided at the first place (`exists_of_not_enclosed`).

Three readings count in this way: the splitting of a list at its commas, the search for a default,
and the search for the parenthesis that closes an argument list.  They begin at some depth and stop
at another mark, so all lemmas have the depth as a parameter, and an append adds what the first part
has opened (`level_append`, `enclosed_append`).
-/

namespace VectorWrap.Text

/-! ### Levels -/

/-- How many more parentheses a text opens than it closes. -/
def level (s : Text) : Int :=
  (s.map nesting).sum

@[simp]
theorem level_nil : level [] = 0 :=
  rfl

@[simp]
theorem level_cons (c : Char) (s : Text) : level (c :: s) = nesting c + level s :=
  List.sum_cons

theorem level_append (s t : Text) : level (s ++ t) = level s + level t := by
  simp [level]

/-- How many parentheses are open behind a character, which closes one if there is one. -/
def depthBehind (depth : Nat) (c : Char) : Nat :=
  if c = '(' then depth + 1 else if c = ')' then depth - 1 else depth

/-- Short of a parenthesis that closes the text the depth is the signed count. -/
theorem cast_depthBehind {d : Nat} {c : Char} (h : ¬ (c = ')' ∧ d = 0)) :
    (depthBehind d c : Int) = d + nesting c := by
  unfold depthBehind nesting
  split_ifs with ho hc
  · simp
  · have open_before : d ≠ 0 := fun hd => h ⟨hc, hd⟩
    omega
  · simp

/-- One parenthesis more is open behind a character if one more was open before it. -/
theorem depthBehind_succ {d : Nat} {c : Char} (h : ¬ (c = ')' ∧ d = 0)) :
    depthBehind (d + 1) c = depthBehind d c + 1 := by
  unfold depthBehind
  split_ifs with ho hc
  · rfl
  · have open_before : d ≠ 0 := fun hd => h ⟨hc, hd⟩
    omega
  · rfl

/-! ### Characters at level zero -/

/-- No `c` of the text stands where no parenthesis is open; `depth` are open before the text. -/
def Enclosed (c : Char) (depth : Int) : Text → Prop
  | [] => True
  | d :: s => ¬ (d = c ∧ depth = 0) ∧ Enclosed c (depth + nesting d) s

instance decidableEnclosed (c : Char) : ∀ (depth : Int) (s : Text), Decidable (Enclosed c depth s)
  | _, [] => .isTrue trivial
  | depth, d :: s =>
      have := decidableEnclosed c (depth + nesting d) s
      inferInstanceAs (Decidable (¬ (d = c ∧ depth = 0) ∧ Enclosed c (depth + nesting d) s))

/-- A character that is not in a text is nowhere at depth zero. -/
theorem enclosed_of_not_mem {c : Char} {s : Text} (h : c ∉ s) (depth : Int) :
    Enclosed c depth s := by
  induction s generalizing depth with
  | nil => trivial
  | cons d s ih =>
    obtain ⟨hd, hs⟩ : c ≠ d ∧ c ∉ s := by simpa using h
    exact ⟨fun hc => hd hc.1.symm, ih hs _⟩

/-- A text is divided at the first of the characters that stand at level zero. -/
theorem exists_of_not_enclosed {c : Char} {depth : Int} {s : Text} (h : ¬ Enclosed c depth s) :
    ∃ u v, s = u ++ c :: v ∧ depth + level u = 0 ∧ Enclosed c depth u := by
  induction s generalizing depth with
  | nil => exact absurd trivial h
  | cons d s ih =>
    by_cases hd : d = c ∧ depth = 0
    · exact ⟨[], s, by rw [hd.1]; rfl, by simp [hd.2], trivial⟩
    · obtain ⟨u, v, rfl, hu, enclosed⟩ := ih fun hs => h ⟨hd, hs⟩
      exact ⟨d :: u, v, rfl, by rw [level_cons, ← add_assoc, hu], hd, enclosed⟩

/-! ### Matched parentheses -/

/-- Each parenthesis that the text closes is one that it has opened, and it closes all of them. -/
def Matched (s : Text) : Prop :=
  Enclosed ')' 0 s ∧ level s = 0

instance : DecidablePred Matched := fun s =>
  inferInstanceAs (Decidable (Enclosed ')' 0 s ∧ level s = 0))

/-- A text in two parts is passed over if the first is and, behind that, the second is. -/
theorem enclosed_append {c : Char} {depth : Int} {s t : Text} :
    Enclosed c depth (s ++ t) ↔ Enclosed c depth s ∧ Enclosed c (depth + level s) t := by
  induction s generalizing depth with
  | nil => simp [Enclosed]
  | cons d s ih =>
    rw [List.cons_append, Enclosed, Enclosed, ih, level_cons, ← add_assoc, and_assoc]

/-- A matched text is passed over. -/
theorem matched_append {s t : Text} (h : Matched s) : Matched (s ++ t) ↔ Matched t := by
  rw [Matched, Matched, enclosed_append, level_append, h.2]
  simp [h.1]

/-- A text without parentheses has them matched. -/
theorem matched_of_plain {s : Text} (h : ∀ c ∈ s, nesting c = 0) : Matched s := by
  refine ⟨enclosed_of_not_mem (fun hm => ?_) 0, ?_⟩
  · cases h _ hm
  · exact List.sum_eq_zero fun n hn => by
      obtain ⟨c, hc, rfl⟩ := List.mem_map.mp hn
      exact h c hc

/-- Other characters may be left out. -/
theorem matched_filter {α : Type} {p : α → Bool} {f : α → Char} {l : List α}
    (h : ∀ x ∈ l, p x = false → nesting (f x) = 0) :
    Matched ((l.filter p).map f) ↔ Matched (l.map f) := by
  suffices same : ∀ depth,
      (Enclosed ')' depth ((l.filter p).map f) ↔ Enclosed ')' depth (l.map f)) ∧
        level ((l.filter p).map f) = level (l.map f) by
    rw [Matched, Matched, (same 0).1, (same 0).2]
  induction l with
  | nil => exact fun _ => ⟨Iff.rfl, rfl⟩
  | cons x l ih =>
    obtain ⟨hx, hl⟩ := List.forall_mem_cons.mp h
    intro depth
    cases hp : p x with
    | true =>
      obtain ⟨enclosed, level⟩ := ih hl (depth + nesting (f x))
      rw [List.filter_cons_of_pos hp, List.map_cons, List.map_cons, Enclosed, Enclosed, enclosed,
        level_cons, level_cons, level]
      exact ⟨Iff.rfl, rfl⟩
    | false =>
      have plain := hx hp
      have other : f x ≠ ')' := by
        intro e
        rw [e] at plain
        cases plain
      obtain ⟨enclosed, level⟩ := ih hl depth
      rw [List.filter_cons_of_neg (by simp [hp]), List.map_cons, Enclosed, enclosed, level_cons,
        level, plain, add_zero, zero_add]
      simp [other]

end VectorWrap.Text
