import VectorWrap.Proofs.Declaration.Grammar
import VectorWrap.Proofs.Grammar.Groups

/-!
# Groups and values in the grammar of scripts

The value of a property goes on over groups up to a comma or a parenthesis that closes one opened
before it.  The grammar reads it up to there (`ends_valueTurn`), or, where it has no end, up to a
place from where no parenthesis is closed.

The scanner counts parentheses and the grammar calls its rule for groups; the two are related by
what is left (`ValueStop`), which has a case for a value that ends and one for a value that never
does.  In the second case all that can be said of what the grammar leaves is that no parenthesis is
closed there, and this is enough for what comes after it.
-/

namespace VectorWrap

/-- The rule for groups in a script. -/
theorem Statement.isGroup : Statement.grammar.IsGroup .parenGroup :=
  ⟨rfl, rfl⟩

namespace Scan

/-! ### Values of properties -/

/-- The first comma or closing parenthesis at top level, `depth` parentheses being open. -/
def valueRest (depth : Nat) (s : Text) : Option Text :=
  (Statement.valueEnd? depth s).map Prod.snd

variable {d : Nat} {s : Text}

/-- A value ends before a comma and before a parenthesis that was not opened in it. -/
theorem valueRest_stop {c : Char} (h : c = ',' ∨ c = ')') :
    valueRest 0 (c :: s) = some (c :: s) := by
  rw [valueRest, Statement.valueEnd?, if_pos ⟨rfl, h⟩]
  rfl

@[simp]
theorem valueRest_open : valueRest d ('(' :: s) = valueRest (d + 1) s := by
  simp [valueRest, Statement.valueEnd?, Function.comp_def]

@[simp]
theorem valueRest_close : valueRest (d + 1) (')' :: s) = valueRest d s := by
  simp [valueRest, Statement.valueEnd?, Function.comp_def]

/-- Any other character belongs to the value. -/
theorem valueRest_char {c : Char} (ho : c ≠ '(') (hc : c ≠ ')') (h : c ≠ ',' ∨ d ≠ 0) :
    valueRest d (c :: s) = valueRest d s := by
  have stop : ¬ (d = 0 ∧ (c = ',' ∨ c = ')')) := by
    rintro ⟨hd, hs | hs⟩
    · exact h.elim (absurd hs) (absurd hd)
    · exact hc hs
  rw [valueRest, Statement.valueEnd?, if_neg stop]
  simp [valueRest, ho, hc, Function.comp_def]

/-- A group is passed over. -/
theorem valueRest_succ (d : Nat) (s : Text) :
    valueRest (d + 1) s = (closeRest d s).bind (valueRest 0) := by
  induction s generalizing d with
  | nil => rfl
  | cons c s ih =>
    by_cases ho : c = '('
    · subst ho
      rw [valueRest_open, closeRest_open, ih]
    · by_cases hc : c = ')'
      · subst hc
        cases d with
        | zero => rw [valueRest_close, closeRest_close_zero]; rfl
        | succ d => rw [valueRest_close, closeRest_close_succ, ih]
      · rw [valueRest_char ho hc (.inr (Nat.succ_ne_zero d)), closeRest_char ho hc, ih]

/-- No parenthesis opened before a value is closed in it. -/
theorem closeRest_of_valueRest {r : Text} (h : valueRest d s = some r) :
    closeRest d s = closeRest 0 r := by
  induction s generalizing d with
  | nil => cases h
  | cons c s ih =>
    by_cases ho : c = '('
    · subst ho
      rw [valueRest_open] at h
      rw [closeRest_open, ih h]
    · by_cases hc : c = ')'
      · subst hc
        cases d with
        | zero =>
          rw [valueRest_stop (.inr rfl)] at h
          cases h
          rfl
        | succ d =>
          rw [valueRest_close] at h
          rw [closeRest_close_succ, ih h]
      · by_cases hstop : c = ',' ∧ d = 0
        · obtain ⟨rfl, rfl⟩ := hstop
          rw [valueRest_stop (.inl rfl)] at h
          cases h
          rfl
        · rw [valueRest_char ho hc (by tauto)] at h
          rw [closeRest_char ho hc, ih h]

/-- No parenthesis opened before the text is closed in it. -/
def Unclosed (s : Text) : Prop :=
  closeRest 0 s = none

/-- Where a reading of a value may come to a stop. -/
def ValueStop (s z : Text) : Prop :=
  match valueRest 0 s with
  | some r => z = r
  | none => Unclosed z

/-- Where no parenthesis is closed in a text, none is in what a value leaves of it. -/
theorem ValueStop.unclosed {z : Text} (h : ValueStop s z) (hs : Unclosed s) : Unclosed z := by
  unfold ValueStop at h
  split at h
  · next r hr =>
    subst h
    exact (closeRest_of_valueRest hr).symm.trans hs
  · exact h

end Scan

namespace Statement
open Scan Rule

/-- A group in a value, or a character that does not end it. -/
def valueTurn : Peg Rule :=
  .oneOf [.rule .parenGroup, .inOrder [.absent (.oneOf [.text ",", .text ")"]), .any]]

theorem readsOne_value : ReadsOne grammar true
    (.inOrder [.absent (.oneOf [.text ",", .text ")"]), .any]) (fun c => c != ',' && c != ')') :=
  ((Detects.char ',').alt (.char ')')).readsOne (by simp [bne])

/-- **A value is read up to its end.**  One that has none is read up to a place from where no
parenthesis is closed. -/
theorem ends_valueTurn (s : Text) :
    Ends grammar true valueTurn s none ∧ ValueStop s s ∨
      ∃ r, Ends grammar true valueTurn s (some r) ∧ r.length < s.length ∧
        ∀ z, ValueStop r z → ValueStop s z := by
  have one := readsOne_value s rfl
  cases s with
  | nil => exact .inl ⟨(isGroup.ends_none rfl).alt_right one, rfl⟩
  | cons c s =>
    by_cases ho : c = '('
    · subst ho
      have group : Ends grammar true (.rule .parenGroup) ('(' :: s) (closeRest 0 s) :=
        isGroup.ends s
      have value : valueRest 0 ('(' :: s) = (closeRest 0 s).bind (valueRest 0) := by
        rw [valueRest_open, valueRest_succ]
      cases hr : closeRest 0 s with
      | some r =>
        rw [hr] at group value
        refine .inr ⟨r, group.alt_left, (length_closeRest hr).trans (Nat.lt_succ_self _), ?_⟩
        intro z hz
        rw [ValueStop, value]
        exact hz
      | none =>
        rw [hr] at group value
        refine .inr ⟨s, group.alt_right one, Nat.lt_succ_self _, ?_⟩
        intro z hz
        rw [ValueStop, value]
        exact hz.unclosed hr
    · have none : Ends grammar true (.rule .parenGroup) (c :: s) none :=
        isGroup.ends_none (if_neg (Ne.symm ho))
      by_cases hc : c = ',' ∨ c = ')'
      · rw [Scan.one, if_neg (by rcases hc with rfl | rfl <;> decide)] at one
        refine .inl ⟨none.alt_right one, ?_⟩
        rw [ValueStop, valueRest_stop hc]
      · obtain ⟨hcomma, hclose⟩ := not_or.mp hc
        rw [Scan.one, if_pos (by simp [hcomma, hclose])] at one
        refine .inr ⟨s, none.alt_right one, Nat.lt_succ_self _, fun z hz => ?_⟩
        rw [ValueStop, valueRest_char ho hclose (.inl hcomma)]
        exact hz

end Statement

end VectorWrap
