import VectorWrap.Proofs.Text.Words

/-!
# Squeezed texts

A squeezed text has the words of a text with one space between each two.  What is no blank stands in
it where it stands in the text: between the same characters, but for the blanks
(`exists_of_squeeze`).

The words of a text and their joining by spaces are inverse to each other (`words_joinWith`), so a
squeezed text is a fixed point (`squeeze_squeeze`).  The neighbours of a character are compared up
to blanks, since a run of them is one space or nothing afterwards; this is what keeps a run of a
name whole on both sides.
-/

namespace VectorWrap.Text

/-! ### Words -/

theorem words_blank {c : Char} (hc : isBlank c = true) (s : Text) : words (c :: s) = words s := by
  simp [words, splitBy, hc]

theorem words_of_not_blank {w : Text} (hw : w ≠ []) (h : ∀ c ∈ w, isBlank c = false) :
    words w = [w] := by
  rw [words, splitBy_of_none h]
  simp [hw]

theorem words_append {w : Text} {c : Char} (hw : w ≠ []) (h : ∀ c ∈ w, isBlank c = false)
    (hc : isBlank c = true) (s : Text) : words (w ++ c :: s) = w :: words s := by
  rw [words, splitBy_append h hc]
  simp [words, hw]

/-- Blanks alone have no words. -/
theorem words_of_blank {s : Text} (h : ∀ c ∈ s, isBlank c = true) : words s = [] := by
  induction s with
  | nil => rfl
  | cons c s ih =>
    obtain ⟨hc, hs⟩ := List.forall_mem_cons.mp h
    rw [words_blank hc, ih hs]

/-- Blanks behind a text add no word. -/
theorem words_append_blanks {b : Text} (hb : ∀ c ∈ b, isBlank c = true) (s : Text) :
    words (s ++ b) = words s := by
  cases b with
  | nil => rw [List.append_nil]
  | cons c b =>
    obtain ⟨hc, hb⟩ := List.forall_mem_cons.mp hb
    rw [words, splitBy_append_sep hc, List.filter_append, ← words, ← words, words_of_blank hb,
      List.append_nil]

/-- Blanks before a text add no word. -/
theorem words_blanks_append {a : Text} (ha : ∀ c ∈ a, isBlank c = true) (s : Text) :
    words (a ++ s) = words s := by
  induction a with
  | nil => rfl
  | cons c a ih =>
    obtain ⟨hc, ha⟩ := List.forall_mem_cons.mp ha
    rw [List.cons_append, words_blank hc, ih ha]

/-- Blanks around a text are no part of its words. -/
theorem words_trim (s : Text) : words (trim s) = words s := by
  obtain ⟨a, b, hs, ha, hb⟩ := exists_trim s
  conv_rhs => rw [hs, words_append_blanks hb, words_blanks_append ha]

/-- A text is a run without blanks, or such a run goes on with a blank. -/
theorem exists_run (s : Text) : ∃ w : Text, (∀ c ∈ w, isBlank c = false) ∧
    (s = w ∨ ∃ c r, s = w ++ c :: r ∧ isBlank c = true) := by
  simpa using exists_run_of (!isBlank ·) s

/-! ### Squeezing -/

/-- A word is squeezed already. -/
theorem squeeze_word {w : Text} (h : ∀ c ∈ w, isBlank c = false) : squeeze w = w := by
  cases w with
  | nil => rfl
  | cons c w =>
    rw [squeeze, words_of_not_blank (by simp) h]
    simp

theorem squeeze_blank {c : Char} (hc : isBlank c = true) (s : Text) :
    squeeze (c :: s) = squeeze s := by
  rw [squeeze, words_blank hc, squeeze]

/-- Blanks at the end of a text are not in the squeezed text. -/
theorem squeeze_append_blanks {b : Text} (hb : ∀ c ∈ b, isBlank c = true) (s : Text) :
    squeeze (s ++ b) = squeeze s := by
  rw [squeeze, words_append_blanks hb, squeeze]

/-- After a word comes a space, unless it is the last. -/
theorem squeeze_append {w : Text} {c : Char} (hw : w ≠ []) (h : ∀ c ∈ w, isBlank c = false)
    (hc : isBlank c = true) (s : Text) :
    squeeze (w ++ c :: s) = w ∨ squeeze (w ++ c :: s) = w ++ ' ' :: squeeze s := by
  rw [squeeze, words_append hw h hc, squeeze]
  cases words s with
  | nil => exact .inl (by simp)
  | cons x xs => exact .inr rfl

/-- The character that stands next to a place, unless it is a blank. -/
def neighbour (c? : Option Char) : Option Char :=
  c?.filter (!isBlank ·)

theorem neighbour_blank {c : Char} (h : isBlank c = true) : neighbour (some c) = none := by
  simp [neighbour, h]

/-- A blank in front does not change the neighbour at the end. -/
theorem neighbour_getLast?_cons {c : Char} (hc : isBlank c = true) (u : Text) :
    neighbour (c :: u).getLast? = neighbour u.getLast? := by
  cases u with
  | nil => exact neighbour_blank hc
  | cons d u => rw [List.getLast?_cons_cons]

/-- Blanks before a text change no neighbour. -/
theorem neighbour_getLast?_append {p : Text} (hp : ∀ c ∈ p, isBlank c = true) (u : Text) :
    neighbour (p ++ u).getLast? = neighbour u.getLast? := by
  induction p with
  | nil => rfl
  | cons c p ih =>
    obtain ⟨hc, hp⟩ := List.forall_mem_cons.mp hp
    rw [List.cons_append, neighbour_getLast?_cons hc, ih hp]

/-- A character of a squeezed text that is no blank stands in the text, next to the same characters
but for blanks. -/
theorem exists_of_squeeze {t u v : Text} {c : Char} (h : squeeze t = u ++ c :: v)
    (hc : isBlank c = false) : ∃ u' v', t = u' ++ c :: v' ∧
      neighbour u.getLast? = neighbour u'.getLast? ∧ neighbour v.head? = neighbour v'.head? := by
  -- on the length, from blank to blank: a run of blanks is as good a neighbour as one
  induction hk : t.length using Nat.strong_induction_on generalizing t u v with
  | _ k ih =>
    obtain ⟨w, hw, rfl | ⟨b, r, rfl, hb⟩⟩ := exists_run t
    · rw [squeeze_word hw] at h
      exact ⟨u, v, h, rfl, rfl⟩
    · have hlen : r.length < k := by
        rw [← hk, List.length_append, List.length_cons]
        omega
      by_cases hw0 : w = []
      · subst hw0
        rw [List.nil_append, squeeze_blank hb] at h
        obtain ⟨u', v', rfl, hu, hv⟩ := ih r.length hlen h rfl
        refine ⟨b :: u', v', by simp, ?_, hv⟩
        rw [hu, neighbour_getLast?_cons hb]
      · rcases squeeze_append hw0 hw hb r with e | e <;> rw [e] at h
        · refine ⟨u, v ++ b :: r, by simp [h], rfl, ?_⟩
          cases v with
          | nil => exact (neighbour_blank hb).symm
          | cons d v => rfl
        · rcases List.append_eq_append_iff.mp h with ⟨z, rfl, hz⟩ | ⟨z, rfl, hz⟩
          · -- the character stands behind the first word
            cases z with
            | nil =>
              cases hz
              exact absurd hc (by decide)
            | cons d z =>
              obtain ⟨rfl, hr⟩ := List.cons_eq_cons.mp hz
              obtain ⟨u', v', rfl, hu, hv⟩ := ih r.length hlen hr rfl
              refine ⟨w ++ b :: u', v', by simp, ?_, hv⟩
              rw [List.getLast?_append_cons, List.getLast?_append_cons,
                neighbour_getLast?_cons (by decide), neighbour_getLast?_cons hb, hu]
          · -- the character stands in the first word
            cases z with
            | nil =>
              cases hz
              exact absurd hc (by decide)
            | cons d z =>
              obtain ⟨rfl, rfl⟩ := List.cons_eq_cons.mp hz
              refine ⟨u, z ++ b :: r, by simp, rfl, ?_⟩
              cases z with
              | nil => exact (neighbour_blank (by decide)).trans (neighbour_blank hb).symm
              | cons d z => rfl

/-! ### Words joined by spaces -/

/-- Words that were joined by spaces are found again. -/
theorem words_joinWith {ws : List Text} (h : ∀ w ∈ ws, w ≠ [] ∧ ∀ c ∈ w, isBlank c = false) :
    words (joinWith [' '] ws) = ws := by
  rcases eq_or_ne ws [] with rfl | hne
  · rfl
  · rw [words, splitBy_joinWith (by decide) hne fun w hw => (h w hw).2]
    exact List.filter_eq_self.mpr fun w hw => by simpa using (h w hw).1

/-- Joined words begin and end without a blank. -/
theorem trimmed_joinWith {ws : List Text} (h : ∀ w ∈ ws, w ≠ [] ∧ ∀ c ∈ w, isBlank c = false) :
    Trimmed (joinWith [' '] ws) := by
  induction ws with
  | nil => exact trimmed_of_not_blank (by simp [joinWith])
  | cons w ws ih =>
    obtain ⟨⟨hn, hw⟩, hs⟩ := List.forall_mem_cons.mp h
    cases ws with
    | nil =>
      rw [joinWith, List.intercalate_singleton]
      exact trimmed_of_not_blank hw
    | cons v vs =>
      have rest := ih hs
      have whole : joinWith [' '] (w :: v :: vs) = w ++ ' ' :: joinWith [' '] (v :: vs) := by
        rw [joinWith, List.intercalate_cons_cons, List.append_assoc]
        rfl
      have ne_nil : joinWith [' '] (v :: vs) ≠ [] := fun e => by
        have := words_joinWith hs
        rw [e] at this
        cases this
      refine ⟨fun c hc => ?_, fun c hc => rest.last c ?_⟩
      · rw [whole, List.head?_append_of_ne_nil _ hn] at hc
        exact hw c (List.mem_of_mem_head? hc)
      · rwa [whole, List.getLast?_append_cons, List.getLast?_cons_of_ne_nil ne_nil] at hc

theorem of_mem_words {s w : Text} (h : w ∈ words s) : w ≠ [] ∧ ∀ c ∈ w, isBlank c = false := by
  obtain ⟨hw, hn⟩ := List.mem_filter.mp h
  exact ⟨by simpa using hn, not_sep_of_mem_splitBy hw⟩

theorem squeeze_joinWith {ws : List Text} (h : ∀ w ∈ ws, w ≠ [] ∧ ∀ c ∈ w, isBlank c = false) :
    squeeze (joinWith [' '] ws) = joinWith [' '] ws := by
  rw [squeeze, words_joinWith h, joinWith]

theorem squeeze_squeeze (s : Text) : squeeze (squeeze s) = squeeze s :=
  squeeze_joinWith fun _ => of_mem_words

theorem trimmed_squeeze (s : Text) : Trimmed (squeeze s) :=
  trimmed_joinWith fun _ => of_mem_words

end VectorWrap.Text
