import VectorWrap.Proofs.Text.Squeeze

/-!
# Words inside a text

A word that occurs in a text occurs on one side of any character that is not in it
(`infix_of_not_mem`).  So trimming, squeezing and cutting bring no word about: what occurs after
them did so before.

A word of a name is told apart by its ends too.  It stands in an append on one side if the other
side ends, or begins, with a character of no name (`IsNameRun.infix_append_of_head`,
`IsNameRun.infix_append_of_last`), and it occurs in a squeezed text only where it occurs in the text
itself.
-/

namespace VectorWrap.Text

/-! ### Occurrences -/

/-- A word is found in a text exactly if it occurs there. -/
theorem contains_iff {w s : Text} : contains w s = true ↔ w <:+: s := by
  induction s with
  | nil => simp [contains]
  | cons c s ih =>
    rw [contains, Bool.or_eq_true, ih, List.isPrefixOf_iff_prefix, List.infix_cons_iff]

/-- An occurrence stands before or behind any character that is not in it. -/
theorem infix_of_not_mem {w a b : Text} {c : Char} (hc : c ∉ w) (h : w <:+: a ++ c :: b) :
    w <:+: a ∨ w <:+: b := by
  obtain ⟨x, y, h⟩ := h
  rcases List.append_eq_append_iff.mp h with ⟨z, rfl, -⟩ | ⟨z, hx, hz⟩
  · exact .inl ⟨x, z, rfl⟩
  · cases z with
    | nil => exact .inl ⟨x, [], by simpa using hx⟩
    | cons d z =>
      obtain ⟨rfl, rfl⟩ := List.cons_eq_cons.mp hz
      rcases List.append_eq_append_iff.mp hx with ⟨u, -, rfl⟩ | ⟨u, -, hu⟩
      · exact absurd (by simp) hc
      · cases u with
        | nil =>
          refine absurd ?_ hc
          rw [← List.nil_append w, ← hu]
          exact List.mem_cons_self
        | cons e u =>
          obtain ⟨rfl, rfl⟩ := List.cons_eq_cons.mp hu
          exact .inr ⟨u, y, by simp⟩

/-- Is made of the characters of names. -/
structure IsNameRun (w : Text) : Prop where
  ne_nil : w ≠ []
  inName : ∀ c ∈ w, inName c = true

theorem isNameRun_of_isName {t : Text} (h : isName t = true) : IsNameRun t :=
  ⟨ne_nil_of_isName h, all_inName_of_isName h⟩

theorem IsNameRun.not_mem {w : Text} (hw : IsNameRun w) {c : Char} (hc : Text.inName c = false) :
    c ∉ w := fun h => by
  rw [hw.inName c h] at hc
  cases hc

/-- A run of a name does not reach into a text that begins with another character. -/
theorem IsNameRun.infix_append_of_head {w a b : Text} (hw : IsNameRun w)
    (hb : ∀ c, b.head? = some c → Text.inName c = false) (h : w <:+: a ++ b) :
    w <:+: a ∨ w <:+: b := by
  cases b with
  | nil => exact .inl (by simpa using h)
  | cons c b =>
    rcases infix_of_not_mem (hw.not_mem (hb c rfl)) h with h | h
    · exact .inl h
    · exact .inr (h.trans (List.suffix_cons c b).isInfix)

/-- A run of a name does not reach back into a text that ends with another character. -/
theorem IsNameRun.infix_append_of_last {w a b : Text} (hw : IsNameRun w)
    (ha : ∀ c, a.getLast? = some c → Text.inName c = false) (h : w <:+: a ++ b) :
    w <:+: a ∨ w <:+: b := by
  rcases List.eq_nil_or_concat a with rfl | ⟨a, c, rfl⟩
  · exact .inr h
  · rw [List.concat_eq_append, List.append_assoc, List.singleton_append] at h
    have hc : Text.inName c = false := ha c (by simp)
    rcases infix_of_not_mem (hw.not_mem hc) h with h | h
    · exact .inl (h.trans ⟨[], [c], by simp⟩)
    · exact .inr h

/-- No word occurs in a text of other characters. -/
theorem IsNameRun.not_isInfix {w s : Text} (hw : IsNameRun w)
    (hs : ∀ c ∈ s, Text.inName c = false) : ¬ w <:+: s := fun h => by
  obtain ⟨c, hc⟩ := List.exists_mem_of_ne_nil w hw.ne_nil
  exact hw.not_mem (hs c (h.subset hc)) hc

/-! ### Trims and squeezes -/

/-- What is left of a trimmed text stands in it. -/
theorem trimBy_isInfix (p : Char → Bool) (s : Text) : trimBy p s <:+: s := by
  have outer : trimBy p s <+: s.dropWhile p := by
    rw [trimBy, ← List.reverse_suffix, List.reverse_reverse]
    exact List.dropWhile_suffix p
  exact outer.isInfix.trans (List.dropWhile_suffix p).isInfix

/-- What is left between the blanks at the ends stands in the text. -/
theorem trim_isInfix (s : Text) : trim s <:+: s :=
  trimBy_isInfix isBlank s

theorem trimEndBy_prefix (p : Char → Bool) (s : Text) : trimEndBy p s <+: s := by
  rw [trimEndBy, ← List.reverse_suffix, List.reverse_reverse]
  exact List.dropWhile_suffix p

/-- A text that holds none of what is trimmed stays where it stands. -/
theorem infix_dropWhile {p : Char → Bool} {w s : Text} (hw : ∀ c ∈ w, p c = false)
    (h : w <:+: s) : w <:+: s.dropWhile p := by
  induction s with
  | nil => exact h
  | cons c s ih =>
    rw [List.dropWhile_cons]
    split_ifs with hc
    · have hm : c ∉ w := fun hm => by
        rw [hw c hm] at hc
        cases hc
      rcases infix_of_not_mem hm ((List.nil_append (c :: s)).symm ▸ h) with h | h
      · rw [List.infix_nil.mp h]
        exact List.nil_infix
      · exact ih h
    · exact h

/-- A word without such characters is not touched by a trim at the end. -/
theorem infix_trimEndBy {p : Char → Bool} {w s : Text} (hw : ∀ c ∈ w, p c = false)
    (h : w <:+: s) : w <:+: trimEndBy p s := by
  rw [trimEndBy, ← List.reverse_infix, List.reverse_reverse]
  exact infix_dropWhile (fun c hc => hw c (List.mem_reverse.mp hc)) (List.reverse_infix.mpr h)

theorem infix_trim {w s : Text} (hw : ∀ c ∈ w, isBlank c = false) (h : w <:+: s) :
    w <:+: trim s :=
  infix_trimEndBy hw (infix_dropWhile hw h)

/-- Squeezing brings no word about. -/
theorem IsNameRun.infix_of_squeeze {w s : Text} (hw : IsNameRun w) (h : w <:+: squeeze s) :
    w <:+: s := by
  have space : ∀ {c : Char}, isBlank c = true → c ∉ w := fun {c} hc hm => by
    rw [isBlank_of_inName (hw.inName c hm)] at hc
    cases hc
  induction hk : s.length using Nat.strong_induction_on generalizing s with
  | _ k ih =>
    obtain ⟨t, ht, rfl | ⟨b, r, rfl, hb⟩⟩ := exists_run s
    · rwa [squeeze_word ht] at h
    · have hlen : r.length < k := by
        rw [← hk, List.length_append, List.length_cons]
        omega
      have later : r <:+: t ++ b :: r := ⟨t ++ [b], [], by simp⟩
      by_cases ht0 : t = []
      · subst ht0
        rw [List.nil_append, squeeze_blank hb] at h
        exact (ih r.length hlen h rfl).trans later
      · rcases squeeze_append ht0 ht hb r with e | e <;> rw [e] at h
        · exact h.trans (List.prefix_append t _).isInfix
        · rcases infix_of_not_mem (space (by decide)) h with h | h
          · exact h.trans (List.prefix_append t _).isInfix
          · exact (ih r.length hlen h rfl).trans later

end VectorWrap.Text
