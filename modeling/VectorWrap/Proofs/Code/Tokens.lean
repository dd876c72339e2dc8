import VectorWrap.Code.Token
import VectorWrap.Proofs.Text.Infix

/-!
# Words and tokens

The identifiers of a text occur in it, and renaming changes nothing but identifiers: a word that
occurs in a renamed text occurs in the text or in a new name (`infix_of_text`).

A word that is found in a renamed text is a run of a name, so it does not reach over the end of a
token: it is a part of one token (`first_ends`), and that is either the token of the text or a new
name.
-/

namespace VectorWrap

namespace Token

/-- What begins a name is read as that name, as far as it goes. -/
theorem first_of_startsName {c : Char} (h : Text.startsName c = true) (r : Text) :
    first c r = (.identifier (c :: r.takeWhile Text.inName), r.dropWhile Text.inName) :=
  if_pos h

/-- A literal ends with its quote unless the text ends first. -/
theorem getLast?_afterQuote {q : Char} {e : Bool} {s : Text} (h : (afterQuote q e s).2 ≠ []) :
    (afterQuote q e s).1.getLast? = some q := by
  induction s generalizing e with
  | nil => exact absurd rfl h
  | cons c s ih =>
    rw [afterQuote] at h ⊢
    split_ifs at h ⊢ with hc
    · simp only [Bool.and_eq_true, Bool.not_eq_true', decide_eq_true_eq] at hc
      simp [hc.2]
    · have hs := ih h
      cases e' : (afterQuote q (!e && decide (c = '\\')) s).1 with
      | nil =>
        rw [e'] at hs
        cases hs
      | cons d t =>
        rw [e'] at hs
        simpa [e', List.getLast?_cons_cons] using hs

theorem inName_of_inNumber {c : Char} (h : inNumber c = false) : Text.inName c = false := by
  rw [inNumber, Bool.or_eq_false_iff] at h
  exact h.1

/-- A character that begins neither a name nor a number stands in neither. -/
theorem inName_eq_false {c : Char} (hs : Text.startsName c = false) (hd : c.isDigit = false) :
    Text.inName c = false := by
  simp only [Text.startsName, Bool.or_eq_false_iff] at hs
  simp [Text.inName, Char.isAlphanum, hs, hd]

theorem inName_of_quote {c : Char} (h : c = '"' ∨ c = '\'') : Text.inName c = false := by
  rcases h with rfl | rfl <;> decide

/-- Where a token ends the text goes on with another kind of character, or the token does not end
with a character of a name. -/
theorem first_ends (c : Char) (r : Text) :
    (∀ d, (first c r).2.head? = some d → Text.inName d = false) ∨
      (∀ m : Renaming, m.token (first c r).1 = (first c r).1) ∧
        ∀ d, (first c r).1.text.getLast? = some d → Text.inName d = false := by
  rw [first]
  split_ifs with hn hq hd
  · exact .inl fun d hd => by simpa [hd] using List.head?_dropWhile_not Text.inName r
  · by_cases hr : (afterQuote c false r).2 = []
    · exact .inl fun d hd => by simp [hr] at hd
    · refine .inr ⟨fun m => rfl, fun d hd => ?_⟩
      have hlast := getLast?_afterQuote hr
      have hne : (afterQuote c false r).1 ≠ [] := fun h => by
        rw [h] at hlast
        cases hlast
      have whole : (c :: (afterQuote c false r).1).getLast? = some c := by
        rw [← List.singleton_append, List.getLast?_append_of_ne_nil _ hne, hlast]
      cases whole.symm.trans hd
      exact inName_of_quote hq
  · refine .inl fun d hd => inName_of_inNumber ?_
    simpa [hd] using List.head?_dropWhile_not inNumber r
  · refine .inr ⟨fun m => rfl, fun d hd' => ?_⟩
    cases hd'
    exact inName_eq_false (by simpa using hn) (by simpa using hd)

end Token

namespace Text

theorem tokens_cons (c : Char) (r : Text) :
    tokens (c :: r) = (Token.first c r).1 :: tokens (Token.first c r).2 := by
  rw [tokens]

/-- An identifier of a text is a name that occurs in it. -/
theorem isName_of_mem_tokens {s t : Text} (h : .identifier t ∈ tokens s) :
    isName t = true ∧ t <:+: s := by
  fun_induction tokens s with
  | case1 => cases h
  | case2 c r ih =>
    have whole := Token.text_first c r
    rcases List.mem_cons.mp h with h | h
    · have occurs : t <:+: c :: r := by
        rw [← whole, ← h]
        exact (List.prefix_append _ _).isInfix
      refine ⟨?_, occurs⟩
      rw [Token.first] at h
      split_ifs at h with hn
      cases h
      rw [isName, hn, Bool.true_and, List.all_eq_true]
      exact fun d hd => List.mem_takeWhile_imp hd
    · obtain ⟨hn, ht⟩ := ih h
      refine ⟨hn, ht.trans ?_⟩
      rw [← whole]
      exact (List.suffix_append _ _).isInfix

end Text

namespace Renaming

theorem text_cons (m : Renaming) (c : Char) (r : Text) :
    m.text (c :: r) = (m.token (Token.first c r).1).text ++ m.text (Token.first c r).2 := by
  rw [text, Text.tokens]
  rfl

/-- A renamed text begins like the text unless a name is at its beginning. -/
theorem head?_text (m : Renaming) {s : Text}
    (h : ∀ d, s.head? = some d → Text.startsName d = false) :
    (m.text s).head? = s.head? := by
  cases s with
  | nil => simp [text, Text.tokens, Token.concat]
  | cons c r =>
    have hc := h c rfl
    rw [text_cons, Token.first, if_neg (by simp [hc])]
    split_ifs <;> rfl

theorem startsName_eq_false {c : Char} (h : Text.inName c = false) : Text.startsName c = false := by
  rw [Bool.eq_false_iff] at h ⊢
  exact fun hs => h (Text.inName_of_startsName hs)

/-- A renamed token is the token or a new name. -/
theorem text_token (m : Renaming) (t : Token) :
    (m.token t).text = t.text ∨ ∃ p ∈ m, (m.token t).text = p.2 := by
  cases t with
  | identifier name =>
    rw [token, Token.text, apply]
    cases e : m.lookup name with
    | none => exact .inl rfl
    | some v =>
      obtain ⟨l₁, l₂, rfl, -⟩ := List.lookup_eq_some_iff.mp e
      exact .inr ⟨(name, v), by simp, rfl⟩
  | _ => exact .inl rfl

/-- A word of a renamed text occurs in the text or in a new name. -/
theorem infix_of_text {m : Renaming} {w s : Text} (hw : Text.IsNameRun w) (h : w <:+: m.text s) :
    w <:+: s ∨ ∃ p ∈ m, w <:+: p.2 := by
  induction hk : s.length using Nat.strong_induction_on generalizing s with
  | _ k ih =>
    cases s with
    | nil =>
      simp only [text, Text.tokens, List.map_nil, Token.concat, List.flatMap_nil] at h
      exact absurd (List.infix_nil.mp h) hw.ne_nil
    | cons c r =>
      have whole := Token.text_first c r
      rw [text_cons] at h
      have apart : w <:+: (m.token (Token.first c r).1).text ∨
          w <:+: m.text (Token.first c r).2 := by
        rcases Token.first_ends c r with hrest | ⟨hkept, hlast⟩
        · refine hw.infix_append_of_head (fun d hd => hrest d ?_) h
          rwa [head?_text m fun d hd => startsName_eq_false (hrest d hd)] at hd
        · rw [hkept m] at h ⊢
          exact hw.infix_append_of_last hlast h
      rcases apart with h | h
      · rcases text_token m (Token.first c r).1 with e | ⟨p, hp, e⟩
        · rw [e] at h
          refine .inl (h.trans ?_)
          rw [← whole]
          exact (List.prefix_append _ _).isInfix
        · exact .inr ⟨p, hp, e ▸ h⟩
      · rcases ih _ (hk ▸ Token.length_first c r) h rfl with h | h
        · refine .inl (h.trans ?_)
          rw [← whole]
          exact (List.suffix_append _ _).isInfix
        · exact .inr h

end Renaming

end VectorWrap
