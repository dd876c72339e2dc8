import VectorWrap.Proofs.Code.Tokens
import VectorWrap.Proofs.Text.Words

/-!
# Renaming is a map on names

`Lexes` says of what tokens a text is made, without reading it: names and numbers as long as they
go, literals up to the quote that closes them or to the end of the text, and marks.  A text is made
of its tokens and of no others (`lexes_iff`).

A name in the place of a name leaves the text made of the same tokens otherwise (`lexes_text`): what
ended the old name ends the new one, and what stands before it ends as it did.  So the tokens of a
renamed text are those of the text, renamed, and renaming twice is renaming once by the composed map
(`text_text`).

The relation has a constructor for each kind of token, with what must not follow as a condition on
the next character, so that an induction on it takes a text apart without looking at the
tokenizer.  A renaming must give names for names (`GivesNames`): a text with a blank in the place of
a name would be read as two.
-/

namespace VectorWrap

namespace Text

/-! ### Of what a text is made -/

/-- A text behind an opening quote: no other quote stands in it, unless behind a backslash. -/
inductive QuotedBody (quote : Char) : Text → Prop where
  | nil : QuotedBody quote []
  | char {c b} (hq : c ≠ quote) (he : c ≠ '\\') (h : QuotedBody quote b) :
      QuotedBody quote (c :: b)
  | escape (c) {b} (h : QuotedBody quote b) : QuotedBody quote ('\\' :: c :: b)

/-- Begins a literal. -/
def startsLiteral (c : Char) : Prop :=
  c = '"' ∨ c = '\''

/-- The text is made of the tokens. -/
inductive Lexes : Text → List Token → Prop where
  | nil : Lexes [] []
  | identifier {w s ts} (hw : isName w = true)
      (ends : ∀ c, s.head? = some c → inName c = false) (h : Lexes s ts) :
      Lexes (w ++ s) (.identifier w :: ts)
  | literal {q b s ts} (hq : startsLiteral q) (hb : QuotedBody q b) (h : Lexes s ts) :
      Lexes (q :: b ++ q :: s) (.literal (q :: b ++ [q]) :: ts)
  /-- A literal that is not closed; a backslash may be the last character. -/
  | unclosed {q b e} (hq : startsLiteral q) (hb : QuotedBody q b) (he : e = [] ∨ e = ['\\']) :
      Lexes (q :: b ++ e) [.literal (q :: b ++ e)]
  | number {d w s ts} (hd : d.isDigit = true) (hw : ∀ c ∈ w, Token.inNumber c = true)
      (ends : ∀ c, s.head? = some c → Token.inNumber c = false) (h : Lexes s ts) :
      Lexes (d :: w ++ s) (.number (d :: w) :: ts)
  | mark {c s ts} (hn : startsName c = false) (hq : ¬ startsLiteral c) (hd : c.isDigit = false)
      (h : Lexes s ts) : Lexes (c :: s) (.mark c :: ts)

/-! ### Literals -/

theorem ne_backslash {q : Char} (hq : startsLiteral q) : '\\' ≠ q := by
  rcases hq with rfl | rfl <;> decide

variable {q : Char} {b : Text}

/-- A text behind an opening quote goes on to the closing one, or to its end. -/
theorem exists_quotedBody (q : Char) (r : Text) :
    (∃ b t, QuotedBody q b ∧ r = b ++ q :: t) ∨
      ∃ b e, QuotedBody q b ∧ (e = [] ∨ e = ['\\']) ∧ r = b ++ e := by
  induction hk : r.length using Nat.strong_induction_on generalizing r with
  | _ k ih =>
    cases r with
    | nil => exact .inr ⟨[], [], .nil, .inl rfl, rfl⟩
    | cons c r =>
      by_cases hc : c = q
      · exact .inl ⟨[], r, .nil, by rw [hc]; rfl⟩
      by_cases he : c = '\\'
      · subst he
        cases r with
        | nil => exact .inr ⟨[], ['\\'], .nil, .inr rfl, rfl⟩
        | cons d r =>
          rcases ih r.length (by rw [← hk, List.length_cons, List.length_cons]; omega) r rfl with
            ⟨b, t, hb, rfl⟩ | ⟨b, e, hb, he, rfl⟩
          · exact .inl ⟨_, t, .escape d hb, rfl⟩
          · exact .inr ⟨_, e, .escape d hb, he, rfl⟩
      · rcases ih r.length (by rw [← hk, List.length_cons]; omega) r rfl with
          ⟨b, t, hb, rfl⟩ | ⟨b, e, hb, hend, rfl⟩
        · exact .inl ⟨_, t, .char hc he hb, rfl⟩
        · exact .inr ⟨_, e, .char hc he hb, hend, rfl⟩

/-- What stands behind an opening quote is passed over whole, with the quote that closes it or the
end of the text. -/
theorem QuotedBody.afterQuote_append (hb : QuotedBody q b) (hq : startsLiteral q) (s : Text) :
    Token.afterQuote q false (b ++ s) =
      (b ++ (Token.afterQuote q false s).1, (Token.afterQuote q false s).2) := by
  induction hb with
  | nil => rfl
  | char hc he _ ih => simp [Token.afterQuote, hc, he, ih]
  | escape c _ ih => simp [Token.afterQuote, ne_backslash hq, ih]

theorem QuotedBody.afterQuote_closed (hb : QuotedBody q b) (hq : startsLiteral q) (s : Text) :
    Token.afterQuote q false (b ++ q :: s) = (b ++ [q], s) := by
  rw [hb.afterQuote_append hq]
  simp [Token.afterQuote]

/-- A literal that is not closed goes on to the end, where a backslash may stand alone. -/
theorem QuotedBody.afterQuote_unclosed (hb : QuotedBody q b) (hq : startsLiteral q) {e : Text}
    (he : e = [] ∨ e = ['\\']) : Token.afterQuote q false (b ++ e) = (b ++ e, []) := by
  rw [hb.afterQuote_append hq]
  rcases he with rfl | rfl
  · rfl
  · simp [Token.afterQuote, ne_backslash hq]

/-! ### Reading -/

/-- A quote begins a literal. -/
theorem first_of_startsLiteral (hq : startsLiteral q) (r : Text) : Token.first q r =
    (.literal (q :: (Token.afterQuote q false r).1), (Token.afterQuote q false r).2) := by
  have hn : ¬ startsName q = true := by
    rcases hq with rfl | rfl <;> decide
  rw [Token.first, if_neg hn]
  exact if_pos hq

/-- What begins neither a name nor a literal is a number or a mark. -/
theorem first_of_not_startsLiteral {c : Char} (hn : startsName c = false)
    (hq : ¬ startsLiteral c) (r : Text) : Token.first c r =
      if c.isDigit then (.number (c :: r.takeWhile Token.inNumber), r.dropWhile Token.inNumber)
      else (.mark c, r) := by
  rw [Token.first, if_neg (by simp [hn])]
  exact if_neg hq

theorem startsName_of_isDigit {d : Char} (hd : d.isDigit = true) : startsName d = false := by
  have other : d ≠ '_' := by
    rintro rfl
    cases hd
  have letter : d.isAlpha = false := by
    grind [Char.isDigit, Char.isAlpha, Char.isUpper, Char.isLower]
  rw [startsName, letter, Bool.false_or, beq_eq_false_iff_ne]
  exact other

theorem not_startsLiteral_of_isDigit {d : Char} (hd : d.isDigit = true) : ¬ startsLiteral d := by
  rintro (rfl | rfl) <;> cases hd

/-- **A text that is made of tokens** is read as these. -/
theorem Lexes.tokens_eq {s : Text} {ts : List Token} (h : Lexes s ts) : tokens s = ts := by
  induction h with
  | nil => rw [tokens]
  | @identifier w s ts hw ends _ ih =>
    cases w with
    | nil => cases hw
    | cons c w =>
      simp only [isName, Bool.and_eq_true, List.all_eq_true] at hw
      rw [List.cons_append, tokens_cons, Token.first_of_startsName hw.1,
        takeWhile_append_of_head hw.2 ends, dropWhile_append_of_head hw.2 ends, ih]
  | @literal q b s ts hq hb _ ih =>
    rw [List.cons_append, tokens_cons, first_of_startsLiteral hq, hb.afterQuote_closed hq, ih]
    rfl
  | @unclosed q b e hq hb he =>
    rw [List.cons_append, tokens_cons, first_of_startsLiteral hq, hb.afterQuote_unclosed hq he,
      tokens]
  | @number d w s ts hd hw ends _ ih =>
    rw [List.cons_append, tokens_cons, first_of_not_startsLiteral (startsName_of_isDigit hd)
      (not_startsLiteral_of_isDigit hd), if_pos hd, takeWhile_append_of_head hw ends,
      dropWhile_append_of_head hw ends, ih]
  | @mark c s ts hn hq hd _ ih =>
    rw [tokens_cons, first_of_not_startsLiteral hn hq, if_neg (by simp [hd]), ih]

/-- What begins with a quote is a literal, closed or not. -/
theorem Lexes.of_startsLiteral {r : Text} {ts : List Token} (hq : startsLiteral q)
    (h : Lexes (Token.first q r).2 ts) : Lexes (q :: r) ((Token.first q r).1 :: ts) := by
  rw [first_of_startsLiteral hq] at h ⊢
  rcases exists_quotedBody q r with ⟨b, t, hb, rfl⟩ | ⟨b, e, hb, he, rfl⟩
  · rw [hb.afterQuote_closed hq] at h ⊢
    exact .literal hq hb h
  · rw [hb.afterQuote_unclosed hq he] at h ⊢
    obtain rfl : ts = [] := by rw [← h.tokens_eq, tokens]
    exact .unclosed hq hb he

/-- A text is made of its first token and those of the rest. -/
theorem Lexes.of_first {c : Char} {r : Text} {ts : List Token} (h : Lexes (Token.first c r).2 ts) :
    Lexes (c :: r) ((Token.first c r).1 :: ts) := by
  have ends : ∀ p : Char → Bool, ∀ d, (r.dropWhile p).head? = some d → p d = false :=
    fun p d hd => by simpa [hd] using List.head?_dropWhile_not p r
  have parts : ∀ p : Char → Bool, c :: r = c :: r.takeWhile p ++ r.dropWhile p := fun p => by
    rw [List.cons_append, List.takeWhile_append_dropWhile]
  cases hn : startsName c with
  | true =>
    rw [Token.first_of_startsName hn] at h ⊢
    rw [parts inName]
    refine .identifier ?_ (ends inName) h
    rw [isName, hn, Bool.true_and, List.all_eq_true]
    exact fun d hd => List.mem_takeWhile_imp hd
  | false =>
    by_cases hq : startsLiteral c
    · exact .of_startsLiteral hq h
    rw [first_of_not_startsLiteral hn hq] at h ⊢
    cases hd : c.isDigit with
    | true =>
      simp only [hd, if_true] at h ⊢
      rw [parts Token.inNumber]
      exact .number hd (fun d hd => List.mem_takeWhile_imp hd) (ends Token.inNumber) h
    | false =>
      simp only [hd, Bool.false_eq_true, if_false] at h ⊢
      exact .mark hn hq hd h

/-- **A text is made of its tokens.** -/
theorem lexes_tokens (s : Text) : Lexes s (tokens s) := by
  induction hk : s.length using Nat.strong_induction_on generalizing s with
  | _ k ih =>
    cases s with
    | nil =>
      rw [tokens]
      exact .nil
    | cons c r =>
      rw [tokens_cons]
      exact .of_first (ih _ (hk ▸ Token.length_first c r) _ rfl)

/-- The tokens of a text are the only ones that it is made of. -/
theorem lexes_iff {s : Text} {ts : List Token} : Lexes s ts ↔ tokens s = ts :=
  ⟨Lexes.tokens_eq, fun h => h ▸ lexes_tokens s⟩

theorem Lexes.concat_eq {s : Text} {ts : List Token} (h : Lexes s ts) : Token.concat ts = s := by
  rw [← h.tokens_eq, concat_tokens]

/-- A text may be divided between any two of its tokens. -/
theorem Lexes.exists_append {s : Text} {us ts : List Token} (h : Lexes s (us ++ ts)) :
    ∃ a b, s = a ++ b ∧ Lexes a us ∧ Lexes b ts := by
  -- the part before the place ends what the whole ended
  have first : ∀ {p : Char → Bool} {a b : Text}, (∀ c, (a ++ b).head? = some c → p c = false) →
      ∀ c, a.head? = some c → p c = false := fun ends c hc =>
    ends c (by rw [List.head?_append, hc]; rfl)
  induction us generalizing s with
  | nil => exact ⟨[], s, rfl, .nil, h⟩
  | cons u us ih =>
    rw [List.cons_append] at h
    generalize hl : us ++ ts = l at h
    cases h with
    | identifier hw ends h =>
      obtain ⟨a, b, rfl, ha, hb⟩ := ih (hl ▸ h)
      exact ⟨_, b, (List.append_assoc ..).symm, .identifier hw (first ends) ha, hb⟩
    | literal hq hbody h =>
      obtain ⟨a, b, rfl, ha, hb⟩ := ih (hl ▸ h)
      exact ⟨_, b, by simp, .literal hq hbody ha, hb⟩
    | unclosed hq hbody he =>
      obtain ⟨rfl, rfl⟩ := List.append_eq_nil_iff.mp hl
      exact ⟨_, [], (List.append_nil _).symm, .unclosed hq hbody he, .nil⟩
    | number hd hw ends h =>
      obtain ⟨a, b, rfl, ha, hb⟩ := ih (hl ▸ h)
      exact ⟨_, b, (List.append_assoc ..).symm, .number hd hw (first ends) ha, hb⟩
    | mark hn hq hd h =>
      obtain ⟨a, b, rfl, ha, hb⟩ := ih (hl ▸ h)
      exact ⟨_, b, rfl, .mark hn hq hd ha, hb⟩

end Text

namespace Renaming
open Text

variable {m m₁ m₂ : Renaming}

/-! ### Tokens of renamed texts -/

/-- Every name is given a name. -/
def GivesNames (m : Renaming) : Prop :=
  ∀ w, isName w = true → isName (m.apply w) = true

theorem text_of_lexes {s : Text} {ts : List Token} (h : Lexes s ts) (m : Renaming) :
    m.text s = Token.concat (ts.map m.token) := by
  rw [text, h.tokens_eq]

theorem text_cons_of_lexes {s u : Text} {k : Token} {ts : List Token} (hu : Lexes u (k :: ts))
    (hs : Lexes s ts) (m : Renaming) : m.text u = (m.token k).text ++ m.text s := by
  rw [text_of_lexes hu, text_of_lexes hs]
  rfl

/-- **A renamed text** is made of the renamed tokens. -/
theorem lexes_text (hm : m.GivesNames) {s : Text} {ts : List Token} (h : Lexes s ts) :
    Lexes (m.text s) (ts.map m.token) := by
  -- what ends a name or a number is the same before and after
  have kept : ∀ {p : Char → Bool} {s : Text}, (∀ c, p c = false → startsName c = false) →
      (∀ c, s.head? = some c → p c = false) → ∀ c, (m.text s).head? = some c → p c = false := by
    intro p s hp ends c hc
    rw [head?_text m fun d hd => hp d (ends d hd)] at hc
    exact ends c hc
  induction h with
  | nil =>
    rw [text_of_lexes .nil]
    exact .nil
  | @identifier w s ts hw ends h ih =>
    rw [text_cons_of_lexes (.identifier hw ends h) h]
    exact .identifier (hm w hw) (kept (fun _ => startsName_eq_false) ends) ih
  | @literal q b s ts hq hb h ih =>
    have whole := text_cons_of_lexes (.literal hq hb h) h m
    rw [show (m.token (.literal (q :: b ++ [q]))).text = q :: b ++ [q] from rfl, List.append_assoc,
      List.singleton_append] at whole
    rw [whole]
    exact .literal hq hb ih
  | unclosed hq hb he =>
    rw [text_of_lexes (.unclosed hq hb he)]
    simpa [token, Token.concat, Token.text] using Lexes.unclosed hq hb he
  | @number d w s ts hd hw ends h ih =>
    have inside : ∀ c, Token.inNumber c = false → startsName c = false := fun c hc =>
      startsName_eq_false (Token.inName_of_inNumber hc)
    rw [text_cons_of_lexes (.number hd hw ends h) h]
    exact .number hd hw (kept inside ends) ih
  | @mark c s ts hn hq hd h ih =>
    rw [text_cons_of_lexes (.mark hn hq hd h) h]
    exact .mark hn hq hd ih

theorem tokens_text_of_givesNames (hm : m.GivesNames) (s : Text) :
    tokens (m.text s) = (tokens s).map m.token :=
  (lexes_text hm (lexes_tokens s)).tokens_eq

/-! ### Renaming twice -/

theorem apply_nil (w : Text) : apply [] w = w := rfl

/-- The first pair with the name decides what becomes of it. -/
theorem apply_cons (p : Text × Text) (m : Renaming) (w : Text) :
    apply (p :: m) w = if w = p.1 then p.2 else apply m w := by
  by_cases h : w = p.1
  · rw [if_pos h, apply, List.lookup, beq_iff_eq.mpr h, Option.getD_some]
  · rw [if_neg h, apply, apply, List.lookup, beq_false_of_ne h]

/-- Renames by the first and what comes of it by the second. -/
def andThen (m₁ m₂ : Renaming) : Renaming :=
  m₁.map (fun p => (p.1, m₂.apply p.2)) ++ m₂

/-- A composed renaming does the one after the other. -/
theorem apply_andThen (m₁ m₂ : Renaming) (w : Text) :
    (m₁.andThen m₂).apply w = m₂.apply (m₁.apply w) := by
  rw [andThen]
  induction m₁ with
  | nil => rfl
  | cons p m₁ ih =>
    rw [List.map_cons, List.cons_append, apply_cons, apply_cons, ih]
    split_ifs <;> rfl

/-- Renamings that agree on names rename every text alike. -/
theorem text_congr (h : ∀ w, isName w = true → m₁.apply w = m₂.apply w) (s : Text) :
    m₁.text s = m₂.text s := by
  have same : ∀ k ∈ tokens s, m₁.token k = m₂.token k := by
    intro k hk
    cases k with
    | identifier w => rw [token, token, h w (isName_of_mem_tokens hk).1]
    | _ => rfl
  rw [text, text, List.map_congr_left same]

/-- Renaming twice is renaming once by the composed map. -/
theorem text_text (hm : m₁.GivesNames) (s : Text) :
    m₂.text (m₁.text s) = (m₁.andThen m₂).text s := by
  have both : ∀ k : Token, m₂.token (m₁.token k) = (m₁.andThen m₂).token k := by
    intro k
    cases k with
    | identifier w => rw [token, token, token, apply_andThen]
    | _ => rfl
  rw [text, tokens_text_of_givesNames hm, List.map_map, text]
  exact congrArg _ (List.map_congr_left fun k _ => both k)

/-- What is given no other name is given back. -/
theorem text_of_apply_eq_self (h : ∀ w, isName w = true → m.apply w = w) (s : Text) :
    m.text s = s := by
  have kept : m.text s = text [] s := text_congr (fun w hw => by rw [h w hw, apply_nil]) s
  have none : ∀ k ∈ tokens s, token [] k = k := by
    intro k _
    cases k <;> rfl
  rw [kept, text, List.map_congr_left none, List.map_id', concat_tokens]

/-- A name is given a new one by an entry for it, or is kept. -/
theorem apply_cases (m : Renaming) (w : Text) : m.apply w = w ∨ ∃ p ∈ m, p.1 = w := by
  cases found : m.lookup w with
  | none => exact .inl (by rw [apply, found]; rfl)
  | some v =>
    obtain ⟨l₁, l₂, rfl, -⟩ := List.lookup_eq_some_iff.mp found
    exact .inr ⟨(w, v), by simp, rfl⟩

/-- What is no name is copied unchanged, between what the text before it and the text behind it
become. -/
theorem exists_text_around {t : Text} {before after : List Token} {k : Token}
    (h : Lexes t (before ++ k :: after)) (hk : ∀ w, k ≠ .identifier w) :
    ∃ a b, t = a ++ k.text ++ b ∧ Lexes a before ∧ Lexes b after ∧
      ∀ m : Renaming, m.text t = m.text a ++ k.text ++ m.text b := by
  obtain ⟨a, u, rfl, ha, hu⟩ := h.exists_append
  rw [← List.singleton_append] at hu
  obtain ⟨x, b, rfl, hx, hb⟩ := hu.exists_append
  obtain rfl : k.text = x := by simpa [Token.concat] using hx.concat_eq
  refine ⟨a, b, (List.append_assoc ..).symm, ha, hb, fun m => ?_⟩
  have kept : m.token k = k := by
    cases k with
    | identifier w => exact absurd rfl (hk w)
    | _ => rfl
  rw [text_of_lexes h, text_of_lexes ha, text_of_lexes hb]
  simp [Token.concat, kept]

/-- **Renaming is a map on names.**  Renaming by a map that gives names, and then by another, is
renaming by any map that does the same to every name, such as the composed one.  A map that gives
every key itself, the empty one among them, changes nothing.  A literal, a number or a mark of the
text is copied unchanged, whatever the map. -/
theorem text_homomorphism (t : Text) :
    (∀ m₁ m₂ m : Renaming, (∀ p ∈ m₁, isName (m₁.apply p.1) = true) →
      (∀ w, isName w = true → m.apply w = m₂.apply (m₁.apply w)) →
        m₂.text (m₁.text t) = m.text t) ∧
    (∀ (m₁ m₂ : Renaming) w, (m₁.andThen m₂).apply w = m₂.apply (m₁.apply w)) ∧
    (∀ m : Renaming, (∀ p ∈ m, m.apply p.1 = p.1) → m.text t = t) ∧
    text [] t = t ∧
    ∀ before k after, Lexes t (before ++ k :: after) → (∀ w, k ≠ .identifier w) →
      ∃ a b, t = a ++ k.text ++ b ∧ Lexes a before ∧ Lexes b after ∧
        ∀ m : Renaming, m.text t = m.text a ++ k.text ++ m.text b := by
  refine ⟨fun m₁ m₂ m names same => ?_, apply_andThen, fun m keeps => ?_,
    text_of_apply_eq_self (fun w _ => apply_nil w) t, fun before k after => exists_text_around⟩
  · have gives : m₁.GivesNames := fun w hw => by
      rcases apply_cases m₁ w with e | ⟨p, hp, rfl⟩
      · rwa [e]
      · exact names p hp
    rw [text_text gives]
    exact text_congr (fun w hw => by rw [apply_andThen, same w hw]) t
  · refine text_of_apply_eq_self (fun w _ => ?_) t
    rcases apply_cases m w with e | ⟨p, hp, rfl⟩
    · exact e
    · exact keeps p hp

/-- A call with a name, a literal and a number that all hold the letter of the name. -/
def lettered : Text := "x(\"x\\\"\",1x)"

/-- The theorem for that call. -/
theorem text_homomorphism_of_lettered :
    text [("y".toList, "z".toList)] (text [("x".toList, "y".toList)] lettered) =
      text [("x".toList, "z".toList), ("y".toList, "z".toList)] lettered ∧
    text [("x".toList, "x".toList)] lettered = lettered ∧
    ∃ a b, lettered = a ++ "\"x\\\"\"".toList ++ b ∧
      text [("x".toList, "y".toList)] lettered =
        text [("x".toList, "y".toList)] a ++ "\"x\\\"\"".toList ++
          text [("x".toList, "y".toList)] b := by
  obtain ⟨twice, composed, kept, -, literal⟩ := text_homomorphism lettered
  have tokens : Lexes lettered ([.identifier "x", .mark '('] ++ .literal "\"x\\\"\"" ::
      [.mark ',', .number "1x", .mark ')']) := lexes_iff.mpr (by cbv)
  obtain ⟨a, b, parts, -, -, copied⟩ := literal _ _ _ tokens (by simp)
  refine ⟨twice _ _ _ (by decide) fun w _ => ?_, kept _ (by decide), a, b, parts, copied _⟩
  exact composed [("x".toList, "y".toList)] [("y".toList, "z".toList)] w

end Renaming

end VectorWrap
