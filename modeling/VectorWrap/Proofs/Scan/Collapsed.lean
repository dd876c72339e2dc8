import VectorWrap.Proofs.Scan.Blind

/-!
# Sweeps do not see how much layout there is

Collapsing a text keeps the order of what stands behind (`collapse_suffix`), and where no layout
begins also strictly so.  A sweep with a blind item and a blind gap therefore takes the same steps
in the collapsed text (`sweep_collapse`).

What C is made of is read blindly: words and marks, and comments and literals in the reading that
passes over layout (`blind_codeGap`).  A type is squeezed, and as its last token is no layout
nothing is lost at its end (`Solid`).

A sweep goes by the lengths of what is left.  These shrink in the collapsed text too
(`Solid.length_collapse_lt`, `progress_collapse`), and so the induction on the length takes both
sweeps through the same steps.
-/

namespace VectorWrap

namespace Text

variable {c : Char} {s r : Text}

/-! ### The order of what follows -/

/-- What stands behind also does so in the collapsed text. -/
theorem collapse_suffix (h : r <:+ s) : collapse r <:+ collapse s := by
  obtain ⟨w, rfl⟩ := h
  induction w with
  | nil => exact List.suffix_rfl
  | cons c w ih =>
    rw [List.cons_append]
    cases hc : isLayout c with
    | false =>
      rw [collapse_cons hc]
      exact ih.trans (List.suffix_cons c _)
    | true =>
      rcases collapse_layout hc (w ++ r) with ⟨-, h⟩ | ⟨-, h⟩ <;> rw [h]
      · exact ih
      · exact ih.trans (List.suffix_cons ' ' _)

/-- A text is collapsed in front of another as in front of one that collapses to the same. -/
theorem collapse_cons_congr {t : Text} (c : Char) (h : collapse s = collapse t) :
    collapse (c :: s) = collapse (c :: t) := by
  have first (u : Text) : (collapse u).head?.any isLayout = u.head?.any isLayout := by
    cases u with
    | nil => rfl
    | cons d u =>
      cases hd : isLayout d with
      | false => rw [collapse_cons hd]; rfl
      | true =>
        obtain ⟨v, hv⟩ := exists_collapse hd u
        rw [hv, List.head?_cons, Option.any_some, List.head?_cons, Option.any_some, hd]
        rfl
  rw [collapse, collapse, ← first s, ← first t, h]

/-- A text that ends otherwise than in layout is collapsed apart from what follows it. -/
theorem collapse_concat_append (hc : isLayout c = false) (w r : Text) :
    collapse (w ++ c :: r) = collapse (w ++ [c]) ++ collapse r := by
  rw [collapse_append_cons hc, collapse_append_cons hc, collapse_nil, List.append_assoc]
  rfl

end Text

/-- The same thing in the collapsed text. -/
def Found.collapse {α : Type} (f : Found α) : Found α :=
  ⟨f.value, Text.collapse f.here, Text.collapse f.rest⟩

namespace Scan

variable {α β : Type} {p q : Scan α}

/-! ### Alternatives and repetitions -/

/-- Of two blind scanners the first that reads is blind. -/
theorem Blind.orElse (hp : Blind p) (hq : Blind q) : Blind (p <|> q) := by
  intro s
  rw [orElse_eq, orElse_eq, hp, hq]
  cases p s <;> rfl

theorem Blind.absent (hp : Blind p) : Blind (absent p) := by
  intro s
  rw [Scan.absent, Scan.absent, hp]
  cases p s <;> rfl

/-- A character that is no layout is read blindly. -/
theorem blind_one {f : Char → Bool} (hf : ∀ c, Text.isLayout c = true → f c = false) :
    Blind (one f) := by
  rintro (_ | ⟨c, s⟩)
  · rfl
  · cases hc : Text.isLayout c with
    | false =>
      rw [Text.collapse_cons hc, one, one]
      split_ifs <;> rfl
    | true =>
      obtain ⟨t, ht⟩ := Text.exists_collapse hc s
      rw [ht, one, one, hf c hc, hf ' ' (by decide)]
      rfl

/-- Ends what it reads with a character that is no layout. -/
def Solid (p : Scan α) : Prop :=
  ∀ {s r a}, p s = some (a, r) → ∃ w c, s = w ++ c :: r ∧ Text.isLayout c = false

/-- What is read is shorter in the collapsed text as well. -/
theorem Solid.length_collapse_lt (hp : Solid p) {s r : Text} {a : α} (h : p s = some (a, r)) :
    (Text.collapse r).length < (Text.collapse s).length := by
  obtain ⟨w, c, rfl, hc⟩ := hp h
  rw [Text.collapse_concat_append hc, Text.collapse_append_cons hc]
  simp only [List.length_append, List.length_cons]
  omega

/-- A solid scanner reads a character. -/
theorem Solid.length_lt (hp : Solid p) {s r : Text} {a : α} (h : p s = some (a, r)) :
    r.length < s.length := by
  obtain ⟨w, c, rfl, -⟩ := hp h
  simp only [List.length_append, List.length_cons]
  omega

/-- A repetition of a blind and solid scanner takes the same turns in the collapsed text. -/
theorem blind_repeated (hp : Blind p) (hs : Solid p) (s : Text) :
    repeated p (Text.collapse s) = ((repeated p s).1, Text.collapse (repeated p s).2) := by
  induction hk : s.length using Nat.strong_induction_on generalizing s with
  | _ k ih =>
    cases h : p s with
    | none =>
      have blind : p (Text.collapse s) = none := by rw [hp, h]; rfl
      rw [repeated.eq_def, repeated.eq_def p s, progress_of_none h, progress_of_none blind]
    | some x =>
      obtain ⟨a, r⟩ := x
      have blind : p (Text.collapse s) = some (a, Text.collapse r) := by rw [hp, h]; rfl
      rw [repeated.eq_def, repeated.eq_def p s, (progress_eq_some (hs.length_lt h)).mpr h,
        (progress_eq_some (hs.length_collapse_lt h)).mpr blind]
      simp only [ih r.length (hk ▸ hs.length_lt h) r rfl]

theorem Blind.many (hp : Blind p) (hs : Solid p) : Blind (many p) := fun s => by
  rw [Scan.many, Scan.many, blind_repeated hp hs]
  rfl

theorem Blind.many1 (hp : Blind p) (hs : Solid p) : Blind (many1 p) :=
  hp.bind fun _ => (hp.many hs).bind fun _ => blind_pure _

/-- A repetition leaves the text, or stops behind a character that is no layout. -/
theorem solid_repeated (hs : Solid p) (s : Text) : (repeated p s).2 = s ∨
    ∃ w c, s = w ++ c :: (repeated p s).2 ∧ Text.isLayout c = false := by
  fun_induction repeated p s with
  | case1 => exact .inl rfl
  | case2 s a r hr hp as t e ih =>
    obtain ⟨w, c, rfl, hc⟩ := hs ((progress_eq_some _).mp hp)
    rw [e] at ih
    rcases ih with h | ⟨w', c', h, hc'⟩
    · exact .inr ⟨w, c, by rw [show t = r from h], hc⟩
    · refine .inr ⟨w ++ c :: w', c', ?_, hc'⟩
      rw [List.append_assoc, List.cons_append]
      exact congrArg (fun t => w ++ c :: t) h

theorem Solid.many1 (hs : Solid p) : Solid (many1 p) := by
  intro s r as h
  obtain ⟨a, s₁, h₁, h⟩ := bind_eq_some.mp h
  obtain ⟨bs, s₂, h₂, h⟩ := bind_eq_some.mp h
  obtain ⟨-, rfl⟩ := pure_eq_some.mp h
  obtain ⟨w, c, rfl, hc⟩ := hs h₁
  have rest := solid_repeated hs s₁
  rw [Option.some.inj h₂] at rest
  rcases rest with rfl | ⟨w', c', rfl, hc'⟩
  · exact ⟨w, c, rfl, hc⟩
  · exact ⟨w ++ c :: w', c', by simp, hc'⟩

/-- What is read, squeezed. -/
theorem blind_squeezed_lexeme (hp : Blind p) (hs : Solid p) :
    Blind (do
      let t ← lexeme p
      pure (Text.squeeze t)) := by
  intro s
  cases h : p s with
  | none =>
    have blind : p (Text.collapse s) = none := by rw [hp, h]; rfl
    have unread : lexeme p s = none := Option.map_eq_none_iff.mpr h
    have unread' : lexeme p (Text.collapse s) = none := Option.map_eq_none_iff.mpr blind
    rw [bind_of_none unread, bind_of_none unread']
    rfl
  | some x =>
    obtain ⟨a, r⟩ := x
    have blind : p (Text.collapse s) = some (a, Text.collapse r) := by rw [hp, h]; rfl
    obtain ⟨w, c, rfl, hc⟩ := hs h
    have whole : Text.upTo (w ++ c :: r) r = w ++ [c] := by
      rw [List.append_cons, Text.upTo_append_self]
    have whole' : Text.upTo (Text.collapse (w ++ c :: r)) (Text.collapse r) =
        Text.collapse (w ++ [c]) := by
      rw [Text.collapse_concat_append hc, Text.upTo_append_self]
    have read : lexeme p (w ++ c :: r) = some (w ++ [c], r) := by simp [lexeme, h, whole]
    have read' : lexeme p (Text.collapse (w ++ c :: r)) =
        some (Text.collapse (w ++ [c]), Text.collapse r) := by simp [lexeme, blind, whole']
    rw [bind_of_some read, bind_of_some read', Text.squeeze_collapse]
    rfl

/-! ### Comments, literals and words -/

/-- A fixed text without layout is found in front of the collapsed text as it is in front of the
text. -/
theorem after?_collapse {w : Text} (hw : w.all (!Text.isLayout ·) = true) (s : Text) :
    Text.after? w (Text.collapse s) = (Text.after? w s).map Text.collapse := by
  have := blind_exactly hw s
  rw [exactly, exactly] at this
  cases h : Text.after? w s <;> cases h' : Text.after? w (Text.collapse s) <;> simp_all

/-- Where a mark is found does not depend on the layout before it. -/
theorem splitAt?_collapse {c : Char} {w : Text} (hw : (c :: w).all (!Text.isLayout ·) = true)
    (s : Text) : (splitAt? (c :: w) (Text.collapse s)).map Prod.snd =
      ((splitAt? (c :: w) s).map Prod.snd).map Text.collapse := by
  have step (d : Char) (t : Text) : (splitAt? (c :: w) (d :: t)).map Prod.snd =
      (Text.after? (c :: w) (d :: t)).or ((splitAt? (c :: w) t).map Prod.snd) := by
    rw [splitAt?]
    cases Text.after? (c :: w) (d :: t) with
    | some r => rfl
    | none => cases splitAt? (c :: w) t <;> rfl
  induction s with
  | nil => rfl
  | cons d s ih =>
    cases hd : Text.isLayout d with
    | false =>
      rw [Text.collapse_cons hd, step, step, ← Text.collapse_cons hd, after?_collapse hw, ih]
      cases Text.after? (c :: w) (d :: s) <;> rfl
    | true =>
      have skip (e : Char) (he : Text.isLayout e = true) (t : Text) :
          (splitAt? (c :: w) (e :: t)).map Prod.snd = (splitAt? (c :: w) t).map Prod.snd := by
        have other : c ≠ e := by
          rintro rfl
          rw [List.all_cons, he] at hw
          cases hw
        rw [step, Text.after?, if_neg other, Option.none_or]
      rw [skip d hd]
      rcases Text.collapse_layout hd s with ⟨-, h⟩ | ⟨-, h⟩ <;> rw [h]
      · exact ih
      · rw [skip ' ' (by decide), ih]

/-- Skipping to a fixed text without layout is blind. -/
theorem blind_skipUpTo {c : Char} {w : Text} (hw : (c :: w).all (!Text.isLayout ·) = true) :
    Blind (do let _ ← upTo (c :: w) : Scan Unit) := by
  have read (s : Text) : (do let _ ← upTo (c :: w) : Scan Unit) s =
      ((splitAt? (c :: w) s).map Prod.snd).map fun r => ((), r) := by
    cases h : upTo (c :: w) s with
    | none =>
      rw [bind_of_none h, show splitAt? (c :: w) s = none from h]
      rfl
    | some x =>
      rw [bind_of_some h, show splitAt? (c :: w) s = some x from h]
      rfl
  intro s
  rw [read, read, splitAt?_collapse hw, Option.map_map, Option.map_map]
  cases splitAt? (c :: w) s <;> rfl

/-- In the reading that passes over layout a line comment is read blindly. -/
theorem blind_lineComment {opening : Text} (h : opening.all (!Text.isLayout ·) = true) :
    Blind (lineComment opening .free) := by
  have rest : Blind (do let _ ← run fun _ => true : Scan Unit) := by
    have all (s : Text) : (do let _ ← run fun _ => true : Scan Unit) s = some ((), []) :=
      bind_eq_some.mpr ⟨s, [], run_eq_some.mpr ⟨List.takeWhile_eq_self_iff.mpr fun _ _ => rfl,
        List.dropWhile_eq_nil_iff.mpr fun _ _ => rfl⟩, rfl⟩
    intro s
    rw [all, all]
    rfl
  exact (blind_exactly h).bind fun _ => rest

/-- A backslash escapes the same character, and a literal ends with the same quote. -/
theorem closeQuote?_collapse {q : Char} (hq : Text.isLayout q = false) (escaped : Bool)
    (s : Text) : closeQuote? .free q escaped (Text.collapse s) =
      (closeQuote? .free q escaped s).map Text.collapse := by
  induction s generalizing escaped with
  | nil => cases escaped <;> rfl
  | cons c s ih =>
    cases hc : Text.isLayout c with
    | false =>
      rw [Text.collapse_cons hc]
      cases escaped with
      | true => rw [closeQuote?, closeQuote?, ih]
      | false =>
        rw [closeQuote?, closeQuote?]
        split_ifs
        · rfl
        · exact ih _
    | true =>
      have skip (d : Char) (hd : Text.isLayout d = true) (t : Text) :
          closeQuote? .free q escaped (d :: t) = closeQuote? .free q escaped t := by
        have plain : d ≠ q ∧ d ≠ '\\' := by
          constructor <;> rintro rfl
          · rw [hq] at hd
            cases hd
          · cases hd
        cases escaped with
        | true => simp [closeQuote?, hd]
        | false => rw [closeQuote?, if_neg plain.1, beq_false_of_ne plain.2]
      rw [skip c hc]
      rcases Text.collapse_layout hc s with ⟨-, h⟩ | ⟨-, h⟩ <;> rw [h]
      · exact ih _
      · rw [skip ' ' (by decide), ih]

/-- In the reading that passes over layout a literal is read blindly. -/
theorem blind_literal {q : Char} (hq : Text.isLayout q = false) : Blind (literal .free q) := by
  have opening : ∀ c, Text.isLayout c = true → (c == q) = false := by
    intro c hc
    rw [beq_eq_false_iff_ne]
    rintro rfl
    rw [hq] at hc
    cases hc
  refine (blind_one opening).bind fun _ s => ?_
  rw [closeQuote?_collapse hq, Option.map_map, Option.map_map]
  rfl

/-- **What is passed over is passed over however it is broken into lines.** -/
theorem blind_codeGap : Blind codeGap := by
  have block : Blind blockComment :=
    (blind_exactly (by decide)).bind fun _ => blind_skipUpTo (by decide)
  have trivia : Blind (trivia .free) :=
    block.orElse ((blind_lineComment (by decide)).orElse ((blind_literal (by decide)).orElse
      (blind_literal (by decide))))
  exact trivia.orElse (blind_name.bind fun _ => blind_pure _)

/-! ### Sweeps -/

variable {item : Scan α} {gap : Scan Unit}

/-- A sweep takes a blind scanner's step in the collapsed text if it does in the text. -/
theorem progress_collapse (hp : Blind p) (hs : ∀ {s r a}, p s = some (a, r) → r <:+ s) {c : Char}
    (hc : Text.isLayout c = false) (s : Text) :
    (progress p (c :: s) = none ∧ progress p (c :: Text.collapse s) = none) ∨
      ∃ a r, ∃ (h : r.length < (c :: s).length)
        (h' : (Text.collapse r).length < (c :: Text.collapse s).length),
        progress p (c :: s) = some (a, ⟨r, h⟩) ∧
          progress p (c :: Text.collapse s) = some (a, ⟨Text.collapse r, h'⟩) := by
  have read : p (c :: Text.collapse s) =
      (p (c :: s)).map fun x => (x.1, Text.collapse x.2) := by
    rw [← hp, Text.collapse_cons hc]
  cases e : p (c :: s) with
  | none => exact .inl ⟨progress_of_none e, progress_of_none (by rw [read, e]; rfl)⟩
  | some x =>
    obtain ⟨a, r⟩ := x
    have blind : p (c :: Text.collapse s) = some (a, Text.collapse r) := by rw [read, e]; rfl
    rcases List.suffix_cons_iff.mp (hs e) with rfl | suffix
    · left
      constructor <;> simp [progress, e, blind, Text.collapse_cons hc]
    · have shorter : r.length < (c :: s).length := Nat.lt_succ_of_le suffix.length_le
      have shorter' := Nat.lt_succ_of_le (Text.collapse_suffix suffix).length_le
      exact .inr ⟨a, r, shorter, shorter', (progress_eq_some _).mpr e,
        (progress_eq_some _).mpr blind⟩

/-- **In the collapsed text a sweep finds the same.** -/
theorem sweep_collapse (hi : Blind item) (hg : Blind gap)
    (item_suffix : ∀ {s r a}, item s = some (a, r) → r <:+ s)
    (gap_suffix : ∀ {s r u}, gap s = some (u, r) → r <:+ s) (s : Text) :
    sweep item gap (Text.collapse s) = (sweep item gap s).map Found.collapse := by
  induction hk : s.length using Nat.strong_induction_on generalizing s with
  | _ k ih =>
    have front : (Text.collapse s).dropWhile Text.isLayout =
        Text.collapse (s.dropWhile Text.isLayout) := Text.dropWhile_collapse (fun _ h => h) s
    have shorter := Text.length_dropWhile_le Text.isLayout s
    cases e : s.dropWhile Text.isLayout with
    | nil =>
      rw [e, Text.collapse_nil] at front
      rw [sweep_of_nil e, sweep_of_nil front]
      rfl
    | cons c r =>
      have hc : Text.isLayout c = false := by
        have := List.head?_dropWhile_not Text.isLayout s
        simpa [e] using this
      rw [e, List.length_cons, hk] at shorter
      rw [e, Text.collapse_cons hc] at front
      rw [sweep_of_cons e, sweep_of_cons front]
      rcases progress_collapse hi item_suffix hc r with ⟨h, h'⟩ | ⟨a, t, hl, hl', h, h'⟩ <;>
        rw [h, h']
      · rcases progress_collapse hg gap_suffix hc r with ⟨g, g'⟩ | ⟨u, t, hl, hl', g, g'⟩ <;>
          rw [g, g']
        · exact ih r.length (by omega) r rfl
        · rw [List.length_cons] at hl
          exact ih t.length (by omega) t rfl
      · rw [List.length_cons] at hl
        dsimp only
        rw [List.map_cons, ih t.length (by omega) t rfl, Found.collapse, Text.collapse_cons hc]

end Scan

end VectorWrap
