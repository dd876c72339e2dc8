import VectorWrap.Declaration.Statement
import VectorWrap.Proofs.Scan.Lookahead

/-!
# A statement is read whatever follows it

Every form of statement ends with a fixed text, its semicolon or the end of the comment, and the
word after the introducer tells the forms apart.  So a text that is read as a statement to its end
is read as that statement also where more text follows: `closed_form`.

The optional words of an introducer are settled by the keyword of the statement
(`introducer_append`), the asterisks of a section mark by what may stand after them
(`closed_stars`).

The forms are alternatives, and an alternative is closed if those before it fail whatever follows
(`closed_orElse`).  A statement with a keyword is opened by a word and a mark by a slash, so each
excludes the others in the text that it reads itself (`Opened.other`, `Opened.not_mark`).
-/

namespace VectorWrap.Statement
open Scan

variable {α : Type}

/-! ### Keywords -/

/-- The word that comes next, in small letters. -/
def nextWord (s : Text) : Text :=
  Text.lower ((s.dropWhile Text.isLayout).takeWhile Text.inName)

/-- A keyword is read exactly if it is the next word. -/
theorem keyword_eq_some {w s r : Text} {u : Unit} :
    keyword w s = some (u, r) ↔
      nextWord s = w ∧ (s.dropWhile Text.isLayout).dropWhile Text.inName = r := by
  simp only [keyword, bind_eq_some, layout_eq_some, run_eq_some, guard_eq_some, nextWord]
  constructor
  · rintro ⟨-, _, rfl, _, _, ⟨rfl, rfl⟩, h, h'⟩
    exact ⟨h, h'⟩
  · rintro ⟨h, h'⟩
    exact ⟨(), _, rfl, _, _, ⟨rfl, rfl⟩, h, h'⟩

theorem keyword_of_ne {w s : Text} (h : nextWord s ≠ w) : keyword w s = none := by
  rw [Option.eq_none_iff_forall_ne_some]
  rintro ⟨_, r⟩ h'
  exact h (keyword_eq_some.mp h').1

/-- A word does not begin with a mark. -/
theorem keyword_of_mark {w s x : Text} {c : Char} (hw : w ≠ []) (hc : Text.inName c = false)
    (h : s.dropWhile Text.isLayout = c :: x) : keyword w s = none := by
  refine keyword_of_ne fun h' => hw ?_
  rw [← h', nextWord, h, List.takeWhile_cons, hc]
  rfl

/-- What is read after `create` and before the keyword of the statement. -/
theorem orReplace_append {w t z r x : Text} {o : Option Unit} (hw : w ≠ "or".toList)
    (hz : z ≠ []) (hr : r ≠ [])
    (h₁ : orNone (keyword "or" >>= fun _ => keyword "replace") (x ++ t) = some (o, z ++ t))
    (h₂ : keyword w (z ++ t) = some ((), r ++ t)) (u : Text) :
    orNone (keyword "or" >>= fun _ => keyword "replace") (x ++ u) = some (o, z ++ u) := by
  have hk : Local (keyword "or" >>= fun _ => keyword "replace") :=
    (local_keyword _).bind fun _ => local_keyword _
  rcases orNone_eq_some h₁ with ⟨a, rfl, h⟩ | ⟨rfl, -, h⟩
  · exact orNone_of_some (hk.append hz h)
  · obtain rfl := List.append_cancel_right h
    have hword := (keyword_eq_some.mp ((local_keyword w).append (u := u) hr h₂)).1
    exact orNone_of_none (bind_of_none (keyword_of_ne fun h' => hw (hword.symm.trans h')))

/-- An introducer leaves a part of the text. -/
theorem suffix_introducer {s r : Text} (h : introducer s = some ((), r)) : r <:+ s := by
  rcases orElse_eq_some.mp h with h | ⟨-, h⟩
  · obtain ⟨_, s₁, h₁, h₂⟩ := bind_eq_some.mp h
    obtain ⟨o, s₂, h₃, h₄⟩ := bind_eq_some.mp h₂
    obtain ⟨-, rfl⟩ := pure_eq_some.mp h₄
    rcases orNone_eq_some h₃ with ⟨_, -, h₅⟩ | ⟨-, -, rfl⟩
    · exact (((local_keyword _).bind fun _ => local_keyword _).suffix h₅).trans
        ((local_keyword _).suffix h₁)
    · exact (local_keyword _).suffix h₁
  · exact (local_keyword _).suffix h

/-- What opens a statement depends on the keyword after it and on nothing further on. -/
theorem introducer_append {w y t s r : Text} (hw : w ≠ "or".toList) (hr : r ≠ [])
    (h₁ : introducer (y ++ t) = some ((), s)) (h₂ : keyword w s = some ((), r ++ t)) :
    ∃ z, s = z ++ t ∧ z ≠ [] ∧ ∀ u, introducer (y ++ u) = some ((), z ++ u) := by
  obtain ⟨z, rfl, hrz, -⟩ := exists_between (suffix_introducer h₁) ((local_keyword w).suffix h₂)
  have hz : z ≠ [] := by rintro rfl; exact hr (List.suffix_nil.mp hrz)
  refine ⟨z, rfl, hz, fun u => ?_⟩
  rcases orElse_eq_some.mp h₁ with h₁ | ⟨-, h₁⟩
  · obtain ⟨_, s₁, h₃, h₄⟩ := bind_eq_some.mp h₁
    obtain ⟨o, s₂, h₅, h₆⟩ := bind_eq_some.mp h₄
    obtain ⟨-, rfl⟩ := pure_eq_some.mp h₆
    obtain ⟨x, rfl, hx, -⟩ : ∃ x, s₁ = x ++ t ∧ z <:+ x ∧ x <:+ y := by
      refine exists_between ((local_keyword _).suffix h₃) ?_
      rcases orNone_eq_some h₅ with ⟨_, -, h₇⟩ | ⟨-, -, rfl⟩
      · exact ((local_keyword _).bind fun _ => local_keyword _).suffix h₇
      · exact List.suffix_rfl
    have hx0 : x ≠ [] := by rintro rfl; exact hz (List.suffix_nil.mp hx)
    have h₃' := (local_keyword _).append (u := u) hx0 h₃
    refine orElse_eq_some.mpr (.inl (bind_eq_some.mpr ⟨(), _, h₃', ?_⟩))
    exact bind_eq_some.mpr ⟨o, _, orReplace_append hw hz hr h₅ h₂ u, rfl⟩
  · have h₁' := (local_keyword _).append (u := u) hz h₁
    -- the word is the other introducer, so it is not `create`
    refine orElse_eq_some.mpr (.inr ⟨bind_of_none (keyword_of_ne ?_), h₁'⟩)
    rw [(keyword_eq_some.mp h₁').1]
    decide

/-- A statement with the keyword `w`. -/
def Opened (w : Text) (p : Scan Statement) : Prop :=
  w ≠ "or".toList ∧ ∃ q, Closed q ∧ p = introducer >>= fun _ => keyword w >>= fun _ => q

/-- A statement with a keyword is closed. -/
theorem Opened.closed {w : Text} {p : Scan Statement} (h : Opened w p) : Closed p := by
  obtain ⟨hw, q, hq, rfl⟩ := h
  have hk := (local_keyword w).bind_closed fun _ => hq
  refine ⟨⟨fun h => ?_, fun {y t u a r} h => ?_⟩, fun h => ?_⟩
  · obtain ⟨_, s, h₁, h₂⟩ := bind_eq_some.mp h
    exact (hk.suffix h₂).trans (suffix_introducer h₁)
  · obtain ⟨_, s, h₁, h₂⟩ := bind_eq_some.mp h
    obtain ⟨_, s₁, h₃, h₄⟩ := bind_eq_some.mp h₂
    obtain ⟨z, rfl, -, -⟩ := exists_between
      (((local_keyword w).suffix h₃).trans (suffix_introducer h₁)) (hq.suffix h₄)
    have hz := hq.ne_nil h₄
    obtain ⟨x, rfl, -, hx⟩ := introducer_append hw hz h₁ h₃
    exact bind_eq_some.mpr ⟨(), _, hx u, bind_eq_some.mpr
      ⟨(), _, (local_keyword w).append hz h₃, hq.append h₄⟩⟩
  · obtain ⟨_, s, h₁, h₂⟩ := bind_eq_some.mp h
    exact lt_of_lt_of_le (hk.shrinks h₂) (suffix_introducer h₁).length_le

/-- Where a statement with one keyword is read there is none with another. -/
theorem Opened.other {w v : Text} {p p' : Scan Statement} (h : Opened w p) (h' : Opened v p')
    (hv : v ≠ w) {s r : Text} {a : Statement} (hp : p s = some (a, r)) : p' s = none := by
  obtain ⟨-, q, -, rfl⟩ := h
  obtain ⟨-, q', -, rfl⟩ := h'
  obtain ⟨_, s, h₁, h₂⟩ := bind_eq_some.mp hp
  obtain ⟨_, s₁, h₃, -⟩ := bind_eq_some.mp h₂
  rw [bind_of_some h₁]
  refine bind_of_none (keyword_of_ne fun e => hv ?_)
  exact e.symm.trans (keyword_eq_some.mp h₃).1

/-- No such statement begins with a mark. -/
theorem Opened.of_mark {w x : Text} {c : Char} {p : Scan Statement} (h : Opened w p)
    (hc : Text.inName c = false) (hl : Text.isLayout c = false) : p (c :: x) = none := by
  obtain ⟨-, q, -, rfl⟩ := h
  refine bind_of_none ?_
  have hk : ∀ {v : Text}, v ≠ [] → keyword v (c :: x) = none := fun hv =>
    keyword_of_mark hv hc (List.dropWhile_cons_of_neg (by simp [hl]))
  rw [introducer, orElse_of_none (bind_of_none (hk (by decide))), hk (by decide)]

/-! ### Functions, casts and types -/

theorem closed_quoted : Closed quoted :=
  (closed_symbol (by decide)).toLocal.bind_closed fun _ => closed_upTo (by decide)

/-- A function is a statement with a keyword. -/
theorem opened_functionForm : Opened "function" functionForm := by
  refine ⟨by decide, _, ?_, rfl⟩
  exact local_ident.bind_closed fun _ => closed_parenthesised.toLocal.bind_closed fun _ =>
    (local_keyword _).bind_closed fun _ => local_ident.bind_closed fun _ =>
    (local_keyword _).bind_closed fun _ => closed_quoted.toLocal.bind_closed fun _ =>
    (closed_symbol (by decide)).toLocal.bind_closed fun _ =>
    closed_quoted.toLocal.bind_closed fun _ => (closed_upTo (by decide)).bind fun _ => rigid_pure _

/-- A cast is a statement with a keyword. -/
theorem opened_castForm : Opened "cast" castForm := by
  refine ⟨by decide, _, ?_, rfl⟩
  exact
    (closed_symbol (by decide)).toLocal.bind_closed fun _ => local_ident.bind_closed fun _ =>
    (local_keyword _).bind_closed fun _ => local_ident.bind_closed fun _ =>
    (closed_symbol (by decide)).toLocal.bind_closed fun _ => (local_keyword _).bind_closed fun _ =>
    (local_keyword _).bind_closed fun _ => local_ident.bind_closed fun _ =>
    (closed_symbol (by decide)).toLocal.bind_closed fun _ =>
    (closed_upTo (by decide)).toLocal.bind_closed fun _ =>
    closed_orNone ((local_keyword _).bind fun _ => local_ident)
      (fun _ => (closed_symbol (by decide)).bind fun _ => rigid_pure _) fun h => by
        obtain ⟨_, _, h, -⟩ := bind_eq_some.mp h
        exact bind_of_none (keyword_of_mark (by decide) (by decide) (symbol_eq_some.mp h))

/-- A type is a statement with a keyword. -/
theorem opened_typeForm : Opened "type" typeForm := by
  refine ⟨by decide, _, ?_, rfl⟩
  refine local_ident.bind_closed fun _ => (closed_orElse (closed_symbol (by decide))
    (closed_parenthesised.toLocal.bind_closed fun _ => closed_symbol (by decide))
    fun h => ?_).bind fun _ => rigid_pure _
  -- the parenthesis stands where the semicolon would
  obtain ⟨_, s, h₁, -⟩ := bind_eq_some.mp h
  obtain ⟨_, s₁, h₃, -⟩ := bind_eq_some.mp h₁
  rw [Option.eq_none_iff_forall_ne_some]
  rintro ⟨_, x⟩ hx
  have := (symbol_eq_some.mp hx).symm.trans (symbol_eq_some.mp h₃)
  cases this

/-! ### Operators -/

/-- The end of a value divides the text. -/
theorem valueEnd?_eq {d : Nat} {s a r : Text} (h : valueEnd? d s = some (a, r)) : s = a ++ r := by
  induction s generalizing d a with
  | nil => cases h
  | cons c s ih =>
    unfold valueEnd? at h
    split at h
    · obtain ⟨rfl, rfl⟩ := by simpa using h
      rfl
    · obtain ⟨⟨b, r⟩, h', e⟩ := Option.map_eq_some_iff.mp h
      obtain ⟨rfl, rfl⟩ := by simpa using e
      rw [ih h', List.cons_append]

theorem valueEnd?_suffix {d : Nat} {s a r : Text} (h : valueEnd? d s = some (a, r)) :
    r <:+ s :=
  valueEnd?_eq h ▸ List.suffix_append a r

/-- The end of a value in a text is the same whatever follows the text. -/
theorem valueEnd?_append {d : Nat} {y t u a r : Text} (hr : r ≠ [])
    (h : valueEnd? d (y ++ t) = some (a, r ++ t)) : valueEnd? d (y ++ u) = some (a, r ++ u) := by
  induction y generalizing d a with
  | nil =>
    have := (valueEnd?_suffix h).length_le
    have := List.length_pos_iff.mpr hr
    simp only [List.length_append, List.nil_append] at *
    omega
  | cons c y ih =>
    simp only [List.cons_append, valueEnd?] at h ⊢
    split at h <;> rename_i hc
    · obtain ⟨rfl, h'⟩ := by simpa using h
      rw [← List.cons_append] at h'
      rw [if_pos hc, ← List.append_cancel_right h', List.cons_append]
    · obtain ⟨⟨b, x⟩, h', e⟩ := Option.map_eq_some_iff.mp h
      obtain ⟨rfl, rfl⟩ := by simpa using e
      rw [if_neg hc, ih h']
      rfl

/-- A property ends where something is left. -/
theorem local_property : Local property := by
  have hv : Local (fun s => valueEnd? 0 s : Scan Text) := ⟨valueEnd?_suffix, valueEnd?_append⟩
  exact local_ident.bind fun _ => (closed_symbol (by decide)).toLocal.bind fun _ =>
    local_layout.bind fun _ => hv.bind fun _ => (rigid_guard _).toLocal.bind fun _ =>
    (rigid_pure _).toLocal

/-- An operator is a statement with a keyword. -/
theorem opened_operatorForm : Opened "operator" operatorForm := by
  refine ⟨by decide, _, ?_, rfl⟩
  have hsep : Local (symbol "," >>= fun _ => property) :=
    (closed_symbol (by decide)).toLocal.bind fun _ => local_property
  refine local_layout.bind_closed fun _ => (local_run1 _).bind_closed fun _ =>
    (closed_symbol (by decide)).toLocal.bind_closed fun _ => local_property.bind_closed fun _ =>
    closed_many hsep (fun _ => (closed_symbol (by decide)).bind fun _ =>
      (closed_symbol (by decide)).toRigid.bind fun _ => rigid_pure _) fun h => bind_of_none ?_
  obtain ⟨_, _, h, -⟩ := bind_eq_some.mp h
  rw [Option.eq_none_iff_forall_ne_some]
  rintro ⟨_, x⟩ hx
  have := (symbol_eq_some.mp hx).symm.trans (symbol_eq_some.mp h)
  cases this

/-! ### Section marks -/

/-- Dropping asterisks leaves a part of the text. -/
theorem dropStars_suffix (s : Text) : dropStars s <:+ s := by
  fun_induction dropStars s with
  | case1 => exact List.suffix_rfl
  | case2 c s _ ih => exact ih.trans (List.suffix_cons _ _)
  | case3 => exact List.suffix_rfl

/-- A last asterisk is dropped or not by the character after it; before that nothing depends on
what follows. -/
theorem dropStars_append {y t u r : Text} (hr : r ≠ []) (hr' : r ≠ ['*'])
    (h : dropStars (y ++ t) = r ++ t) : dropStars (y ++ u) = r ++ u := by
  have hlen : ∀ z : Text, dropStars (z ++ t) = r ++ t → z ≠ [] := by
    rintro _ h rfl
    have := (dropStars_suffix t).length_le
    have := List.length_pos_iff.mpr hr
    simp only [List.nil_append] at h
    simp only [h, List.length_append] at *
    omega
  induction y with
  | nil => exact absurd rfl (hlen [] h)
  | cons c y ih =>
    simp only [List.cons_append, dropStars] at h ⊢
    split at h <;> rename_i hc
    · -- more is left of `y`, so the character after the asterisk is the same
      obtain ⟨d, y, rfl⟩ := List.exists_cons_of_ne_nil (hlen y h)
      rw [if_pos (by simpa using hc)]
      exact ih h
    · rw [← List.cons_append] at h
      obtain rfl := List.append_cancel_right h
      rw [if_neg]
      · simp
      · rintro ⟨rfl, hd⟩
        cases y with
        | nil => exact hr' rfl
        | cons d y => exact hc ⟨rfl, hd⟩

/-- Asterisks before something that cannot stand on a further asterisk alone. -/
theorem closed_stars {q : Scan α} (hq : Closed q)
    (h : ∀ {t a x}, q ('*' :: t) = some (a, x) → x.length < t.length) :
    Closed (stars >>= fun _ => q) := by
  have hs : ∀ {s r : Text} {v}, stars s = some (v, r) ↔ dropStars s = r := by simp [stars]
  have hl : ∀ {s r : Text} {v}, stars s = some (v, r) → r <:+ s := fun h' =>
    hs.mp h' ▸ dropStars_suffix _
  refine ⟨⟨fun h' => ?_, fun {y t u b r} h' => ?_⟩, fun h' => ?_⟩
  · obtain ⟨_, s, h₁, h₂⟩ := bind_eq_some.mp h'
    exact (hq.suffix h₂).trans (hl h₁)
  · obtain ⟨_, s, h₁, h₂⟩ := bind_eq_some.mp h'
    obtain ⟨z, rfl, -, -⟩ := exists_between (hl h₁) (hq.suffix h₂)
    have hz := hq.ne_nil h₂
    have hz' : z ≠ ['*'] := by
      rintro rfl
      have := h (t := t) h₂
      rw [List.length_append] at this
      omega
    exact bind_eq_some.mpr ⟨(), _, hs.mpr (dropStars_append hz hz' (hs.mp h₁)), hq.append h₂⟩
  · obtain ⟨_, s, h₁, h₂⟩ := bind_eq_some.mp h'
    exact lt_of_lt_of_le (hq.shrinks h₂) (hl h₁).length_le

theorem local_spaces : Local spaces :=
  (local_run _).bind fun _ => (rigid_pure _).toLocal

/-- A line break is a line feed, a carriage return with one, or a carriage return alone. -/
theorem lineBreak_eq_some {s r : Text} {v : Unit} :
    lineBreak s = some (v, r) ↔
      s = '\n' :: r ∨ s = '\r' :: '\n' :: r ∨ s = '\r' :: r ∧ r.head? ≠ some '\n' := by
  have hnone : ∀ {w : Text}, exactly w s = none ↔ ∀ x, s ≠ w ++ x := by
    intro w
    rw [Option.eq_none_iff_forall_ne_some]
    exact ⟨fun h x e => h ((), x) (exactly_eq_some.mpr e),
      fun h x e => h x.2 (exactly_eq_some.mp e)⟩
  simp only [lineBreak, orElse_eq_some, exactly_eq_some, hnone]
  constructor
  · rintro (rfl | ⟨-, rfl | ⟨h, rfl⟩⟩)
    · exact .inl rfl
    · exact .inr (.inl rfl)
    · refine .inr (.inr ⟨rfl, fun hr => ?_⟩)
      obtain ⟨x, rfl⟩ := List.head?_eq_some_iff.mp hr
      exact h x rfl
  · rintro (rfl | rfl | ⟨rfl, hr⟩)
    · exact .inl rfl
    · exact .inr ⟨(fun x h => nomatch h), .inl rfl⟩
    · refine .inr ⟨(fun x h => nomatch h), .inr ⟨fun x h => ?_, rfl⟩⟩
      cases h
      exact hr rfl

/-- A line break ends where something is left. -/
theorem local_lineBreak : Local lineBreak where
  suffix h := by
    rcases lineBreak_eq_some.mp h with rfl | rfl | ⟨rfl, -⟩
    · exact List.suffix_cons _ _
    · exact (List.suffix_cons _ _).trans (List.suffix_cons _ _)
    · exact List.suffix_cons _ _
  append {y t u a r} hr h := by
    rw [lineBreak_eq_some] at h ⊢
    simp only [← List.cons_append, List.append_cancel_right_eq] at h
    obtain ⟨c, r, rfl⟩ := List.exists_cons_of_ne_nil hr
    rcases h with rfl | rfl | ⟨rfl, hc⟩
    · exact .inl rfl
    · exact .inr (.inl rfl)
    · exact .inr (.inr ⟨rfl, by simpa using hc⟩)

theorem lineBreak_of_mark {s : Text} {c : Char} (h : s.head? = some c) (hn : c ≠ '\n')
    (hr : c ≠ '\r') : lineBreak s = none := by
  rw [Option.eq_none_iff_forall_ne_some]
  rintro ⟨_, x⟩ hx
  rcases lineBreak_eq_some.mp hx with rfl | rfl | ⟨rfl, -⟩
  · exact hn (by simpa using h.symm)
  · exact hr (by simpa using h.symm)
  · exact hr (by simpa using h.symm)

/-- The mark of a section is closed. -/
theorem closed_markForm : Closed markForm := by
  refine (closed_exactly (by decide)).toLocal.bind_closed fun _ => closed_stars ?_ ?_
  · refine local_spaces.bind_closed fun _ => local_lineBreak.bind_closed fun _ =>
      local_spaces.bind_closed fun _ => (closed_exactly (by decide)).toLocal.bind_closed fun _ =>
      local_spaces.bind_closed fun _ => (local_run1 _).bind_closed fun _ =>
      local_spaces.bind_closed fun _ => local_lineBreak.bind_closed fun _ =>
      local_spaces.bind_closed fun _ => closed_stars ((closed_exactly (by decide)).bind fun _ =>
        rigid_pure _) fun {t a x} h => ?_
    obtain ⟨_, s, h₁, h₂⟩ := bind_eq_some.mp h
    obtain ⟨-, rfl⟩ := pure_eq_some.mp h₂
    have := congrArg List.length (exactly_eq_some.mp h₁)
    simp at this
    omega
  · intro t a x h
    obtain ⟨_, s, h₁, h₂⟩ := bind_eq_some.mp h
    obtain ⟨_, s₁, h₃, -⟩ := bind_eq_some.mp h₂
    obtain ⟨_, s₂, h₄, h₅⟩ := bind_eq_some.mp h₁
    obtain ⟨-, rfl⟩ := pure_eq_some.mp h₅
    obtain ⟨-, rfl⟩ := run_eq_some.mp h₄
    rw [lineBreak_of_mark (c := '*') (by rfl) (by decide) (by decide)] at h₃
    cases h₃

/-! ### All forms -/

/-- The only mark that can begin a statement is the slash of a comment. -/
theorem form_of_mark {c : Char} {x : Text} (hc : Text.inName c = false)
    (hl : Text.isLayout c = false) : form (c :: x) = markForm (c :: x) := by
  cases e : markForm (c :: x) with
  | some y => exact orElse_eq_some.mpr (.inl e)
  | none =>
    rw [form, orElse_of_none e, orElse_of_none (opened_functionForm.of_mark hc hl),
      orElse_of_none (opened_castForm.of_mark hc hl),
      orElse_of_none (opened_typeForm.of_mark hc hl), opened_operatorForm.of_mark hc hl]

/-- Where a statement is read there is no section mark. -/
theorem Opened.not_mark {w : Text} {p : Scan Statement} (h : Opened w p) {s r : Text}
    {a : Statement} (hp : p s = some (a, r)) : markForm s = none := by
  refine bind_of_none ?_
  rw [Option.eq_none_iff_forall_ne_some]
  rintro ⟨_, x⟩ hx
  obtain rfl : s = '/' :: '*' :: x := exactly_eq_some.mp hx
  rw [h.of_mark (by decide) (by decide)] at hp
  cases hp

/-- **A statement that ends before `t` is read in the same way before any other text.** -/
theorem closed_form : Closed form := by
  have hf := opened_functionForm
  have hc := opened_castForm
  have ht := opened_typeForm
  have ho := opened_operatorForm
  -- an earlier form is never read where a later one is: their keywords differ
  refine closed_orElse closed_markForm (closed_orElse hf.closed (closed_orElse hc.closed
    (closed_orElse ht.closed ho.closed ?_) ?_) ?_) ?_ <;> intro s a r h
  · exact ho.other ht (by decide) h
  · rcases orElse_eq_some.mp h with h | ⟨-, h⟩
    · exact ht.other hc (by decide) h
    · exact ho.other hc (by decide) h
  · rcases orElse_eq_some.mp h with h | ⟨-, h⟩
    · exact hc.other hf (by decide) h
    · rcases orElse_eq_some.mp h with h | ⟨-, h⟩
      · exact ht.other hf (by decide) h
      · exact ho.other hf (by decide) h
  · rcases orElse_eq_some.mp h with h | ⟨-, h⟩
    · exact hf.not_mark h
    · rcases orElse_eq_some.mp h with h | ⟨-, h⟩
      · exact hc.not_mark h
      · rcases orElse_eq_some.mp h with h | ⟨-, h⟩
        · exact ht.not_mark h
        · exact ho.not_mark h

end VectorWrap.Statement
