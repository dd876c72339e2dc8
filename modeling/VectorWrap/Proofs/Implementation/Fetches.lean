import VectorWrap.Proofs.Implementation.Passed
import VectorWrap.Proofs.Text.Squeeze

/-!
# Fetch statements

`T v = (C) PG_GETARG_K(i);`, with or without the type and the cast: what is read of such a statement
is what it was written with, whatever follows it (`declaration_append`, `assignment_append`).

The hard part is the type.  It is read token by token up to the variable, and each token looks ahead
for the variable and its equals sign, so that the last word before the sign is never taken for a
part of the type (`typeToken_append`, `typeToken_stop`); how a type is divided into tokens does not
matter, since all of them are squeezed together.
-/

namespace VectorWrap

open Scan ArgSlot

namespace ArgSlot

/-! ### Statements -/

/-- A fetch of an argument into a variable. -/
structure Fetch where
  /-- The type and what separates it from the variable; empty where no type is written. -/
  left : Text
  var : Text
  cast? : Option Text
  kind : Text
  digits : Text

namespace Fetch

/-- Belongs to a word, is an asterisk or a space. -/
def inWords (c : Char) : Bool :=
  Text.inName c || c == '*' || c == ' '

/-- The fetching macro with its argument. -/
def call (f : Fetch) : Text :=
  "PG_GETARG_" ++ (f.kind ++ ("(" ++ (f.digits ++ ")")))

/-- The cast, if there is one, and the fetch. -/
def right (f : Fetch) : Text :=
  match f.cast? with
  | some type => "(" ++ (type ++ (") " ++ f.call))
  | none => f.call

/-- The statement, on a line of its own. -/
def line (f : Fetch) : Text :=
  f.left ++ (f.var ++ (" = " ++ (f.right ++ ";\n")))

/-- The type and the cast are words and asterisks, and the variable is a name. -/
structure Proper (f : Fetch) : Prop where
  left : ∀ c ∈ f.left, inWords c = true
  left_head : f.left.head? ≠ some ' '
  left_last : ∀ c, f.left.getLast? = some c → Text.inName c = false
  var : Text.isName f.var = true
  cast : ∀ type, f.cast? = some type → (∀ c ∈ type, inWords c = true) ∧
    ∃ c rest, type = c :: rest ∧ c ≠ ' '
  kind : f.kind ≠ [] ∧ ∀ c ∈ f.kind, inKind c = true
  digits : f.digits ≠ [] ∧ ∀ c ∈ f.digits, c.isDigit = true

/-- What the statement says of the slot. -/
def binding (f : Fetch) : Binding where
  type? := f.cast?.map Text.squeeze <|> if f.left = [] then none else some (Text.squeeze f.left)
  var := f.var
  kind := f.kind
  digits := f.digits

theorem inType_of_inWords {c : Char} (h : inWords c = true) : inType c = true := by
  simp only [inWords, Bool.or_eq_true, beq_iff_eq] at h
  rcases h with (h | rfl) | rfl
  · exact inType_of_inName h
  · rfl
  · rfl

theorem inName_of_isDigit {c : Char} (h : c.isDigit = true) : Text.inName c = true := by
  simp [Text.inName, Char.isAlphanum, h]

variable {f : Fetch}

/-! ### What is read of a statement -/

theorem call_append (f : Fetch) (t : Text) :
    f.call ++ t = "PG_GETARG_" ++ (f.kind ++ ("(" ++ (f.digits ++ (")" ++ t)))) := by
  unfold Fetch.call
  simp only [List.append_assoc]

/-- A written fetch is read, whatever follows it. -/
theorem fetch_append (hf : f.Proper) (t : Text) :
    fetch (f.call ++ t) = some ((f.kind, f.digits), t) := by
  have kind : run1 inKind (f.kind ++ ("(" ++ (f.digits ++ (")" ++ t)))) = some (f.kind, _) :=
    run1_append hf.kind.1 hf.kind.2 fun c hc => by
      cases hc
      rfl
  have paren : symbol "(" ("(" ++ (f.digits ++ (")" ++ t))) = some ((), f.digits ++ (")" ++ t)) :=
    @symbol_append [] _ (by simp) rfl _
  have skip : layout (f.digits ++ (")" ++ t)) = some ((), f.digits ++ (")" ++ t)) := by
    refine layout_eq_some.mpr ?_
    obtain ⟨c, rest, e⟩ := List.exists_cons_of_ne_nil hf.digits.1
    have hc : Text.isLayout c = false := by
      rw [Bool.eq_false_iff]
      intro hl
      have := Text.inName_of_isLayout hl
      rw [inName_of_isDigit (hf.digits.2 c (by rw [e]; exact List.mem_cons_self))] at this
      cases this
    rw [e, List.cons_append, List.dropWhile_cons_of_neg (by simp [hc])]
  have digits : run1 Char.isDigit (f.digits ++ (")" ++ t)) = some (f.digits, ")" ++ t) :=
    run1_append hf.digits.1 hf.digits.2 fun c hc => by
      cases hc
      rfl
  have close : symbol ")" (")" ++ t) = some ((), t) := @symbol_append [] _ (by simp) rfl _
  rw [call_append]
  refine bind_eq_some.mpr ⟨(), _, exactly_eq_some.mpr rfl, bind_eq_some.mpr ⟨_, _, kind, ?_⟩⟩
  refine bind_eq_some.mpr ⟨(), _, paren, bind_eq_some.mpr ⟨(), _, skip, ?_⟩⟩
  exact bind_eq_some.mpr ⟨_, _, digits, bind_eq_some.mpr ⟨(), _, close, rfl⟩⟩

theorem isLayout_of_inWords {c : Char} (h : inWords c = true) (hc : c ≠ ' ') :
    Text.isLayout c = false := by
  rw [Bool.eq_false_iff]
  intro hl
  simp only [inWords, Bool.or_eq_true, beq_iff_eq, Text.inName_of_isLayout hl,
    Bool.false_eq_true, false_or] at h
  rcases h with rfl | rfl
  · cases hl
  · exact hc rfl

/-- The cast is read where there is one, and otherwise nothing. -/
theorem cast_append (hf : f.Proper) (t : Text) : orNone castForm (' ' :: (f.right ++ t)) =
    some (f.cast?.map Text.squeeze, ' ' :: (f.call ++ t)) := by
  cases e : f.cast? with
  | none =>
    have unread : castForm (' ' :: (f.call ++ t)) = none := by
      refine bind_of_none (Option.eq_none_iff_forall_ne_some.mpr ?_)
      rintro ⟨_, x⟩ hx
      cases symbol_eq_some.mp hx
    rw [right, e]
    exact orNone_of_none unread
  | some type =>
    obtain ⟨words, c, rest, hc, hne⟩ := hf.cast type e
    have right : f.right ++ t = "(" ++ (type ++ ')' :: ' ' :: (f.call ++ t)) := by
      simp [Fetch.right, e]
    have first : Text.isLayout c = false :=
      isLayout_of_inWords (words c (by rw [hc]; exact List.mem_cons_self)) hne
    have openParen : symbol "(" (' ' :: (f.right ++ t)) =
        some ((), type ++ ')' :: ' ' :: (f.call ++ t)) := by
      rw [right]
      exact @symbol_append [' '] _ layout_space rfl _
    have skip : layout (type ++ ')' :: ' ' :: (f.call ++ t)) =
        some ((), type ++ ')' :: ' ' :: (f.call ++ t)) := by
      refine layout_eq_some.mpr ?_
      rw [hc, List.cons_append, List.dropWhile_cons_of_neg (by simp [first])]
    have read : run1 (· != ')') (type ++ ')' :: ' ' :: (f.call ++ t)) =
        some (type, ')' :: ' ' :: (f.call ++ t)) := by
      refine run1_append (by rw [hc]; exact List.cons_ne_nil _ _) (fun d hd => ?_) fun d hd => ?_
      · have hw := words d hd
        rw [bne_iff_ne]
        rintro rfl
        cases hw
      · cases hd
        rfl
    have closeParen : symbol ")" (')' :: ' ' :: (f.call ++ t)) = some ((), ' ' :: (f.call ++ t)) :=
      @symbol_append [] _ (by simp) rfl _
    refine orNone_of_some (bind_eq_some.mpr ⟨(), _, openParen, bind_eq_some.mpr ⟨(), _, skip, ?_⟩⟩)
    exact bind_eq_some.mpr ⟨type, _, read, bind_eq_some.mpr ⟨(), _, closeParen, rfl⟩⟩

/-- **A written assignment is read**, whatever follows it. -/
theorem assignment_append (hf : f.Proper) {lay : Text} (hl : ∀ c ∈ lay, Text.isLayout c = true)
    (t : Text) : assignment (lay ++ (f.var ++ (" = " ++ (f.right ++ t)))) =
      some (⟨f.cast?.map Text.squeeze, f.var, f.kind, f.digits⟩, t) := by
  have var : ident (lay ++ (f.var ++ (" = " ++ (f.right ++ t)))) = some (f.var, _) :=
    ident_append hl hf.var fun c hc => by
      cases hc
      rfl
  have sign : symbol "=" (" = " ++ (f.right ++ t)) = some ((), ' ' :: (f.right ++ t)) :=
    @symbol_append [' '] _ layout_space rfl _
  have space : layout (' ' :: (f.call ++ t)) = some ((), f.call ++ t) := layout_eq_some.mpr rfl
  refine bind_eq_some.mpr ⟨f.var, _, var, bind_eq_some.mpr ⟨(), _, sign, ?_⟩⟩
  refine bind_eq_some.mpr ⟨_, _, cast_append hf t, bind_eq_some.mpr ⟨(), _, space, ?_⟩⟩
  exact bind_eq_some.mpr ⟨_, _, fetch_append hf t, rfl⟩

/-! ### The type of a statement -/

theorem ne_sign_of_inWords {c : Char} (h : inWords c = true) : c ≠ '=' := by
  rintro rfl
  cases h

/-- No equals sign comes before a name. -/
theorem no_sign {y v : Text} (hy : ∀ c ∈ y, inWords c = true) (hv : Text.isName v = true)
    (s : Text) : symbol "=" (y ++ (v ++ s)) = none := by
  obtain ⟨d, v, rfl⟩ := List.exists_cons_of_ne_nil (Text.ne_nil_of_isName hv)
  have hd : Text.inName d = true := Text.all_inName_of_isName hv d List.mem_cons_self
  rw [Option.eq_none_iff_forall_ne_some]
  rintro ⟨_, r⟩ hr
  have first : (y ++ (d :: v ++ s)).dropWhile Text.isLayout = '=' :: r := symbol_eq_some.mp hr
  rw [List.dropWhile_append] at first
  split at first
  · have hl : Text.isLayout d = false := by
      rw [Bool.eq_false_iff]
      intro hl
      rw [Text.inName_of_isLayout hl] at hd
      cases hd
    rw [List.cons_append, List.dropWhile_cons_of_neg (by simp [hl])] at first
    cases (List.cons_eq_cons.mp first).1
    cases hd
  · next hne =>
    obtain ⟨e, z, hz⟩ := List.exists_cons_of_ne_nil (mt List.isEmpty_iff.mpr hne)
    rw [hz] at first
    have he : e ∈ y := (List.dropWhile_sublist _).subset (hz ▸ List.mem_cons_self)
    exact ne_sign_of_inWords (hy e he) (List.cons_eq_cons.mp first).1

/-- In a type no variable stands before an equals sign. -/
theorem no_sign_of_ident {c : Char} {y v s r w : Text} (hy : ∀ d ∈ c :: y, inWords d = true)
    (hlast : ∀ d, (c :: y).getLast? = some d → Text.inName d = false)
    (hv : Text.isName v = true) (hc : Text.isLayout c = false)
    (h : ident (c :: y ++ (v ++ s)) = some (w, r)) : symbol "=" r = none := by
  obtain ⟨_, s₁, h₁, h⟩ := bind_eq_some.mp h
  rw [layout_eq_some, List.cons_append, List.dropWhile_cons_of_neg (by simp [hc])] at h₁
  subst h₁
  simp only [name, Option.ite_none_right_eq_some, Option.some.injEq, Prod.mk.injEq] at h
  obtain ⟨hs, -, rfl⟩ := h
  -- the last character of the type belongs to no name
  have left : y.dropWhile Text.inName ≠ [] := by
    intro e
    have word : ∀ d ∈ c :: y, Text.inName d = true :=
      List.forall_mem_cons.mpr ⟨Text.inName_of_startsName hs, List.dropWhile_eq_nil_iff.mp e⟩
    obtain ⟨d, hd⟩ := Option.isSome_iff_exists.mp
      (List.getLast?_isSome.mpr (List.cons_ne_nil c y))
    have := hlast d hd
    rw [word d (List.mem_of_getLast? hd)] at this
    cases this
  rw [Text.dropWhile_append_of_ne_nil _ left]
  exact no_sign (fun d hd => hy d (List.mem_cons_of_mem c
    ((List.dropWhile_sublist _).subset hd))) hv s

/-- A token of a type is read before the variable. -/
theorem typeToken_append {c : Char} {b y v : Text} (hb : ∀ d ∈ b, Text.isLayout d = true)
    (hy : ∀ d ∈ c :: y, inWords d = true)
    (hlast : ∀ d, (c :: y).getLast? = some d → Text.inName d = false)
    (hv : Text.isName v = true) (hc : Text.isLayout c = false) (s : Text) :
    ∃ z, z <:+ y ∧ typeToken (b ++ (c :: y ++ (v ++ s))) = some ((), z ++ (v ++ s)) := by
  have skip : layout (b ++ (c :: y ++ (v ++ s))) = some ((), c :: y ++ (v ++ s)) :=
    layout_eq_some.mpr (Text.dropWhile_append_of_head hb fun d hd => by
      cases hd
      exact hc)
  have ahead : absent variableAhead (c :: y ++ (v ++ s)) = some ((), c :: y ++ (v ++ s)) := by
    have none : variableAhead (c :: y ++ (v ++ s)) = none := by
      rw [Option.eq_none_iff_forall_ne_some]
      rintro ⟨_, x⟩ hx
      obtain ⟨w, r, hw, hx⟩ := bind_eq_some.mp hx
      obtain ⟨_, _, hx, -⟩ := bind_eq_some.mp hx
      rw [no_sign_of_ident hy hlast hv hc hw] at hx
      cases hx
    rw [absent, none]
  cases hn : Text.inName c with
  | true =>
    -- the token is the run of the name that `c` begins, and ends before the variable
    have whole : TypeBefore (v ++ s) (c :: y) :=
      ⟨fun d hd => inType_of_inWords (hy d hd), fun d e hd _ hin => by
        rw [hlast d hd] at hin
        cases hin⟩
    have word := whole.dropWhile_inName.resolve_right (List.cons_ne_nil c y)
    rw [List.dropWhile_cons_of_pos hn] at word
    refine ⟨y.dropWhile Text.inName, List.dropWhile_suffix _,
      bind_eq_some.mpr ⟨(), _, skip, bind_eq_some.mpr ⟨(), _, ahead, ?_⟩⟩⟩
    exact orElse_of_some (bind_eq_some.mpr ⟨_, _,
      run1_eq_some.mpr ⟨by simp [hn], rfl, word⟩, rfl⟩)
  | false =>
    have star : c = '*' := by
      have hw := hy c List.mem_cons_self
      simp only [inWords, hn, Bool.false_or, Bool.or_eq_true, beq_iff_eq] at hw
      rcases hw with h | rfl
      · exact h
      · cases hc
    subst star
    refine ⟨y, List.suffix_rfl, bind_eq_some.mpr ⟨(), _, skip, bind_eq_some.mpr ⟨(), _, ahead, ?_⟩⟩⟩
    have unread : (run1 Text.inName >>= fun _ => (pure () : Scan Unit)) ('*' :: y ++ (v ++ s)) =
      none := bind_of_none rfl
    exact (orElse_of_none unread).trans (orElse_of_some (exactly_eq_some.mpr rfl))

/-- The right side begins with a parenthesis or a name. -/
theorem exists_right (f : Fetch) : ∃ c rest, f.right = c :: rest ∧ Text.isLayout c = false ∧
    c ≠ '=' := by
  cases e : f.cast? with
  | none => exact ⟨'P', _, by rw [right, e]; rfl, rfl, by decide⟩
  | some type => exact ⟨'(', _, by rw [right, e]; rfl, rfl, by decide⟩

/-- A type ends before the variable of a statement. -/
theorem typeToken_stop (hf : f.Proper) {b : Text} (hb : ∀ d ∈ b, Text.isLayout d = true)
    (t : Text) : typeToken (b ++ (f.var ++ (" = " ++ (f.right ++ t)))) = none := by
  obtain ⟨v, var, hvar⟩ := List.exists_cons_of_ne_nil (Text.ne_nil_of_isName hf.var)
  obtain ⟨c, right, hright, hc, hne⟩ := f.exists_right
  have starts : Text.isLayout v = false := by
    have hv := hf.var
    rw [hvar, Text.isName, Bool.and_eq_true] at hv
    exact Text.isLayout_of_startsName hv.1
  have skip : layout (b ++ (f.var ++ (" = " ++ (f.right ++ t)))) =
      some ((), f.var ++ (" = " ++ (f.right ++ t))) :=
    layout_eq_some.mpr (Text.dropWhile_append_of_head hb fun d hd => by
      rw [hvar] at hd
      cases hd
      exact starts)
  have var : ident (f.var ++ (" = " ++ (f.right ++ t))) = some (f.var, _) :=
    @ident_append [] _ _ (by simp) hf.var fun c hc => by
      cases hc
      rfl
  have sign : symbol "=" (" = " ++ (f.right ++ t)) = some ((), ' ' :: (f.right ++ t)) :=
    @symbol_append [' '] _ layout_space rfl _
  have space : layout (' ' :: (f.right ++ t)) = some ((), f.right ++ t) := by
    refine layout_eq_some.mpr ?_
    rw [List.dropWhile_cons_of_pos rfl, hright, List.cons_append,
      List.dropWhile_cons_of_neg (by simp [hc])]
  have single : absent (exactly "=") (f.right ++ t) = some ((), f.right ++ t) := by
    have other : exactly "=" (f.right ++ t) = none := exactly_of_ne fun x h => by
      rw [hright] at h
      exact hne (List.cons_eq_cons.mp h).1
    rw [absent, other]
  -- the variable and its equals sign stand ahead, where a token of the type must not begin
  have ahead : variableAhead (f.var ++ (" = " ++ (f.right ++ t))) = some ((), f.right ++ t) :=
    bind_eq_some.mpr ⟨_, _, var, bind_eq_some.mpr ⟨(), _, sign, bind_eq_some.mpr
      ⟨(), _, space, single⟩⟩⟩
  refine (bind_of_some skip).trans (bind_of_none ?_)
  rw [absent, ahead]

/-- The tokens of a type are read up to the variable. -/
theorem many_typeToken (hf : f.Proper) (t : Text) {y : Text} (hy : ∀ d ∈ y, inWords d = true)
    (hlast : ∀ d, y.getLast? = some d → Text.inName d = false) :
    ∃ as b, b <:+ y ∧ (∀ d ∈ b, Text.isLayout d = true) ∧
      many typeToken (y ++ (f.var ++ (" = " ++ (f.right ++ t)))) =
        some (as, b ++ (f.var ++ (" = " ++ (f.right ++ t)))) := by
  -- on the length of what is left of the type, which every token makes shorter
  induction hk : y.length using Nat.strong_induction_on generalizing y with
  | _ k ih =>
    have parts := List.takeWhile_append_dropWhile (p := Text.isLayout) (l := y)
    have blank : ∀ d ∈ y.takeWhile Text.isLayout, Text.isLayout d = true :=
      fun d hd => List.mem_takeWhile_imp hd
    cases e : y.dropWhile Text.isLayout with
    | nil =>
      rw [e, List.append_nil] at parts
      rw [parts] at blank
      exact ⟨[], y, List.suffix_rfl, blank, many_of_none (typeToken_stop hf blank t)⟩
    | cons c z =>
      rw [e] at parts
      have suffix : c :: z <:+ y := ⟨_, parts⟩
      have hc : Text.isLayout c = false := by
        have := List.head?_dropWhile_not Text.isLayout y
        rw [e] at this
        simpa using this
      have last : ∀ d, (c :: z).getLast? = some d → Text.inName d = false := by
        intro d hd
        rw [← parts, List.getLast?_append_of_ne_nil _ (List.cons_ne_nil c z)] at hlast
        exact hlast d hd
      obtain ⟨x, hx, read⟩ := typeToken_append blank (fun d hd => hy d (suffix.subset hd)) last
        hf.var hc (" = " ++ (f.right ++ t))
      rw [← List.append_assoc, parts] at read
      have shorter : x.length < y.length := by
        have h₁ := hx.length_le
        have h₂ := suffix.length_le
        rw [List.length_cons] at h₂
        omega
      have lastx : ∀ d, x.getLast? = some d → Text.inName d = false := by
        obtain ⟨w, rfl⟩ := hx
        intro d hd
        by_cases hx0 : x = []
        · rw [hx0] at hd
          cases hd
        · refine last d ?_
          rw [← List.cons_append, List.getLast?_append_of_ne_nil _ hx0, hd]
      obtain ⟨as, b, hb, hbl, more⟩ := ih x.length (hk ▸ shorter)
        (fun d hd => hy d ((hx.trans ((List.suffix_cons c z).trans suffix)).subset hd)) lastx rfl
      refine ⟨() :: as, b, hb.trans (hx.trans ((List.suffix_cons c z).trans suffix)), hbl,
        many_of_some read ?_ more⟩
      simp only [List.length_append]
      omega

/-- The type is what stands before the variable. -/
theorem typeForm_append (hf : f.Proper) (hl : f.left ≠ []) (t : Text) : ∃ b : Text,
    (∀ d ∈ b, Text.isLayout d = true) ∧
      typeForm (f.left ++ (f.var ++ (" = " ++ (f.right ++ t)))) =
        some (Text.squeeze f.left, b ++ (f.var ++ (" = " ++ (f.right ++ t)))) := by
  obtain ⟨c, y, hy⟩ := List.exists_cons_of_ne_nil hl
  have words := hf.left
  have last := hf.left_last
  have hc : Text.isLayout c = false := by
    refine isLayout_of_inWords (words c (by rw [hy]; exact List.mem_cons_self)) ?_
    rintro rfl
    exact hf.left_head (by rw [hy]; rfl)
  rw [hy] at words last
  obtain ⟨z, hz, read⟩ := typeToken_append (b := []) (by simp) words last hf.var hc
    (" = " ++ (f.right ++ t))
  have lastz : ∀ d, z.getLast? = some d → Text.inName d = false := by
    obtain ⟨w, rfl⟩ := hz
    intro d hd
    by_cases hz0 : z = []
    · rw [hz0] at hd
      cases hd
    · refine last d ?_
      rw [← List.cons_append, List.getLast?_append_of_ne_nil _ hz0, hd]
  obtain ⟨as, b, hb, hbl, more⟩ := many_typeToken hf t
    (fun d hd => words d (List.mem_cons_of_mem c (hz.subset hd))) lastz
  refine ⟨b, hbl, ?_⟩
  obtain ⟨x, hx⟩ := hb.trans (hz.trans (List.suffix_cons c y))
  have tokens : many1 typeToken (c :: y ++ (f.var ++ (" = " ++ (f.right ++ t)))) =
      some (() :: as, b ++ (f.var ++ (" = " ++ (f.right ++ t)))) :=
    bind_eq_some.mpr ⟨(), _, read, bind_eq_some.mpr ⟨as, _, more, rfl⟩⟩
  have text : lexeme (many1 typeToken) (c :: y ++ (f.var ++ (" = " ++ (f.right ++ t)))) =
      some (x, b ++ (f.var ++ (" = " ++ (f.right ++ t)))) := by
    rw [lexeme, tokens, ← hx, List.append_assoc]
    exact congrArg (fun w => some (w, _)) (Text.upTo_append_self x _)
  have type : Text.squeeze x = Text.squeeze f.left := by
    rw [hy, ← hx, Text.squeeze_append_blanks fun d hd => Text.isBlank_of_isLayout (hbl d hd)]
  rw [← type, hy]
  exact bind_eq_some.mpr ⟨x, _, text, rfl⟩

/-- **A written declaration is read**, whatever follows it. -/
theorem declaration_append (hf : f.Proper) (hl : f.left ≠ []) (t : Text) :
    declaration (f.left ++ (f.var ++ (" = " ++ (f.right ++ t)))) = some (f.binding, t) := by
  obtain ⟨b, hb, type⟩ := typeForm_append hf hl t
  refine bind_eq_some.mpr ⟨_, _, type, bind_eq_some.mpr ⟨_, _, assignment_append hf hb t, ?_⟩⟩
  simp [binding, hl, pure, StateT.pure]

/-- Without a type nothing is declared. -/
theorem declaration_bare (hf : f.Proper) (t : Text) :
    declaration (f.var ++ (" = " ++ (f.right ++ t))) = none := by
  have stop : typeToken (f.var ++ (" = " ++ (f.right ++ t))) = none :=
    typeToken_stop (b := []) hf (by simp) t
  have none : typeForm (f.var ++ (" = " ++ (f.right ++ t))) = none := by
    refine bind_of_none ?_
    rw [lexeme, show many1 typeToken (f.var ++ (" = " ++ (f.right ++ t))) = none from
      bind_of_none stop]
    rfl
  exact bind_of_none none

/-- In the type nothing is assigned. -/
theorem assignment_left (hf : f.Proper) {c : Char} {z : Text} (hz : c :: z <:+ f.left)
    (hc : Text.isLayout c = false) (s : Text) : assignment (c :: z ++ (f.var ++ s)) = none := by
  have last : ∀ d, (c :: z).getLast? = some d → Text.inName d = false := by
    obtain ⟨w, hw⟩ := hz
    intro d hd
    refine hf.left_last d ?_
    rw [← hw, List.getLast?_append_of_ne_nil _ (List.cons_ne_nil c z), hd]
  rw [Option.eq_none_iff_forall_ne_some]
  rintro ⟨b, r⟩ hr
  obtain ⟨v, s₁, hv, hr⟩ := bind_eq_some.mp hr
  obtain ⟨_, _, hr, -⟩ := bind_eq_some.mp hr
  rw [no_sign_of_ident (fun d hd => hf.left d (hz.subset hd)) last hf.var hc hv] at hr
  cases hr

end Fetch

end ArgSlot

end VectorWrap
