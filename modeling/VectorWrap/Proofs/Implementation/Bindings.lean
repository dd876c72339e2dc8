import VectorWrap.Implementation.Return
import VectorWrap.Proofs.Code.Trivia
import VectorWrap.Proofs.Scan.Sweep

/-!
# Bindings and macros are read whatever follows them

A binding ends with the parenthesis of its fetch, a return macro goes on with one.  Up to there
nothing that is read depends on what comes after: `closed_assignment`, `closed_declaration`,
`closed_macroForm`.

The type of a declaration ends where no further word is found to belong to it, and that is looked
for ahead of it.  `Bounded ')'` says that none of this looks beyond the parenthesis.

For an alternative or a repetition it is not enough that what is read does not depend on the rest:
what fails must not either.  `Bounded` is about both, with a bound that is a character and not a
length, and every way of building a scanner keeps it.
-/

namespace VectorWrap

namespace Scan

variable {α β : Type} {c : Char}

/-! ### Scanners that stop before a character -/

/-- Stops before a `c`, and what stands behind that `c` decides neither whether it reads something
nor what. -/
def Bounded (c : Char) (p : Scan α) : Prop :=
  ∀ x, (∀ u, p (x ++ c :: u) = none) ∨
    ∃ a z, z <:+ x ∧ ∀ u, p (x ++ c :: u) = some (a, z ++ c :: u)

/-- A run that ends before a character ends there whatever follows. -/
theorem dropWhile_bounded {p : Char → Bool} (hc : p c = false) (x u : Text) :
    (x ++ c :: u).dropWhile p = x.dropWhile p ++ c :: u := by
  rw [List.dropWhile_append]
  split
  · next h =>
    rw [List.isEmpty_iff.mp h, List.dropWhile_cons_of_neg (by simp [hc])]
    rfl
  · rfl

/-- A run that ends before a character is the same whatever follows. -/
theorem takeWhile_bounded {p : Char → Bool} (hc : p c = false) (x u : Text) :
    (x ++ c :: u).takeWhile p = x.takeWhile p := by
  rw [List.takeWhile_append, List.takeWhile_cons_of_neg (by simp [hc])]
  split
  · next h =>
    rw [List.append_nil]
    exact (List.IsPrefix.eq_of_length (List.takeWhile_prefix _) h).symm
  · rfl

theorem bounded_layout (hc : Text.isLayout c = false) : Bounded c layout := fun x =>
  .inr ⟨(), x.dropWhile Text.isLayout, List.dropWhile_suffix _, fun u =>
    layout_eq_some.mpr (dropWhile_bounded hc x u)⟩

theorem bounded_run1 {p : Char → Bool} (hc : p c = false) : Bounded c (run1 p) := by
  intro x
  cases x with
  | nil => exact .inl fun u => by simp [run1, hc]
  | cons d x =>
    cases hd : p d with
    | false => exact .inl fun u => by simp [run1, hd]
    | true =>
      refine .inr ⟨d :: x.takeWhile p, x.dropWhile p,
        (List.dropWhile_suffix _).trans (List.suffix_cons _ _), fun u => ?_⟩
      simp [run1, hd, takeWhile_bounded hc, dropWhile_bounded hc]

/-- A name does not look beyond a character of no name. -/
theorem bounded_name (hc : Text.inName c = false) : Bounded c name := by
  have hs : Text.startsName c = false := by
    rw [Bool.eq_false_iff]
    intro h
    rw [Text.inName_of_startsName h] at hc
    cases hc
  intro x
  cases x with
  | nil => exact .inl fun u => by simp [name, hs]
  | cons d x =>
    cases hd : Text.startsName d with
    | false => exact .inl fun u => by simp [name, hd]
    | true =>
      refine .inr ⟨d :: x.takeWhile Text.inName, x.dropWhile Text.inName,
        (List.dropWhile_suffix _).trans (List.suffix_cons _ _), fun u => ?_⟩
      simp [name, hd, takeWhile_bounded hc, dropWhile_bounded hc]

/-- A fixed text does not look beyond a character that is not in it. -/
theorem bounded_exactly {w : Text} (hc : ¬ c ∈ w) : Bounded c (exactly w) := by
  intro x
  by_cases h : w <+: x
  · obtain ⟨z, rfl⟩ := h
    refine .inr ⟨(), z, List.suffix_append _ _, fun u => exactly_eq_some.mpr (by simp)⟩
  · refine .inl fun u => ?_
    rw [Option.eq_none_iff_forall_ne_some]
    rintro ⟨_, r⟩ hr
    obtain ⟨z, rfl, -⟩ | ⟨z, rfl, hz⟩ :=
      List.append_eq_append_iff.mp (exactly_eq_some.mp hr).symm
    · exact h (List.prefix_append _ _)
    · cases z with
      | nil => exact h (by simp)
      | cons d z =>
        obtain ⟨rfl, -⟩ := List.cons_eq_cons.mp hz
        exact hc (by simp)

theorem bounded_pure (a : α) : Bounded c (pure a : Scan α) := fun x =>
  .inr ⟨a, x, List.suffix_rfl, fun _ => rfl⟩

/-- Two scanners one after the other look no further than each of them. -/
theorem Bounded.bind {p : Scan α} {q : α → Scan β} (hp : Bounded c p) (hq : ∀ a, Bounded c (q a)) :
    Bounded c (p >>= q) := by
  intro x
  rcases hp x with h | ⟨a, z, hz, h⟩
  · exact .inl fun u => bind_of_none (h u)
  · rcases hq a z with h' | ⟨b, y, hy, h'⟩
    · exact .inl fun u => (bind_of_some (h u)).trans (h' u)
    · exact .inr ⟨b, y, hy.trans hz, fun u => (bind_of_some (h u)).trans (h' u)⟩

/-- An alternative looks no further than its parts. -/
theorem Bounded.orElse {p q : Scan α} (hp : Bounded c p) (hq : Bounded c q) :
    Bounded c (p <|> q) := by
  intro x
  rcases hp x with h | ⟨a, z, hz, h⟩
  · rcases hq x with h' | ⟨b, y, hy, h'⟩
    · exact .inl fun u => (orElse_of_none (h u)).trans (h' u)
    · exact .inr ⟨b, y, hy, fun u => (orElse_of_none (h u)).trans (h' u)⟩
  · exact .inr ⟨a, z, hz, fun u => orElse_of_some (h u)⟩

/-- What must be absent is looked for no further. -/
theorem Bounded.absent {p : Scan α} (hp : Bounded c p) : Bounded c (absent p) := by
  intro x
  rcases hp x with h | ⟨a, z, -, h⟩
  · exact .inr ⟨(), x, List.suffix_rfl, fun u => by simp [Scan.absent, h u]⟩
  · exact .inl fun u => by simp [Scan.absent, h u]

theorem Bounded.lexeme {p : Scan α} (hp : Bounded c p) : Bounded c (lexeme p) := by
  intro x
  rcases hp x with h | ⟨a, z, hz, h⟩
  · exact .inl fun u => by simp [Scan.lexeme, h u]
  · exact .inr ⟨Text.upTo x z, z, hz, fun u => by simp [Scan.lexeme, h u, Text.upTo_append]⟩

/-- A repetition looks no further than its turns. -/
theorem Bounded.many {p : Scan α} (hp : Bounded c p) : Bounded c (many p) := by
  have hr : ∀ x : Text, ∃ as z, z <:+ x ∧ ∀ u, repeated p (x ++ c :: u) = (as, z ++ c :: u) := by
    intro x
    induction hk : x.length using Nat.strong_induction_on generalizing x with
    | _ k ih =>
      have stop : (∀ u, progress p (x ++ c :: u) = none) →
          ∃ as z, z <:+ x ∧ ∀ u, repeated p (x ++ c :: u) = (as, z ++ c :: u) := fun h =>
        ⟨[], x, List.suffix_rfl, fun u => by rw [repeated.eq_def, h u]⟩
      rcases hp x with h | ⟨a, z, hz, h⟩
      · exact stop fun u => progress_of_none (h u)
      · by_cases hl : z.length < x.length
        · obtain ⟨as, y, hy, h'⟩ := ih z.length (hk ▸ hl) z rfl
          refine ⟨a :: as, y, hy.trans hz, fun u => ?_⟩
          have hlt : (z ++ c :: u).length < (x ++ c :: u).length := by
            simp only [List.length_append]
            omega
          rw [repeated.eq_def, (progress_eq_some hlt).mpr (h u)]
          simp only [h' u]
        · exact stop fun u => by simp [progress, h u, hl]
  intro x
  obtain ⟨as, z, hz, h⟩ := hr x
  exact .inr ⟨as, z, hz, fun u => by simp [Scan.many, h u]⟩

theorem Bounded.many1 {p : Scan α} (hp : Bounded c p) : Bounded c (many1 p) :=
  hp.bind fun _ => hp.many.bind fun _ => bounded_pure _

end Scan

namespace ArgSlot
open Scan

/-! ### Bindings -/

/-- A fetch is closed. -/
theorem closed_fetch : Closed fetch :=
  (closed_exactly (by decide)).bind fun _ => Closed.toRigid <|
    (local_run1 _).bind_closed fun _ => (closed_symbol (by decide)).toLocal.bind_closed fun _ =>
    local_layout.bind_closed fun _ => (local_run1 _).bind_closed fun _ =>
    (closed_symbol (by decide)).bind fun _ => rigid_pure _

theorem local_castForm : Local castForm :=
  (closed_symbol (by decide)).toLocal.bind fun _ => local_layout.bind fun _ =>
    (local_run1 _).bind fun _ => (closed_symbol (by decide)).toLocal.bind fun _ =>
    (rigid_pure _).toLocal

/-- A fetch begins otherwise than a cast. -/
theorem closed_assignment : Closed assignment := by
  refine local_ident.bind_closed fun _ => (closed_symbol (by decide)).toLocal.bind_closed fun _ =>
    closed_orNone local_castForm (fun _ => local_layout.bind_closed fun _ =>
      closed_fetch.bind fun _ => rigid_pure _) fun h => bind_of_none ?_
  obtain ⟨_, s, h₁, h₂⟩ := bind_eq_some.mp h
  obtain ⟨_, _, h₃, -⟩ := bind_eq_some.mp h₂
  obtain ⟨_, _, h₄, -⟩ := bind_eq_some.mp h₃
  rw [layout_eq_some, exactly_eq_some.mp h₄] at h₁
  rw [Option.eq_none_iff_forall_ne_some]
  rintro ⟨_, x⟩ hx
  have := (symbol_eq_some.mp hx).symm.trans h₁
  cases this

/-- An assignment is a variable, the equals sign, a cast or none, and a fetch. -/
theorem exists_of_assignment {s r : Text} {b : Binding} (h : assignment s = some (b, r)) :
    ∃ s₁ s₂ s₃, ident s = some (b.var, s₁) ∧ s₁.dropWhile Text.isLayout = '=' :: s₂ ∧
      orNone castForm s₂ = some (b.type?, s₃) ∧
      fetch (s₃.dropWhile Text.isLayout) = some ((b.kind, b.digits), r) := by
  obtain ⟨_, s₁, named, h⟩ := bind_eq_some.mp h
  obtain ⟨_, s₂, sign, h⟩ := bind_eq_some.mp h
  obtain ⟨_, s₃, cast, h⟩ := bind_eq_some.mp h
  obtain ⟨_, _, skip, h⟩ := bind_eq_some.mp h
  obtain ⟨_, _, read, h⟩ := bind_eq_some.mp h
  obtain ⟨rfl, rfl⟩ := pure_eq_some.mp h
  obtain rfl := layout_eq_some.mp skip
  exact ⟨s₁, s₂, s₃, named, symbol_eq_some.mp sign, cast, read⟩

/-- A fetch ends with its parenthesis. -/
theorem exists_paren_of_fetch {s r : Text} {x : Text × Text} (h : fetch s = some (x, r)) :
    ∃ z, s = z ++ ')' :: r := by
  obtain ⟨_, s₁, mark, h⟩ := bind_eq_some.mp h
  obtain ⟨_, s₂, kind, h⟩ := bind_eq_some.mp h
  obtain ⟨_, s₃, opening, h⟩ := bind_eq_some.mp h
  obtain ⟨_, s₄, skip, h⟩ := bind_eq_some.mp h
  obtain ⟨_, s₅, digits, h⟩ := bind_eq_some.mp h
  obtain ⟨_, _, closing, h⟩ := bind_eq_some.mp h
  obtain ⟨-, rfl⟩ := pure_eq_some.mp h
  have front : s₅ <:+ s := (local_run1 _).suffix digits |>.trans <| local_layout.suffix skip
    |>.trans <| (closed_symbol (by decide)).suffix opening |>.trans <|
    (local_run1 _).suffix kind |>.trans <| (rigid_exactly _).suffix mark
  have paren : s₅.dropWhile Text.isLayout = ')' :: _ := symbol_eq_some.mp closing
  obtain ⟨z, hz⟩ := (paren ▸ List.dropWhile_suffix _).trans front
  exact ⟨z, hz.symm⟩

/-- A binding ends with the parenthesis of its fetch. -/
theorem exists_paren {s r : Text} {b : Binding} (h : assignment s = some (b, r)) :
    ∃ z, s = z ++ ')' :: r := by
  obtain ⟨s₁, s₂, s₃, named, sign, cast, read⟩ := exists_of_assignment h
  obtain ⟨z, hz⟩ := exists_paren_of_fetch read
  have value : s₃ <:+ s₂ := by
    rcases orNone_eq_some cast with ⟨_, -, h⟩ | ⟨-, -, rfl⟩
    · exact local_castForm.suffix h
    · exact List.suffix_rfl
  have behind : s₂ <:+ s₁ := (List.suffix_cons '=' s₂).trans (sign ▸ List.dropWhile_suffix _)
  obtain ⟨y, hy⟩ := (List.dropWhile_suffix Text.isLayout).trans <|
    value.trans <| behind.trans (local_ident.suffix named)
  exact ⟨y ++ z, by rw [← hy, hz, List.append_assoc]⟩

/-! ### Declarations -/

/-- A token of a type is a word, an asterisk or two colons, behind layout. -/
theorem exists_of_typeToken {s r : Text} {u : Unit} (h : typeToken s = some (u, r)) :
    ∃ a w, s = a ++ (w ++ r) ∧ (∀ c ∈ a, Text.isLayout c = true) ∧
      (run1 Text.inName (w ++ r) = some (w, r) ∨ w = ['*'] ∨ w = [':', ':']) := by
  obtain ⟨_, s₁, skip, h⟩ := bind_eq_some.mp h
  obtain ⟨_, s₂, look, h⟩ := bind_eq_some.mp h
  obtain ⟨-, rfl⟩ := absent_eq_some.mp look
  have front : s = s.takeWhile Text.isLayout ++ s₁ := by
    rw [← layout_eq_some.mp skip, List.takeWhile_append_dropWhile]
  have token : ∃ w, s₁ = w ++ r ∧
      (run1 Text.inName s₁ = some (w, r) ∨ w = ['*'] ∨ w = [':', ':']) := by
    rcases orElse_eq_some.mp h with h | ⟨-, h⟩
    · obtain ⟨w, _, word, h⟩ := bind_eq_some.mp h
      obtain ⟨-, rfl⟩ := pure_eq_some.mp h
      obtain ⟨-, rfl, rfl⟩ := run1_eq_some.mp word
      exact ⟨_, List.takeWhile_append_dropWhile.symm, .inl word⟩
    · rcases orElse_eq_some.mp h with h | ⟨-, h⟩
      · exact ⟨['*'], exactly_eq_some.mp h, .inr (.inl rfl)⟩
      · exact ⟨[':', ':'], exactly_eq_some.mp h, .inr (.inr rfl)⟩
  obtain ⟨w, rfl, token⟩ := token
  exact ⟨_, w, front, fun _ hc => List.mem_takeWhile_imp hc, token⟩

theorem suffix_typeToken {s r : Text} {u : Unit} (h : typeToken s = some (u, r)) : r <:+ s := by
  obtain ⟨a, w, rfl, -⟩ := exists_of_typeToken h
  exact ⟨a ++ w, List.append_assoc a w r⟩

/-- A type is a first token, and as many more as there are. -/
theorem exists_of_typeForm {s r type : Text} (h : typeForm s = some (type, r)) :
    ∃ s₁, typeToken s = some ((), s₁) ∧ (repeated typeToken s₁).2 = r := by
  obtain ⟨_, _, text, h⟩ := bind_eq_some.mp h
  obtain ⟨-, rfl⟩ := pure_eq_some.mp h
  obtain ⟨⟨_, _⟩, tokens, h⟩ := Option.map_eq_some_iff.mp text
  obtain ⟨-, rfl⟩ := Prod.mk.inj h
  obtain ⟨_, s₁, first, h⟩ := bind_eq_some.mp tokens
  obtain ⟨_, _, more, h⟩ := bind_eq_some.mp h
  obtain ⟨-, rfl⟩ := pure_eq_some.mp h
  exact ⟨s₁, first, by rw [Option.some.inj more]⟩

/-- A type leaves a part of the text. -/
theorem suffix_typeForm {s r type : Text} (h : typeForm s = some (type, r)) : r <:+ s := by
  obtain ⟨s₁, first, rfl⟩ := exists_of_typeForm h
  exact (suffix_repeated suffix_typeToken s₁).trans (suffix_typeToken first)

/-- A token of a type does not look beyond the parenthesis. -/
theorem bounded_typeToken : Bounded ')' typeToken := by
  have hi : Bounded ')' ident := (bounded_layout (by decide)).bind fun _ => bounded_name (by decide)
  have hv : Bounded ')' variableAhead :=
    hi.bind fun _ => ((bounded_layout (by decide)).bind fun _ => bounded_exactly (by decide)).bind
      fun _ => (bounded_layout (by decide)).bind fun _ => (bounded_exactly (by decide)).absent
  exact (bounded_layout (by decide)).bind fun _ => hv.absent.bind fun _ =>
    ((bounded_run1 (by decide)).bind fun _ => bounded_pure _).orElse
      ((bounded_exactly (by decide)).orElse (bounded_exactly (by decide)))

theorem bounded_typeForm : Bounded ')' typeForm :=
  bounded_typeToken.many1.lexeme.bind fun _ => bounded_pure _

/-- **A declaration is closed.** -/
theorem closed_declaration : Closed declaration := by
  have hq : ∀ type : Text,
      Closed (assignment >>= fun b => pure { b with type? := b.type? <|> some type }) := fun _ =>
    closed_assignment.bind fun _ => rigid_pure _
  refine ⟨⟨fun h => ?_, fun {y t u b r} h => ?_⟩, fun h => ?_⟩
  · obtain ⟨type, s, h₁, h₂⟩ := bind_eq_some.mp h
    exact ((hq type).suffix h₂).trans (suffix_typeForm h₁)
  · obtain ⟨type, s, h₁, h₂⟩ := bind_eq_some.mp h
    obtain ⟨z, rfl, -, hz⟩ := exists_between (suffix_typeForm h₁) ((hq type).suffix h₂)
    obtain ⟨b', s', h₃, h₄⟩ := bind_eq_some.mp h₂
    obtain ⟨-, rfl⟩ := pure_eq_some.mp h₄
    -- the parenthesis at the end of the binding bounds what is looked at for the type
    obtain ⟨w, hw⟩ := exists_paren h₃
    have hzw : z = w ++ ')' :: r := List.append_cancel_right (by simpa using hw)
    obtain ⟨v, rfl⟩ := hz
    refine bind_eq_some.mpr ⟨type, z ++ u, ?_, (hq type).append h₂⟩
    subst hzw
    rcases bounded_typeForm (v ++ w) with hnone | ⟨type', x, -, hx⟩
    · have := hnone (r ++ t)
      simp only [List.append_assoc, List.cons_append] at this h₁
      rw [this] at h₁
      cases h₁
    · have h₅ := hx (r ++ t)
      have h₆ := hx (r ++ u)
      simp only [List.append_assoc, List.cons_append] at h₁ h₅ h₆ ⊢
      rw [h₁] at h₅
      obtain ⟨rfl, h₇⟩ := Prod.mk.inj (Option.some.inj h₅)
      rw [h₆]
      obtain rfl := List.append_cancel_right h₇
      rfl
  · obtain ⟨type, s, h₁, h₂⟩ := bind_eq_some.mp h
    exact lt_of_lt_of_le ((hq type).shrinks h₂) (suffix_typeForm h₁).length_le

end ArgSlot

namespace Return
open Scan

/-! ### Return macros -/

/-- Reads the name of a return macro and its parenthesis; gives its ending. -/
def macroForm : Scan Text := do
  exactly "PG_RETURN_"
  let kind ← run1 ArgSlot.inKind
  symbol "("
  pure kind

/-- **A return macro is closed.** -/
theorem closed_macroForm : Closed macroForm :=
  (closed_exactly (by decide)).bind fun _ => Closed.toRigid <|
    (local_run1 _).bind_closed fun _ => (closed_symbol (by decide)).bind fun _ => rigid_pure _

/-- What is looked for ahead is there, and nothing is read. -/
theorem ahead_eq_some {α : Type} {p : Scan α} {s r : Text} {u : Unit} :
    ahead p s = some (u, r) ↔ s = r ∧ ∃ a t, p s = some (a, t) := by
  simp only [ahead, Option.map_eq_some_iff, Prod.mk.injEq, true_and, Prod.exists]
  constructor
  · rintro ⟨a, t, h, rfl⟩
    exact ⟨rfl, a, t, h⟩
  · rintro ⟨rfl, a, t, h⟩
    exact ⟨a, t, h, rfl⟩

/-- A mark before a parenthesis is a return macro. -/
theorem macroForm_of_mark {s r kind : Text} (h : mark s = some (kind, r)) :
    r.length < s.length ∧
      ∃ r', macroForm s = some (kind, r') ∧ r.dropWhile Text.isLayout = '(' :: r' := by
  obtain ⟨_, s₁, h₁, h⟩ := bind_eq_some.mp h
  obtain ⟨_, s₂, h₂, h⟩ := bind_eq_some.mp h
  obtain ⟨_, s₃, h₃, h⟩ := bind_eq_some.mp h
  obtain ⟨rfl, rfl⟩ := pure_eq_some.mp h
  obtain ⟨rfl, _, r', h₄⟩ := ahead_eq_some.mp h₃
  refine ⟨?_, r', bind_eq_some.mpr ⟨_, _, h₁, bind_eq_some.mpr ⟨_, _, h₂, bind_eq_some.mpr
    ⟨_, _, h₄, rfl⟩⟩⟩, symbol_eq_some.mp h₄⟩
  exact lt_of_le_of_lt ((local_run1 _).suffix h₂).length_le
    ((closed_exactly (by decide)).shrinks h₁)

/-- Without a mark there is no return macro. -/
theorem macroForm_of_mark_none {s : Text} (h : mark s = none) : macroForm s = none := by
  rw [Option.eq_none_iff_forall_ne_some] at h ⊢
  rintro ⟨kind, r'⟩ hm
  obtain ⟨_, s₁, h₁, hm⟩ := bind_eq_some.mp hm
  obtain ⟨_, s₂, h₂, hm⟩ := bind_eq_some.mp hm
  obtain ⟨_, s₃, h₃, -⟩ := bind_eq_some.mp hm
  refine h (_, s₂) (bind_eq_some.mpr ⟨_, _, h₁, bind_eq_some.mpr ⟨_, _, h₂, bind_eq_some.mpr
    ⟨(), s₂, ahead_eq_some.mpr ⟨rfl, _, s₃, h₃⟩, rfl⟩⟩⟩)

/-- The parenthesis that is looked for ahead may as well be read. -/
theorem kinds_eq (body : Text) :
    kinds body = (sweep macroForm codeGap body).map Found.value := by
  rw [kinds]
  induction hk : body.length using Nat.strong_induction_on generalizing body with
  | _ k ih =>
    cases e : body.dropWhile Text.isLayout with
    | nil => rw [sweep_of_nil e, sweep_of_nil e]
    | cons c s =>
      have hlen : (c :: s).length ≤ body.length := e ▸ Text.length_dropWhile_le _ _
      rw [sweep_of_cons e, sweep_of_cons e]
      cases hm : mark (c :: s) with
      | none =>
        rw [progress_of_none hm, progress_of_none (macroForm_of_mark_none hm)]
        split
        · next h => cases h
        · split
          · next r hr _ => exact ih r.length (by omega) r rfl
          · exact ih s.length (by simp only [List.length_cons] at hlen; omega) s rfl
      | some p =>
        obtain ⟨kind, r⟩ := p
        obtain ⟨hl, r', hr', hd⟩ := macroForm_of_mark hm
        have hl' := closed_macroForm.shrinks hr'
        rw [(progress_eq_some hl).mpr hm, (progress_eq_some hl').mpr hr']
        -- the parenthesis that `mark` leaves begins nothing, so the sweep goes on behind it
        have hsweep : sweep mark codeGap r = sweep mark codeGap r' := by
          have hp : sweep mark codeGap r = sweep mark codeGap ('(' :: r') :=
            sweep_congr (by rw [hd]; rfl)
          rw [hp]
          exact sweep_char (by decide) (bind_of_none (exactly_of_ne (by simp)))
            (codeGap_eq_none (by decide) (by simp [opensComment]) (by decide))
        simp only [List.map_cons, hsweep, ih r'.length (by omega) r' rfl]

end Return

end VectorWrap
