import VectorWrap.Proofs.Declaration.Forms
import VectorWrap.Proofs.Declaration.Whole

/-!
# Operators in the grammar of scripts

The value of a property ends before a comma or a parenthesis that closes one opened before it.  A
value without an end is no property, whereas the grammar reads it as far as it can; but then no
parenthesis is closed in what it leaves (`Reach`), and the operator cannot be read to its end
either (`agrees_operatorForm`).

`Reach` is the relation for what may have no end: both leave the same, or the scanner fails and the
grammar leaves a text in which no parenthesis is closed.  It is carried through the members of a
sequence (`Reach.after`), of which those that come before close nothing themselves.
-/

namespace VectorWrap

namespace Statement
open Scan Rule

/-- The expression leaves what the scanner leaves.  Where the scanner fails, the expression may go
on, but no parenthesis opened before is closed in what it leaves. -/
def Reach {α : Type} (p : Scan α) (e : Peg Rule) : Prop :=
  ∀ s, ∃ o, Ends grammar false e (Grammar.gap false s) o ∧
    (∀ x r, p s = some (x, r) → o = some r) ∧ (p s = none → ∀ z ∈ o, Unclosed z) ∧
    (Unclosed s → ∀ z ∈ o, Unclosed z)

section Reach

variable {α β : Type} {p : Scan α} {q : α → Scan β} {a b e : Peg Rule} {es : List (Peg Rule)}

/-- What comes before may be read first, if it closes nothing. -/
theorem Reach.after (hp : Agrees grammar false p a)
    (level : ∀ {s x r}, p s = some (x, r) → closeRest 0 r = closeRest 0 s)
    (hq : ∀ x, Reach (q x) (.inOrder (b :: es))) : Reach (p >>= q) (.inOrder (a :: b :: es)) := by
  intro s
  have he := hp s
  cases h : p s with
  | none =>
    rw [h] at he
    refine ⟨none, he.no_first, ?_, by simp, by simp⟩
    rw [bind_of_none h]
    rintro x r ⟨⟩
  | some v =>
    obtain ⟨x, r⟩ := v
    rw [h] at he
    obtain ⟨o, ho, yes, no, unclosed⟩ := hq x r
    rw [bind_of_some h]
    exact ⟨o, he.next ho, yes, no, fun hs => unclosed ((level h).trans hs)⟩

/-- A rule reaches as far as its expression. -/
theorem Reach.rule {r : Rule} (h : Reach p (grammar.body r)) (ht : grammar.tight r = false) :
    Reach p (.rule r) := by
  intro s
  obtain ⟨o, ho, rest⟩ := h s
  refine ⟨o, .rule ?_, rest⟩
  rw [ht]
  exact ho

/-! ### Properties -/

theorem closeRest_of_symbol {w s r : Text} {u : Unit} (ho : '(' ∉ w) (hc : ')' ∉ w)
    (h : symbol w s = some (u, r)) : closeRest 0 r = closeRest 0 s := by
  rw [← closeRest_dropWhile (p := Text.isLayout) rfl rfl 0 s, symbol_eq_some.mp h,
    closeRest_append ho hc]

/-- An identifier closes nothing. -/
theorem closeRest_of_ident {s r w : Text} (h : ident s = some (w, r)) :
    closeRest 0 r = closeRest 0 s := by
  have h : name (s.dropWhile Text.isLayout) = some (w, r) := h
  rw [← closeRest_dropWhile (p := Text.isLayout) rfl rfl 0 s]
  cases hs : s.dropWhile Text.isLayout with
  | nil =>
    rw [hs] at h
    cases h
  | cons c t =>
    rw [hs, name] at h
    split_ifs at h with hc
    cases h
    have ho : c ≠ '(' := by
      rintro rfl
      cases hc
    have hc : c ≠ ')' := by
      rintro rfl
      cases hc
    rw [closeRest_dropWhile rfl rfl, closeRest_char ho hc]

theorem unclosed_gap {s : Text} : Unclosed (Grammar.gap false s) ↔ Unclosed s := by
  rw [Unclosed, Unclosed, Grammar.gap_loose, closeRest_dropWhile rfl rfl]

section Value

variable (f : Text → β)

/-- A value, behind the layout before it. -/
def valueOf : Scan β := do
  layout
  let v ← (fun s => valueEnd? 0 s : Scan Text)
  guard (v ≠ [])
  pure (f v)

variable {f : Text → β}

/-- A value leaves the place where it ends, and it has a character. -/
theorem rest_of_valueOf {s r : Text} {x : β} (h : valueOf f s = some (x, r)) :
    valueRest 0 (Grammar.gap false s) = some r ∧ r ≠ Grammar.gap false s := by
  obtain ⟨u, _, ⟨⟩, h⟩ := bind_eq_some.mp h
  obtain ⟨a, _, hv, h⟩ := bind_eq_some.mp h
  obtain ⟨_, _, hg, h⟩ := bind_eq_some.mp h
  obtain ⟨hne, rfl⟩ := guard_eq_some.mp hg
  cases h
  refine ⟨by rw [valueRest, Grammar.gap_loose, hv]; rfl, fun same => hne ?_⟩
  have parts := valueEnd?_eq hv
  rw [Grammar.gap_loose] at same
  rw [← same] at parts
  exact List.append_cancel_right (parts.symm.trans (List.nil_append r).symm)

/-- There is no value where it would end at once. -/
theorem rest_of_no_value {s r : Text} (h : valueOf f s = none)
    (hr : valueRest 0 (Grammar.gap false s) = some r) : r = Grammar.gap false s := by
  obtain ⟨⟨a, _⟩, hv, rfl⟩ := Option.map_eq_some_iff.mp hr
  have parts := valueEnd?_eq hv
  by_cases ha : a = []
  · rw [parts, ha]
    rfl
  · have : valueOf f s = some (f a, _) :=
      bind_eq_some.mpr ⟨_, _, rfl, bind_eq_some.mpr ⟨_, _, hv,
        bind_eq_some.mpr ⟨(), _, guard_eq_some.mpr ⟨ha, rfl⟩, rfl⟩⟩⟩
    rw [h] at this
    cases this

/-- The value of a property. -/
theorem reach_value : Reach (valueOf f) (.rule .opValue) := by
  intro s
  rcases ends_valueTurn (Grammar.gap false s) with ⟨turn, stop⟩ | ⟨r, turn, hr, stop⟩
  · have body : Ends grammar true (grammar.body .opValue) (Grammar.gap false s) none :=
      turn.no_first
    refine ⟨none, .call rfl body, fun x r hx => ?_, by simp, by simp⟩
    obtain ⟨rest, hne⟩ := rest_of_valueOf hx
    rw [ValueStop, rest] at stop
    exact absurd stop.symm hne
  · obtain ⟨z, turns, hz⟩ := Ends.star_of_step (P := ValueStop) (fun s _ _ => ends_valueTurn s)
      (t := true) (g := grammar) (s := r) rfl
    have body : Ends grammar true (grammar.body .opValue) (Grammar.gap false s) (some z) :=
      turn.both turns
    obtain ⟨_, reads⟩ := turns.reads_some
    have shorter := reads.suffix.length_le.trans_lt hr
    replace stop := stop z hz
    refine ⟨some z, .call rfl body, fun x r hx => ?_, ?_, ?_⟩
    · rw [ValueStop, (rest_of_valueOf hx).1] at stop
      exact congrArg some stop
    · rintro hx _ ⟨⟩
      cases rest : valueRest 0 (Grammar.gap false s) with
      | none => rwa [ValueStop, rest] at stop
      | some q =>
        rw [ValueStop, rest] at stop
        rw [stop, rest_of_no_value hx rest] at shorter
        exact absurd shorter (lt_irrefl _)
    · rintro hs _ ⟨⟩
      exact stop.unclosed (unclosed_gap.mpr hs)

end Value

/-- A property. -/
theorem reach_property : Reach property (.rule .opAttr) := by
  refine Reach.rule ?_ rfl
  refine Reach.after (agrees_ident rfl rfl) closeRest_of_ident fun key => ?_
  refine Reach.after (agrees_symbol "=") (closeRest_of_symbol (by decide) (by decide)) fun _ => ?_
  exact reach_value (f := fun v => (Text.lower key, Text.trim v))

/-- A further property. -/
def furtherTurn : Peg Rule :=
  .inOrder [.text ",", .rule .opAttr]

theorem reach_further : Reach (symbol "," >>= fun _ => property) furtherTurn :=
  Reach.after (agrees_symbol ",") (closeRest_of_symbol (by decide) (by decide))
    fun _ => reach_property

end Reach

/-! ### Further properties -/

/-- Where nothing is closed there is no closing parenthesis. -/
theorem no_close_of_unclosed {s : Text} (h : Unclosed s) :
    Text.after? ")" (Grammar.gap false s) = none := by
  rw [Option.eq_none_iff_forall_ne_some]
  intro r hr
  have h := unclosed_gap.mpr h
  rw [Text.after?_eq_some.mp hr] at h
  cases h

/-- Where another property begins no parenthesis is closed. -/
theorem no_close_of_further {s z : Text} (h : Ends grammar false furtherTurn s (some z)) :
    Text.after? ")" s = none := by
  rw [Option.eq_none_iff_forall_ne_some]
  intro r hr
  have comma : Ends grammar false (.text ",") s none := Text.after?_eq_some.mp hr ▸ .text _ _
  have further : Ends grammar false furtherTurn s none := comma.no_first
  obtain ⟨_, h⟩ := h.reads_some
  cases further.reads_none.unique h

/-- The grammar stops where the scanner does, or goes on to a place from where no parenthesis is
closed, while the scanner stands before no closing parenthesis. -/
def FurtherEnd (s z : Text) : Prop :=
  Grammar.gap false z = Grammar.gap false (repeated (symbol "," >>= fun _ => property) s).2 ∨
    Unclosed z ∧ Text.after? ")"
      (Grammar.gap false (repeated (symbol "," >>= fun _ => property) s).2) = none

/-- The grammar reads as many properties as the scanner, or leaves a text that closes nothing. -/
theorem exists_turns (s s' : Text) (hs : Grammar.gap false s' = Grammar.gap false s) :
    ∃ z, Ends grammar false (.rep (.seq .skip furtherTurn)) s' (some z) ∧
      (Unclosed s → Unclosed z) ∧ FurtherEnd s z := by
  induction hn : s.length using Nat.strong_induction_on generalizing s s' with
  | _ n ih =>
    obtain ⟨o, turn, yes, no, unclosed⟩ := reach_further s
    cases o with
    | none =>
      have h : (symbol "," >>= fun _ => property : Scan _) s = none := by
        rw [Option.eq_none_iff_forall_ne_some]
        rintro ⟨x, r⟩ hx
        cases yes x r hx
      rw [← hs] at turn
      refine ⟨s', turn.skip.rep_nil, fun h => ?_, .inl ?_⟩
      · rwa [← unclosed_gap, hs, unclosed_gap]
      · rw [repeated.eq_def, progress_of_none h, hs]
    | some z =>
      have shorter : z.length < s.length := by
        obtain ⟨_, h⟩ := turn.reads_some
        have := Peg.consumes_of_solid (show furtherTurn.solid grammar 2 = true by decide) h
        exact this.trans_le (Grammar.length_gap_le false s)
      obtain ⟨z', more, unclosed', ends⟩ := ih z.length (hn ▸ shorter) z z rfl rfl
      rw [← hs] at turn
      refine ⟨z', turn.skip.rep_cons more, fun h => unclosed' (unclosed h z rfl), ?_⟩
      cases h : (symbol "," >>= fun _ => property : Scan _) s with
      | none =>
        refine .inr ⟨unclosed' (no h z rfl), ?_⟩
        rw [repeated.eq_def, progress_of_none h, ← hs]
        exact no_close_of_further turn
      | some v =>
        obtain ⟨x, r⟩ := v
        obtain rfl : z = r := Option.some.inj (yes x r h)
        rw [FurtherEnd, repeated.eq_def, (progress_eq_some shorter).mpr h]
        exact ends

/-- The further properties, as the members of a sequence. -/
theorem exists_star (s : Text) :
    ∃ z, Ends grammar false (.star furtherTurn) (Grammar.gap false s) (some z) ∧
      (Unclosed s → Unclosed z) ∧ FurtherEnd s z := by
  obtain ⟨z, turns, rest⟩ := exists_turns s (Grammar.gap false s) (Grammar.gap_gap false s)
  exact ⟨z, turns.star_of_rep (Grammar.gap_gap false s), rest⟩

/-! ### Operators -/

/-- The symbol of an operator goes on to a parenthesis or layout. -/
theorem readsOne_opSymbol : ReadsOne grammar true
    (.inOrder [.absent (.oneOf [.text "(", .one Text.isLayout]), .any])
    (fun c => c != '(' && !Text.isLayout c) :=
  ((Detects.char '(').alt (.one _)).readsOne (by simp [bne])

section Properties

variable {β : Type} (f : Text × Text → List (Text × Text) → β)

/-- The properties of an operator and what ends it. -/
def propertiesForm : Scan β := do
  let first ← property
  let more ← many do symbol ","; property
  symbol ")"
  symbol ";"
  pure (f first more)

theorem agrees_end (x : Text × Text) (xs : List (Text × Text)) :
    Agrees grammar false (do symbol ")"; symbol ";"; pure (f x xs))
      (.inOrder [.text ")", .text ";"]) :=
  (agrees_symbol ")").both fun _ => (agrees_symbol ";").map _

/-- Properties are read one after the other, and then the end. -/
theorem propertiesForm_of_some {s r : Text} {x : Text × Text} (h : property s = some (x, r)) :
    propertiesForm f s = (do symbol ")"; symbol ";"
                             pure (f x (repeated (symbol "," >>= fun _ => property) r).1) : Scan β)
      (repeated (symbol "," >>= fun _ => property) r).2 := by
  rw [propertiesForm, bind_of_some h]
  rfl

/-- **Properties are read as the grammar reads them.**  Where it goes on behind a value without an
end, it misses the closing parenthesis. -/
theorem agrees_properties : Agrees grammar false (propertiesForm f)
    (.inOrder [.rule .opAttr, .star furtherTurn, .text ")", .text ";"]) := by
  intro s
  obtain ⟨o, first, yes, no, -⟩ := reach_property s
  cases h : property s with
  | none =>
    rw [propertiesForm, bind_of_none h]
    cases o with
    | none => exact first.no_first
    | some z =>
      obtain ⟨z', turns, unclosed, -⟩ := exists_star z
      have missing := no_close_of_unclosed (unclosed (no h z rfl))
      have close : Ends grammar false (.text ")") (Grammar.gap false z') none :=
        missing ▸ .text _ _
      exact first.next (turns.next close.no_first)
  | some v =>
    obtain ⟨x, r⟩ := v
    rw [yes x r h] at first
    obtain ⟨z, turns, -, ends⟩ := exists_star r
    rw [propertiesForm_of_some f h]
    refine first.next (turns.next ?_)
    rcases ends with same | ⟨unclosed, missing⟩
    · rw [same]
      exact agrees_end f x _ _
    · have close : Ends grammar false (.text ")") (Grammar.gap false z) none :=
        no_close_of_unclosed unclosed ▸ .text _ _
      rw [bind_of_none]
      · exact close.no_first
      · rw [← Option.map_eq_none_iff, rest_symbol]
        exact missing

end Properties

/-- **The declaration of an operator.** -/
theorem agrees_operatorForm : Agrees grammar false operatorForm (.rule .createOperator) := by
  have opSymbol : Agrees grammar false
      (do layout; run1 fun c => c != '(' && !Text.isLayout c) (.rule .opSymbol) :=
    Agrees.layout (agrees_run1 readsOne_opSymbol) rfl
  refine Agrees.rule ?_ rfl
  refine follows_introducer.next fun _ => (agrees_word_of (by decide)).next fun _ => ?_
  refine Agrees.behind (opSymbol.next fun name => ?_)
  exact (agrees_symbol "(").next fun _ => agrees_properties _

end Statement

end VectorWrap
