import VectorWrap.Proofs.Declaration.Parameters
import VectorWrap.Proofs.Grammar.Groups
import VectorWrap.Proofs.Implementation.Forms
import VectorWrap.Proofs.Text.Level

/-!
# Calls are read as written

An expression is a call where the grammar reads it as one to its end (`parse_eq_named_iff`), and
then the text between its parentheses is matched, though the grammar reads an opening parenthesis
that is never closed like any other character: behind such a one the call has no end.  So the parts
at its top-level commas are matched as well, and a call that is written out again, and any list of
such parts in parentheses, is read as that call (`call_round_trip`).

In one direction a derivation of the grammar is built from the scanner's steps (`accepted_of_form`),
in the other the derivation is taken apart by the rules of a sequence; both meet in the group, where
the grammar and the count of parentheses come to the same stop (`IsGroup.ends_groups`).
-/

namespace VectorWrap

namespace Text

/-! ### Parts of matched texts -/

theorem isFlat_of_isBlank {c : Char} (h : isBlank c = true) : isFlat c = true := by
  simp only [isFlat, Bool.and_eq_true, bne_iff_ne]
  refine ⟨⟨?_, ?_⟩, ?_⟩ <;> (rintro rfl; cases h)

/-- What has no parenthesis and no comma may be put in front of a closed text. -/
theorem isClosed_flat_append {a : Text} (h : ∀ c ∈ a, isFlat c = true) (d : Nat) (s : Text) :
    isClosed d (a ++ s) = isClosed d s := by
  induction a with
  | nil => rfl
  | cons c a ih =>
    obtain ⟨hc, ha⟩ := List.forall_mem_cons.mp h
    have flat : (c ≠ '(' ∧ c ≠ ')') ∧ c ≠ ',' := by simpa [isFlat] using hc
    simp [isClosed, flat, ih ha]

theorem isClosed_append_flat {a : Text} (h : ∀ c ∈ a, isFlat c = true) (d : Nat) (s : Text) :
    isClosed d (s ++ a) = isClosed d s := by
  fun_induction isClosed d s with
  | case1 d => simpa [isClosed] using isClosed_flat_append h d []
  | case2 d s ih => simpa [isClosed] using ih
  | case3 s => rfl
  | case4 s d _ ih => simpa [isClosed] using ih
  | case5 d c s ho hc ih => simp [isClosed, ho, hc, ih]

/-- Trimming does not matter to being closed. -/
theorem isClosed_trim (s : Text) : isClosed 0 (trim s) = isClosed 0 s := by
  obtain ⟨a, b, hs, ha, hb⟩ := exists_trim s
  conv_rhs => rw [hs]
  rw [isClosed_append_flat fun c hc => isFlat_of_isBlank (hb c hc),
    isClosed_flat_append fun c hc => isFlat_of_isBlank (ha c hc)]

/-- A character that is neither a surplus parenthesis nor a comma outside. -/
theorem isClosed_cons {d : Nat} {c : Char} (hc : ¬ (c = ')' ∧ d = 0)) (hcomma : ¬ (c = ',' ∧ d = 0))
    (s : Text) : isClosed d (c :: s) = isClosed (depthBehind d c) s := by
  by_cases ho : c = '('
  · simp [isClosed, depthBehind, ho]
  by_cases hclose : c = ')'
  · obtain ⟨k, rfl⟩ := Nat.exists_eq_succ_of_ne_zero fun h => hc ⟨hclose, h⟩
    simp [isClosed, depthBehind, hclose]
  · have on : (c != ',' || d != 0) = true := by
      simpa only [Bool.or_eq_true, bne_iff_ne, ← not_and_or] using hcomma
    simp [isClosed, depthBehind, ho, hclose, on]

/-- **The pieces of a matched text are closed**; `d` parentheses may be open before it, which the
first piece closes. -/
theorem exists_closed_pieces {d : Nat} {s : Text} (h : Enclosed ')' d s)
    (hl : (d : Int) + level s = 0) : ∃ t ts, topPieces d s = t :: ts ∧
      isClosed d t = true ∧ ∀ u ∈ ts, isClosed 0 u = true := by
  induction s generalizing d with
  | nil =>
    obtain rfl : d = 0 := by simpa using hl
    exact ⟨[], [], rfl, rfl, by simp⟩
  | cons c s ih =>
    rw [level_cons, ← add_assoc] at hl
    by_cases hcomma : c = ',' ∧ d = 0
    · obtain ⟨rfl, rfl⟩ := hcomma
      obtain ⟨t, ts, pieces, ht, hts⟩ := ih (d := 0) h.2 hl
      exact ⟨[], t :: ts, congrArg _ pieces, rfl, by simpa using ⟨ht, hts⟩⟩
    · have hc : ¬ (c = ')' ∧ d = 0) := by simpa using h.1
      have depth := cast_depthBehind hc
      obtain ⟨t, ts, pieces, ht, hts⟩ := ih (d := depthBehind d c) (depth ▸ h.2) (depth ▸ hl)
      refine ⟨c :: t, ts, ?_, (isClosed_cons hc hcomma t).trans ht, hts⟩
      rw [topPieces_cons (by simpa using hcomma), ← depth, pieces]
      rfl

/-- The pieces of a matched text are parts. -/
theorem isPart_of_mem_splitTopLevel {s w : Text} (h : Matched s) (hw : w ∈ splitTopLevel s) :
    IsPart w := by
  obtain ⟨hw, hne⟩ := List.mem_filter.mp hw
  obtain ⟨u, hu, rfl⟩ := List.mem_map.mp hw
  obtain ⟨t, ts, pieces, ht, hts⟩ :=
    exists_closed_pieces (d := 0) h.1 (by rw [h.2, Nat.cast_zero, add_zero])
  have closed : isClosed 0 u = true := by
    rw [Nat.cast_zero] at pieces
    rw [pieces] at hu
    rcases List.mem_cons.mp hu with rfl | hu
    · exact ht
    · exact hts u hu
  exact ⟨(isClosed_trim u).trans closed, trimmed_trim u, by simpa using hne⟩

end Text

namespace Implementation

/-- The rule for groups in a source. -/
theorem isGroup : grammar.IsGroup .parenGroup :=
  ⟨rfl, rfl⟩

/-- The end of the text. -/
theorem ends_end {t : Bool} (s : Text) :
    Ends grammar t (.absent .any) s (if s.isEmpty then some [] else none) := by
  cases s with
  | nil => exact .absent (.no_one (by simp))
  | cons c s => exact .no_absent (.one rfl s)

end Implementation

namespace Call
open Scan Text Implementation

/-! ### The rule for calls -/

/-- A call, as what a scanner of groups reads. -/
theorem form_eq : form = (do
    let f ← ident
    symbol "("
    layout
    let args ← groups
    symbol ")"
    layout
    atEnd
    pure ⟨some f, splitTopLevel args⟩) := by
  simp only [form, parenthesised_eq, bind_assoc, pure_bind]

/-- The end of the text. -/
theorem agrees_atEnd : Agrees grammar false (do layout; atEnd) (.absent .any) := by
  intro s
  have rest : ∀ s : Text, (atEnd s).map Prod.snd = if s.isEmpty then some [] else none := by
    intro s
    cases s <;> rfl
  show Ends grammar false (.absent .any) (Grammar.gap false s)
    ((atEnd (Grammar.gap false s)).map Prod.snd)
  rw [rest]
  exact ends_end _

/-- A call is read as its rule says, member by member. -/
theorem agrees_form : Agrees grammar false form
    (.inOrder [.rule .ident, .text "(", .rule .callArgs, .text ")", .absent .any]) := by
  rw [form_eq]
  refine agrees_nameRule.next fun f => (agrees_symbol "(").next fun _ => Agrees.behind ?_
  refine (isGroup.agrees_inside rfl rfl).next fun args => (agrees_symbol ")").both fun _ => ?_
  exact Agrees.behind (agrees_atEnd.map fun _ => _)

/-- The grammar reads the text to its end as a call; `f` is the text of its name, and `args` that of
its arguments. -/
def Accepted (s f args : Text) : Prop :=
  ∃ calls, grammar.Parses .callExpr s calls ∧
    calls.map Found.part = [(.ident, f), (.callArgs, args)]

/-- What is read as a call is one in the grammar, its arguments matched. -/
theorem accepted_of_form {s r : Text} {c : Call} (h : form s = some (c, r)) :
    r = [] ∧ ∃ f args, c = ⟨some f, splitTopLevel args⟩ ∧ isName f = true ∧ Matched args ∧
      Accepted s f args := by
  obtain ⟨f, s₁, hf, h⟩ := bind_eq_some.mp h
  obtain ⟨args, s₂, hargs, h⟩ := bind_eq_some.mp h
  obtain ⟨_, s₃, hl, h⟩ := bind_eq_some.mp h
  obtain ⟨_, s₄, hend, h⟩ := bind_eq_some.mp h
  obtain ⟨rfl, rfl⟩ := pure_eq_some.mp h
  obtain ⟨_, t, hopen, hargs⟩ := bind_eq_some.mp hargs
  obtain ⟨_, t', hl', hargs⟩ := bind_eq_some.mp hargs
  obtain rfl := layout_eq_some.mp hl'
  obtain ⟨whole, enclosed, hlevel⟩ := closing?_eq_some_iff.mp hargs
  have last : s₃ = [] ∧ s₄ = [] := by
    cases s₃ with
    | nil =>
      cases hend
      exact ⟨rfl, rfl⟩
    | cons => cases hend
  obtain ⟨rfl, rfl⟩ := last
  -- each step of the scan is a derivation of the rule that it stands for
  have name : Reads grammar false (.rule .ident) (Grammar.gap false s)
      (some ([⟨.ident, Grammar.gap false s, s₁⟩], s₁)) := by
    have read := agrees_nameRule s
    rw [hf] at read
    exact read.reads_rule
  have inner : Reads grammar false (.rule .callArgs) (t.dropWhile isLayout)
      (some ([⟨.callArgs, t.dropWhile isLayout, ')' :: s₂⟩], ')' :: s₂)) := by
    have read : Ends grammar false (.rule .callArgs) (t.dropWhile isLayout)
        (some (closeEnd (t.dropWhile isLayout))) :=
      .call rfl (isGroup.ends_groups _)
    rw [closeEnd_of_closing? hargs] at read
    exact read.reads_rule
  have opening : Text.after? "(" (Grammar.gap false s₁) = some t :=
    after?_eq_some.mpr (symbol_eq_some.mp hopen)
  have ending : Reads grammar false (.absent .any) (Grammar.gap false s₂) (some ([], [])) := by
    rw [Grammar.gap_loose, layout_eq_some.mp hl]
    exact .absent (.no_one (by simp))
  refine ⟨rfl, f, args, rfl, (parts_of_ident hf).2, ⟨enclosed, by simpa using hlevel⟩,
    [⟨.ident, Grammar.gap false s, s₁⟩, ⟨.callArgs, t.dropWhile isLayout, ')' :: s₂⟩], ?_, ?_⟩
  · exact (Reads.text rfl).next <| name.next <| (Reads.text opening).next <| inner.next <|
      (Reads.text rfl).both ending
  · have text : Text.upTo (s.dropWhile isLayout) s₁ = f := by
      rw [(parts_of_ident hf).1, upTo_append_self]
    have inside : Text.upTo (t.dropWhile isLayout) (')' :: s₂) = args := by
      rw [whole, upTo_append_self]
    simp [Found.part, Found.text, text, inside]

/-- **A text is read as a call where the grammar reads it as one.** -/
theorem form_eq_some_iff {s : Text} {c : Call} : form s = some (c, []) ↔
    ∃ f args, Accepted s f args ∧ c = ⟨some f, splitTopLevel args⟩ := by
  constructor
  · intro h
    obtain ⟨-, f, args, hc, -, -, accepted⟩ := accepted_of_form h
    exact ⟨f, args, accepted, hc⟩
  · rintro ⟨f, args, ⟨calls, parses, parts⟩, rfl⟩
    have members := agrees_form s
    cases h : form s with
    | none =>
      rw [h] at members
      have none : Reads grammar false (grammar.body .callExpr) s none :=
        ((Ends.text [] s).next members).reads_none
      cases parses.unique none
    | some v =>
      obtain ⟨c, r⟩ := v
      obtain ⟨rfl, f', args', rfl, -, -, calls', parses', parts'⟩ := accepted_of_form h
      obtain rfl : calls = calls' := by simpa using parses.unique parses'
      rw [parts] at parts'
      cases parts'
      rfl

/-! ### Calls as they are written -/

/-- A name with a list of parts in parentheses. -/
theorem form_list {f : Text} {args : List Text} (hf : isName f = true)
    (h : ∀ a ∈ args, IsPart a) :
    form (f ++ '(' :: (joinWith ", " args ++ [')'])) = some (⟨some f, args⟩, []) := by
  have first : ∀ c, (joinWith ", " args ++ [')']).head? = some c → isLayout c = false := by
    intro c hc
    cases args with
    | nil =>
      obtain rfl : ')' = c := by simpa [joinWith] using hc
      rfl
    | cons a args =>
      have part := h a List.mem_cons_self
      obtain ⟨x, t, rfl⟩ := List.exists_cons_of_ne_nil part.ne_nil
      obtain rfl : x = c := by cases args <;> simpa [joinWith] using hc
      have := part.trimmed.head x rfl
      rw [Bool.eq_false_iff] at this ⊢
      exact fun hl => this (isBlank_of_isLayout hl)
  have stay : (joinWith ", " args ++ [')']).dropWhile isLayout = joinWith ", " args ++ [')'] :=
    dropWhile_append_of_head (a := []) (by simp) first
  have name : ident (f ++ '(' :: (joinWith ", " args ++ [')'])) =
      some (f, '(' :: (joinWith ", " args ++ [')'])) := by
    rw [← List.nil_append (f ++ _)]
    refine ident_append (by simp) hf fun c hc => ?_
    obtain rfl : '(' = c := by simpa using hc
    rfl
  have list : closing? 0 (joinWith ", " args ++ [')']) = some (joinWith ", " args, []) :=
    closing?_list (by decide) (fun a ha => (h a ha).closed) []
  have inside : parenthesised ('(' :: (joinWith ", " args ++ [')'])) =
      some (joinWith ", " args, []) :=
    bind_eq_some.mpr ⟨(), _, symbol_eq_some.mpr rfl,
      bind_eq_some.mpr ⟨(), _, layout_eq_some.mpr stay, list⟩⟩
  have space : ∀ c ∈ [' '], isLayout c = true := by simp [isLayout]
  have parts : splitTopLevel (joinWith ", " args) = args := splitTopLevel_list space h
  rw [form, bind_of_some name, bind_of_some inside, parts]
  rfl

/-- A name and parts in parentheses are read as the call of these parts. -/
theorem parse_list {f : Text} {args : List Text} (hf : isName f = true)
    (h : ∀ a ∈ args, IsPart a) : parse (f ++ "(" ++ joinWith ", " args ++ ")") =
      ⟨some f, args⟩ := by
  have whole : f ++ "(" ++ joinWith ", " args ++ ")" =
      f ++ '(' :: (joinWith ", " args ++ [')']) := by simp
  have trimmed : Trimmed (f ++ '(' :: (joinWith ", " args ++ [')'])) := by
    refine ⟨fun c hc => ?_, fun c hc => ?_⟩
    · obtain ⟨x, t, rfl⟩ := List.exists_cons_of_ne_nil (ne_nil_of_isName hf)
      obtain rfl : x = c := by simpa using hc
      exact isBlank_of_isName hf x List.mem_cons_self
    · rw [← List.cons_append, ← List.append_assoc, List.getLast?_concat] at hc
      cases hc
      rfl
  rw [whole, parse, trim_of_trimmed trimmed, form_list hf h]

/-! ### Reading what was read -/

/-- An expression is a call to its end, or is kept as it is. -/
theorem parse_cases (e : Text) :
    (form (trim e) = none ∧ parse e = bare (trim e)) ∨
      ∃ c, form (trim e) = some (c, []) ∧ parse e = c := by
  rw [parse]
  cases h : form (trim e) with
  | none => exact .inl ⟨rfl, rfl⟩
  | some v =>
    obtain ⟨c, r⟩ := v
    obtain ⟨rfl, -⟩ := accepted_of_form h
    exact .inr ⟨c, rfl, rfl⟩

/-- What is written of an expression is read as that expression. -/
theorem parse_display (e : Text) : parse (display (parse e)) = parse e := by
  rcases parse_cases e with ⟨none, same⟩ | ⟨c, read, same⟩
  · have shown : display (bare (trim e)) = trim e := by simp [display, bare, joinWith]
    rw [same, shown, parse, trim_of_trimmed (trimmed_trim e), none]
  · obtain ⟨-, f, args, rfl, hf, matched, -⟩ := accepted_of_form read
    rw [same]
    exact parse_list hf fun w hw => isPart_of_mem_splitTopLevel matched hw

/-- **An expression is a call** exactly where the grammar reads it as one. -/
theorem parse_eq_named_iff {e f : Text} {args : List Text} : parse e = ⟨some f, args⟩ ↔
    ∃ written, Accepted (trim e) f written ∧ args = splitTopLevel written := by
  have named : parse e = ⟨some f, args⟩ ↔ form (trim e) = some (⟨some f, args⟩, []) := by
    rcases parse_cases e with ⟨none, same⟩ | ⟨c, read, same⟩
    · rw [same, none]
      simp [bare]
    · rw [same, read]
      simp
  rw [named, form_eq_some_iff]
  constructor
  · rintro ⟨_, written, accepted, e⟩
    cases e
    exact ⟨written, accepted, rfl⟩
  · rintro ⟨written, accepted, rfl⟩
    exact ⟨f, written, accepted, rfl⟩

/-- The text between the parentheses of a call is matched. -/
theorem Accepted.matched {s f args : Text} (h : Accepted s f args) :
    isName f = true ∧ Matched args := by
  obtain ⟨-, f', args', hc, hf, matched, calls', parses', parts'⟩ :=
    accepted_of_form (form_eq_some_iff.mpr ⟨f, args, h, rfl⟩)
  obtain ⟨calls, parses, parts⟩ := h
  obtain rfl : calls = calls' := by simpa using parses.unique parses'
  rw [parts] at parts'
  cases parts'
  exact ⟨hf, matched⟩

/-- **Calls round-trip.**  A name with a list of parts in parentheses is read as the call of that
name with these parts, and every expression is read as it is read again once it is written out.  An
expression is a call of a name exactly if the grammar reads it so, and the text that it has for the
arguments is then matched; otherwise it is a bare term. -/
theorem call_round_trip :
    (∀ f args, isName f = true → (∀ a ∈ args, IsPart a) →
      parse (f ++ "(" ++ joinWith ", " args ++ ")") = ⟨some f, args⟩) ∧
    (∀ e, parse (display (parse e)) = parse e) ∧
    (∀ e f args, parse e = ⟨some f, args⟩ ↔
      ∃ written, Accepted (trim e) f written ∧ args = splitTopLevel written) ∧
    (∀ s f written, Accepted s f written → isName f = true ∧ Matched written) ∧
    ∀ e, (¬ ∃ f written, Accepted (trim e) f written) → parse e = bare (trim e) := by
  refine ⟨fun _ _ hf h => parse_list hf h, parse_display, fun _ _ _ => parse_eq_named_iff,
    fun _ _ _ => Accepted.matched, fun e none => ?_⟩
  rcases parse_cases e with ⟨-, same⟩ | ⟨c, read, -⟩
  · exact same
  · obtain ⟨f, written, accepted, -⟩ := form_eq_some_iff.mp read
    exact absurd ⟨f, written, accepted⟩ none

/-- The theorem for a call in a call, and for one with blanks and an empty argument. -/
theorem call_round_trip_of_nested :
    parse "f(a, g(b, c))" = ⟨some "f", ["a".toList, "g(b, c)".toList]⟩ ∧
    parse (display (parse " f ( a,, (b) ) ")) = parse " f ( a,, (b) ) " ∧
    (∃ written, Accepted (trim " f ( a,, (b) ) ") "f" written ∧
      ["a".toList, "(b)".toList] = splitTopLevel written ∧ Matched written) := by
  obtain ⟨list, again, named, matched, -⟩ := call_round_trip
  have part : ∀ w : Text, isClosed 0 w = true → trim w = w → w ≠ [] → IsPart w :=
    fun w closed trimmed ne_nil => ⟨closed, trimmed ▸ trimmed_trim w, ne_nil⟩
  refine ⟨list "f" ["a".toList, "g(b, c)".toList] (by decide) ?_, again _, ?_⟩
  · rintro a (_ | ⟨_, _ | ⟨_, ⟨⟩⟩⟩)
    · exact part _ (by decide) (by decide +kernel) (by decide)
    · exact part _ (by decide) (by decide +kernel) (by decide)
  · obtain ⟨written, accepted, parts⟩ := (named " f ( a,, (b) ) " "f" _).mp (by cbv)
    exact ⟨written, accepted, parts, (matched _ _ _ accepted).2⟩

end Call

end VectorWrap
