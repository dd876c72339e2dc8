import VectorWrap.Proofs.Grammar.Outcome

/-!
# Scanners and expressions of a grammar

A scanner agrees with an expression if both leave the same of every text, behind the layout that may
be skipped (`Agrees`).  After an optional part or a repetition a grammar has skipped the layout
before what it then did not find, where a scanner has not; the two then leave the same but for that
layout (`Follows`), and the next member of a sequence makes up for it (`Follows.next`).  So the
scanner of a rule is compared with the rule member by member.

`Follows` is kept by everything that an expression is built from, and `Agrees` by most; the members
of a sequence are related by the weaker one except for the last.  One lemma for each way of building
an expression does for all rules of both grammars, which are then put together from their leaves
(`Grammar/Leaves.lean`) without unfolding a scanner again.
-/

namespace VectorWrap

open Grammar

variable {ρ α β : Type} {g : Grammar ρ} {t : Bool}

/-- Behind the layout that may be skipped, a scanner leaves what the expression leaves. -/
def Agrees (g : Grammar ρ) (t : Bool) (p : Scan α) (e : Peg ρ) : Prop :=
  ∀ s, Ends g t e (gap t s) ((p s).map Prod.snd)

/-- The same but for layout at the front of what is left. -/
def Follows (g : Grammar ρ) (t : Bool) (p : Scan α) (e : Peg ρ) : Prop :=
  ∀ s, ∃ o, Ends g t e (gap t s) o ∧ o.map (gap t) = (p s).map (gap t ∘ Prod.snd)

theorem Agrees.follows {p : Scan α} {e : Peg ρ} (h : Agrees g t p e) : Follows g t p e := by
  intro s
  exact ⟨_, h s, by rw [Option.map_map]⟩

namespace Follows

variable {p : Scan α} {q : α → Scan β} {a b e : Peg ρ} {es : List (Peg ρ)}

/-- What a scanner that follows an expression did to a text. -/
theorem cases (h : Follows g t p e) (s : Text) :
    (p s = none ∧ Ends g t e (gap t s) none) ∨
      ∃ x r r', p s = some (x, r) ∧ Ends g t e (gap t s) (some r') ∧ gap t r' = gap t r := by
  obtain ⟨o, he, ho⟩ := h s
  cases hp : p s with
  | none =>
    rw [hp, Option.map_none, Option.map_eq_none_iff] at ho
    exact .inl ⟨rfl, ho ▸ he⟩
  | some v =>
    obtain ⟨x, r⟩ := v
    rw [hp, Option.map_some, Option.map_eq_some_iff] at ho
    obtain ⟨r', rfl, hr⟩ := ho
    exact .inr ⟨x, r, r', rfl, he, hr⟩

/-- A sequence may go on in the layout that a scanner has left. -/
theorem next (hp : Follows g t p a) (hq : ∀ x, Agrees g t (q x) (.inOrder (b :: es))) :
    Agrees g t (p >>= q) (.inOrder (a :: b :: es)) := by
  intro s
  rcases hp.cases s with ⟨h, he⟩ | ⟨x, r, r', h, he, hr⟩
  · rw [Scan.bind_of_none h]
    exact he.no_first
  · rw [Scan.bind_of_some h]
    exact he.next (hr ▸ hq x r)

/-- Two scanners in a sequence, where more members come. -/
theorem next_follows (hp : Follows g t p a)
    (hq : ∀ x, Follows g t (q x) (.inOrder (b :: es))) :
    Follows g t (p >>= q) (.inOrder (a :: b :: es)) := by
  intro s
  rcases hp.cases s with ⟨h, he⟩ | ⟨x, r, r', h, he, hr⟩
  · rw [Scan.bind_of_none h]
    exact ⟨none, he.no_first, rfl⟩
  · obtain ⟨o, ho, hro⟩ := hq x r
    rw [Scan.bind_of_some h]
    exact ⟨o, he.next (hr ▸ ho), hro⟩

theorem both_follows (hp : Follows g t p a) (hq : ∀ x, Follows g t (q x) b) :
    Follows g t (p >>= q) (.inOrder [a, b]) :=
  hp.next_follows hq

/-- Alternatives follow each other if the members of each pair do. -/
theorem orElse {p' : Scan α} (hp : Follows g t p a) (hp' : Follows g t p' b) :
    Follows g t (p <|> p') (.alt a b) := by
  intro s
  rcases hp.cases s with ⟨h, he⟩ | ⟨x, r, r', h, he, hr⟩
  · obtain ⟨o, ho, hro⟩ := hp' s
    rw [Scan.orElse_of_none h]
    exact ⟨o, he.alt_right ho, hro⟩
  · rw [Scan.orElse_of_some h]
    exact ⟨some r', he.alt_left, congrArg some hr⟩

/-- An optional part follows an optional expression. -/
theorem orNone (hp : Follows g t p e) : Follows g t (Scan.orNone p) (.opt e) := by
  intro s
  rcases hp.cases s with ⟨h, he⟩ | ⟨x, r, r', h, he, hr⟩
  · rw [Scan.orNone_of_none h]
    exact ⟨_, he.opt_none, congrArg some (gap_gap t s)⟩
  · rw [Scan.orNone_of_some h]
    exact ⟨some r', he.opt_some, congrArg some hr⟩

theorem behind {p : Scan α} (h : Follows g t ((do Scan.layout; p) >>= q) e) :
    Follows g t (do Scan.layout; let x ← p; q x) e :=
  h

/-- What skips the layout first leaves the same but for layout. -/
theorem lexeme (hp : Follows g t p e) : Follows g t (Scan.lexeme p) e := by
  intro s
  obtain ⟨o, he, ho⟩ := hp s
  refine ⟨o, he, ho.trans ?_⟩
  rw [Scan.lexeme, Option.map_map]
  rfl

/-- A rule reads as its expression does. -/
theorem rule {r : ρ} (hp : Follows g t p (g.body r)) (ht : (t || g.tight r) = t) :
    Follows g t p (.rule r) := by
  intro s
  obtain ⟨o, he, ho⟩ := hp s
  refine ⟨o, .rule ?_, ho⟩
  rw [ht]
  exact he

/-- What is made of the value does not matter. -/
theorem map (hp : Follows g t p e) (f : α → β) :
    Follows g t (p >>= fun x => pure (f x)) e := by
  intro s
  rcases hp.cases s with ⟨h, he⟩ | ⟨x, r, r', h, he, hr⟩
  · rw [Scan.bind_of_none h]
    exact ⟨none, he, rfl⟩
  · rw [Scan.bind_of_some h]
    exact ⟨some r', he, congrArg some hr⟩

/-- Turns that follow an expression make repetitions that do. -/
theorem many (hp : Follows g t p e) (shrinks : ∀ {s x r}, p s = some (x, r) → r.length < s.length) :
    Follows g t (Scan.many p) (.star e) := by
  -- what the expression has left may differ in layout from what the scanner has
  have turns : ∀ n (s s' : Text), s.length = n → gap t s' = gap t s →
      ∃ z, Ends g t (.rep (.seq .skip e)) s' (some z) ∧ gap t z = gap t (Scan.repeated p s).2 := by
    intro n
    induction n using Nat.strong_induction_on with
    | _ n ih =>
      intro s s' hn hs
      rw [Scan.repeated.eq_def]
      rcases hp.cases s with ⟨h, he⟩ | ⟨x, r, r', h, he, hr⟩
      · rw [Scan.progress_of_none h]
        rw [← hs] at he
        exact ⟨s', he.skip.rep_nil, hs⟩
      · rw [(Scan.progress_eq_some (shrinks h)).mpr h]
        rw [← hs] at he
        obtain ⟨z, k, hz⟩ := ih r.length (hn ▸ shrinks h) r r' rfl hr
        exact ⟨z, he.skip.rep_cons k, hz⟩
  intro s
  obtain ⟨z, k, hz⟩ := turns _ s (gap t s) rfl (gap_gap t s)
  exact ⟨some z, k.star_of_rep (gap_gap t s), congrArg some hz⟩

end Follows

namespace Agrees

variable {p : Scan α} {q : α → Scan β} {a b e : Peg ρ} {es : List (Peg ρ)}

/-- Two scanners in a sequence: the second makes up for the layout that the first has left. -/
theorem next (hp : Agrees g t p a) (hq : ∀ x, Agrees g t (q x) (.inOrder (b :: es))) :
    Agrees g t (p >>= q) (.inOrder (a :: b :: es)) :=
  hp.follows.next hq

theorem both (hp : Agrees g t p a) (hq : ∀ x, Agrees g t (q x) b) :
    Agrees g t (p >>= q) (.inOrder [a, b]) :=
  hp.next hq

/-- Alternatives agree if the members of each pair do. -/
theorem orElse {p' : Scan α} (hp : Agrees g t p a) (hp' : Agrees g t p' b) :
    Agrees g t (p <|> p') (.alt a b) := by
  intro s
  have he := hp s
  cases h : p s with
  | none =>
    rw [h] at he
    rw [Scan.orElse_of_none h]
    exact he.alt_right (hp' s)
  | some v =>
    rw [h] at he
    rw [Scan.orElse_of_some h]
    exact he.alt_left

/-- What is made of the value does not matter. -/
theorem map (hp : Agrees g t p e) (f : α → β) : Agrees g t (p >>= fun x => pure (f x)) e := by
  intro s
  have he := hp s
  cases h : p s with
  | none =>
    rw [h] at he
    rw [Scan.bind_of_none h]
    exact he
  | some v =>
    rw [h] at he
    rw [Scan.bind_of_some h]
    exact he

/-- A look for something that is not there. -/
theorem absent (hp : Agrees g false (do Scan.layout; p) e) :
    Agrees g false (do Scan.layout; Scan.absent p) (.absent e) := by
  intro s
  have he : Ends g false e (gap false s) ((p (gap false s)).map Prod.snd) := hp s
  show Ends g false (.absent e) (gap false s) ((Scan.absent p (gap false s)).map Prod.snd)
  unfold Scan.absent
  cases h : p (gap false s) with
  | none =>
    rw [h] at he
    exact he.absent
  | some v =>
    rw [h] at he
    exact he.no_absent

/-- A look for something that is there. -/
theorem ahead (hp : Agrees g true p e) : Agrees g true (Scan.ahead p) (.ahead e) := by
  intro s
  have he := hp s
  unfold Scan.ahead
  cases h : p s with
  | none =>
    rw [h] at he
    exact he.no_ahead
  | some v =>
    rw [h] at he
    exact he.ahead

/-- A rule agrees with what its expression agrees with. -/
theorem rule {r : ρ} (h : Agrees g t p (g.body r)) (ht : (t || g.tight r) = t) :
    Agrees g t p (.rule r) := by
  intro s
  refine Ends.rule ?_
  rw [ht]
  exact h s

theorem behind {p : Scan α} (h : Agrees g t ((do Scan.layout; p) >>= q) e) :
    Agrees g t (do Scan.layout; let x ← p; q x) e :=
  h

/-- Layout that an expression is read behind may be skipped before. -/
theorem after_layout (h : Agrees g false p e) : Agrees g false (do Scan.layout; p) e := by
  intro s
  have := h (gap false s)
  rwa [gap_gap] at this

/-- A rule that skips no layout may be called behind it. -/
theorem layout {r : ρ} (h : Agrees g true p (g.body r)) (ht : g.tight r = true) :
    Agrees g false (do Scan.layout; p) (.rule r) := by
  intro s
  exact .call ht (h (gap false s))

end Agrees

end VectorWrap
