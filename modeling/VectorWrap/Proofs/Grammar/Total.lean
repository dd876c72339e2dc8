import VectorWrap.Proofs.Grammar.Peg

/-!
# Grammars that always come to an end

A reading goes on for ever where the turns of a repetition read nothing, or where a rule comes back
to itself without having read anything.  Both can be ruled out by the look of the expressions.
`solid` holds of an expression that reads at least one character whenever it reads, and `lefts` are
the rules that one may call at the place where it begins.  In a grammar where the turns of all
repetitions are solid and no rule comes back to itself by calls of that kind (`Grounded`), every
rule has an outcome on every text (`Grounded.total`).

The induction is on the length of the text, and for one length on the rank of the rules: a rule
calls only rules of lower rank at the place where it begins, and any rule on a shorter text
(`exists_of_lefts`, `exists_rule`).
-/

namespace VectorWrap

namespace Peg

variable {ρ : Type}

/-- An expression reads a character whenever it reads, if the rules that are `called` do. -/
def solidIf (called : ρ → Bool) : Peg ρ → Bool
  | .text w => !w.isEmpty
  | .letters w => !w.isEmpty
  | .one _ => true
  | .skip => false
  | .seq a b => solidIf called a || solidIf called b
  | .alt a b => solidIf called a && solidIf called b
  | .rep _ => false
  | .absent _ => false
  | .ahead _ => false
  | .rule r => called r

/-- An expression reads a character whenever it reads, as is seen by following `depth` calls. -/
def solid (g : Grammar ρ) : Nat → Peg ρ → Bool
  | 0, e => e.solidIf fun _ => false
  | depth + 1, e => e.solidIf fun r => solid g depth (g.body r)

/-- The turns of the repetitions in an expression. -/
def turns : Peg ρ → List (Peg ρ)
  | .rep e => e :: turns e
  | .seq a b => turns a ++ turns b
  | .alt a b => turns a ++ turns b
  | .absent e => turns e
  | .ahead e => turns e
  | _ => []

/-- The rules that an expression may call where it begins. -/
def lefts (g : Grammar ρ) (depth : Nat) : Peg ρ → List ρ
  | .seq a b => lefts g depth a ++ if a.solid g depth then [] else lefts g depth b
  | .alt a b => lefts g depth a ++ lefts g depth b
  | .rep e => lefts g depth e
  | .absent e => lefts g depth e
  | .ahead e => lefts g depth e
  | .rule r => [r]
  | _ => []

end Peg

/-- The turns of all repetitions are solid, and a rule calls only rules of lower rank where it
begins. -/
structure Grammar.Grounded {ρ : Type} (g : Grammar ρ) (depth : Nat) (rank : ρ → Nat) : Prop where
  turns : ∀ r, ∀ e ∈ (g.body r).turns, e.solid g depth = true
  lefts : ∀ r, ∀ q ∈ (g.body r).lefts g depth, rank q < rank r

variable {ρ : Type} {g : Grammar ρ}

/-! ### Solid expressions -/

/-- An expression never reads nothing. -/
def Peg.Consumes (g : Grammar ρ) (e : Peg ρ) : Prop :=
  ∀ {t s x r}, Reads g t e s (some (x, r)) → r.length < s.length

/-- Letters that are not empty are consumed. -/
theorem Text.length_afterLetters? {w s r : Text} (hw : w ≠ [])
    (h : Text.afterLetters? w s = some r) : r.length < s.length := by
  obtain ⟨p, w, rfl⟩ := List.exists_cons_of_ne_nil hw
  cases s with
  | nil => cases h
  | cons c s =>
    rw [Text.afterLetters?] at h
    split_ifs at h
    exact Nat.lt_succ_of_le (Reads.suffix_afterLetters? h).length_le

/-- An expression that is solid, if the rules it calls are, consumes. -/
theorem Peg.consumes_of_solidIf {called : ρ → Bool}
    (hc : ∀ r, called r = true → Consumes g (g.body r)) {e : Peg ρ}
    (he : e.solidIf called = true) : Consumes g e := by
  induction e with
  | text w =>
    intro t s x r h
    cases h with
    | text h =>
      have : w ≠ [] := by simpa [solidIf] using he
      have := List.length_pos_iff.mpr this
      rw [Text.after?_eq_some.mp h, List.length_append]
      omega
  | letters w =>
    intro t s x r h
    cases h with
    | letters h => exact Text.length_afterLetters? (by simpa [solidIf] using he) h
  | one p =>
    intro t s x r h
    cases h
    exact Nat.lt_succ_self _
  | skip | rep _ _ | absent _ _ | ahead _ _ => simp [solidIf] at he
  | seq a b iha ihb =>
    intro t s x r h
    cases h with
    | seq h k =>
      rw [solidIf, Bool.or_eq_true] at he
      rcases he with ha | hb
      · exact k.suffix.length_le.trans_lt (iha ha h)
      · exact (ihb hb k).trans_le h.suffix.length_le
  | alt a b iha ihb =>
    rw [solidIf, Bool.and_eq_true] at he
    intro t s x r h
    cases h with
    | alt_left h => exact iha he.1 h
    | alt_right _ k => exact ihb he.2 k
  | rule q =>
    intro t s x r h
    cases h with
    | rule h => exact hc q he h

/-- **A solid expression reads a character whenever it reads.** -/
theorem Peg.consumes_of_solid {depth : Nat} {e : Peg ρ} (he : e.solid g depth = true) :
    Consumes g e := by
  induction depth generalizing e with
  | zero => exact consumes_of_solidIf (fun _ h => by cases h) he
  | succ depth ih => exact consumes_of_solidIf (fun _ h => ih h) he

namespace Grammar.Grounded

variable {depth : Nat} {rank : ρ → Nat}

/-! ### Outcomes -/

/-- An expression whose turns are solid has an outcome on a text if the rules that it may call
where it begins have one on texts of that length, and if all such expressions have one on shorter
texts. -/
theorem exists_of_lefts {n : Nat}
    (shorter : ∀ s : Text, s.length < n → ∀ t (e : Peg ρ),
      (∀ x ∈ e.turns, x.solid g depth = true) → ∃ o, Reads g t e s o)
    {e : Peg ρ} (he : ∀ x ∈ e.turns, x.solid g depth = true)
    (hl : ∀ q ∈ e.lefts g depth, ∀ t (s : Text), s.length = n → ∃ o, Reads g t (.rule q) s o)
    (t : Bool) (s : Text) (hs : s.length = n) : ∃ o, Reads g t e s o := by
  -- on the expression: behind what was read the text is shorter, and `shorter` applies
  induction e generalizing s with
  | text w =>
    cases h : Text.after? w s with
    | none => exact ⟨_, .no_text h⟩
    | some r => exact ⟨_, .text h⟩
  | letters w =>
    cases h : Text.afterLetters? w s with
    | none => exact ⟨_, .no_letters h⟩
    | some r => exact ⟨_, .letters h⟩
  | one p =>
    cases s with
    | nil => exact ⟨_, .no_one (by simp)⟩
    | cons c s =>
      cases h : p c with
      | true => exact ⟨_, .one h⟩
      | false => exact ⟨_, .no_one (by simp [h])⟩
  | skip => exact ⟨_, .skip⟩
  | seq a b iha ihb =>
    simp only [Peg.turns, List.forall_mem_append] at he
    simp only [Peg.lefts, List.forall_mem_append] at hl
    obtain ⟨o, h⟩ := iha he.1 hl.1 s hs
    cases o with
    | none => exact ⟨_, .no_left h⟩
    | some v =>
      obtain ⟨x, r⟩ := v
      have second : ∃ o, Reads g t b r o := by
        rcases Nat.lt_or_ge r.length n with hr | hr
        · exact shorter r hr t b he.2
        · -- nothing was read, so `a` is not solid and the calls of `b` are counted
          have same : r.length = n := Nat.le_antisymm (hs ▸ h.suffix.length_le) hr
          have hollow : ¬ a.solid g depth = true := by
            intro ha
            have := Peg.consumes_of_solid ha h
            omega
          rw [if_neg hollow] at hl
          exact ihb he.2 hl.2 r same
      obtain ⟨o, k⟩ := second
      cases o with
      | none => exact ⟨_, .no_right h k⟩
      | some w => exact ⟨_, .seq h k⟩
  | alt a b iha ihb =>
    simp only [Peg.turns, List.forall_mem_append] at he
    simp only [Peg.lefts, List.forall_mem_append] at hl
    obtain ⟨o, h⟩ := iha he.1 hl.1 s hs
    cases o with
    | none =>
      obtain ⟨o, k⟩ := ihb he.2 hl.2 s hs
      exact ⟨_, .alt_right h k⟩
    | some v => exact ⟨_, .alt_left h⟩
  | rep e ih =>
    obtain ⟨hsolid, he'⟩ := List.forall_mem_cons.mp he
    obtain ⟨o, h⟩ := ih he' hl s hs
    cases o with
    | none => exact ⟨_, .rep_nil h⟩
    | some v =>
      obtain ⟨x, r⟩ := v
      obtain ⟨o, k⟩ := shorter r (hs ▸ Peg.consumes_of_solid hsolid h) t (.rep e) he
      cases o with
      | none => cases k
      | some w => exact ⟨_, .rep_cons h k⟩
  | absent e ih =>
    obtain ⟨o, h⟩ := ih he hl s hs
    cases o with
    | none => exact ⟨_, .absent h⟩
    | some v => exact ⟨_, .no_absent h⟩
  | ahead e ih =>
    obtain ⟨o, h⟩ := ih he hl s hs
    cases o with
    | none => exact ⟨_, .no_ahead h⟩
    | some v => exact ⟨_, .ahead h⟩
  | rule r => exact hl r List.mem_cons_self t s hs

/-- On texts of one length the rules have outcomes in the order of their ranks. -/
theorem exists_rule (hg : g.Grounded depth rank) {n : Nat}
    (shorter : ∀ s : Text, s.length < n → ∀ t (e : Peg ρ),
      (∀ x ∈ e.turns, x.solid g depth = true) → ∃ o, Reads g t e s o)
    (r : ρ) (t : Bool) (s : Text) (hs : s.length = n) : ∃ o, Reads g t (.rule r) s o := by
  induction hk : rank r using Nat.strong_induction_on generalizing r t s with
  | _ k ih =>
    have lower : ∀ q ∈ (g.body r).lefts g depth, ∀ t (s : Text), s.length = n →
        ∃ o, Reads g t (.rule q) s o := by
      intro q hq t s hs
      exact ih (rank q) (hk ▸ hg.lefts r q hq) q t s hs rfl
    obtain ⟨o, h⟩ := exists_of_lefts shorter (hg.turns r) lower (t || g.tight r) s hs
    cases o with
    | none => exact ⟨_, .no_rule h⟩
    | some v => exact ⟨_, .rule h⟩

/-- **Every expression whose turns are solid has an outcome on every text.** -/
theorem exists_outcome (hg : g.Grounded depth rank) {e : Peg ρ}
    (he : ∀ x ∈ e.turns, x.solid g depth = true) (t : Bool) (s : Text) :
    ∃ o, Reads g t e s o := by
  induction hn : s.length using Nat.strong_induction_on generalizing e t s with
  | _ n ih =>
    have shorter : ∀ s : Text, s.length < n → ∀ t (e : Peg ρ),
        (∀ x ∈ e.turns, x.solid g depth = true) → ∃ o, Reads g t e s o := by
      intro s hs t e he
      exact ih s.length hs he t s rfl
    exact exists_of_lefts shorter he (fun q _ => hg.exists_rule shorter q) t s hn

/-- **Every rule has exactly one outcome on every text.** -/
theorem exists_unique (hg : g.Grounded depth rank) (t : Bool) (r : ρ) (s : Text) :
    ∃! o, Reads g t (.rule r) s o := by
  obtain ⟨o, h⟩ := hg.exists_outcome (e := .rule r) (by simp [Peg.turns]) t s
  exact ⟨o, h, fun _ h' => h'.unique h⟩

end Grammar.Grounded

/-- Every rule has exactly one outcome on every text, and no repetition has a turn that reads
nothing. -/
structure Grammar.Total {ρ : Type} (g : Grammar ρ) : Prop where
  outcome : ∀ t r s, ∃! o, Reads g t (.rule r) s o
  turns : ∀ r, ∀ e ∈ (g.body r).turns, Peg.Consumes g e

theorem Grammar.Grounded.total {depth : Nat} {rank : ρ → Nat} (hg : g.Grounded depth rank) :
    g.Total where
  outcome := hg.exists_unique
  turns r e he := Peg.consumes_of_solid (hg.turns r e he)

end VectorWrap
