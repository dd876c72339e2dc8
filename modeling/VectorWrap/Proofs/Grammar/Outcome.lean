import VectorWrap.Proofs.Grammar.Peg

/-!
# Outcomes of expressions

`Ends` is the outcome of an expression without the rules that it called: what is left of the text,
or that it fails.  The outcomes of the parts give that of the whole, one lemma for each way in which
an expression can be read.  A repetition ends where its turns do (`Ends.star_of_step`); what holds
of its end is carried from each turn to the one before it.

The lemmas have the names of the constructors of expressions, so that a proof about a rule reads as
the rule is written, member by member: `(Ends.text ..).seq ..`, `.alt_right ..`.
-/

namespace VectorWrap

variable {ρ : Type} {g : Grammar ρ} {t : Bool}

/-- An expression leaves `o` of a text, or fails. -/
def Ends (g : Grammar ρ) (t : Bool) (e : Peg ρ) (s : Text) (o : Option Text) : Prop :=
  ∃ v, Reads g t e s v ∧ v.map Prod.snd = o

namespace Grammar

@[simp]
theorem gap_tight (s : Text) : gap true s = s := rfl

@[simp]
theorem gap_loose (s : Text) : gap false s = s.dropWhile Text.isLayout := rfl

theorem gap_gap (t : Bool) (s : Text) : gap t (gap t s) = gap t s := by
  cases t with
  | true => rfl
  | false => exact List.dropWhile_idempotent _ _

theorem length_gap_le (t : Bool) (s : Text) : (gap t s).length ≤ s.length :=
  (Reads.gap_suffix t s).length_le

end Grammar

open Grammar

/-- Where no layout stands in front, a repetition is one whose first turn skips it as well. -/
theorem Reads.star_of_rep {e : Peg ρ} {s : Text} {v : List (Found ρ) × Text} (hs : gap t s = s)
    (h : Reads g t (.rep (.seq .skip e)) s (some v)) : Reads g t (.star e) s (some v) := by
  cases h with
  | rep_nil h =>
    cases h with
    | no_left h => cases h
    | no_right hskip h =>
      cases hskip
      rw [hs] at h
      exact .alt_right (.no_left h) (.text rfl)
  | rep_cons h k =>
    cases h with
    | seq hskip h =>
      cases hskip
      rw [hs] at h
      exact .alt_left (.seq h k)

namespace Ends

variable {a b e : Peg ρ} {s r q : Text} {o : Option Text}

/-! ### Outcomes of expressions -/

/-- What ends without a reading is not read. -/
theorem reads_none (h : Ends g t e s none) : Reads g t e s none := by
  obtain ⟨v, h, hv⟩ := h
  cases v with
  | none => exact h
  | some v => cases hv

/-- What ends with a rest is read. -/
theorem reads_some (h : Ends g t e s (some r)) : ∃ x, Reads g t e s (some (x, r)) := by
  obtain ⟨v, h, hv⟩ := h
  cases v with
  | none => cases hv
  | some v =>
    obtain rfl : v.2 = r := by simpa using hv
    exact ⟨v.1, h⟩

/-- A fixed text ends as it is found in front. -/
theorem text (w s : Text) : Ends g t (.text w) s (Text.after? w s) := by
  cases h : Text.after? w s with
  | none => exact ⟨_, .no_text h, rfl⟩
  | some r => exact ⟨_, .text h, rfl⟩

theorem char (c : Char) (s : Text) : Ends g t (.text [c]) (c :: s) (some s) := by
  have := text (g := g) (t := t) [c] (c :: s)
  rwa [Text.after?, if_pos rfl] at this

theorem no_text {c d : Char} {w : Text} (h : c ≠ d) (s : Text) :
    Ends g t (.text (c :: w)) (d :: s) none := by
  have := text (g := g) (t := t) (c :: w) (d :: s)
  rwa [Text.after?, if_neg h] at this

/-- Letters end as they are found in front, in either case. -/
theorem letters (w s : Text) : Ends g t (.letters w) s (Text.afterLetters? w s) := by
  cases h : Text.afterLetters? w s with
  | none => exact ⟨_, .no_letters h, rfl⟩
  | some r => exact ⟨_, .letters h, rfl⟩

theorem one {p : Char → Bool} {c : Char} (h : p c = true) (s : Text) :
    Ends g t (.one p) (c :: s) (some s) :=
  ⟨_, .one h, rfl⟩

theorem no_one {p : Char → Bool} (h : ∀ c, s.head? = some c → p c = false) :
    Ends g t (.one p) s none :=
  ⟨_, .no_one h, rfl⟩

/-- A sequence whose first member is read ends as its second does. -/
theorem seq (h : Ends g t a s (some r)) (k : Ends g t b r o) : Ends g t (.seq a b) s o := by
  obtain ⟨x, h⟩ := h.reads_some
  cases o with
  | none => exact ⟨_, .no_right h k.reads_none, rfl⟩
  | some q =>
    obtain ⟨y, k⟩ := k.reads_some
    exact ⟨_, .seq h k, rfl⟩

theorem no_left (h : Ends g t a s none) : Ends g t (.seq a b) s none :=
  ⟨_, .no_left h.reads_none, rfl⟩

theorem skip (h : Ends g t e (gap t s) o) : Ends g t (.seq .skip e) s o :=
  seq ⟨_, .skip, rfl⟩ h

/-- A sequence goes on behind the layout that may be skipped. -/
theorem next {es : List (Peg ρ)} (h : Ends g t a s (some r))
    (k : Ends g t (.inOrder (b :: es)) (gap t r) o) : Ends g t (.inOrder (a :: b :: es)) s o :=
  h.seq k.skip

theorem both (h : Ends g t a s (some r)) (k : Ends g t b (gap t r) o) :
    Ends g t (.inOrder [a, b]) s o :=
  h.next k

theorem no_first {es : List (Peg ρ)} (h : Ends g t a s none) :
    Ends g t (.inOrder (a :: b :: es)) s none :=
  h.no_left

theorem alt_left (h : Ends g t a s (some r)) : Ends g t (.alt a b) s (some r) := by
  obtain ⟨x, h⟩ := h.reads_some
  exact ⟨_, .alt_left h, rfl⟩

theorem alt_right (h : Ends g t a s none) (k : Ends g t b s o) : Ends g t (.alt a b) s o := by
  obtain ⟨v, k, hv⟩ := k
  exact ⟨v, .alt_right h.reads_none k, hv⟩

theorem rep_nil (h : Ends g t e s none) : Ends g t (.rep e) s (some s) :=
  ⟨_, .rep_nil h.reads_none, rfl⟩

/-- A turn that is read is followed by the others. -/
theorem rep_cons (h : Ends g t e s (some r)) (k : Ends g t (.rep e) r (some q)) :
    Ends g t (.rep e) s (some q) := by
  obtain ⟨x, h⟩ := h.reads_some
  obtain ⟨y, k⟩ := k.reads_some
  exact ⟨_, .rep_cons h k, rfl⟩

theorem absent (h : Ends g t e s none) : Ends g t (.absent e) s (some s) :=
  ⟨_, .absent h.reads_none, rfl⟩

theorem no_absent (h : Ends g t e s (some r)) : Ends g t (.absent e) s none := by
  obtain ⟨x, h⟩ := h.reads_some
  exact ⟨_, .no_absent h, rfl⟩

theorem ahead (h : Ends g t e s (some r)) : Ends g t (.ahead e) s (some s) := by
  obtain ⟨x, h⟩ := h.reads_some
  exact ⟨_, .ahead h, rfl⟩

theorem no_ahead (h : Ends g t e s none) : Ends g t (.ahead e) s none :=
  ⟨_, .no_ahead h.reads_none, rfl⟩

/-- A rule ends as its expression does. -/
theorem rule {r : ρ} (h : Ends g (t || g.tight r) (g.body r) s o) : Ends g t (.rule r) s o := by
  cases o with
  | none => exact ⟨_, .no_rule h.reads_none, rfl⟩
  | some q =>
    obtain ⟨x, h⟩ := h.reads_some
    exact ⟨_, .rule h, rfl⟩

/-- A rule that skips no layout may be called where layout is skipped. -/
theorem call {r : ρ} (ht : g.tight r = true) (h : Ends g true (g.body r) s o) :
    Ends g t (.rule r) s o := by
  refine .rule ?_
  rw [ht, Bool.or_true]
  exact h

theorem opt_some (h : Ends g t e s (some r)) : Ends g t (.opt e) s (some r) :=
  h.alt_left

theorem opt_none (h : Ends g t e s none) : Ends g t (.opt e) s (some s) :=
  h.alt_right (text [] s)

/-- A repetition is not changed by layout that is skipped before its first turn. -/
theorem star_of_rep (h : Ends g t (.rep (.seq .skip e)) s (some r)) (hs : gap t s = s) :
    Ends g t (.star e) s (some r) := by
  obtain ⟨x, h⟩ := h.reads_some
  exact ⟨_, h.star_of_rep hs, rfl⟩

/-- **Where a repetition ends.**  Each turn fails at the end or leaves less, from where the
repetition has the same end; the step for a text may use what holds of shorter ones. -/
theorem star_of_step {P : Text → Text → Prop}
    (step : ∀ s, gap t s = s →
      (∀ r, r.length < s.length → gap t r = r →
        ∃ z, Ends g t (.star e) r (some z) ∧ P r (gap t z)) →
      Ends g t e s none ∧ P s s ∨
        ∃ r, Ends g t e s (some r) ∧ r.length < s.length ∧ ∀ z, P (gap t r) z → P s z)
    (hs : gap t s = s) : ∃ z, Ends g t (.star e) s (some z) ∧ P s (gap t z) := by
  have turns : ∀ n (s : Text), s.length = n →
      ∃ z, Ends g t (.rep (.seq .skip e)) s (some z) ∧ P (gap t s) (gap t z) := by
    intro n
    induction n using Nat.strong_induction_on with
    | _ n ih =>
      intro s hn
      have hle := length_gap_le t s
      have shorter : ∀ r : Text, r.length < (gap t s).length → gap t r = r →
          ∃ z, Ends g t (.star e) r (some z) ∧ P r (gap t z) := by
        intro r hr hgap
        obtain ⟨z, k, hz⟩ := ih r.length (by omega) r rfl
        exact ⟨z, k.star_of_rep hgap, hgap ▸ hz⟩
      rcases step (gap t s) (gap_gap t s) shorter with ⟨h, hp⟩ | ⟨r, h, hr, hp⟩
      · exact ⟨s, h.skip.rep_nil, hp⟩
      · obtain ⟨z, k, hz⟩ := ih r.length (by omega) r rfl
        exact ⟨z, h.skip.rep_cons k, hp _ hz⟩
  obtain ⟨z, k, hz⟩ := turns s.length s rfl
  exact ⟨z, k.star_of_rep hs, hs ▸ hz⟩

end Ends

end VectorWrap
