import VectorWrap.Proofs.Grammar.Agreement
import VectorWrap.Proofs.Grammar.Total
import VectorWrap.Proofs.Scan.Sweep

/-!
# Files that a grammar reads to the end

A file is a repetition of alternatives of which the last is any character, so that it is read to its
end whatever stands in it.  Some alternatives are rules of interest, the others pass over what
stands between them.  A sweep that has an item for the first and a gap for the second finds the same
things at the same places (`Sweeps.readsAll`).

A grammar reports the rules that were called, with the place of each; a sweep reports its items in
the same form.  `Sweeps` is what relates the two: its item calls the rules of interest and no
others, and where it fails, the gap or a single character passes over what the other alternatives
pass over.  Then turn and step go side by side to the end of the text (`exists_turn`,
`exists_turns`).
-/

namespace VectorWrap

open Grammar

variable {ρ α : Type} {g : Grammar ρ}

namespace Peg

/-- The alternatives as often as they can be read, up to the end of the text. -/
def file (e : Peg ρ) : Peg ρ :=
  inOrder [.text [], star e, .absent any]

/-- The rules that an expression may call and have in what it reads. -/
def rules : Peg ρ → List ρ
  | .seq a b => rules a ++ rules b
  | .alt a b => rules a ++ rules b
  | .rep e => rules e
  | .rule r => [r]
  | _ => []

end Peg

/-- A rule that was called is one that the expression names. -/
theorem Reads.mem_rules {t : Bool} {e : Peg ρ} {s r : Text} {x : List (Found ρ)} {f : Found ρ}
    (h : Reads g t e s (some (x, r))) (hf : f ∈ x) : f.value ∈ e.rules := by
  generalize ho : some (x, r) = o at h
  induction h generalizing x r with
  | seq _ _ ih ik =>
    cases ho
    rcases List.mem_append.mp hf with hf | hf
    · exact List.mem_append_left _ (ih hf rfl)
    · exact List.mem_append_right _ (ik hf rfl)
  | alt_left _ ih => exact List.mem_append_left _ (ih hf ho)
  | alt_right _ _ _ ik => exact List.mem_append_right _ (ik hf ho)
  | rep_cons _ _ ih ik =>
    cases ho
    rcases List.mem_append.mp hf with hf | hf
    · exact ih hf rfl
    · exact ik hf rfl
  | rule _ _ =>
    cases ho
    obtain rfl := List.mem_singleton.mp hf
    exact List.mem_singleton_self _
  | text | letters | one | skip | rep_nil | absent | ahead =>
    cases ho
    cases hf
  | no_text | no_letters | no_one | no_left | no_right | no_absent | no_ahead | no_rule =>
    cases ho

/-- A rule that is read is the only one called. -/
theorem Ends.reads_rule {t : Bool} {q : ρ} {s r : Text} (h : Ends g t (.rule q) s (some r)) :
    Reads g t (.rule q) s (some ([⟨q, s, r⟩], r)) := by
  obtain ⟨x, h⟩ := h.reads_some
  cases h with
  | rule h => exact .rule h

/-- Members of a sequence are read one after the other. -/
theorem Reads.next {t : Bool} {a b : Peg ρ} {es : List (Peg ρ)} {s r q : Text}
    {x y : List (Found ρ)} (h : Reads g t a s (some (x, r)))
    (k : Reads g t (.inOrder (b :: es)) (gap t r) (some (y, q))) :
    Reads g t (.inOrder (a :: b :: es)) s (some (x ++ y, q)) :=
  h.seq (Reads.skip.seq k)

/-- Two members that are read, with the rules that both called. -/
theorem Reads.both {t : Bool} {a b : Peg ρ} {s r q : Text} {x y : List (Found ρ)}
    (h : Reads g t a s (some (x, r))) (k : Reads g t b (gap t r) (some (y, q))) :
    Reads g t (.inOrder [a, b]) s (some (x ++ y, q)) :=
  h.next k

/-- The rule reads the text to its end and makes these calls. -/
def Grammar.Parses (g : Grammar ρ) (r : ρ) (s : Text) (calls : List (Found ρ)) : Prop :=
  Reads g (g.tight r) (g.body r) s (some (calls, []))

/-- A rule that was called, and the text that it read. -/
def Found.part (x : Found ρ) : ρ × Text :=
  (x.value, x.text)

/-- Nothing is read at the end of a text by an expression that never reads nothing. -/
theorem Grammar.Grounded.stops {depth : Nat} {rank : ρ → Nat} (hg : g.Grounded depth rank)
    {e : Peg ρ} (he : Peg.Consumes g e) (turns : ∀ x ∈ e.turns, x.solid g depth = true) (t : Bool) :
    Reads g t e [] none := by
  obtain ⟨o, h⟩ := hg.exists_outcome turns t []
  cases o with
  | none => exact h
  | some v => exact absurd (he h) (Nat.not_lt_zero _)

/-! ### Things of interest -/

/-- All values that a scanner gives have the property `P`. -/
def Scan.Gives (p : Scan α) (P : α → Prop) : Prop :=
  ∀ s a r, p s = some (a, r) → P a

namespace Scan.Gives

variable {β : Type} {P : β → Prop}

theorem pure {b : β} (h : P b) : Gives (Pure.pure b) P := by
  rintro s _ r ⟨⟩
  exact h

/-- What the last of two scanners gives is what both give. -/
theorem bind {p : Scan α} {q : α → Scan β} (h : ∀ a, Gives (q a) P) : Gives (p >>= q) P := by
  intro s b r hs
  obtain ⟨a, t, -, hq⟩ := bind_eq_some.mp hs
  exact h a t b r hq

end Scan.Gives

/-- Something found with a scanner, as the call of a rule. -/
def Found.call (kind : α → ρ) (f : Found α) : Found ρ :=
  ⟨kind f.value, f.here, f.rest⟩

/-- The expression reads what the scanner reads, by a call of the rule for it. -/
def Calls (g : Grammar ρ) (kind : α → ρ) (p : Scan α) (e : Peg ρ) : Prop :=
  ∀ s, Grammar.gap false s = s →
    Reads g false e s ((p s).map fun v => ([Found.call kind ⟨v.1, s, v.2⟩], v.2))

namespace Calls

variable {kind : α → ρ} {p q : Scan α} {a b : Peg ρ}

/-- A rule is called by a scanner that agrees with it and gives its kind. -/
theorem rule {r : ρ} (h : Agrees g false (do Scan.layout; p) (.rule r))
    (hk : Scan.Gives p (kind · = r)) : Calls g kind p (.rule r) := by
  intro s hs
  have he := h s
  have behind : (do Scan.layout; p : Scan α) s = p s := congrArg p hs
  rw [behind, hs] at he
  cases hp : p s with
  | none =>
    rw [hp] at he
    exact he.reads_none
  | some v =>
    rw [hp] at he
    obtain rfl := hk s v.1 v.2 hp
    exact he.reads_rule

/-- Of two scanners that call their rules the first that reads calls its own. -/
theorem orElse (hp : Calls g kind p a) (hq : Calls g kind q b) :
    Calls g kind (p <|> q) (.alt a b) := by
  intro s hs
  have left := hp s hs
  cases h : p s with
  | none =>
    rw [h] at left
    rw [Scan.orElse_of_none h]
    exact .alt_right left (hq s hs)
  | some v =>
    rw [h] at left
    rw [Scan.orElse_of_some h]
    exact .alt_left left

end Calls

/-! ### What stands between the things of interest -/

/-- Where a sweep goes on if no item begins. -/
def Scan.passed (gap : Scan Unit) (s : Text) : Text :=
  match gap s with
  | some (_, r) => r
  | none => s.tail

/-- The expression calls nothing that is wanted, and leaves what the sweep goes on with, but for
layout at the front. -/
def Passes (g : Grammar ρ) (wanted : ρ → Bool) (e : Peg ρ) (gap : Scan Unit) (s : Text) : Prop :=
  ∃ x r, Reads g false e s (some (x, r)) ∧ (∀ f ∈ x, wanted f.value = false) ∧
    Grammar.gap false r = Grammar.gap false (Scan.passed gap s)

namespace Passes

variable {wanted : ρ → Bool} {p q : Scan Unit} {a b : Peg ρ} {s : Text}

/-- A piece of the gap, or the further alternatives. -/
theorem orElse (hp : Follows g false (do Scan.layout; p) a)
    (ha : ∀ r ∈ a.rules, wanted r = false) (hs : Grammar.gap false s = s)
    (hq : Passes g wanted b q s) : Passes g wanted (.alt a b) (p <|> q) s := by
  have behind : (do Scan.layout; p : Scan Unit) s = p s := congrArg p hs
  have piece := hp.cases s
  rw [behind, hs] at piece
  rcases piece with ⟨h, he⟩ | ⟨u, r, r', h, he, hr⟩
  · obtain ⟨x, r, k, hx, hr⟩ := hq
    refine ⟨x, r, .alt_right he.reads_none k, hx, ?_⟩
    rw [hr, Scan.passed, Scan.passed, Scan.orElse_of_none h]
  · obtain ⟨x, k⟩ := he.reads_some
    refine ⟨x, r', .alt_left k, fun f hf => ha _ (k.mem_rules hf), ?_⟩
    rw [hr, Scan.passed, Scan.orElse_of_some h]

/-- Any character, where the pieces of the gap have been tried. -/
theorem any {c : Char} : Passes g wanted .any failure (c :: s) :=
  ⟨[], s, .one rfl, by simp, rfl⟩

/-- The last piece of the gap, or any character. -/
theorem last (hp : Follows g false (do Scan.layout; p) a) (ha : ∀ r ∈ a.rules, wanted r = false)
    {c : Char} (hs : Grammar.gap false (c :: s) = c :: s) :
    Passes g wanted (.alt a .any) p (c :: s) := by
  obtain ⟨x, r, k, hx, hr⟩ := orElse hp ha hs any
  refine ⟨x, r, k, hx, ?_⟩
  rw [hr, Scan.passed, Scan.passed, Scan.orElse_eq]
  cases p (c :: s) <;> rfl

/-- An alternative that cannot be read. -/
theorem skip (h : Reads g false a s none) (hb : Passes g wanted b q s) :
    Passes g wanted (.alt a b) q s := by
  obtain ⟨x, r, k, rest⟩ := hb
  exact ⟨x, r, .alt_right h k, rest⟩

end Passes

/-! ### Sweeps -/

/-- The alternatives read what the scanner `item` reads by a rule that is `wanted`, its `kind`; what
`gap` passes over, or else one character, they read by rules that are not. -/
structure Sweeps (g : Grammar ρ) (wanted : ρ → Bool) (kind : α → ρ) (e : Peg ρ) (item : Scan α)
    (gap : Scan Unit) : Prop where
  consumes : Peg.Consumes g e
  stops : Reads g false e [] none
  suffix_gap : ∀ {s u r}, gap s = some (u, r) → r <:+ s
  wanted_kind : ∀ a, wanted (kind a) = true
  reads_item : ∀ {c s a r}, Text.isLayout c = false → item (c :: s) = some (a, r) →
    Reads g false e (c :: s) (some ([Found.call kind ⟨a, c :: s, r⟩], r))
  passes : ∀ {c s}, Text.isLayout c = false → item (c :: s) = none →
    Passes g wanted e gap (c :: s)

namespace Sweeps

variable {wanted : ρ → Bool} {kind : α → ρ} {e : Peg ρ} {item : Scan α} {gap : Scan Unit}

/-- A sweep goes on behind what is passed over, which is not nothing. -/
theorem sweep_passed (h : Sweeps g wanted kind e item gap) {c : Char} {s : Text}
    (hc : Text.isLayout c = false) (hi : item (c :: s) = none) :
    (Scan.passed gap (c :: s)).length < (c :: s).length ∧
      Scan.sweep item gap (c :: s) = Scan.sweep item gap (Scan.passed gap (c :: s)) := by
  obtain ⟨x, r', k, -, hgap⟩ := h.passes hc hi
  cases hg : gap (c :: s) with
  | none =>
    rw [Scan.passed, hg]
    exact ⟨Nat.lt_succ_self _, Scan.sweep_char hc hi hg⟩
  | some v =>
    obtain ⟨u, r⟩ := v
    rw [Scan.passed, hg] at hgap ⊢
    have hr : r.length < (c :: s).length := by
      refine lt_of_le_of_ne (h.suffix_gap hg).length_le fun same => ?_
      obtain rfl := (h.suffix_gap hg).eq_of_length same
      have bare : Grammar.gap false (c :: s) = c :: s := List.dropWhile_cons_of_neg (by simp [hc])
      have := h.consumes k
      have := length_gap_le false r'
      rw [hgap, bare] at this
      omega
    exact ⟨hr, Scan.sweep_gap hc hi hg hr⟩

/-- One turn of the repetition: what it calls of interest and what it leaves are an item and its
rest, or nothing and what the sweep goes on with. -/
theorem exists_turn (h : Sweeps g wanted kind e item gap) {c : Char} {s : Text}
    (hc : Text.isLayout c = false) :
    ∃ x r r', Reads g false e (c :: s) (some (x, r')) ∧ r.length < (c :: s).length ∧
      Grammar.gap false r' = Grammar.gap false r ∧
      x.filter (fun f => wanted f.value) ++ (Scan.sweep item gap r).map (Found.call kind) =
        (Scan.sweep item gap (c :: s)).map (Found.call kind) := by
  cases hi : item (c :: s) with
  | some v =>
    obtain ⟨a, r⟩ := v
    have k := h.reads_item hc hi
    have hr := h.consumes k
    refine ⟨_, r, r, k, hr, rfl, ?_⟩
    rw [Scan.sweep_item hc hi hr]
    simp [h.wanted_kind, Found.call]
  | none =>
    obtain ⟨x, r', k, hx, hgap⟩ := h.passes hc hi
    obtain ⟨hr, same⟩ := h.sweep_passed hc hi
    have none_wanted : x.filter (fun f => wanted f.value) = [] :=
      List.filter_eq_nil_iff.mpr fun f hf => by simp [hx f hf]
    refine ⟨x, _, r', k, hr, hgap, ?_⟩
    rw [same, none_wanted]
    rfl

/-- The repetition calls what the sweep finds and leaves nothing but layout. -/
theorem exists_turns (h : Sweeps g wanted kind e item gap) {n : Nat} {s s' : Text}
    (hn : s.length = n) (hs : Grammar.gap false s' = Grammar.gap false s) :
    ∃ x z, Reads g false (.rep (.seq .skip e)) s' (some (x, z)) ∧ Grammar.gap false z = [] ∧
      x.filter (fun f => wanted f.value) = (Scan.sweep item gap s).map (Found.call kind) := by
  induction n using Nat.strong_induction_on generalizing s s' with
  | _ n ih =>
    have hle := Grammar.length_gap_le false s
    have first := List.head?_dropWhile_not Text.isLayout s
    cases hb : Grammar.gap false s with
    | nil =>
      have stop : Reads g false (.seq .skip e) s' none := by
        refine .no_right .skip ?_
        rw [hs, hb]
        exact h.stops
      refine ⟨[], s', .rep_nil stop, hs.trans hb, ?_⟩
      rw [Scan.sweep_of_nil hb]
      rfl
    | cons c q =>
      have hc : Text.isLayout c = false := by simpa [show s.dropWhile _ = _ from hb] using first
      obtain ⟨x, r, r', k, hr, hgap, hx⟩ := h.exists_turn (s := q) hc
      have hlt : r.length < n := by
        rw [hb] at hle
        omega
      obtain ⟨y, z, l, hz, hy⟩ := ih r.length hlt rfl hgap
      have turn : Reads g false (.seq .skip e) s' (some (x, r')) := by
        refine .seq .skip ?_
        rw [hs, hb]
        exact k
      have same : Scan.sweep item gap s = Scan.sweep item gap (c :: q) := by
        refine Scan.sweep_congr ?_
        rw [← hb]
        exact (Grammar.gap_gap false s).symm
      exact ⟨x ++ y, z, .rep_cons turn l, hz, by rw [List.filter_append, hy, hx, same]⟩

end Sweeps

/-- The rule reads every text to its end, and the wanted rules that it calls there are `found`. -/
def Grammar.ReadsAll (g : Grammar ρ) (r : ρ) (wanted : ρ → Bool) (found : Text → List (Found ρ)) :
    Prop :=
  ∀ s, ∃ x, Reads g false (g.body r) s (some (x, [])) ∧
    x.filter (fun f => wanted f.value) = found s

/-- **A file is read to its end, and what it calls of interest is what the sweep finds.** -/
theorem Sweeps.readsAll {wanted : ρ → Bool} {kind : α → ρ} {e : Peg ρ} {item : Scan α}
    {gap : Scan Unit} (h : Sweeps g wanted kind e item gap) {r : ρ} (hr : g.body r = .file e) :
    g.ReadsAll r wanted fun s => (Scan.sweep item gap s).map (Found.call kind) := by
  intro s
  obtain ⟨x, z, k, hz, hx⟩ := h.exists_turns rfl (Grammar.gap_gap false s)
  have turns := k.star_of_rep (Grammar.gap_gap false s)
  have stop : Reads g false (.absent .any) (Grammar.gap false z) (some ([], [])) := by
    rw [hz]
    exact .absent (.no_one (by simp))
  have file := Reads.seq (Reads.text (g := g) (t := false) (w := []) rfl)
    (.seq .skip (.seq turns (.seq .skip stop)))
  simp only [List.nil_append, List.append_nil] at file
  rw [hr]
  exact ⟨x, file, hx⟩

end VectorWrap
