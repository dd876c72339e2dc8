import VectorWrap.Proofs.Grammar.Leaves
import VectorWrap.Proofs.Scan.Closing

/-!
# Groups in parentheses

A grammar has a rule for a group, which calls itself for the groups inside; between them any other
character is read, up to the next closing parenthesis, and also an opening one that begins no group
because it is never closed.  A scanner that counts parentheses comes to the same place
(`IsGroup.ends_groups`): where no parenthesis closes the text, the grammar reads it to its end and
misses the parenthesis there.

The induction is on the length of the text.  At an opening parenthesis the group is tried first;
where it fails, since it is never closed, the parenthesis is read as any other character, and the
scanner's count, which then never comes back to zero, says the same of the whole text.
-/

namespace VectorWrap

open Scan Grammar

variable {ρ : Type} {g : Grammar ρ} {group r : ρ} {t : Bool}

namespace Grammar

/-- The rule reads a group: between parentheses, such groups and other characters. -/
structure IsGroup (g : Grammar ρ) (group : ρ) : Prop where
  body : g.body group = .inOrder [.text "(", .star (.groupOrChar group), .text ")"]
  tight : g.tight group = true

end Grammar

/-- A character up to the next closing parenthesis. -/
theorem readsOne_open : ReadsOne g true (.inOrder [.absent (.text ")"), .any]) (· != ')') :=
  (Detects.char ')').readsOne fun _ => rfl

namespace Grammar.IsGroup

/-- A group that is opened ends behind the parenthesis that closes it. -/
theorem ends_open (hg : g.IsGroup group) {s : Text}
    (h : ∃ z, Ends g true (.star (.groupOrChar group)) s (some z) ∧ z = closeEnd s) :
    Ends g t (.rule group) ('(' :: s) (closeRest 0 s) := by
  obtain ⟨z, h, rfl⟩ := h
  have opened : Ends g true (.text "(") ('(' :: s) (some s) := .text _ _
  refine .call hg.tight (hg.body ▸ opened.next (h.next ?_))
  rw [Grammar.gap_tight, closeEnd]
  cases closeRest 0 s <;> exact .text _ _

theorem ends_none (hg : g.IsGroup group) {s : Text} (h : Text.after? "(" s = none) :
    Ends g t (.rule group) s none := by
  have opened : Ends g true (.text "(") s none := h ▸ .text _ s
  exact .call hg.tight (hg.body ▸ opened.no_first)

/-- **Groups and characters are read up to the closing parenthesis, or to the end of the text if
there is none.**  An opening parenthesis that is never closed is read as a character. -/
theorem ends_groups (hg : g.IsGroup group) (s : Text) :
    Ends g true (.star (.groupOrChar group)) s (some (closeEnd s)) := by
  refine (Ends.star_of_step (P := fun s z => z = closeEnd s) (fun s _ shorter => ?_) rfl).elim
    fun z h => h.2 ▸ h.1
  have one := readsOne_open (g := g) s rfl
  cases s with
  | nil => exact .inl ⟨(hg.ends_none rfl).alt_right one, rfl⟩
  | cons c s =>
    by_cases ho : c = '('
    · subst ho
      have inner : Ends g true (.rule group) ('(' :: s) (closeRest 0 s) :=
        hg.ends_open (shorter s (Nat.lt_succ_self _) rfl)
      cases hr : closeRest 0 s with
      | some r =>
        rw [hr] at inner
        refine .inr ⟨r, inner.alt_left, (length_closeRest hr).trans (Nat.lt_succ_self _), ?_⟩
        rintro z rfl
        rw [gap_tight, closeEnd, closeEnd, closeRest_open, closeRest_succ, hr]
        rfl
      | none =>
        rw [hr] at inner
        refine .inr ⟨s, inner.alt_right one, Nat.lt_succ_self _, ?_⟩
        rintro z rfl
        rw [gap_tight, closeEnd, closeEnd, closeRest_open, closeRest_succ, hr]
        rfl
    · have none : Ends g true (.rule group) (c :: s) none :=
        hg.ends_none (if_neg (Ne.symm ho))
      by_cases hc : c = ')'
      · subst hc
        exact .inl ⟨none.alt_right one, rfl⟩
      · rw [Scan.one, if_pos (by simpa using hc)] at one
        refine .inr ⟨s, none.alt_right one, Nat.lt_succ_self _, ?_⟩
        rintro z rfl
        rw [gap_tight, closeEnd, closeEnd, closeRest_char ho hc]

theorem ends (hg : g.IsGroup group) (s : Text) :
    Ends g t (.rule group) ('(' :: s) (closeRest 0 s) :=
  hg.ends_open ⟨_, hg.ends_groups s, rfl⟩

/-- A rule for what stands between parentheses. -/
theorem agrees_inside (hg : g.IsGroup group) (hb : g.body r = .star (.groupOrChar group))
    (ht : g.tight r = true) : Agrees g false (do layout; groups) (.rule r) :=
  Agrees.layout (fun s => hb ▸ hg.ends_groups s) ht

/-- Such a rule with the parentheses. -/
theorem agrees_parenthesised (hg : g.IsGroup group) (hb : g.body r = .star (.groupOrChar group))
    (ht : g.tight r = true) :
    Agrees g false parenthesised (.inOrder [.text "(", .rule r, .text ")"]) := by
  rw [parenthesised_eq]
  refine (agrees_symbol "(").next fun _ => Agrees.behind ?_
  exact (hg.agrees_inside hb ht).both fun inner => (agrees_symbol ")").map fun _ => inner

/-- A parenthesised text is read as a group is. -/
theorem agrees (hg : g.IsGroup group) : Agrees g false parenthesised (.rule group) := by
  intro s
  have rest : (parenthesised s).map Prod.snd =
      (Text.after? "(" (gap false s)).bind (closeRest 0) := by
    rw [gap_loose, ← rest_symbol, parenthesised]
    cases h : symbol "(" s with
    | none => rw [bind_of_none h]; rfl
    | some v =>
      obtain ⟨u, r⟩ := v
      rw [bind_of_some h]
      exact closeRest_dropWhile rfl rfl 0 r
  rw [rest]
  cases h : Text.after? "(" (gap false s) with
  | none => exact hg.ends_none h
  | some r =>
    rw [Text.after?_eq_some.mp h]
    exact hg.ends r

end Grammar.IsGroup

end VectorWrap
