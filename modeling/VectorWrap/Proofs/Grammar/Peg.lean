import VectorWrap.Proofs.Scan.Lookahead

/-!
# Parsing grammars

A parsing grammar gives each of its rules an expression; alternatives are tried in order and a
repetition goes on as long as it can.  Rules are tight or not: in a rule that is not tight, layout
is skipped between the members of a sequence and between the turns of a repetition, unless it was
called from a tight one.

`Reads` is how an expression reads the beginning of a text.  It relates an expression and a text to
what is left together with the rules that were called, or to a failure; a repetition whose turns
read nothing, or a rule that calls itself without having read anything, is related to nothing.  No
expression has two outcomes (`Reads.unique`), and what is left is a suffix of the text
(`Reads.suffix`).

The relation is taken as the meaning of a grammar; the scanners that a file is read with are
compared with it rule by rule (`Agrees`, in `Grammar/Agreement.lean`), and that it relates every
text to something is shown of each grammar apart (`Grammar/Total.lean`).
-/

namespace VectorWrap

/-- What follows `w`, which is given in small letters, when the text begins with it in any letter
case. -/
def Text.afterLetters? : Text → Text → Option Text
  | [], s => some s
  | _ :: _, [] => none
  | p :: ps, c :: s => if c.toLower = p then afterLetters? ps s else none

/-- An expression of a grammar with the rules `ρ`. -/
inductive Peg (ρ : Type) where
  /-- A fixed text. -/
  | text (w : Text)
  /-- A fixed text, given in small letters, in any letter case. -/
  | letters (w : Text)
  | one (p : Char → Bool)
  /-- Layout, where it may stand. -/
  | skip
  | seq (a b : Peg ρ)
  | alt (a b : Peg ρ)
  | rep (e : Peg ρ)
  /-- Nothing, where `e` cannot be read. -/
  | absent (e : Peg ρ)
  /-- Nothing, where `e` can be read. -/
  | ahead (e : Peg ρ)
  | rule (r : ρ)

namespace Peg

variable {ρ : Type}

/-- Any character. -/
def any : Peg ρ := .one fun _ => true

/-- The expressions one after the other. -/
def inOrder : List (Peg ρ) → Peg ρ
  | [] => .text []
  | [e] => e
  | a :: b :: es => .seq a (.seq .skip (inOrder (b :: es)))

/-- The first of the expressions that can be read. -/
def oneOf : List (Peg ρ) → Peg ρ
  | [] => .absent (.text [])
  | [e] => e
  | a :: b :: es => .alt a (oneOf (b :: es))

/-- The expression, or nothing. -/
def opt (e : Peg ρ) : Peg ρ :=
  .alt e (.text [])

/-- The expression as often as it can be read. -/
def star (e : Peg ρ) : Peg ρ :=
  opt (.seq e (.rep (.seq .skip e)))

/-- The expression at least once and as often as it can be read. -/
def plus (e : Peg ρ) : Peg ρ :=
  inOrder [e, star e]

end Peg

/-- A grammar with the rules `ρ`. -/
structure Grammar (ρ : Type) where
  body : ρ → Peg ρ
  /-- No layout is skipped inside the rule. -/
  tight : ρ → Bool

/-- What is left behind the layout at the front, if it may be skipped. -/
def Grammar.gap (tight : Bool) (s : Text) : Text :=
  if tight then s else s.dropWhile Text.isLayout

/-- An expression reads the beginning of a text: it leaves something, with the rules that it called
itself, or fails. The flag says that no layout is skipped. -/
inductive Reads {ρ : Type} (g : Grammar ρ) :
    Bool → Peg ρ → Text → Option (List (Found ρ) × Text) → Prop where
  | text {t w s r} (h : Text.after? w s = some r) : Reads g t (.text w) s (some ([], r))
  | no_text {t w s} (h : Text.after? w s = none) : Reads g t (.text w) s none
  | letters {t w s r} (h : Text.afterLetters? w s = some r) :
      Reads g t (.letters w) s (some ([], r))
  | no_letters {t w s} (h : Text.afterLetters? w s = none) : Reads g t (.letters w) s none
  | one {t p c s} (h : p c = true) : Reads g t (.one p) (c :: s) (some ([], s))
  | no_one {t p s} (h : ∀ c, s.head? = some c → p c = false) : Reads g t (.one p) s none
  | skip {t s} : Reads g t .skip s (some ([], Grammar.gap t s))
  | seq {t a b s x r y q} (h : Reads g t a s (some (x, r))) (k : Reads g t b r (some (y, q))) :
      Reads g t (.seq a b) s (some (x ++ y, q))
  | no_left {t a b s} (h : Reads g t a s none) : Reads g t (.seq a b) s none
  | no_right {t a b s x r} (h : Reads g t a s (some (x, r))) (k : Reads g t b r none) :
      Reads g t (.seq a b) s none
  | alt_left {t a b s v} (h : Reads g t a s (some v)) : Reads g t (.alt a b) s (some v)
  | alt_right {t a b s o} (h : Reads g t a s none) (k : Reads g t b s o) :
      Reads g t (.alt a b) s o
  | rep_nil {t e s} (h : Reads g t e s none) : Reads g t (.rep e) s (some ([], s))
  | rep_cons {t e s x r y q} (h : Reads g t e s (some (x, r)))
      (k : Reads g t (.rep e) r (some (y, q))) : Reads g t (.rep e) s (some (x ++ y, q))
  | absent {t e s} (h : Reads g t e s none) : Reads g t (.absent e) s (some ([], s))
  | no_absent {t e s v} (h : Reads g t e s (some v)) : Reads g t (.absent e) s none
  | ahead {t e s v} (h : Reads g t e s (some v)) : Reads g t (.ahead e) s (some ([], s))
  | no_ahead {t e s} (h : Reads g t e s none) : Reads g t (.ahead e) s none
  | rule {t r s x q} (h : Reads g (t || g.tight r) (g.body r) s (some (x, q))) :
      Reads g t (.rule r) s (some ([⟨r, s, q⟩], q))
  | no_rule {t r s} (h : Reads g (t || g.tight r) (g.body r) s none) :
      Reads g t (.rule r) s none

namespace Reads

variable {ρ : Type} {g : Grammar ρ} {t : Bool} {e : Peg ρ} {s : Text}
  {o o' : Option (List (Found ρ) × Text)}

/-- **No expression has two outcomes.** -/
theorem unique (h : Reads g t e s o) (h' : Reads g t e s o') : o = o' := by
  -- the rules for one expression differ in the outcome of a part, which has no other
  induction h generalizing o' with
  | text h => cases h' <;> simp_all
  | no_text h => cases h' <;> simp_all
  | letters h => cases h' <;> simp_all
  | no_letters h => cases h' <;> simp_all
  | one h => cases h' <;> simp_all
  | no_one h => cases h' <;> simp_all
  | skip => cases h'; rfl
  | seq _ _ ih ik =>
    cases h' with
    | seq h k => cases ih h; cases ik k; rfl
    | no_left h => cases ih h
    | no_right h k => cases ih h; cases ik k
  | no_left _ ih =>
    cases h' with
    | seq h _ => cases ih h
    | no_left _ => rfl
    | no_right h _ => cases ih h
  | no_right _ _ ih ik =>
    cases h' with
    | seq h k => cases ih h; cases ik k
    | no_left h => cases ih h
    | no_right _ _ => rfl
  | alt_left _ ih =>
    cases h' with
    | alt_left h => exact ih h
    | alt_right h _ => cases ih h
  | alt_right _ _ ih ik =>
    cases h' with
    | alt_left h => cases ih h
    | alt_right _ k => exact ik k
  | rep_nil _ ih =>
    cases h' with
    | rep_nil _ => rfl
    | rep_cons h _ => cases ih h
  | rep_cons _ _ ih ik =>
    cases h' with
    | rep_nil h => cases ih h
    | rep_cons h k => cases ih h; cases ik k; rfl
  | absent _ ih =>
    cases h' with
    | absent _ => rfl
    | no_absent h => cases ih h
  | no_absent _ ih =>
    cases h' with
    | absent h => cases ih h
    | no_absent _ => rfl
  | ahead _ ih =>
    cases h' with
    | ahead _ => rfl
    | no_ahead h => cases ih h
  | no_ahead _ ih =>
    cases h' with
    | ahead h => cases ih h
    | no_ahead _ => rfl
  | rule _ ih =>
    cases h' with
    | rule h => cases ih h; rfl
    | no_rule h => cases ih h
  | no_rule _ ih =>
    cases h' with
    | rule h => cases ih h
    | no_rule _ => rfl

/-- What is left behind letters is a part of the text. -/
theorem suffix_afterLetters? {w s r : Text} (h : Text.afterLetters? w s = some r) : r <:+ s := by
  induction w generalizing s with
  | nil =>
    cases h
    exact List.suffix_rfl
  | cons p w ih =>
    cases s with
    | nil => cases h
    | cons c s =>
      rw [Text.afterLetters?] at h
      split_ifs at h
      exact (ih h).trans (List.suffix_cons c s)

/-- What is left behind layout is a part of the text. -/
theorem gap_suffix (t : Bool) (s : Text) : Grammar.gap t s <:+ s := by
  unfold Grammar.gap
  split
  · exact List.suffix_rfl
  · exact List.dropWhile_suffix _

/-- What is left is the end of the text. -/
theorem suffix {x : List (Found ρ)} {r : Text} (h : Reads g t e s (some (x, r))) : r <:+ s := by
  generalize ho : some (x, r) = o at h
  induction h generalizing x r with
  | text h =>
    cases ho
    exact Text.after?_eq_some.mp h ▸ List.suffix_append _ _
  | letters h =>
    cases ho
    exact suffix_afterLetters? h
  | one _ =>
    cases ho
    exact List.suffix_cons _ _
  | skip =>
    cases ho
    exact gap_suffix _ _
  | seq _ _ ih ik =>
    cases ho
    exact (ik rfl).trans (ih rfl)
  | alt_left _ ih => exact ih ho
  | alt_right _ _ _ ik => exact ik ho
  | rep_cons _ _ ih ik =>
    cases ho
    exact (ik rfl).trans (ih rfl)
  | rule _ ih =>
    cases ho
    exact ih rfl
  | rep_nil | absent | ahead =>
    cases ho
    exact List.suffix_rfl
  | no_text | no_letters | no_one | no_left | no_right | no_absent | no_ahead | no_rule =>
    cases ho

end Reads

end VectorWrap
