import VectorWrap.Text.Basic

/-!
# Identifiers

An identifier is an ASCII letter or underscore followed by ASCII letters, digits and underscores,
in declarations, in C and in the generated code alike.
-/

namespace VectorWrap.Text

/-- May begin an identifier. -/
def startsName (c : Char) : Bool :=
  c.isAlpha || c == '_'

/-- May stand inside an identifier. -/
def inName (c : Char) : Bool :=
  c.isAlphanum || c == '_'

/-- Is an identifier. -/
def isName : Text → Bool
  | [] => false
  | c :: r => startsName c && r.all inName

/-- The nearest identifier: other characters become underscores, and a `G` is put in front of a
text that does not begin like one. -/
def toName (s : Text) : Text :=
  let t := trim s
  let tail := t.map fun c => if inName c then c else '_'
  if (t.head?.map startsName).getD false then tail else 'G' :: tail

theorem inName_of_startsName {c : Char} (h : startsName c = true) : inName c = true := by
  simp only [startsName, inName, Char.isAlphanum, Bool.or_eq_true] at h ⊢
  rcases h with h | h <;> simp [h]

end VectorWrap.Text
