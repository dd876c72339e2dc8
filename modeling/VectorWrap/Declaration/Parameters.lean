import VectorWrap.Declaration.Basic
import VectorWrap.Text.Split

/-!
# Parameter lists

Each part between top-level commas is a parameter or a default. A part with a default gives up its
name and type and keeps the default's text; the others are a type and, if a second word follows, a
name.
-/

namespace VectorWrap

namespace Text

/-- What follows the first word that is `w` but for letter case. -/
def afterWord? (w s : Text) : Option Text :=
  match _h : nextWord? s with
  | none => none
  | some (v, r) => if sameLetters v w then some r else afterWord? w r
termination_by s.length
decreasing_by exact length_nextWord? _h

end Text

namespace Param

/-- The default of a part: what follows its first `=`, or else its first word `default`. -/
def default? (part : Text) : Option Text :=
  match Text.cut? '=' part with
  | some (_, value) => some (Text.trim value)
  | none => (Text.afterWord? "default" part).map Text.trim

/-- The name of the parameter number `k` when none is written. -/
def defaultName (k : Nat) : Text :=
  "arg" ++ Text.decimal k

/-- The parameter of a part without default; `k` come before it. -/
def ofPart? (k : Nat) (part : Text) : Option Param :=
  match Text.words part with
  | [] => none
  | [t] => some ⟨t, defaultName k⟩
  | t :: n :: _ => some ⟨t, n⟩

/-- The parameters and the defaults of the parts; `k` parameters come before them. -/
def ofParts (k : Nat) : List Text → List Param × List Text
  | [] => ([], [])
  | part :: parts =>
      match default? part with
      | some value =>
          let (ps, ds) := ofParts k parts
          (ps, value :: ds)
      | none =>
          match ofPart? k part with
          | none => ofParts k parts
          | some p =>
              let (ps, ds) := ofParts (k + 1) parts
              (p :: ps, ds)

/-- The parameters and the defaults of a parameter list. -/
def parseList (s : Text) : List Param × List Text :=
  ofParts 0 (Text.splitTopLevel s)

end Param

end VectorWrap
