import VectorWrap.Declaration.Category

/-!
# Sections

A section title holds for the lines from its own on, until a later line has one.
-/

namespace VectorWrap

/-- A section title and the line on which its comment begins. -/
structure SectionMark where
  label : Text
  line : Nat
  deriving DecidableEq, Repr

namespace SectionMark

/-- The first word of the title, in small letters. -/
def key (m : SectionMark) : Text :=
  Text.lower ((Text.words m.label).headD [])

/-- The mark with the greatest line; of several on that line the last. -/
def latest? (marks : List SectionMark) : Option SectionMark :=
  marks.foldl (fun best m =>
    match best with
    | none => some m
    | some b => if b.line ≤ m.line then some m else some b) none

end SectionMark

/-- The category of a declaration on a line: the key of the latest mark up to that line. -/
def categoryAt (marks : List SectionMark) (line : Nat) : Text :=
  ((SectionMark.latest? (marks.filter (·.line ≤ line))).map SectionMark.key).getD Category.unknown

end VectorWrap
