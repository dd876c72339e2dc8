import VectorWrap.Text.Basic

/-!
# Paths

A path is kept as it was written: joining puts texts one behind the other and resolves nothing, so
`./a`, `b/../c` and a trailing slash all survive. Its segments are what stands between slashes; an
empty segment or a `.` leads nowhere, except that a `.` at the very beginning counts as a step.
-/

namespace VectorWrap

/-- A path as it is written. -/
structure Path where
  text : Text
  deriving DecidableEq, Repr

instance : Coe String Path := ⟨fun s => ⟨s.toList⟩⟩

namespace Path

/-- Begins at the root. -/
def isAbsolute (p : Path) : Bool :=
  p.text.head? == some '/'

/-- The path `p` as seen from `base`. An absolute path is the same from everywhere. -/
def join (base p : Path) : Path :=
  if p.isAbsolute then p
  else if base.text.isEmpty || base.text.getLast? == some '/' then ⟨base.text ++ p.text⟩
  else ⟨base.text ++ '/' :: p.text⟩

/-- The path `p` as seen from `base?`, where there is one. -/
def joinTo (base? : Option Path) (p : Path) : Path :=
  match base? with
  | some base => base.join p
  | none => p

/-- What stands between slashes. -/
def segments (p : Path) : List Text :=
  Text.splitBy (· == '/') p.text

/-- A segment that leads nowhere. -/
def isFiller (segment : Text) : Bool :=
  segment.isEmpty || segment == ['.']

/-- Segments without the last ones that lead nowhere. -/
def withoutFiller (segments : List Text) : List Text :=
  (segments.reverse.dropWhile isFiller).reverse

/-- The path of the directory that holds what `p` leads to; none for the root and for the empty
path. -/
def parent? (p : Path) : Option Path :=
  match p.segments with
  | [] => none
  | first :: others =>
      match withoutFiller others with
      | [] => if first.isEmpty then none else some ⟨[]⟩
      | o :: os =>
          match withoutFiller (o :: os).dropLast with
          | [] => some (if first.isEmpty then ⟨['/']⟩ else ⟨first⟩)
          | kept => some ⟨Text.joinWith ['/'] (first :: kept)⟩

end Path

end VectorWrap
