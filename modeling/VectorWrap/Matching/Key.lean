import VectorWrap.Text.Basic

/-!
# Keys

A key names one wrapper. Where several declarations share a symbol their keys carry the parameter
types too; the wrapper of a cast has a key with an ending of its own; and the member function is
named by the key with a capital first letter.
-/

namespace VectorWrap.Key

/-- The ending of the keys of casts. -/
def castEnding : Text := "_cast"

/-- Keeps ASCII letters and digits and makes every run of other characters one underscore;
`joined` says that one has just been written. -/
def squash (joined : Bool) : Text → Text
  | [] => []
  | c :: r =>
      if c.isAlphanum then c :: squash false r
      else if joined then squash true r
      else '_' :: squash true r

/-- A type name as a part of a key. -/
def ofType (type : Text) : Text :=
  Text.trimBy (· == '_') (squash false (Text.trim type))

/-- The key of a symbol for given parameter types. -/
def overload (symbol : Text) (types : List Text) : Text :=
  if types.isEmpty then symbol else symbol ++ "_" ++ Text.joinWith "_" (types.map ofType)

/-- The key of the cast beside a plain key. -/
def cast (key : Text) : Text :=
  key ++ castEnding

/-- Is the key of a cast. -/
def isCast (key : Text) : Bool :=
  castEnding.isSuffixOf key

/-- The name of the member function. -/
def member : Text → Text
  | [] => []
  | c :: r => c.toUpper :: r

end VectorWrap.Key
