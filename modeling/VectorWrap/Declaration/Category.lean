import VectorWrap.Text.Basic

/-!
# Categories

The word that opens a section title is the category of the functions below it. Some categories
hold operators or aggregates, and some get no plain wrapper. Two marks in a symbol say what the
function does: sends or receives the binary form, or reads or writes the text form of a type.
-/

namespace VectorWrap.Category

/-- The category of a declaration that stands in no section. -/
def unknown : Text := "unknown"

/-- Holds functions behind operators. -/
def isOperator (category : Text) : Bool :=
  ["topological".toList, "position".toList, "set".toList, "comparison".toList].contains category

/-- Holds functions behind aggregates. -/
def isAggregate (category : Text) : Bool :=
  ["extent".toList].contains category

/-- Gets no plain wrapper. -/
def isExcluded (category : Text) : Bool :=
  ["selectivity".toList, "topological".toList, "position".toList, "set".toList, "extent".toList,
    "comparison".toList].contains category

/-- The symbol of a function that sends or receives the binary form. -/
def isWire (symbol : Text) : Bool :=
  let s := Text.lower symbol
  Text.contains "_send" s || Text.contains "_recv" s

/-- The symbol of a function that reads or writes the text form. -/
def isTextual (symbol : Text) : Bool :=
  let s := Text.lower symbol
  "_in".toList.isSuffixOf s || "_out".toList.isSuffixOf s

end VectorWrap.Category
