import VectorWrap.Text.Basic

/-!
# The layout of generated code

How a wrapper, the header and the source file are written. Nothing is decided here: names, types and
the lines of a closure come from elsewhere and are put between fixed texts.

The texts are put together from lines, each with its line feed and its indentation, and an empty
line is not indented. Nothing is broken that is too long, so that what is written can be read back
line by line.
-/

namespace VectorWrap

/-- The call that runs a closure over vectors. -/
structure ExecutorCall where
  executor : Text
  /-- The closure may mark its row as having no value. -/
  withNulls : Bool
  /-- The element types of the input vectors. -/
  typeParams : List Text
  retType : Text
  /-- The input vectors. -/
  inputs : List Text
  /-- The number of rows. -/
  count : Text
  /-- The lines of the closure. -/
  body : List Text
  deriving DecidableEq, Repr

namespace Layout

/-- One step of indentation. -/
def step : Text := "    "

/-- `depth` steps of indentation. -/
def indent : Nat → Text
  | 0 => []
  | n + 1 => step ++ indent n

/-- A line with its line feed. -/
def line (s : Text) : Text :=
  s ++ "\n"

/-- Lines with their line feeds. -/
def lines (ss : List Text) : Text :=
  ss.flatMap line

/-! ### Executor calls -/

/-- The parameter of the closure for the input vector number `i`. -/
def argName (i : Nat) : Text :=
  "args" ++ Text.decimal i

/-- The parameters by which a closure marks its row as having no value. -/
def maskParams : List Text :=
  ["ValidityMask &mask", "idx_t idx"]

/-- The parameters of the closure. -/
def lambdaParams (c : ExecutorCall) : List Text :=
  c.typeParams.zipIdx.map (fun (t, i) => t ++ " " ++ argName i)
    ++ if c.withNulls then maskParams else []

/-- The function that runs the closure. -/
def executeName (c : ExecutorCall) : Text :=
  c.executor ++ if c.withNulls then "::ExecuteWithNulls" else "::Execute"

/-- A line of the closure; an empty one is not indented. -/
def bodyLine (pad s : Text) : Text :=
  if s.isEmpty then line [] else line (pad ++ s)

/-- An executor call, `depth` steps indented. -/
def executorCall (c : ExecutorCall) (depth : Nat) : Text :=
  line (indent depth ++ executeName c ++ "<" ++ Text.joinWith ", " c.typeParams ++ ", " ++ c.retType
      ++ ">(")
    ++ line (indent (depth + 1) ++ Text.joinWith ", " c.inputs ++ ", result, " ++ c.count ++ ",")
    ++ line (indent (depth + 1) ++ "[&](" ++ Text.joinWith ", " (lambdaParams c) ++ ") \x7b")
    ++ c.body.flatMap (bodyLine (indent (depth + 2)))
    ++ line (indent (depth + 1) ++ "\x7d")
    ++ line (indent depth ++ ");")

/-! ### Member functions -/

/-- A member function that computes one vector from others. -/
def scalarFunction (structName name : Text) (c : ExecutorCall) : Text :=
  line ("void " ++ structName ++ "::" ++ name
      ++ "(DataChunk &args, ExpressionState &state, Vector &result) \x7b")
    ++ executorCall c 1
    ++ lines [indent 1 ++ "if (args.size() == 1) \x7b",
      indent 2 ++ "result.SetVectorType(VectorType::CONSTANT_VECTOR);", indent 1 ++ "\x7d", "\x7d"]

/-- A member function that converts a vector and tells whether it could. -/
def castFunction (structName name : Text) (c : ExecutorCall) : Text :=
  line ("bool " ++ structName ++ "::" ++ name
      ++ "(Vector &source, Vector &result, idx_t count, CastParameters &parameters) \x7b")
    ++ lines [indent 1 ++ "bool success = true;", indent 1 ++ "try \x7b"]
    ++ executorCall c 2
    ++ lines [indent 1 ++ "\x7d catch (const std::exception &e) \x7b",
      indent 2 ++ "HandleCastError::AssignError(e.what(), parameters);",
      indent 2 ++ "success = false;", indent 1 ++ "\x7d", indent 1 ++ "return success;", "\x7d"]

/-- The declaration of a scalar member function. -/
def scalarDeclaration (name : Text) : Text :=
  "static void " ++ name ++ "(DataChunk &args, ExpressionState &state, Vector &result);"

/-- The declaration of a cast member function. -/
def castDeclaration (name : Text) : Text :=
  "static bool " ++ name
    ++ "(Vector &source, Vector &result, idx_t count, CastParameters &parameters);"

/-! ### Files -/

/-- The files that the generated source includes unless the configuration says otherwise. -/
def defaultIncludes : List Text :=
  ["meos_wrapper_simple.hpp", "common.hpp", "time_util.hpp", "type_util.hpp", "tydef.hpp",
    "duckdb/common/exception.hpp"]

/-- The files that the generated header includes. -/
def headerIncludes : List Text :=
  ["meos_wrapper_simple.hpp", "duckdb/common/typedefs.hpp", "duckdb/function/scalar_function.hpp"]

/-- The line that includes a file. -/
def includeLine (file : Text) : Text :=
  line ("#include \"" ++ file ++ "\"")

/-- The header: a structure with the declarations as its members. -/
def headerFile (structName : Text) (declarations : List Text) : Text :=
  "#pragma once\n\n" ++ headerIncludes.flatMap includeLine ++ "\nnamespace duckdb \x7b\n\n"
    ++ line ("struct " ++ structName ++ " \x7b")
    ++ declarations.flatMap (fun d => line ("\t" ++ d))
    ++ "\x7d;\n\n\x7d // namespace duckdb\n"

/-- The source: the includes, the header's last, and the member functions. -/
def sourceFile (includes : List Text) (moduleName : Text) (functions : List Text) : Text :=
  includes.flatMap includeLine ++ includeLine ("gen/" ++ moduleName ++ ".hpp")
    ++ "\nnamespace duckdb \x7b\n" ++ functions.flatMap ('\n' :: ·)
    ++ "\n\x7d // namespace duckdb\n"

end Layout

end VectorWrap
