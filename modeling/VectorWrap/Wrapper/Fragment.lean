import VectorWrap.Wrapper.Layout

/-!
# Fragments of a closure

The lines that make an argument out of an element of a vector, guard against a missing result and
release buffers.
-/

namespace VectorWrap.Fragment

/-- What separates a type from the variable after it: nothing after an asterisk. -/
def gap (cType : Text) : Text :=
  if cType.getLast? = some '*' then [] else " "

/-- The declaration of a variable with its value. -/
def bind (cType var value : Text) : Text :=
  cType ++ gap cType ++ var ++ " = " ++ value ++ ";"

/-- A buffer with a copy of the bytes of `src`. -/
def bytesArg (cType var src function : Text) : List Text :=
  [bind cType var "nullptr",
    "if (" ++ src ++ ".GetSize() > 0) \x7b",
    Layout.step ++ var ++ " = (" ++ cType ++ ")malloc(" ++ src ++ ".GetSize());",
    Layout.step ++ "memcpy(" ++ var ++ ", " ++ src ++ ".GetDataUnsafe(), " ++ src ++ ".GetSize());",
    "\x7d",
    "if (!" ++ var ++ ") \x7b",
    Layout.step ++ "throw InternalException(\"Failure in " ++ function
      ++ ": unable to cast binary to " ++ cType ++ "\");",
    "\x7d"]

/-- A point in time. -/
def timestampArg (var src : Text) : List Text :=
  ["TimestampTz " ++ var ++ " = (TimestampTz) DuckDBToMeosTimestamp(" ++ src ++ ");"]

/-- An interval in a buffer. -/
def intervalArg (var src : Text) : List Text :=
  ["MeosInterval *" ++ var ++ " = IntervaltToInterval(" ++ src ++ ");"]

/-- A text: its characters, in a buffer with a header if `asText`. -/
def textArg (slot : Nat) (var src : Text) (asText : Bool) : List Text :=
  let input := "input_" ++ Text.decimal slot
  ["std::string " ++ input ++ "(" ++ src ++ ".GetDataUnsafe(), " ++ src ++ ".GetSize());",
    if asText then "text *" ++ var ++ " = cstring2text(" ++ input ++ ".c_str());"
    else "const char *" ++ var ++ " = " ++ input ++ ".c_str();"]

/-- A value of any type. -/
def datumArg (var elementType src : Text) : List Text :=
  ["Datum " ++ var ++ " = DataHelpers::getDatum<" ++ elementType ++ ">(" ++ src ++ ");"]

/-- The type of a value. -/
def typeTag (var elementType src : Text) : List Text :=
  ["meosType " ++ var ++ " = DataHelpers::getMeosType<" ++ elementType ++ ">(" ++ src ++ ");"]

/-- Releases a buffer. -/
def free (var : Text) : Text :=
  "free(" ++ var ++ ");"

/-- Gives the row no value if `condition` holds, after releasing the buffers. -/
def nullGuard (condition : Text) (frees : List Text) (retType : Text) : List Text :=
  ["if (" ++ condition ++ ") \x7b"] ++ frees.map (fun v => Layout.step ++ free v)
    ++ [Layout.step ++ "mask.SetInvalid(idx);", Layout.step ++ "return " ++ retType ++ "();",
      "\x7d"]

/-- What stands where a call has to be written by hand. -/
def placeholder : Text := "// TODO: handle this case"

end VectorWrap.Fragment
