import VectorWrap.Text.Basic

/-!
# The type table

How the SQL types appear in the generated code. A scalar type has a type of its own in the vectors;
every other known type is a run of bytes there and a pointer to a C structure in the native call.
Names are looked up trimmed and in small letters, and an entry shadows the earlier ones of its name.

A name that is declared by a script but in no entry becomes a pointer to bytes that know their size;
what is known is not changed by a declaration. How an argument is made (`argForm`) and how a result
is given back (`resultForm`) are said apart: an interval is a form of its own only as an argument,
and `cstring` only as a result.
-/

namespace VectorWrap

/-- How many bytes a value takes that a native call gives back. -/
inductive BlobSize where
  /-- As many as the structure of that name. -/
  | fixed (name : Text)
  /-- As many as its header says. -/
  | varlena
  deriving DecidableEq, Repr

namespace BlobSize

/-- Reads `varlena` or `fixed:` with a name. -/
def parse? (s : Text) : Option BlobSize :=
  let t := Text.trim s
  if Text.sameLetters t "varlena" then some .varlena
  else do
    let name ← (Text.after? "fixed:" t).map Text.trim
    guard !name.isEmpty
    pure (.fixed name)

/-- The C expression for the size of what `var` points to. -/
def expr (size : BlobSize) (var : Text) : Text :=
  match size with
  | .fixed name => "sizeof(" ++ name ++ ")"
  | .varlena => "VARSIZE(" ++ var ++ ")"

end BlobSize

/-- A type whose values are bytes in the vectors. -/
structure BlobType where
  cType : Text
  size : BlobSize
  deriving DecidableEq, Repr

/-- How an argument is made out of an element of a vector. -/
inductive ArgForm where
  /-- Its bytes are copied to a buffer. -/
  | bytes
  | timestamp
  | interval
  | text
  | scalar
  deriving DecidableEq, Repr

/-- How a result becomes an element of a vector. -/
inductive ResultForm where
  | blob
  | timestamp
  | cstring
  | text
  | scalar
  deriving DecidableEq, Repr

/-- The known types, latest entry first. -/
structure TypeTable where
  scalars : List (Text × Text)
  blobs : List (Text × BlobType)
  deriving Repr

namespace TypeTable

/-- The form in which type names are compared. -/
def key (sql : Text) : Text :=
  Text.lower (Text.trim sql)

/-! ### Entries -/

/-- The scalar types and their types in vectors. -/
def baseScalars : List (Text × Text) :=
  [("boolean", "bool"), ("bool", "bool"), ("smallint", "int16_t"), ("int2", "int16_t"),
    ("integer", "int32_t"), ("int", "int32_t"), ("int4", "int32_t"), ("bigint", "int64_t"),
    ("int8", "int64_t"), ("real", "float"), ("float4", "float"), ("float", "double"),
    ("float8", "double"), ("double precision", "double"), ("timestamptz", "timestamp_tz_t"),
    ("timestamp", "timestamp_t"), ("date", "date_t"), ("interval", "interval_t"),
    ("text", "string_t"), ("cstring", "string_t"), ("varchar", "string_t")]

/-- Entries of one type for several names. -/
def sharing (type : BlobType) (names : List Text) : List (Text × BlobType) :=
  names.map fun n => (n, type)

/-- The types that are bytes in vectors. -/
def baseBlobs : List (Text × BlobType) :=
  sharing ⟨"Temporal *", .varlena⟩ ["tint", "tfloat", "tbool", "ttext", "tgeometry", "tgeompoint"]
  ++ sharing ⟨"Span *", .fixed "Span"⟩
    ["intspan", "bigintspan", "floatspan", "datespan", "tstzspan"]
  ++ sharing ⟨"Set *", .varlena⟩
    ["intset", "bigintset", "floatset", "textset", "dateset", "tstzset"]
  ++ sharing ⟨"SpanSet *", .varlena⟩
    ["intspanset", "bigintspanset", "floatspanset", "textspanset", "datespanset", "tstzspanset"]
  ++ sharing ⟨"TBox *", .fixed "TBox"⟩ ["tbox"]
  ++ sharing ⟨"STBox *", .fixed "STBox"⟩ ["stbox"]
  ++ sharing ⟨"bytea *", .varlena⟩ ["bytea"]

/-- The table before any addition. -/
def base : TypeTable := ⟨baseScalars, baseBlobs⟩

/-- The C types that the endings of fetch and return macros stand for. -/
def kinds : List (Text × Text) :=
  [("TBOX_P", "TBox *"), ("STBOX_P", "STBox *"), ("SPAN_P", "Span *"), ("SET_P", "Set *"),
    ("SPANSET_P", "SpanSet *"), ("TEMPORAL_P", "Temporal *"), ("INTERVAL_P", "MeosInterval *"),
    ("TIMESTAMPTZ", "TimestampTz"), ("DATEADT", "DateADT"), ("BOOL", "bool"), ("INT16", "int16"),
    ("INT32", "int32"), ("INT64", "int64"), ("FLOAT8", "double"), ("CSTRING", "char *"),
    ("TEXT_P", "text *"), ("BYTEA_P", "bytea *"), ("DATUM", "Datum")]

/-! ### Additions -/

/-- Adds a scalar type. -/
def addScalar (t : TypeTable) (sql host : Text) : TypeTable :=
  { t with scalars := (key sql, Text.trim host) :: t.scalars }

/-- Adds a type that is bytes in vectors. -/
def addBlob (t : TypeTable) (sql : Text) (type : BlobType) : TypeTable :=
  { t with blobs := (key sql, type) :: t.blobs }

/-- Has an entry of either kind. -/
def knows (t : TypeTable) (sql : Text) : Bool :=
  (t.scalars.lookup (key sql)).isSome || (t.blobs.lookup (key sql)).isSome

/-- Adds each unknown name as a pointer to bytes that know their size. -/
def declare (t : TypeTable) (names : List Text) : TypeTable :=
  names.foldl (fun t n => if t.knows n then t else t.addBlob n ⟨"void *", .varlena⟩) t

/-! ### Look-ups -/

/-- The entry of a type that is bytes in vectors. -/
def blob? (t : TypeTable) (sql : Text) : Option BlobType :=
  t.blobs.lookup (key sql)

/-- Is bytes in vectors. -/
def isBlob (t : TypeTable) (sql : Text) : Bool :=
  (t.blob? sql).isSome

/-- The element type in vectors. -/
def executorType? (t : TypeTable) (sql : Text) : Option Text :=
  if t.isBlob sql then some "string_t" else t.scalars.lookup (key sql)

/-- The C type of a macro ending. -/
def kindType? (kind : Text) : Option Text :=
  kinds.lookup kind

/-- How an argument of a type is made. -/
def argForm (t : TypeTable) (sql : Text) : ArgForm :=
  let k := key sql
  if t.isBlob sql then .bytes
  else if k = "timestamptz".toList then .timestamp
  else if k = "interval".toList then .interval
  else if ["text".toList, "cstring".toList, "varchar".toList].contains k then .text
  else .scalar

/-- How a result of a type is given back. -/
def resultForm (t : TypeTable) (sql : Text) : ResultForm :=
  let k := key sql
  if t.isBlob sql then .blob
  else if k = "timestamptz".toList then .timestamp
  else if k = "cstring".toList then .cstring
  else if ["text".toList, "varchar".toList].contains k then .text
  else .scalar

end TypeTable

end VectorWrap
