import TypedRecords.Engine.Basic

/-!
# Inspection

A text that shows the parts of a value, a declaration, a request or an engine by their names, for
people who look for mistakes.
-/

namespace TypedRecords

namespace Inspection

/-- A character within quotes. -/
def quotedChar (c : Char) : String :=
  if c = '"' then "\\\""
  else if c = '\\' then "\\\\"
  else if c = '\n' then "\\n"
  else if c = '\t' then "\\t"
  else if c = '\x0d' then "\\r"
  else if c = '\x00' then "\\0"
  else if c.toNat < 0x20 || c.toNat = 0x7F then
    "\\u\x7b" ++ String.ofList (Nat.toDigits 16 c.toNat) ++ "\x7d"
  else c.toString

/-- A text in quotes. -/
def quoted (text : String) : String :=
  "\"" ++ String.join (text.toList.map quotedChar) ++ "\""

/-- Parts between brackets. -/
def list (parts : List String) : String :=
  "[" ++ ", ".intercalate parts ++ "]"

/-- Keys with their parts between braces. -/
def table (parts : List (String × String)) : String :=
  "\x7b" ++ ", ".intercalate (parts.map fun (key, part) => quoted key ++ ": " ++ part) ++ "\x7d"

/-- A name with its named parts. -/
def struct (name : String) (parts : List (String × String)) : String :=
  name ++ " \x7b " ++ ", ".intercalate (parts.map fun (field, part) => field ++ ": " ++ part) ++
    " \x7d"

/-- A name with a single part. -/
def wrapped (name part : String) : String :=
  name ++ "(" ++ part ++ ")"

end Inspection

open Inspection

/-- The name of a keyword. -/
def Keyword.inspect : Keyword → String
  | string => "String"
  | int => "Int"
  | float => "Float"
  | bool => "Bool"
  | array => "Array"
  | null => "Null"
  | mixed => "Mixed"

/-- The parts of a type name. -/
def TypeName.inspect : TypeName → String
  | keyword k => wrapped "Primitive" k.inspect
  | named className => wrapped "Class" (quoted className)

/-- The bits of a set of flags. -/
def Flags.inspect (flags : Flags) : String :=
  wrapped "DtoFlags" (toString flags.bits.toNat)

/-- The parts of a failure. -/
def Failure.inspect (failure : Failure) : String :=
  struct "InvalidTypeFailure" [("class", quoted failure.owner), ("property", quoted failure.path),
    ("expected", quoted failure.expected), ("value", quoted failure.value),
    ("kind", quoted failure.kind)]

mutual

/-- The parts of an error. -/
def Error.inspect : Error → String
  | .immutableWrite owner property =>
    struct "ImmutableWrite" [("class", quoted owner), ("property", quoted property)]
  | .unknownProperties owner paths =>
    struct "UnknownProperties" [("class", quoted owner), ("properties", list (paths.map quoted))]
  | .undefinedProperties owner paths =>
    struct "UndefinedProperties" [("class", quoted owner), ("properties", list (paths.map quoted))]
  | .invalidType failures =>
    struct "InvalidType" [("failures", list (failures.map Failure.inspect))]
  | .aggregate errors => struct "Aggregate" [("errors", list (Error.inspectAll errors))]
  | .unserializable path typeName =>
    struct "SerializationUnsupported" [("property", quoted path), ("type_name", quoted typeName)]
  | .unknownClass name => struct "UnknownClass" [("class", quoted name)]
  | .badDeclaration owner reason =>
    struct "Declaration" [("class", quoted owner), ("reason", quoted reason)]
  | .circularInheritance names =>
    struct "CircularInheritance" [("cycle", quoted (" -> ".intercalate names))]
  | .endlessInheritance name => struct "EndlessInheritance" [("class", quoted name)]
  | .maxDepthExceeded limit => struct "MaxDepthExceeded" [("max_depth", toString limit)]
  | .castFailed path reason =>
    struct "Cast" [("property", quoted path), ("message", quoted reason)]
  | .badSchema reason => wrapped "Schema" (quoted reason)
  | .badSettings reason => wrapped "Config" (quoted reason)

/-- The parts of each error. -/
def Error.inspectAll : List Error → List String
  | [] => []
  | error :: rest => error.inspect :: Error.inspectAll rest

end

variable {κ : Type}

/-- The parts of an object with other types and perhaps a data form, each part in its text. -/
def Object.inspectWrapper (typeName : String) (aliases : List String) (data inner : String) :
    String :=
  struct "Rich" [("type_name", quoted typeName), ("is", list (aliases.map quoted)),
    ("data", data), ("inner", inner)]

mutual

/-- The parts of a value. -/
def Value.inspect : Value κ → String
  | .null => "Null"
  | .bool b => wrapped "Bool" (toString b)
  | .int n => wrapped "Int" (toString n)
  | .float x => wrapped "Float" x.showText
  | .text s => wrapped "String" (quoted s)
  | .list items => wrapped "List" (list (Value.inspectItems items))
  | .map entries => wrapped "Map" (table (Value.inspectEntries entries))
  | .record _ r => wrapped "Dto" r.inspect
  | .object _ o => wrapped "Object" o.inspect

/-- The parts of each item. -/
def Value.inspectItems : List (Value κ) → List String
  | [] => []
  | item :: rest => item.inspect :: Value.inspectItems rest

/-- The parts of the value of each entry. -/
def Value.inspectEntries : List (String × Value κ) → List (String × String)
  | [] => []
  | (key, value) :: rest => (key, value.inspect) :: Value.inspectEntries rest

/-- The parts of an instance. -/
def Instance.inspect : Instance κ → String
  | ⟨metadata, stored, _, flags⟩ =>
    struct "Dto" [("class", quoted metadata.name),
      ("properties", table (Value.inspectEntries stored)), ("flags", flags.inspect)]

/-- The parts of each instance. -/
def Instance.inspectItems : List (Origin × Instance κ) → List String
  | [] => []
  | (_, item) :: rest => item.inspect :: Instance.inspectItems rest

/-- The parts of an object. -/
def Object.inspect : Object κ → String
  | .sealed typeName inner =>
    struct "Opaque" [("type_name", quoted typeName), ("inner", inner.inspect)]
  | .wrapper typeName aliases none inner =>
    Object.inspectWrapper typeName aliases "None" inner.inspect
  | .wrapper typeName aliases (some (.ok data)) inner =>
    Object.inspectWrapper typeName aliases (wrapped "Some" (wrapped "Ok" data.inspect))
      inner.inspect
  | .wrapper typeName aliases (some (.error error)) inner =>
    Object.inspectWrapper typeName aliases (wrapped "Some" (wrapped "Err" error.inspect))
      inner.inspect
  | .collection name itemClass items =>
    struct "DtoCollection" [("name", quoted name), ("item_class", quoted itemClass),
      ("items", list (Instance.inspectItems items))]

end

/-- The parts of a declaration. -/
def ClassDeclaration.inspect (declaration : ClassDeclaration κ) : String :=
  struct "ClassDeclaration" [("name", quoted declaration.name),
    ("extends", declaration.parent.elim "None" fun parent => wrapped "Some" (quoted parent)),
    ("implements", list (declaration.interfaces.map quoted)),
    ("properties", table (declaration.properties.map fun (name, types) =>
      (name, list (types.map quoted)))),
    ("defaults", table (declaration.defaults.map fun (name, value) => (name, value.inspect))),
    ("casts", toString declaration.casts.length)]

/-- The parts of a request. -/
def CastRequest.inspect (request : CastRequest) : String :=
  struct "CastRequest" [("class", quoted request.owner), ("property", quoted request.property),
    ("token", request.type.inspect), ("flags", request.flags.inspect),
    ("depth", toString request.depth)]

/-- The parts of the settings. -/
def Settings.inspect (settings : Settings) : String :=
  struct "FactoryConfig" [("default_flags", settings.defaultFlags.inspect),
    ("max_depth", toString settings.maxDepth)]

/-- The parts of an engine. -/
def Engine.inspect (engine : Engine κ) : String :=
  struct "Factory" [
    ("casts", list ((engineCasts engine.casts).map (Cast.label engine.casting))),
    ("config", engine.settings.inspect),
    ("cached", toString engine.cache.length)]

end TypedRecords
