import TypedRecords.Flags.Basic

/-!
# Options

The lasting flags as named switches. The overrides of nullability, which belong to a single call,
have no switch.
-/

namespace TypedRecords

/-- One switch for each lasting flag. -/
structure Options where
  incomplete : Bool := false
  mutable : Bool := false
  ignoreUnknown : Bool := false
  trackUnknown : Bool := false
  emptyArrays : Bool := false
  nullByDefault : Bool := false
  falseByDefault : Bool := false
  withDefaults : Bool := false
  deriving DecidableEq, Repr

namespace Options

/-- The names of the switches in documents, in order. -/
def fieldNames : List String :=
  ["partial", "mutable", "ignore_unknown_properties", "track_unknown_properties",
    "array_default_to_empty_array", "nullable_default_to_null", "bool_default_to_false",
    "with_defaults"]

/-- The flags of the switches, in the same order. -/
def fieldFlags : List Flags :=
  [.incomplete, .mutable, .ignoreUnknown, .trackUnknown, .emptyArrays, .nullByDefault,
    .falseByDefault, .withDefaults]

/-- The switches in order. -/
def toList (options : Options) : List Bool :=
  [options.incomplete, options.mutable, options.ignoreUnknown, options.trackUnknown,
    options.emptyArrays, options.nullByDefault, options.falseByDefault, options.withDefaults]

/-- The options whose switches are given in order; missing ones are off. -/
def ofList (switches : List Bool) : Options :=
  let on (i : Nat) : Bool := switches.getD i false
  ⟨on 0, on 1, on 2, on 3, on 4, on 5, on 6, on 7⟩

/-- The flags whose switch is on. -/
def toFlags (options : Options) : Flags :=
  ((options.toList.zip fieldFlags).filter Prod.fst).foldl (fun f entry => f.union entry.2) .none

/-- The switches of a set of flags. -/
def ofFlags (flags : Flags) : Options :=
  ofList (fieldFlags.map flags.contains)

/-- The options as an object of JSON. -/
def toJsonText (options : Options) : String :=
  let fields := (fieldNames.zip options.toList).map fun (name, on) =>
    "\"" ++ name ++ "\":" ++ toString on
  "\x7b" ++ ",".intercalate fields ++ "\x7d"

end Options

end TypedRecords
