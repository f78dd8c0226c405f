import TypedRecords.Engine.Basic

/-!
# Making instances anew

The defined properties of an instance serve as input for another one of its class: all of them with
some overridden, only the named ones, or all but the named ones.
-/

namespace TypedRecords

namespace Engine

variable {κ : Type}

/-- Makes an instance from the defined properties of another, with `overrides` laid over them. -/
def remake (engine : Engine κ) (record : Instance κ) (overrides : Table (Value κ)) :
    Except Error (Instance κ) × Engine κ :=
  engine.rebuild record (Table.putAll record.stored overrides)

/-- Makes an instance from those defined properties of another that satisfy `keep`, if `names` are
all declared. -/
def remakeWhere (engine : Engine κ) (record : Instance κ) (names : List String)
    (keep : String → Bool) : Except Error (Instance κ) × Engine κ :=
  match record.checkKnown names with
  | .error error => (.error error, engine)
  | .ok () => engine.rebuild record (record.stored.filter fun entry => keep entry.1)

/-- Makes an instance from the named properties of another only. -/
def remakeOnly (engine : Engine κ) (record : Instance κ) (names : List String) :
    Except Error (Instance κ) × Engine κ :=
  engine.remakeWhere record names fun name => names.contains name

/-- Makes an instance from the properties of another without the named ones. -/
def remakeExcept (engine : Engine κ) (record : Instance κ) (names : List String) :
    Except Error (Instance κ) × Engine κ :=
  engine.remakeWhere record names fun name => !names.contains name

end Engine

end TypedRecords
