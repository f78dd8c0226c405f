import TypedRecords.Text.Basic

/-!
# Flags

The behaviour of a construction and of the instance it builds is a set of flags, kept as the bits
of a word. Bits without a name are carried along.

* `Flags.withoutTransient_idem`: what is stripped for good stays stripped.
-/

namespace TypedRecords

/-- A set of behaviour flags. -/
structure Flags where
  bits : UInt16
  deriving DecidableEq, Repr

namespace Flags

/-- Immutable, strict and complete. -/
def none : Flags := ⟨0x000⟩

/-- Only supplied properties become defined; nothing is required. -/
def incomplete : Flags := ⟨0x001⟩

/-- Properties may be written after construction. -/
def mutable : Flags := ⟨0x002⟩

/-- Undeclared input keys are dropped. -/
def ignoreUnknown : Flags := ⟨0x004⟩

/-- Undeclared input keys are dropped, and kept on the instance for inspection. -/
def trackUnknown : Flags := ⟨0x008⟩

/-- An undefined array property defaults to the empty list. -/
def emptyArrays : Flags := ⟨0x010⟩

/-- An undefined nullable property defaults to null. -/
def nullByDefault : Flags := ⟨0x020⟩

/-- An undefined bool property defaults to false. -/
def falseByDefault : Flags := ⟨0x040⟩

/-- Defaults are filled in even if the construction is incomplete. -/
def withDefaults : Flags := ⟨0x080⟩

/-- Null is refused, for one validation. -/
def notNullable : Flags := ⟨0x100⟩

/-- Null is accepted, for one validation. -/
def nullable : Flags := ⟨0x200⟩

/-- All implicit defaults. -/
def implicitDefaults : Flags := ⟨0x070⟩

/-- Both ways to tolerate undeclared keys. -/
def lenientUnknown : Flags := ⟨0x00C⟩

/-- The overrides of nullability: they belong to one call and are never stored. -/
def transient : Flags := ⟨0x300⟩

/-- The single flags with their names, in order of their bits. -/
def named : List (String × Flags) :=
  [("PARTIAL", incomplete), ("MUTABLE", mutable), ("IGNORE_UNKNOWN_PROPERTIES", ignoreUnknown),
    ("TRACK_UNKNOWN_PROPERTIES", trackUnknown), ("ARRAY_DEFAULT_TO_EMPTY_ARRAY", emptyArrays),
    ("NULLABLE_DEFAULT_TO_NULL", nullByDefault), ("BOOL_DEFAULT_TO_FALSE", falseByDefault),
    ("WITH_DEFAULTS", withDefaults), ("NOT_NULLABLE", notNullable), ("NULLABLE", nullable)]

/-- The names of combinations. -/
def combined : List (String × Flags) :=
  [("NONE", none), ("IMPLICIT_DEFAULTS", implicitDefaults), ("LENIENT_UNKNOWN", lenientUnknown),
    ("TRANSIENT", transient)]

/-! ## Set operations -/

/-- The flags that are in one of the two sets. -/
def union (a b : Flags) : Flags := ⟨a.bits ||| b.bits⟩

/-- The flags that are in both sets. -/
def intersection (a b : Flags) : Flags := ⟨a.bits &&& b.bits⟩

/-- The flags of `a` that are not in `b`. -/
def difference (a b : Flags) : Flags := ⟨a.bits &&& ~~~b.bits⟩

/-- Whether every flag of `b` is in `a`. -/
def contains (a b : Flags) : Bool := a.bits &&& b.bits == b.bits

/-- Whether some flag of `b` is in `a`. -/
def intersects (a b : Flags) : Bool := a.bits &&& b.bits != 0

/-- Whether no flag is set. -/
def isEmpty (a : Flags) : Bool := a.bits == 0

/-- The flags without the overrides that belong to a single call. -/
def withoutTransient (a : Flags) : Flags := a.difference transient

/-! ## Names -/

/-- The flag or combination of a name, in any case and with blanks around it. -/
def ofName? (text : List Char) : Option Flags :=
  (named ++ combined).lookup (String.ofList (Text.upper (Text.trim text)))

/-- The union of names between bars. -/
def ofText? (text : String) : Option Flags := do
  let parts ← (Text.pieces '|' text.toList).mapM ofName?
  some (parts.foldl union none)

/-- The names of the single flags that are set. -/
def names (a : Flags) : List String :=
  (named.filter fun entry => a.contains entry.2).map Prod.fst

/-- The names between bars; `NONE` for the empty set. -/
def display (a : Flags) : String :=
  if a.isEmpty then "NONE" else "|".intercalate a.names

/-! ## Laws -/

theorem withoutTransient_idem (a : Flags) :
    a.withoutTransient.withoutTransient = a.withoutTransient := by
  simp [withoutTransient, difference, UInt16.and_assoc]

end Flags

end TypedRecords
