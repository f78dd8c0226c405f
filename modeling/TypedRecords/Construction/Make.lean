import TypedRecords.Construction.Coercion

/-!
# Making instances

An instance of a class is made from a table of input under a set of flags.

1. Undeclared keys are an error, unless the flags tolerate them.
2. Every supplied property is coerced and validated, in order of the input; the failures are
   reported together.
3. The remaining properties get their defaults, unless the construction is incomplete; those without
   are reported together.

Nested instances are made in the same way, one level deeper, down to a limit.

* `makeIn`: makes an instance in steps of any kind that may fail.
* `make`: the instance, or what went wrong, with notes of the metadata that was consulted.
-/

namespace TypedRecords

variable {κ : Type}

/-- What a construction may rely on. -/
structure PlanIn (m : Type → Type) (κ : Type) where
  casting : Casting κ
  registry : Registry κ
  /-- The metadata of a class, by name. -/
  metadata : String → m (Metadata κ)
  /-- The number of levels below the outermost instance. -/
  maxDepth : Nat

/-- What a construction may rely on, if the metadata of a class is the same all the time. -/
abbrev Plan (κ : Type) := PlanIn (Except Error) κ

/-- The plan of a construction that notes the metadata it consults. -/
def Plan.noting (plan : Plan κ) : PlanIn (Build κ) κ where
  casting := plan.casting
  registry := plan.registry
  metadata className := Build.consult (plan.metadata className)
  maxDepth := plan.maxDepth

namespace Construction

variable {m : Type → Type} [Monad m] [Fallible m]

/-- The undeclared keys of the input, in order. -/
def unknownKeys (metadata : Metadata κ) (input : Table (Value κ)) : List String :=
  (Table.keys input).filter fun key => !metadata.declares key

/-- Coerces and validates an entry of the input; undeclared entries come to nothing. -/
def castEntry (bench : WorkbenchIn m κ) (metadata : Metadata κ) (site : Site) (flags : Flags)
    (entry : String × Value κ) : m (Option (String × Value κ)) :=
  match metadata.property? entry.1 with
  | none => pure none
  | some property => do
    let value ← property.castValue bench site flags entry.2
    return some (entry.1, value)

/-- Whether undefined properties are given their defaults. -/
def fillsDefaults (flags : Flags) : Bool :=
  !flags.contains .incomplete || flags.contains .withDefaults

/-- The value of a property after construction: as supplied, or its default. -/
def settled? (flags : Flags) (supplied : Table (Value κ)) (property : Property κ) :
    Option (Value κ) :=
  match Table.get? supplied property.name with
  | some value => some value
  | none => if fillsDefaults flags then property.default? flags else none

/-- The settled properties, in order of declaration. -/
def settle (metadata : Metadata κ) (flags : Flags) (supplied : Table (Value κ)) :
    Table (Value κ) :=
  metadata.properties.filterMap fun property =>
    (settled? flags supplied property).map fun value => (property.name, value)

/-- The properties that are left undefined, in order of declaration. -/
def unsettled (metadata : Metadata κ) (flags : Flags) (supplied : Table (Value κ)) :
    List String :=
  (metadata.properties.filter fun property => (settled? flags supplied property).isNone).map
    Property.name

/-- The undeclared entries of the input that are kept for inspection. -/
def trackedEntries (metadata : Metadata κ) (flags : Flags) (input : Table (Value κ)) :
    Table (Value κ) :=
  if flags.contains .trackUnknown then input.filter fun entry => !metadata.declares entry.1
  else []

/-- Makes an instance of a class with the given metadata. -/
def construct (bench : WorkbenchIn m κ) (metadata : Metadata κ) (site : Site)
    (input : Table (Value κ)) (flags : Flags) : m (Instance κ) := do
  let unknown := unknownKeys metadata input
  if !unknown.isEmpty && !flags.intersects .lenientUnknown then
    Build.fail (.unknownProperties metadata.name unknown)
  else
    let cast ← Build.collect metadata.name (castEntry bench metadata site flags) input
    let supplied := cast.filterMap id
    let undefined := unsettled metadata flags supplied
    if !undefined.isEmpty && !flags.contains .incomplete then
      Build.fail (.undefinedProperties metadata.name undefined)
    else
      return {
        metadata, flags
        stored := settle metadata flags supplied
        tracked := trackedEntries metadata flags input }

/-- Makes an instance, with the given number of levels left for it and what is nested in it. -/
def makeIn (plan : PlanIn m κ) (call : Nat) : Nat → NestedIn m κ
  | 0, _, _, _, _ => Build.fail (.maxDepthExceeded plan.maxDepth)
  | levels + 1, place, className, input, flags => do
    let metadata ← plan.metadata className
    let bench := ⟨plan.casting, plan.registry, makeIn plan call levels⟩
    construct bench metadata ⟨plan.maxDepth - levels, call, place⟩ input flags.withoutTransient

/-- Makes an instance within a number of levels, and notes the metadata that is consulted. -/
def makeWithin (plan : Plan κ) (call levels : Nat) : Nested κ :=
  makeIn plan.noting call levels

theorem makeWithin_succ (plan : Plan κ) (call levels : Nat) (place : List Step) (className : String)
    (input : Table (Value κ)) (flags : Flags) :
    makeWithin plan call (levels + 1) place className input flags = (do
      let metadata ← Build.consult (plan.metadata className)
      let bench := ⟨plan.casting, plan.registry, makeWithin plan call levels⟩
      construct bench metadata ⟨plan.maxDepth - levels, call, place⟩ input flags.withoutTransient) :=
  rfl

/-- Makes an instance that is not nested in another. -/
def make (plan : Plan κ) (call : Nat) (className : String) (input : Table (Value κ))
    (flags : Flags) : Build κ (Instance κ) :=
  makeWithin plan call (plan.maxDepth + 1) [] className input flags

/-- What conversions of a property of an instance that is not nested may rely on. -/
def outerBench (plan : Plan κ) (call : Nat) : Workbench κ :=
  ⟨plan.casting, plan.registry, makeWithin plan call plan.maxDepth⟩

/-- Coerces and validates a value for a property of an instance that is not nested in another. -/
def castValue (plan : Plan κ) (call : Nat) (property : Property κ) (flags : Flags)
    (value : Value κ) : Build κ (Value κ) :=
  property.castValue (outerBench plan call) ⟨0, call, []⟩ flags value

end Construction

end TypedRecords
