import TypedRecords.Cast.Basic
import TypedRecords.Class.Property
import TypedRecords.Construction.Build
import TypedRecords.Number.Numeral

/-!
# Coercion

A raw value is coerced to the type of its property and then validated. A list whose first item is
claimed by one of the element casts is coerced item by item. Any other value goes to the first cast
that claims it. What no cast claims stays as it is, except that a property for integers which is not
one for texts reads the texts that stand for whole numbers.

All this is done in steps of any kind that may fail. Nested instances are built by a function that is
handed in; see `TypedRecords.Construction.Make`.

* `Property.castValue`: coercion, then validation.
-/

namespace TypedRecords

variable {κ : Type}

/-- Builds a nested instance, one level deeper: for a place, of a class, from input, under flags. -/
abbrev NestedIn (m : Type → Type) (κ : Type) :=
  List Step → String → List (String × Value κ) → Flags → m (Instance κ)

/-- What conversions may rely on: what custom casts do, what is declared, and how nested instances
are built. -/
structure WorkbenchIn (m : Type → Type) (κ : Type) where
  casting : Casting κ
  registry : Registry κ
  nested : NestedIn m κ

/-- Builds a nested instance and notes the metadata that is consulted. -/
abbrev Nested (κ : Type) := NestedIn (Build κ) κ

/-- What conversions that note metadata may rely on. -/
abbrev Workbench (κ : Type) := WorkbenchIn (Build κ) κ

/-- Where a conversion takes place: how deep, in which call, and for which part of its input. -/
structure Site where
  depth : Nat
  call : Nat
  place : List Step

namespace Site

/-- The part of this site that the step leads to. -/
def child (site : Site) (step : Step) : Site :=
  { site with place := site.place ++ [step] }

end Site

namespace CastRequest

/-- The same request for a part of the value. -/
def child (request : CastRequest) (step : Step) : CastRequest :=
  { request with place := request.place ++ [step] }

end CastRequest

variable {m : Type → Type}

namespace Cast

variable [Monad m] [Fallible m]

/-! ## The built-in casts -/

/-- The instance that stands for a map. -/
def convertInstance (bench : WorkbenchIn m κ) (request : CastRequest) (value : Value κ) :
    m (Value κ) :=
  match request.type.className? with
  | none => Build.fail (.castFailed "" (request.type.display ++ " is not a class token"))
  | some className =>
    match value with
    | .map input => do
      let made ← bench.nested request.place className input request.flags
      return .record request.origin made
    | other => Build.fail (.invalidType [.ofValue request.owner "" className other])

/-- The item of a collection that stands for an element of a list: an instance is taken as it is if
its class fits, a map is made into one. -/
def convertItem (bench : WorkbenchIn m κ) (request : CastRequest) (itemClass : String) :
    Value κ × Nat → m (Origin × Instance κ)
  | (.map input, index) =>
    let request := request.child (.element index)
    Build.prefixed (toString index) do
      let made ← bench.nested request.place itemClass input request.flags
      return (request.origin, made)
  | (.record origin r, index) =>
    if r.isInstanceOf itemClass then pure (origin, r)
    else Build.fail (.invalidType
      [.ofValue request.owner (toString index) itemClass (.record origin r)])
  | (other, index) =>
    Build.fail (.invalidType [.ofValue request.owner (toString index) itemClass other])

/-- The collection that stands for a list. -/
def convertCollection (bench : WorkbenchIn m κ) (request : CastRequest) (value : Value κ) :
    m (Value κ) :=
  match request.type.className?.bind bench.registry.collection? with
  | none => Build.fail (.unknownClass request.type.display)
  | some declaration =>
    match value with
    | .list elements => do
      let items ← Build.collect request.owner
        (convertItem bench request declaration.itemClass) elements.zipIdx
      return .object request.origin (.collection declaration.name declaration.itemClass items)
    | other => Build.fail (.invalidType [.ofValue request.owner "" declaration.name other])

/-! ## Running a cast -/

/-- Runs the program of a custom cast. What it builds is numbered in order. -/
def runProgram (bench : WorkbenchIn m κ) (request : CastRequest) :
    Nat → CastProgram κ → m (Value κ)
  | _, .done result => Build.ofResult result
  | count, .make className input next => do
    let place := request.place ++ [.made count]
    let made ← Build.attempt (bench.nested place className input request.flags)
    runProgram bench request (count + 1) (next made)
  | count, .castInstance value next => do
    let made ← Build.attempt (convertInstance bench (request.child (.made count)) value)
    runProgram bench request (count + 1) (next made)
  | count, .castCollection value next => do
    let made ← Build.attempt (convertCollection bench (request.child (.made count)) value)
    runProgram bench request (count + 1) (next made)

/-- Converts a value that a cast has claimed. -/
def convert (bench : WorkbenchIn m κ) (request : CastRequest) (value : Value κ) :
    Cast κ → m (Value κ)
  | instances => convertInstance bench request value
  | collections => convertCollection bench request value
  | custom handle => runProgram bench request 0 ((bench.casting handle).convert request value)

end Cast

namespace Property

/-- The first kept cast that claims a value, with the type it was kept for. -/
def claim? (bench : WorkbenchIn m κ) (casts : List (TypeName × Cast κ)) (value : Value κ) :
    Option (TypeName × Cast κ) :=
  casts.find? fun entry => entry.2.claims bench.casting value

/-- What a cast is told when it converts a value of the property. -/
def request (property : Property κ) (site : Site) (flags : Flags) (type : TypeName) :
    CastRequest :=
  { owner := property.owner
    property := property.name
    type, flags
    depth := site.depth
    call := site.call
    place := site.place }

/-- Whether a list is coerced item by item: if its first item is not a scalar and some element cast
claims it. -/
def castsElements (bench : WorkbenchIn m κ) (property : Property κ) : List (Value κ) → Bool
  | [] => false
  | first :: _ => !first.isScalar && (claim? bench property.elementCasts first).isSome

/-- Whether an item that no cast claims may stay in a list of the property. -/
def keepsElement (property : Property κ) (item : Value κ) : Bool :=
  property.union.isMixed || property.union.contains .array ||
    property.union.elements.any (·.holds item)

variable [Monad m] [Fallible m]

/-- Coerces an item of a list. -/
def castElement (bench : WorkbenchIn m κ) (property : Property κ) (site : Site) (flags : Flags) :
    Value κ × Nat → m (Value κ)
  | (item, index) =>
    match claim? bench property.elementCasts item with
    | some (type, cast) =>
      let request := property.request (site.child (.element index)) flags type
      Build.prefixed (toString index) (cast.convert bench request item)
    | none =>
      if property.keepsElement item then pure item
      else Build.fail (.invalidType
        [.ofValue property.owner (toString index) property.union.elementDisplay item])

/-- Coerces a list item by item. -/
def castElements (bench : WorkbenchIn m κ) (property : Property κ) (site : Site) (flags : Flags)
    (items : List (Value κ)) : m (List (Value κ)) :=
  Build.collect property.owner (property.castElement bench site flags) items.zipIdx

/-- The integer that a text stands for, if the property is one for integers and not for texts. -/
def readInteger? (property : Property κ) : Value κ → Option Int64
  | .text s =>
    if property.union.isInt && !property.union.isString then Numeral.integral? s.toList else none
  | _ => none

/-- Coerces a value as a whole. -/
def coerceWhole (bench : WorkbenchIn m κ) (property : Property κ) (site : Site) (flags : Flags)
    (value : Value κ) : m (Value κ) :=
  match claim? bench property.casts value with
  | some (type, cast) => cast.convert bench (property.request site flags type) value
  | none =>
    match property.readInteger? value with
    | some n => pure (.int n)
    | none => pure value

/-- Coerces a value to the type of the property. -/
def coerce (bench : WorkbenchIn m κ) (property : Property κ) (site : Site) (flags : Flags)
    (value : Value κ) : m (Value κ) :=
  match value with
  | .list items =>
    if property.castsElements bench items then
      return .list (← property.castElements bench site flags items)
    else property.coerceWhole bench site flags value
  | _ => property.coerceWhole bench site flags value

/-- Coerces a value and validates the outcome. Errors of the coercion are seen from the instance, so
their paths begin with the name of the property. Transient flags count for the validation only. -/
def castValue (bench : WorkbenchIn m κ) (property : Property κ) (site : Site) (flags : Flags)
    (value : Value κ) : m (Value κ) := do
  let site := site.child (.property property.name)
  let coerced ← Build.prefixed property.name
    (property.coerce bench site flags.withoutTransient value)
  if property.accepts flags coerced then pure coerced else Build.fail (property.invalid coerced)

end Property

end TypedRecords
