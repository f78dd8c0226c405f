import TypedRecords.Class.Registry

/-!
# Casts

A cast converts raw input into rich values and rich values back into data. When the metadata of a
class is made, each type of a property keeps the first cast that accepts it. The casts kept for a
property are asked in turn whether they claim a value; the first that does converts it.

Two casts are built in: one builds instances of declared classes from maps, one builds declared
collections from lists. A custom cast is described by a `CustomCast`. Its conversion is a program,
which may build nested instances and may use the built-in casts, and ends with a value or an error.
All that it builds is nested in the construction that it converts for. A conversion that turns to
the engine by itself is not a program of this kind.

* `Cast.accepts`, `Cast.claims`: which types and which values a cast is for.
-/

namespace TypedRecords

variable {κ : Type}

/-- What a cast is told about the place of a conversion. -/
structure CastRequest where
  /-- The class that owns the property. -/
  owner : String
  property : String
  /-- The type that the cast was kept for. -/
  type : TypeName
  /-- The flags of the construction, without transient ones. -/
  flags : Flags
  /-- How deep the construction is nested. -/
  depth : Nat
  /-- The number of the call that the conversion belongs to. -/
  call : Nat
  /-- The place of the value in the input of that call. -/
  place : List Step

/-- What is built for the value itself is known by this. -/
def CastRequest.origin (request : CastRequest) : Origin := .built request.call request.place

/-- What is built for a numbered part of the outcome is known by this. -/
def CastRequest.originOf (request : CastRequest) (index : Nat) : Origin :=
  .built request.call (request.place ++ [.made index])

/-- What a cast is told about a conversion back to data. -/
structure DataRequest where
  /-- The flags of the instance. -/
  flags : Flags
  /-- Whether nested instances have their defaults filled in. -/
  withDefaults : Bool

/-- The conversion of a custom cast. It builds nested instances only: one level deeper than the
instance it converts for, and under the lasting flags of that construction. What the engine offers to
its callers cannot be expressed: an instance that is made as if it were outermost, at depth zero, or
under other flags, and the metadata of a class on its own. -/
inductive CastProgram (κ : Type) where
  /-- Ends with a value or an error. -/
  | done (result : Except Error (Value κ))
  /-- Builds a nested instance, under the flags of the request, and goes on with what came of it. -/
  | make (className : String) (input : List (String × Value κ))
      (next : Except Error (Instance κ) → CastProgram κ)
  /-- Has a value converted by the built-in cast for instances. -/
  | castInstance (value : Value κ) (next : Except Error (Value κ) → CastProgram κ)
  /-- Has a value converted by the built-in cast for collections. -/
  | castCollection (value : Value κ) (next : Except Error (Value κ) → CastProgram κ)

/-- What a cast has to say about a rich value that is to become data. -/
inductive Restoration (κ : Type) where
  /-- The value is not for this cast. -/
  | pass
  /-- The data of the instance, or of the items of the collection, with nested defaults as
  requested. -/
  | members
  | done (result : Except Error (Value κ))

/-- A custom cast. -/
structure CustomCast (κ : Type) where
  label : String
  /-- Whether the cast is for a type; asked when metadata is made. -/
  accepts : Registry κ → TypeName → Bool
  /-- Whether the cast wants to convert a value. -/
  claims : Value κ → Bool
  /-- Converts a value that was claimed. Nested instances come about through the steps of the program
  only, so that they count as nested and the request says where they are. -/
  convert : CastRequest → Value κ → CastProgram κ
  /-- Converts back to data. -/
  restore : Value κ → DataRequest → Restoration κ

/-- What the handles of custom casts stand for. -/
abbrev Casting (κ : Type) := κ → CustomCast κ

namespace Cast

/-- The name shown for a cast. -/
def label (casting : Casting κ) : Cast κ → String
  | instances => "DtoCast"
  | collections => "CollectionCast"
  | custom handle => (casting handle).label

/-- Whether a cast is for a type. -/
def accepts (casting : Casting κ) (registry : Registry κ) (type : TypeName) : Cast κ → Bool
  | instances => type.className?.any registry.hasClass
  | collections => type.className?.any fun name => (registry.collection? name).isSome
  | custom handle => (casting handle).accepts registry type

/-- Whether a cast wants to convert a value. -/
def claims (casting : Casting κ) (value : Value κ) : Cast κ → Bool
  | instances => value.isMap
  | collections => value.isList
  | custom handle => (casting handle).claims value

/-- What a cast has to say about a rich value. -/
def restore (casting : Casting κ) (value : Value κ) (request : DataRequest) :
    Cast κ → Restoration κ
  | instances => match value with
    | .record .. => .members
    | _ => .pass
  | collections => match value with
    | .object _ (.collection ..) => .members
    | _ => .pass
  | custom handle => (casting handle).restore value request

/-- What the first cast that has something to say says about a rich value. -/
def restoreFirst (casting : Casting κ) (value : Value κ) (request : DataRequest) :
    List (TypeName × Cast κ) → Restoration κ
  | [] => .pass
  | (_, cast) :: rest =>
    match cast.restore casting value request with
    | .pass => restoreFirst casting value request rest
    | answer => answer

end Cast

end TypedRecords
