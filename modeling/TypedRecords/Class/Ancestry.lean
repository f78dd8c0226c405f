import TypedRecords.Class.Registry

/-!
# Ancestry

The declarations of a class, its parent, the parent of that, and so on up to a class without parent.
The walk stops with an error at a name that is not declared, and at a name that a class on the way
bears.

A class is found under its name with or without one backslash in front, while the names on the way
are compared as they stand. So a walk can come round to a class again without noticing, and then it
goes round for ever. `Ancestry.walk` gives up after a given number of steps; twice the number of
classes and two more are enough, since whatever comes to an end has done so in its second round.
-/

namespace TypedRecords

variable {κ : Type}

namespace Ancestry

/-- How a walk up from a class ends. -/
inductive Outcome (κ : Type) where
  /-- At a class without parent, with the declarations from the first to that one. -/
  | root (chain : List (ClassDeclaration κ))
  | failed (error : Error)
  /-- Not within the steps that were allowed. -/
  | unfinished

/-- Walks up from the class `name`, of which the declarations in `chain` are the descendants,
nearest last, in at most the given number of steps. -/
def walk (registry : Registry κ) : Nat → List (ClassDeclaration κ) → String → Outcome κ
  | 0, _, _ => .unfinished
  | steps + 1, chain, name =>
    match chain.findIdx? (·.name == name) with
    | some start =>
      .failed (.circularInheritance ((chain.drop start).map ClassDeclaration.name ++ [name]))
    | none =>
      match registry.class? name with
      | none => .failed (.unknownClass name)
      | some declaration =>
        match declaration.parent with
        | none => .root (chain ++ [declaration])
        | some parent => walk registry steps (chain ++ [declaration]) parent

/-- Enough steps for every walk that comes to an end. -/
def enoughSteps (registry : Registry κ) : Nat := 2 * registry.size + 2

end Ancestry

/-- The declarations of the class `name` and of its ancestors, nearest first. -/
def Registry.ancestry (registry : Registry κ) (name : String) :
    Except Error (List (ClassDeclaration κ)) :=
  match Ancestry.walk registry (Ancestry.enoughSteps registry) [] name with
  | .root chain => .ok chain
  | .failed error => .error error
  | .unfinished => .error (.endlessInheritance name)

end TypedRecords
