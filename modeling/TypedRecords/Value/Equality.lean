import TypedRecords.Value.Basic

/-!
# Equality of values

Scalars are compared by value, so that NaN differs from itself; maps do not mind the order of their
entries. Two instances are equal if they are the same one, or if they are of one class and their
properties are equal. Opaque objects are equal only to themselves.
-/

namespace TypedRecords

variable {κ : Type}

mutual

/-- Whether two values are equal. -/
def Value.equal : Value κ → Value κ → Bool
  | .null, .null => true
  | .bool a, .bool b => a == b
  | .int a, .int b => a == b
  | .float x, .float y => x.ieeeEq y
  | .text s, .text t => s == t
  | .list items, .list others => Value.equalItems items others
  | .map entries, .map others =>
    entries.length == others.length && Value.equalEntries entries others
  | .record origin r, .record origin' r' => origin == origin' || r.equal r'
  | .object origin _, .object origin' _ => origin == origin'
  | _, _ => false

/-- Whether two lists are equal, item by item. -/
def Value.equalItems : List (Value κ) → List (Value κ) → Bool
  | [], [] => true
  | item :: rest, other :: others => item.equal other && Value.equalItems rest others
  | _, _ => false

/-- Whether every entry has an equal one under the same key in `others`. -/
def Value.equalEntries : List (String × Value κ) → List (String × Value κ) → Bool
  | [], _ => true
  | (key, value) :: rest, others =>
    (match Table.get? others key with
      | some other => value.equal other
      | none => false) && Value.equalEntries rest others

/-- Whether two instances are of one class and have equal properties. -/
def Instance.equal : Instance κ → Instance κ → Bool
  | ⟨metadata, stored, _, _⟩, other =>
    metadata.name == other.className && stored.length == other.stored.length &&
      Value.equalEntries stored other.stored

end

end TypedRecords
