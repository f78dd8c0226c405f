import TypedRecords.Json.Basic

/-!
# Tables of a TOML document

A document of TOML is a sequence of sections, each with a header and with keys and values. The
sections are put together to one tree. A table has to be defined in one place: a header may define a
table that so far is only known from the headers of its parts, and dotted keys may add to a table
that was made by dotted keys.

* `Toml.assemble`: the tree of a document.
-/

namespace TypedRecords.Toml

/-- How a table came about. -/
inductive Standing where
  /-- By a header or braces of its own. -/
  | defined
  /-- By the header of a part of it. -/
  | implied
  /-- By a dotted key. -/
  | dotted
  deriving DecidableEq, Repr

/-- A part of a document on the way to the tree. -/
inductive Node where
  | leaf (value : Json)
  | table (standing : Standing) (entries : List (String × Node))
  /-- An array of tables, the last one first. -/
  | tables (all : List (List (String × Node)))

/-- A key with dots, and its value. -/
structure Binding where
  path : List String
  key : String
  value : Json

/-- Where the bindings of a section go. -/
inductive Header where
  /-- To the table under a path, the last key apart. -/
  | table (path : List String) (key : String)
  /-- To a new table at the end of an array of tables. -/
  | element (path : List String) (key : String)

/-- A header with the bindings below it. -/
structure Section where
  header : Header
  bindings : List Binding

/-- The entries without the one under `key`. -/
def remove (entries : List (String × Node)) (key : String) : List (String × Node) :=
  entries.filter fun entry => entry.1 ≠ key

/-- Changes the table that is reached by `path`. Missing tables on the way are made with the given
standing. Dotted keys do not lead into a table that has a definition of its own. An array of tables
is entered at its last table. -/
def changeAt (standing : Standing) (change : Standing → List (String × Node) →
    Option (List (String × Node))) :
    List String → Standing → List (String × Node) → Option (List (String × Node))
  | [], here, entries => change here entries
  | key :: path, _, entries =>
    match Table.get? entries key with
    | none => do
      let inner ← changeAt standing change path standing []
      some (Table.put entries key (.table standing inner))
    | some (.table inner part) =>
      if standing = .dotted && inner = .defined then none
      else do
        let part ← changeAt standing change path inner part
        some (Table.put entries key (.table inner part))
    | some (.tables (last :: before)) => do
      let last ← changeAt standing change path .defined last
      some (Table.put entries key (.tables (last :: before)))
    | some _ => none

/-- Adds a binding to a table of its own standing. A dotted key has to end in a table made by dotted
keys, and no key may be bound twice. -/
def bind (entries : List (String × Node)) (binding : Binding) : Option (List (String × Node)) :=
  changeAt .dotted (fun here entries =>
    if decide (here = .dotted) == binding.path.isEmpty || Table.has entries binding.key then none
    else some (Table.put entries binding.key (.leaf binding.value)))
    binding.path .defined entries

/-- Adds bindings one by one. -/
def bindAll (entries : List (String × Node)) (bindings : List Binding) :
    Option (List (String × Node)) :=
  bindings.foldlM bind entries

/-- Adds a section. A table that was only implied becomes defined and moves to the end. -/
def addSection (root : List (String × Node)) (part : Section) : Option (List (String × Node)) :=
  match part.header with
  | .table path key =>
    changeAt .implied (fun _ entries => do
      let start ← match Table.get? entries key with
        | none => some []
        | some (.table .implied start) => some start
        | some _ => none
      let bound ← bindAll start part.bindings
      some (remove entries key ++ [(key, .table .defined bound)])) path .defined root
  | .element path key =>
    changeAt .implied (fun _ entries => do
      let before ← match Table.get? entries key with
        | none => some []
        | some (.tables before) => some before
        | some _ => none
      let bound ← bindAll [] part.bindings
      some (Table.put entries key (.tables (bound :: before)))) path .defined root

mutual

/-- The tree of a part of a document. -/
def Node.toJson : Node → Json
  | .leaf value => value
  | .table _ entries => .object (toJsonEntries entries)
  | .tables all => .array (toJsonTables all).reverse

/-- The tree of each entry. -/
def Node.toJsonEntries : List (String × Node) → List (String × Json)
  | [] => []
  | (key, node) :: rest => (key, node.toJson) :: toJsonEntries rest

/-- The tree of each table. -/
def Node.toJsonTables : List (List (String × Node)) → List Json
  | [] => []
  | entries :: rest => .object (toJsonEntries entries) :: toJsonTables rest

end

/-- The tree of the bindings before the first header and of the sections. -/
def assemble (bindings : List Binding) (sections : List Section) : Option Json := do
  let root ← bindAll [] bindings
  let root ← sections.foldlM addSection root
  some (.object (Node.toJsonEntries root))

/-- The tree of an inline table. -/
def assembleInline (bindings : List Binding) : Option Json :=
  assemble bindings []

end TypedRecords.Toml
