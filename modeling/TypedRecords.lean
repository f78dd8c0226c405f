import TypedRecords.Cast.Basic
import TypedRecords.Class.Ancestry
import TypedRecords.Class.Declaration
import TypedRecords.Class.Property
import TypedRecords.Class.Registry
import TypedRecords.Class.Resolution
import TypedRecords.Construction.Build
import TypedRecords.Construction.Coercion
import TypedRecords.Construction.Make
import TypedRecords.Engine.Basic
import TypedRecords.Engine.Inspection
import TypedRecords.Engine.Remake
import TypedRecords.Error.Basic
import TypedRecords.Error.Collector
import TypedRecords.Flags.Basic
import TypedRecords.Flags.Document
import TypedRecords.Flags.Options
import TypedRecords.Instance.Access
import TypedRecords.Json.Basic
import TypedRecords.Json.Reader
import TypedRecords.Number.Double
import TypedRecords.Number.Numeral
import TypedRecords.Number.Shortest
import TypedRecords.Proofs.Absorption
import TypedRecords.Proofs.Acceptance
import TypedRecords.Proofs.Collecting
import TypedRecords.Proofs.FailurePaths
import TypedRecords.Proofs.Invariant
import TypedRecords.Proofs.Native
import TypedRecords.Proofs.Orders
import TypedRecords.Proofs.Outcomes
import TypedRecords.Proofs.PlainData
import TypedRecords.Proofs.Prefixes
import TypedRecords.Proofs.Reporting
import TypedRecords.Proofs.Resolution
import TypedRecords.Proofs.Returns
import TypedRecords.Proofs.RoundTrip
import TypedRecords.Proofs.Tables
import TypedRecords.Proofs.Usage
import TypedRecords.Schema
import TypedRecords.Settings
import TypedRecords.Table
import TypedRecords.Text.Basic
import TypedRecords.Text.Reader
import TypedRecords.Toml.Moment
import TypedRecords.Toml.Reader
import TypedRecords.Toml.Tables
import TypedRecords.Typing.Keyword
import TypedRecords.Typing.TypeName
import TypedRecords.Typing.UnionType
import TypedRecords.Value.Basic
import TypedRecords.Value.Conversion
import TypedRecords.Value.Data
import TypedRecords.Value.Equality
import TypedRecords.Value.JsonForm
import TypedRecords.Proofs.NormalForm
import TypedRecords.Proofs.Ancestry
import TypedRecords.Proofs.ExactOutcome
import TypedRecords.Proofs.Agreement
import TypedRecords.Proofs.Reordering
import TypedRecords.Proofs.KeyOrder
import TypedRecords.Proofs.Settling
import TypedRecords.Proofs.Conversions
import TypedRecords.Proofs.Heeding
import TypedRecords.Proofs.Depth
import TypedRecords.Proofs.Cache
import TypedRecords.Proofs.Lines
import TypedRecords.Proofs.Inheritance
import TypedRecords.Proofs.Filling
import TypedRecords.Proofs.Precedence
import TypedRecords.Proofs.Resubmission
import TypedRecords.Proofs.Texts
import TypedRecords.Proofs.Grammar
import TypedRecords.Proofs.Twins
import TypedRecords.Proofs.Writing
import TypedRecords.Proofs.Owners
import TypedRecords.Proofs.Nearest
import TypedRecords.Proofs.Numerals
import TypedRecords.Proofs.Lists
import TypedRecords.Proofs.Grouping
import TypedRecords.Proofs.Display
import TypedRecords.Proofs.Elements
import TypedRecords.Proofs.Undeclared
import TypedRecords.Proofs.Definedness
import TypedRecords.Proofs.Views
import TypedRecords.Proofs.Expansion
import TypedRecords.Proofs.JsonForms
import TypedRecords.Proofs.JsonRoundTrip
import TypedRecords.Proofs.Equality
import TypedRecords.Proofs.Retagging
import TypedRecords.Proofs.Merging
import TypedRecords.Engine.Run
import TypedRecords.Proofs.Sharing
