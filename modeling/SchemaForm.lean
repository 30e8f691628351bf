import SchemaForm.Json.Basic
import SchemaForm.Json.Parser
import SchemaForm.Json.Printer
import SchemaForm.Layout.Bounds
import SchemaForm.Layout.Compose
import SchemaForm.Layout.Context
import SchemaForm.Layout.Encoding
import SchemaForm.Layout.Entry
import SchemaForm.Layout.Form
import SchemaForm.Layout.Generate
import SchemaForm.Layout.Mapping
import SchemaForm.Layout.Node
import SchemaForm.Layout.Template
import SchemaForm.Layout.Widget
import SchemaForm.Number.Basic
import SchemaForm.Number.Binary64
import SchemaForm.Number.Notation
import SchemaForm.Number.Reader
import SchemaForm.Number.Shortest
import SchemaForm.Pointer.Access
import SchemaForm.Pointer.Basic
import SchemaForm.Pointer.Generic
import SchemaForm.Pointer.ObjectPath
import SchemaForm.Proofs.Json.Equality
import SchemaForm.Proofs.Json.Everywhere
import SchemaForm.Proofs.Json.Places
import SchemaForm.Proofs.Json.Replacement
import SchemaForm.Proofs.Json.Visits
import SchemaForm.Proofs.Layout.Adding
import SchemaForm.Proofs.Layout.Alike
import SchemaForm.Proofs.Layout.BareKey
import SchemaForm.Proofs.Layout.Bindings
import SchemaForm.Proofs.Layout.Bound
import SchemaForm.Proofs.Layout.BoundByItems
import SchemaForm.Proofs.Layout.Built
import SchemaForm.Proofs.Layout.Cardinality
import SchemaForm.Proofs.Layout.Composed
import SchemaForm.Proofs.Layout.Containment
import SchemaForm.Proofs.Layout.Crossing
import SchemaForm.Proofs.Layout.DataPointers
import SchemaForm.Proofs.Layout.Derivation
import SchemaForm.Proofs.Layout.Endless
import SchemaForm.Proofs.Layout.ExactBounds
import SchemaForm.Proofs.Layout.Filling
import SchemaForm.Proofs.Layout.Fitting
import SchemaForm.Proofs.Layout.Gathering
import SchemaForm.Proofs.Layout.Identity
import SchemaForm.Proofs.Layout.Journal
import SchemaForm.Proofs.Layout.KeyContents
import SchemaForm.Proofs.Layout.Library
import SchemaForm.Proofs.Layout.Limits
import SchemaForm.Proofs.Layout.Links
import SchemaForm.Proofs.Layout.ListCounts
import SchemaForm.Proofs.Layout.ListEntries
import SchemaForm.Proofs.Layout.ListItems
import SchemaForm.Proofs.Layout.ListSchemas
import SchemaForm.Proofs.Layout.Mirroring
import SchemaForm.Proofs.Layout.Numbering
import SchemaForm.Proofs.Layout.Offers
import SchemaForm.Proofs.Layout.Outline
import SchemaForm.Proofs.Layout.OutlinedForms
import SchemaForm.Proofs.Layout.Overflow
import SchemaForm.Proofs.Layout.Placing
import SchemaForm.Proofs.Layout.Positions
import SchemaForm.Proofs.Layout.Protocol
import SchemaForm.Proofs.Layout.Recording
import SchemaForm.Proofs.Layout.Records
import SchemaForm.Proofs.Layout.Regrouping
import SchemaForm.Proofs.Layout.Requests
import SchemaForm.Proofs.Layout.Returns
import SchemaForm.Proofs.Layout.Run
import SchemaForm.Proofs.Layout.SchemaKeys
import SchemaForm.Proofs.Layout.Sizes
import SchemaForm.Proofs.Layout.Standing
import SchemaForm.Proofs.Layout.Stars
import SchemaForm.Proofs.Layout.Stored
import SchemaForm.Proofs.Layout.TopLevel
import SchemaForm.Proofs.Layout.Twins
import SchemaForm.Proofs.Layout.Unfolded
import SchemaForm.Proofs.Layout.Unreferenced
import SchemaForm.Proofs.Layout.Walking
import SchemaForm.Proofs.Pointer.Escaping
import SchemaForm.Proofs.Pointer.Levels
import SchemaForm.Proofs.Pointer.Names
import SchemaForm.Proofs.Pointer.Order
import SchemaForm.Proofs.Pointer.Paths
import SchemaForm.Proofs.Pointer.Segments
import SchemaForm.Proofs.Pointer.Wildcards
import SchemaForm.Proofs.Reference.Again
import SchemaForm.Proofs.Reference.Aimed
import SchemaForm.Proofs.Reference.Anchored
import SchemaForm.Proofs.Reference.Closure
import SchemaForm.Proofs.Reference.Coined
import SchemaForm.Proofs.Reference.Folds
import SchemaForm.Proofs.Reference.InStep
import SchemaForm.Proofs.Reference.Inlined
import SchemaForm.Proofs.Reference.Landing
import SchemaForm.Proofs.Reference.Merging
import SchemaForm.Proofs.Reference.NormalForm
import SchemaForm.Proofs.Reference.Plain
import SchemaForm.Proofs.Reference.Realized
import SchemaForm.Proofs.Reference.Recorded
import SchemaForm.Proofs.Reference.Routes
import SchemaForm.Proofs.Reference.Rules
import SchemaForm.Proofs.Reference.Settled
import SchemaForm.Proofs.Reference.Shallowest
import SchemaForm.Proofs.Reference.Strayed
import SchemaForm.Proofs.Reference.Termination
import SchemaForm.Proofs.Reference.Untouched
import SchemaForm.Proofs.Reference.Verbatim
import SchemaForm.Proofs.Reference.Visit
import SchemaForm.Proofs.Results
import SchemaForm.Proofs.Schema.Acceptance
import SchemaForm.Proofs.Schema.AnyOrder
import SchemaForm.Proofs.Schema.Branches
import SchemaForm.Proofs.Schema.Combining
import SchemaForm.Proofs.Schema.Declared
import SchemaForm.Proofs.Schema.Fields
import SchemaForm.Proofs.Schema.Finished
import SchemaForm.Proofs.Schema.Idempotence
import SchemaForm.Proofs.Schema.Inferred
import SchemaForm.Proofs.Schema.Keeping
import SchemaForm.Proofs.Schema.Leftover
import SchemaForm.Proofs.Schema.Legible
import SchemaForm.Proofs.Schema.Lookups
import SchemaForm.Proofs.Schema.Objects
import SchemaForm.Proofs.Schema.Options
import SchemaForm.Proofs.Schema.Precedence
import SchemaForm.Proofs.Schema.Projection
import SchemaForm.Proofs.Schema.Retraced
import SchemaForm.Proofs.Schema.Spelling
import SchemaForm.Proofs.Schema.Weight
import SchemaForm.Proofs.Settings.Defaults
import SchemaForm.Proofs.Table
import SchemaForm.Proofs.TitleMap.Groups
import SchemaForm.Proofs.TitleMap.Values
import SchemaForm.Reference.Expansion
import SchemaForm.Reference.Graph
import SchemaForm.Reference.Resolved
import SchemaForm.Reference.Shortening
import SchemaForm.Schema.Combine
import SchemaForm.Schema.ControlType
import SchemaForm.Schema.Inference
import SchemaForm.Schema.Keyword
import SchemaForm.Schema.Lookup
import SchemaForm.Schema.Multiple
import SchemaForm.Schema.OneOf
import SchemaForm.Schema.Options
import SchemaForm.Schema.TypeName
import SchemaForm.Schema.Validators
import SchemaForm.Settings.Check
import SchemaForm.Settings.Load
import SchemaForm.Settings.Options
import SchemaForm.Settings.Path
import SchemaForm.Settings.Value
import SchemaForm.Table
import SchemaForm.Text.Blank
import SchemaForm.Text.LetterCase
import SchemaForm.Text.Pieces
import SchemaForm.Text.Title
import SchemaForm.TitleMap.Basic
import SchemaForm.TitleMap.Build
