import LinkedSchema.Binary64.Basic
import LinkedSchema.Binary64.Rounding
import LinkedSchema.Binary64.Shortest
import LinkedSchema.Cid
import LinkedSchema.Compilation
import LinkedSchema.DagJson
import LinkedSchema.Decimal
import LinkedSchema.Encoding.Base64
import LinkedSchema.Encoding.BitGroups
import LinkedSchema.Encoding.Hex
import LinkedSchema.Encoding.Multibase
import LinkedSchema.Encoding.Radix
import LinkedSchema.Encoding.Varint
import LinkedSchema.Json.Basic
import LinkedSchema.Json.Fault
import LinkedSchema.Json.Printer
import LinkedSchema.Json.Reading
import LinkedSchema.Json.Shape
import LinkedSchema.Json.Token
import LinkedSchema.Proofs.Compile.Admissible
import LinkedSchema.Proofs.Compile.Advance
import LinkedSchema.Proofs.Compile.Apart
import LinkedSchema.Proofs.Compile.Built
import LinkedSchema.Proofs.Compile.Calls
import LinkedSchema.Proofs.Compile.Closed
import LinkedSchema.Proofs.Compile.Failures
import LinkedSchema.Proofs.Compile.Faithful
import LinkedSchema.Proofs.Compile.Filled
import LinkedSchema.Proofs.Compile.Growth
import LinkedSchema.Proofs.Compile.InForce
import LinkedSchema.Proofs.Compile.Moves
import LinkedSchema.Proofs.Compile.Names
import LinkedSchema.Proofs.Compile.Parts
import LinkedSchema.Proofs.Compile.Places
import LinkedSchema.Proofs.Compile.Provenance
import LinkedSchema.Proofs.Compile.Reordered
import LinkedSchema.Proofs.Compile.Runs
import LinkedSchema.Proofs.Compile.Safe
import LinkedSchema.Proofs.Compile.SameRun
import LinkedSchema.Proofs.Compile.Simulation
import LinkedSchema.Proofs.Compile.Slots
import LinkedSchema.Proofs.Compile.Steps
import LinkedSchema.Proofs.Compile.Success
import LinkedSchema.Proofs.DagJson.Decoded
import LinkedSchema.Proofs.DagJson.Domain
import LinkedSchema.Proofs.DagJson.Injective
import LinkedSchema.Proofs.DagJson.Rereading
import LinkedSchema.Proofs.Encoding.Base64
import LinkedSchema.Proofs.Encoding.Digits
import LinkedSchema.Proofs.Encoding.Groups
import LinkedSchema.Proofs.Encoding.Identifiers
import LinkedSchema.Proofs.Encoding.TextOrder
import LinkedSchema.Proofs.Implicit.Insertion
import LinkedSchema.Proofs.Implicit.Omission
import LinkedSchema.Proofs.Json.Agreement
import LinkedSchema.Proofs.Json.Bounds
import LinkedSchema.Proofs.Json.Floats
import LinkedSchema.Proofs.Json.Injective
import LinkedSchema.Proofs.Json.Merging
import LinkedSchema.Proofs.Json.Numbers
import LinkedSchema.Proofs.Json.Shapes
import LinkedSchema.Proofs.Json.Strings
import LinkedSchema.Proofs.Json.Tokens
import LinkedSchema.Proofs.Json.Trees
import LinkedSchema.Proofs.Lists
import LinkedSchema.Proofs.Meaning.Correctness
import LinkedSchema.Proofs.Meaning.Definitions
import LinkedSchema.Proofs.Meaning.Interpreter
import LinkedSchema.Proofs.Meaning.Literals
import LinkedSchema.Proofs.Meaning.Reordering
import LinkedSchema.Proofs.Meaning.Selecting
import LinkedSchema.Proofs.Numbers.Decimals
import LinkedSchema.Proofs.Numbers.Finite
import LinkedSchema.Proofs.Numbers.Inside
import LinkedSchema.Proofs.Numbers.Passing
import LinkedSchema.Proofs.Numbers.Rounding
import LinkedSchema.Proofs.Order.Acceptance
import LinkedSchema.Proofs.Order.Accounts
import LinkedSchema.Proofs.Order.Budget
import LinkedSchema.Proofs.Order.Circles
import LinkedSchema.Proofs.Order.Completion
import LinkedSchema.Proofs.Order.Copies
import LinkedSchema.Proofs.Order.Declaration
import LinkedSchema.Proofs.Order.Declared
import LinkedSchema.Proofs.Order.Ends
import LinkedSchema.Proofs.Order.Finished
import LinkedSchema.Proofs.Order.Orders
import LinkedSchema.Proofs.Order.Progress
import LinkedSchema.Proofs.Order.Reachable
import LinkedSchema.Proofs.Order.Ready
import LinkedSchema.Proofs.Order.References
import LinkedSchema.Proofs.Order.Reordering
import LinkedSchema.Proofs.Order.Resolution
import LinkedSchema.Proofs.Order.Room
import LinkedSchema.Proofs.Order.Termination
import LinkedSchema.Proofs.Outcome
import LinkedSchema.Proofs.Plain.Agreement
import LinkedSchema.Proofs.Plain.Children
import LinkedSchema.Proofs.Plain.Collection
import LinkedSchema.Proofs.Plain.CopyOnWrite
import LinkedSchema.Proofs.Plain.EmptySlots
import LinkedSchema.Proofs.Plain.Ending
import LinkedSchema.Proofs.Plain.Node
import LinkedSchema.Proofs.Plain.Parts
import LinkedSchema.Proofs.Plain.Permuting
import LinkedSchema.Proofs.Plain.Selects
import LinkedSchema.Proofs.Plain.Steps
import LinkedSchema.Proofs.Plain.Stops
import LinkedSchema.Proofs.Plain.StructLayout
import LinkedSchema.Proofs.Plain.StructReading
import LinkedSchema.Proofs.Plain.StructWriting
import LinkedSchema.Proofs.Plain.Unchanged
import LinkedSchema.Proofs.RoundTrip.Entries
import LinkedSchema.Proofs.RoundTrip.Exact
import LinkedSchema.Proofs.RoundTrip.Fields
import LinkedSchema.Proofs.RoundTrip.Likeness
import LinkedSchema.Proofs.RoundTrip.Members
import LinkedSchema.Proofs.RoundTrip.Pairs
import LinkedSchema.Proofs.RoundTrip.Rereading
import LinkedSchema.Proofs.RoundTrip.Rewriting
import LinkedSchema.Proofs.RoundTrip.Same
import LinkedSchema.Proofs.RoundTrip.Scalars
import LinkedSchema.Proofs.RoundTrip.Schema
import LinkedSchema.Proofs.RoundTrip.Selecting
import LinkedSchema.Proofs.RoundTrip.Undoing
import LinkedSchema.Proofs.RoundTrip.Unions
import LinkedSchema.Proofs.RoundTrip.Untransformed
import LinkedSchema.Proofs.Schema.Loading
import LinkedSchema.Proofs.Schema.Rereading
import LinkedSchema.Proofs.Typing.AnyValue
import LinkedSchema.Proofs.Typing.Inhabits
import LinkedSchema.Proofs.Typing.Reading
import LinkedSchema.Schema.Basic
import LinkedSchema.Schema.Error
import LinkedSchema.Schema.Implicit
import LinkedSchema.Schema.Printer
import LinkedSchema.Schema.Shape
import LinkedSchema.Schema.Text
import LinkedSchema.SortedMap
import LinkedSchema.Table
import LinkedSchema.Text.Quoted
import LinkedSchema.Text.Unprintable
import LinkedSchema.Text.Utf8
import LinkedSchema.Transform.Collection
import LinkedSchema.Transform.Conversion
import LinkedSchema.Transform.Node
import LinkedSchema.Transform.Registry
import LinkedSchema.Transform.Selection
import LinkedSchema.Value.Basic
import LinkedSchema.Value.Conversion
import LinkedSchema.Value.Kind
import LinkedSchema.Value.Lookup
