import Wireform.Assoc
import Wireform.Binary64.Arithmetic
import Wireform.Binary64.Single
import Wireform.Decimal.Reading
import Wireform.Decimal.Style
import Wireform.Text.Blank
import Wireform.Text.Quoted
import Wireform.Text.Utf16
import Wireform.Text.Utf8
import Wireform.Json.Equality
import Wireform.Json.Printer
import Wireform.Json.Reader
import Wireform.Size
import Wireform.Wire.Cursor
import Wireform.Expression.Substitution
import Wireform.CompileError.Message
import Wireform.Identifier.Parser
import Wireform.Definition.Loading
import Wireform.Options
import Wireform.Primitive.Codec
import Wireform.Session.Resolution
import Wireform.Schema
import Wireform.CommandLine.Folder
import Wireform.Main
import Wireform.Proofs.Schema.RoundTrip
import Wireform.Proofs.Schema.Decoding
import Wireform.Proofs.Schema.Compilation
import Wireform.Proofs.Schema.Permanence
import Wireform.Proofs.Identifier.Acceptance
import Wireform.Proofs.Schema.Recursion
import Wireform.Proofs.Schema.Scoping
import Wireform.Proofs.Codec.Matching
import Wireform.Proofs.Expression.Folding
import Wireform.Proofs.Meaning.Blocks
import Wireform.Proofs.Meaning.Lookup
import Wireform.Proofs.Meaning.Resolution
import Wireform.Proofs.Layout.Synonyms
import Wireform.Proofs.Session.Variants
import Wireform.Proofs.Session.Provenance
import Wireform.Proofs.Schema.Dispatch
import Wireform.Proofs.Codec.Selection
import Wireform.Proofs.Schema.Selection
import Wireform.Proofs.Expression.Avoidance
import Wireform.Proofs.Session.Twins
import Wireform.Proofs.Session.TwinBlocks
import Wireform.Proofs.Session.TwinResolution
import Wireform.Proofs.Schema.Substitution
import Wireform.Proofs.Decimal.Shortest
import Wireform.Proofs.Json.Numbers
import Wireform.Proofs.Json.RoundTrip
import Wireform.Proofs.Definition.RoundTrip
import Wireform.Proofs.Meaning.Compilation
import Wireform.Proofs.Meaning.Matching
import Wireform.Proofs.Meaning.Acceptance
import Wireform.Proofs.Codec.Room
import Wireform.Proofs.Binary64.Whole
import Wireform.Proofs.Primitive.Integers
import Wireform.Proofs.Session.Format
import Wireform.Proofs.Schema.Constants
import Wireform.Proofs.Meaning.Order
import Wireform.Proofs.Codec.Frame
import Wireform.Proofs.Schema.Lists
import Wireform.Proofs.Schema.Dates
import Wireform.Proofs.Schema.Rearrangement
import Wireform.Proofs.Schema.DenseArrays
import Wireform.Proofs.Expression.Height
import Wireform.Proofs.Expression.Infix
import Wireform.Proofs.Identifier.Spacing
import Wireform.Proofs.Identifier.Steps
import Wireform.Proofs.Identifier.Precedence
import Wireform.Proofs.Identifier.Nesting
import Wireform.Proofs.Identifier.Calls
import Wireform.Proofs.Identifier.Keys
import Wireform.Proofs.Session.Instances
import Wireform.Proofs.Schema.Instances
import Wireform.Proofs.Schema.Culprit
import Wireform.Proofs.Wire.PrefixCode
import Wireform.Proofs.Json.Agreement
