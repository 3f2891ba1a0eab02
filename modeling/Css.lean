import Css.Component.Basic
import Css.Component.Outline
import Css.Context
import Css.CounterStyle.Grammar
import Css.CounterStyle.Rule
import Css.CounterStyle.Value
import Css.Declaration.Basic
import Css.Declaration.Grammar
import Css.Declaration.VendorPrefix
import Css.Error
import Css.File.Encoding
import Css.File.Text
import Css.Keyframes.Basic
import Css.Keyframes.Grammar
import Css.Media.Feature
import Css.Media.Grammar
import Css.Media.Query
import Css.Media.Value
import Css.Number.Binary64
import Css.Number.Numeric
import Css.Number.Shortest
import Css.Parser.Basic
import Css.Parser.Expect
import Css.Parser.Run
import Css.Parser.Segment
import Css.Proofs.Component.Bare
import Css.Proofs.Component.Captured
import Css.Proofs.Component.Closed
import Css.Proofs.Component.Comments
import Css.Proofs.Component.Echoes
import Css.Proofs.Component.Flatten
import Css.Proofs.Component.Lexed
import Css.Proofs.Component.Nesting
import Css.Proofs.Component.Open
import Css.Proofs.Component.Spells
import Css.Proofs.Component.Tight
import Css.Proofs.CounterStyle.Canonical
import Css.Proofs.CounterStyle.Descriptors
import Css.Proofs.CounterStyle.Reads
import Css.Proofs.CounterStyle.Reports
import Css.Proofs.CounterStyle.RoundTrip
import Css.Proofs.CounterStyle.Written
import Css.Proofs.Declaration.Accepts
import Css.Proofs.Declaration.Custom
import Css.Proofs.Declaration.Forms
import Css.Proofs.Declaration.Items
import Css.Proofs.Declaration.Names
import Css.Proofs.Declaration.Order
import Css.Proofs.Declaration.Reads
import Css.Proofs.Declaration.Reports
import Css.Proofs.Declaration.RoundTrip
import Css.Proofs.Declaration.Single
import Css.Proofs.Declaration.Yields
import Css.Proofs.File.Declared
import Css.Proofs.Keyframes.Canonical
import Css.Proofs.Keyframes.RoundTrip
import Css.Proofs.Keyframes.Written
import Css.Proofs.Media.Accepts
import Css.Proofs.Media.Canonical
import Css.Proofs.Media.Parts
import Css.Proofs.Media.Reads
import Css.Proofs.Media.Reports
import Css.Proofs.Media.RoundTrip
import Css.Proofs.Media.Tests
import Css.Proofs.Media.Written
import Css.Proofs.Number.Order
import Css.Proofs.Number.Rounding
import Css.Proofs.Number.Shortest
import Css.Proofs.Parser.Clean
import Css.Proofs.Parser.Commas
import Css.Proofs.Parser.Contiguous
import Css.Proofs.Parser.ErrorTokens
import Css.Proofs.Parser.Exact
import Css.Proofs.Parser.Expect
import Css.Proofs.Parser.Extends
import Css.Proofs.Parser.Kept
import Css.Proofs.Parser.Leads
import Css.Proofs.Parser.Local
import Css.Proofs.Parser.Mirrors
import Css.Proofs.Parser.Outcome
import Css.Proofs.Parser.Reads
import Css.Proofs.Parser.Recursive
import Css.Proofs.Parser.Reports
import Css.Proofs.Parser.Rewritten
import Css.Proofs.Parser.Run
import Css.Proofs.Parser.Segments
import Css.Proofs.Parser.Significant
import Css.Proofs.Parser.Written
import Css.Proofs.Parser.Yields
import Css.Proofs.Rule.Canonical
import Css.Proofs.Rule.Comments
import Css.Proofs.Rule.Dispatch
import Css.Proofs.Rule.Extent
import Css.Proofs.Rule.Items
import Css.Proofs.Rule.Modes
import Css.Proofs.Rule.Namespace
import Css.Proofs.Rule.Nested
import Css.Proofs.Rule.Prefixes
import Css.Proofs.Rule.Preludes
import Css.Proofs.Rule.Reads
import Css.Proofs.Rule.Reports
import Css.Proofs.Rule.Selectors
import Css.Proofs.Rule.Written
import Css.Proofs.Stylesheet.Agreement
import Css.Proofs.Stylesheet.Binding
import Css.Proofs.Stylesheet.Composition
import Css.Proofs.Stylesheet.Edit
import Css.Proofs.Stylesheet.Faults
import Css.Proofs.Stylesheet.Modes
import Css.Proofs.Stylesheet.Namespaces
import Css.Proofs.Stylesheet.Prologue
import Css.Proofs.Stylesheet.RoundTrip
import Css.Proofs.Stylesheet.WellFormed
import Css.Proofs.Stylesheet.Written
import Css.Proofs.Supports.Accepts
import Css.Proofs.Supports.Alike
import Css.Proofs.Supports.Canonical
import Css.Proofs.Supports.Forms
import Css.Proofs.Supports.RoundTrip
import Css.Proofs.Supports.Terms
import Css.Proofs.Supports.Written
import Css.Proofs.Text.LowerCase
import Css.Proofs.Token.Alone
import Css.Proofs.Token.Canonical
import Css.Proofs.Token.CutOff
import Css.Proofs.Token.Digits
import Css.Proofs.Token.Excerpt
import Css.Proofs.Token.First
import Css.Proofs.Token.Follows
import Css.Proofs.Token.InFront
import Css.Proofs.Token.Integer
import Css.Proofs.Token.Longest
import Css.Proofs.Token.Normal
import Css.Proofs.Token.Numeral
import Css.Proofs.Token.Parts
import Css.Proofs.Token.ReadBack
import Css.Proofs.Token.Readers
import Css.Proofs.Token.Rows
import Css.Proofs.Token.Scanned
import Css.Proofs.Token.Sound
import Css.Proofs.Token.Tiling
import Css.Proofs.Token.Unescaped
import Css.Proofs.Token.Writing
import Css.Proofs.Vocabulary
import Css.Rule.Basic
import Css.Rule.Grammar
import Css.Rule.Namespace
import Css.Rule.RuleList
import Css.Rule.Selector
import Css.Stylesheet.Basic
import Css.Stylesheet.Edit
import Css.Supports.Condition
import Css.Supports.Grammar
import Css.Text.Basic
import Css.Text.LowerCase
import Css.Token.Basic
import Css.Token.Character
import Css.Token.Escape
import Css.Token.Literal
import Css.Token.Numeral
import Css.Token.Position
import Css.Token.Scan
import Css.Token.Source
import Css.Vocabulary
