import ImportAlias.Alias
import ImportAlias.CommandLine.Basic
import ImportAlias.CommandLine.Parse
import ImportAlias.CommandLine.Program
import ImportAlias.Discovery.Basic
import ImportAlias.Discovery.Glob
import ImportAlias.Discovery.Rules
import ImportAlias.Edit
import ImportAlias.Error
import ImportAlias.FileTree
import ImportAlias.Grammar.Basic
import ImportAlias.Grammar.Expression
import ImportAlias.Grammar.Markup
import ImportAlias.Grammar.Program
import ImportAlias.Grammar.Rule
import ImportAlias.Grammar.Statement
import ImportAlias.Grammar.Token
import ImportAlias.Grammar.Type
import ImportAlias.Header.Basic
import ImportAlias.Header.Line
import ImportAlias.Json.Basic
import ImportAlias.Json.Lexer
import ImportAlias.Json.Parser
import ImportAlias.Json.Printer
import ImportAlias.Main
import ImportAlias.Manifest.Basic
import ImportAlias.Manifest.Clean
import ImportAlias.Module.Alias
import ImportAlias.Module.Basic
import ImportAlias.Module.Literal
import ImportAlias.Module.Lower
import ImportAlias.Module.Parse
import ImportAlias.Module.Render
import ImportAlias.Options.Basic
import ImportAlias.Options.File
import ImportAlias.Parsers.Basic
import ImportAlias.Parsers.Cache
import ImportAlias.Parsers.Chain
import ImportAlias.Path
import ImportAlias.Project
import ImportAlias.Report
import ImportAlias.Resolution
import ImportAlias.Run
import ImportAlias.Source
import ImportAlias.Specifier
import ImportAlias.Text.Basic
import ImportAlias.Text.Word
import ImportAlias.Toml.Basic
import ImportAlias.Toml.Document
import ImportAlias.Toml.Scalar
import ImportAlias.Proofs.Header.Reader
import ImportAlias.Proofs.Header.Slot
import ImportAlias.Proofs.Header.Forms
import ImportAlias.Proofs.Header.Scan
import ImportAlias.Proofs.Header.Items
import ImportAlias.Proofs.Header.Acceptance
import ImportAlias.Proofs.Header.Rendering
import ImportAlias.Proofs.Header.Changes
import ImportAlias.Proofs.Edit
import ImportAlias.Proofs.Idempotence
import ImportAlias.Proofs.Header.Splice
import ImportAlias.Proofs.Path.Normal
import ImportAlias.Proofs.FileTree
import ImportAlias.Proofs.Path.Parent
import ImportAlias.Proofs.Resolution
import ImportAlias.Proofs.Fallback
import ImportAlias.Proofs.Header.Ordinary
import ImportAlias.Proofs.Header.Containment
import ImportAlias.Proofs.Grammar.Strings
import ImportAlias.Proofs.Grammar.Quotes
import ImportAlias.Proofs.Module.Literals
import ImportAlias.Proofs.Module.Lowering
import ImportAlias.Proofs.Module.Changes
import ImportAlias.Proofs.Grammar.Concrete
import ImportAlias.Proofs.Discovery
import ImportAlias.Proofs.Run.Rewriting
import ImportAlias.Proofs.Run.Modes
import ImportAlias.Proofs.Run.Inputs
import ImportAlias.Proofs.Run.Convergence
import ImportAlias.Proofs.Grammar.Openings
import ImportAlias.Proofs.Header.Layout
import ImportAlias.Proofs.Module.Mentions
import ImportAlias.Proofs.Header.Mentions
import ImportAlias.Proofs.Grammar.Mentions
import ImportAlias.Proofs.Module.Imports
import ImportAlias.Proofs.Module.Pieces
import ImportAlias.Proofs.Json.Lexing
import ImportAlias.Proofs.Json.Parsing
import ImportAlias.Proofs.Json.Spacing
import ImportAlias.Proofs.Manifest.Decoration
import ImportAlias.Proofs.Module.Agreement
import ImportAlias.Proofs.Parsers.Composition
import ImportAlias.Proofs.Parsers.Interleaving
import ImportAlias.Proofs.Mapping.Matching
import ImportAlias.Proofs.Mapping.Shape
import ImportAlias.Proofs.Path.Ancestor
import ImportAlias.Proofs.Descent
import ImportAlias.Proofs.Path.Segments
import ImportAlias.Proofs.Mapping.Expansion
import ImportAlias.Proofs.Module.Printing
import ImportAlias.Proofs.Module.Addresses
import ImportAlias.Proofs.Consultation
import ImportAlias.Proofs.Header.Kinds
import ImportAlias.Proofs.Quoting
import ImportAlias.Proofs.Header.Returns
import ImportAlias.Proofs.Header.LineEnds
import ImportAlias.Proofs.Header.Reports
import ImportAlias.Proofs.Path.Order
import ImportAlias.Proofs.Run.Arguments
import ImportAlias.Proofs.Run.TextStrategy
import ImportAlias.Proofs.Header.Body
import ImportAlias.Proofs.Module.Escaping
import ImportAlias.Proofs.Selection
import ImportAlias.Proofs.Manifest.Cleaning
import ImportAlias.Proofs.Path.Canonical
import ImportAlias.Proofs.Module.Visiting
import ImportAlias.Proofs.Module.Words
import ImportAlias.Proofs.Module.Specifiers
import ImportAlias.Proofs.Climb
