import MakeGraph.Distinct
import MakeGraph.Environment.Basic
import MakeGraph.Environment.InstallDirs
import MakeGraph.Environment.Saved
import MakeGraph.FileTree.Basic
import MakeGraph.Generate.Binary
import MakeGraph.Generate.Installation
import MakeGraph.Generate.Object
import MakeGraph.Generate.Products
import MakeGraph.Generate.TestSuite
import MakeGraph.Generate.ToolVariables
import MakeGraph.Graph.Basic
import MakeGraph.Graph.Decode
import MakeGraph.Graph.Encode
import MakeGraph.Invocation.Basic
import MakeGraph.Invocation.Parse
import MakeGraph.Invocation.Word
import MakeGraph.Json.Basic
import MakeGraph.Json.Decoder
import MakeGraph.Json.Document
import MakeGraph.Json.Mismatch
import MakeGraph.Json.Numeral
import MakeGraph.Json.Printer
import MakeGraph.Json.Record
import MakeGraph.Json.Token
import MakeGraph.Main
import MakeGraph.Make.Context
import MakeGraph.Make.Error
import MakeGraph.Make.Layout
import MakeGraph.Make.Model
import MakeGraph.Make.Piece
import MakeGraph.Make.Symbol
import MakeGraph.Number.Binary64
import MakeGraph.Number.Shortest
import MakeGraph.Path.Basic
import MakeGraph.Path.Json
import MakeGraph.Path.Rooted
import MakeGraph.Proofs.Environment.Loaded
import MakeGraph.Proofs.Environment.Saved
import MakeGraph.Proofs.FileTree.Changes
import MakeGraph.Proofs.FileTree.Routes
import MakeGraph.Proofs.FileTree.Steps
import MakeGraph.Proofs.Generate.Acceptance
import MakeGraph.Proofs.Generate.Closed
import MakeGraph.Proofs.Generate.ClosedForm
import MakeGraph.Proofs.Generate.CommandLines
import MakeGraph.Proofs.Generate.CompileCommand
import MakeGraph.Proofs.Generate.CompileFlags
import MakeGraph.Proofs.Generate.Contribution
import MakeGraph.Proofs.Generate.DeclarationOrder
import MakeGraph.Proofs.Generate.Declarations
import MakeGraph.Proofs.Generate.DriverDeclarations
import MakeGraph.Proofs.Generate.EdgeOrder
import MakeGraph.Proofs.Generate.EdgeRules
import MakeGraph.Proofs.Generate.FlagsScope
import MakeGraph.Proofs.Generate.Includes
import MakeGraph.Proofs.Generate.LibrarySearch
import MakeGraph.Proofs.Generate.LinkCommand
import MakeGraph.Proofs.Generate.LinkFlags
import MakeGraph.Proofs.Generate.LinkPlace
import MakeGraph.Proofs.Generate.LinkVariables
import MakeGraph.Proofs.Generate.LinkWords
import MakeGraph.Proofs.Generate.Outputs
import MakeGraph.Proofs.Generate.Phases
import MakeGraph.Proofs.Generate.Programs
import MakeGraph.Proofs.Generate.PromisedOutputs
import MakeGraph.Proofs.Generate.RootedPaths
import MakeGraph.Proofs.Generate.RuleUses
import MakeGraph.Proofs.Generate.Settled
import MakeGraph.Proofs.Generate.SettledParts
import MakeGraph.Proofs.Generate.SharedRecipes
import MakeGraph.Proofs.Generate.SharedVariables
import MakeGraph.Proofs.Generate.TestCommand
import MakeGraph.Proofs.Generate.TestDrivers
import MakeGraph.Proofs.Generate.WordLists
import MakeGraph.Proofs.Graph.RoundTrip
import MakeGraph.Proofs.Json.Described
import MakeGraph.Proofs.Json.Faithful
import MakeGraph.Proofs.Json.RoundTrip
import MakeGraph.Proofs.Json.Tokens
import MakeGraph.Proofs.Json.Written
import MakeGraph.Proofs.Make.Appends
import MakeGraph.Proofs.Make.ArgumentText
import MakeGraph.Proofs.Make.ArgumentWords
import MakeGraph.Proofs.Make.Assigned
import MakeGraph.Proofs.Make.AssignedWords
import MakeGraph.Proofs.Make.Atomic
import MakeGraph.Proofs.Make.CallArguments
import MakeGraph.Proofs.Make.Changes
import MakeGraph.Proofs.Make.Consistent
import MakeGraph.Proofs.Make.CutTexts
import MakeGraph.Proofs.Make.Escaping
import MakeGraph.Proofs.Make.Expansion
import MakeGraph.Proofs.Make.Header
import MakeGraph.Proofs.Make.HeaderDeps
import MakeGraph.Proofs.Make.HeaderTargets
import MakeGraph.Proofs.Make.Held
import MakeGraph.Proofs.Make.HeldWords
import MakeGraph.Proofs.Make.Lookup
import MakeGraph.Proofs.Make.Names
import MakeGraph.Proofs.Make.Patterns
import MakeGraph.Proofs.Make.QuotedValues
import MakeGraph.Proofs.Make.Sections
import MakeGraph.Proofs.Make.Uses
import MakeGraph.Proofs.Outcome
import MakeGraph.Proofs.Path.Absolute
import MakeGraph.Proofs.Path.Detours
import MakeGraph.Proofs.Path.Moves
import MakeGraph.Proofs.Path.Spelling
import MakeGraph.Proofs.Path.Ways
import MakeGraph.Proofs.Run.Effects
import MakeGraph.Proofs.Run.Failure
import MakeGraph.Proofs.Run.Planned
import MakeGraph.Proofs.Run.Regenerate
import MakeGraph.Proofs.Shell.BareWords
import MakeGraph.Proofs.Shell.Reading
import MakeGraph.Proofs.Table
import MakeGraph.Proofs.Text.Affix
import MakeGraph.Proofs.Text.Split
import MakeGraph.Proofs.Tool.Linker
import MakeGraph.Proofs.Tool.RunPath
import MakeGraph.Proofs.Tool.RunPathFlag
import MakeGraph.Proofs.Version
import MakeGraph.Run.Basic
import MakeGraph.Run.Error
import MakeGraph.Run.Plan
import MakeGraph.Shell.Quote
import MakeGraph.Shell.Words
import MakeGraph.Table
import MakeGraph.Text.Affix
import MakeGraph.Text.Blank
import MakeGraph.Text.Hidden
import MakeGraph.Text.Quoted
import MakeGraph.Tool.Compiler
import MakeGraph.Tool.Config
import MakeGraph.Tool.Linker
import MakeGraph.Tool.Platform
import MakeGraph.Version
