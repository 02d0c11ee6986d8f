import TypeScriptEngine.Token.Scan
import TypeScriptEngine.Token.Statement
import TypeScriptEngine.Reference
import TypeScriptEngine.Path.Normal
import TypeScriptEngine.Path.Set
import TypeScriptEngine.Options.Loader
import TypeScriptEngine.Check.Brackets
import TypeScriptEngine.Check.Erasability
import TypeScriptEngine.Check.Scopes
import TypeScriptEngine.Emit.Types
import TypeScriptEngine.Emit.Program
import TypeScriptEngine.Json.Printer
import TypeScriptEngine.Json.Basic
import TypeScriptEngine.Json.Relaxed
import TypeScriptEngine.SourceMap.Basic
import TypeScriptEngine.Graph.Cycle
import TypeScriptEngine.Service.Builtin
import TypeScriptEngine.Options.Record
import TypeScriptEngine.Glob.Match
import TypeScriptEngine.Diagnostic.Report
import TypeScriptEngine.Disk.Change
import TypeScriptEngine.Path.Basic
import TypeScriptEngine.Engine.Registry
import TypeScriptEngine.CommandLine.Run
import TypeScriptEngine.Main
import TypeScriptEngine.Diagnostic.Excerpt
import TypeScriptEngine.Config.Sources
import TypeScriptEngine.Resolution.Module
import TypeScriptEngine.Proofs.Path.Set
import TypeScriptEngine.Proofs.Path.Normal
import TypeScriptEngine.Proofs.Graph.Views
import TypeScriptEngine.Proofs.FileStore
import TypeScriptEngine.Proofs.Workspace.Edges
import TypeScriptEngine.Proofs.Workspace.Level
import TypeScriptEngine.Proofs.Workspace.RollBack
import TypeScriptEngine.Proofs.Disk.Spelling
import TypeScriptEngine.Proofs.Workspace.Loading
import TypeScriptEngine.Proofs.Workspace.Operations
import TypeScriptEngine.Proofs.Workspace.Step
import TypeScriptEngine.Proofs.Engine.Reachable
import TypeScriptEngine.Proofs.Engine.Tracking
import TypeScriptEngine.Proofs.Engine.Answers
import TypeScriptEngine.Proofs.Text.Split
import TypeScriptEngine.Proofs.Graph.Closure
import TypeScriptEngine.Proofs.Graph.Reaching
import TypeScriptEngine.Proofs.Service.Memory
import TypeScriptEngine.Proofs.Service.Locality
import TypeScriptEngine.Proofs.Workspace.Change
import TypeScriptEngine.Proofs.Workspace.Renewal
import TypeScriptEngine.Proofs.Engine.Invalidation
import TypeScriptEngine.Proofs.Engine.Rescan
import TypeScriptEngine.Proofs.SourceMap.Decode
import TypeScriptEngine.Proofs.Emit.Reduction
import TypeScriptEngine.Proofs.Token.Layout
import TypeScriptEngine.Proofs.Emit.Erasing
import TypeScriptEngine.Proofs.Emit.Walk
import TypeScriptEngine.Proofs.Emit.Copied
import TypeScriptEngine.Proofs.Emit.Lines
import TypeScriptEngine.Proofs.Token.Tiling
import TypeScriptEngine.Proofs.Token.Word
import TypeScriptEngine.Proofs.Token.Spread
import TypeScriptEngine.Proofs.Token.Balance
import TypeScriptEngine.Proofs.Token.TypeExtent
import TypeScriptEngine.Proofs.Emit.Cut
import TypeScriptEngine.Proofs.Grammar.Type
import TypeScriptEngine.Proofs.Grammar.Program
import TypeScriptEngine.Proofs.Grammar.Erasure
import TypeScriptEngine.Proofs.Emit.Pass
import TypeScriptEngine.Proofs.Emit.Fit
import TypeScriptEngine.Proofs.Grammar.Settled
import TypeScriptEngine.Proofs.Graph.Refinement
import TypeScriptEngine.Proofs.Engine.SourceBuild
import TypeScriptEngine.Proofs.Engine.Isolation
import TypeScriptEngine.Proofs.Grammar.Expression
import TypeScriptEngine.Proofs.Grammar.Reading
import TypeScriptEngine.Proofs.Grammar.Placement
import TypeScriptEngine.Proofs.Grammar.Plain
import TypeScriptEngine.Proofs.Checked.Basic
import TypeScriptEngine.Proofs.Checked.Navigation
import TypeScriptEngine.Proofs.Checked.TypeExtent
import TypeScriptEngine.Proofs.Checked.Scanning
import TypeScriptEngine.Proofs.Checked.References
import TypeScriptEngine.Proofs.Checked.Erasability
import TypeScriptEngine.Proofs.Checked.Declarations
import TypeScriptEngine.Proofs.Checked.Proposals
import TypeScriptEngine.Proofs.Checked.Visits
import TypeScriptEngine.Proofs.Checked.Emission
import TypeScriptEngine.Proofs.Checked.Compilation
import TypeScriptEngine.Proofs.Json.Printed
import TypeScriptEngine.Proofs.SourceMap.Printed
import TypeScriptEngine.Proofs.Config.Chain
import TypeScriptEngine.Proofs.Config.Layers
import TypeScriptEngine.Proofs.Engine.Code
import TypeScriptEngine.Proofs.Engine.Configuration
import TypeScriptEngine.Proofs.Token.Rendered
import TypeScriptEngine.Proofs.Grammar.Module
import TypeScriptEngine.Proofs.Reference.Statements
import TypeScriptEngine.Proofs.CommonJs.Code
import TypeScriptEngine.Proofs.CommonJs.Declaration
import TypeScriptEngine.Proofs.CommonJs.Extent
import TypeScriptEngine.Proofs.CommonJs.Layout
import TypeScriptEngine.Proofs.CommonJs.Program
import TypeScriptEngine.Proofs.Emit.Insertion
import TypeScriptEngine.Proofs.Emit.Exports
import TypeScriptEngine.Proofs.Emit.Assignment
import TypeScriptEngine.Proofs.Emit.Declared
import TypeScriptEngine.Proofs.Emit.MemberWord
import TypeScriptEngine.Proofs.Emit.Temporary
import TypeScriptEngine.Proofs.Graph.Transitive
import TypeScriptEngine.Proofs.Seam.Recognition
import TypeScriptEngine.Proofs.CommandLine.Order
import TypeScriptEngine.Proofs.Graph.Descent
import TypeScriptEngine.Proofs.Graph.Cycle
import TypeScriptEngine.Proofs.Token.Nesting
import TypeScriptEngine.Proofs.Token.Division
import TypeScriptEngine.Proofs.Token.AngleBrackets
import TypeScriptEngine.Proofs.Reference.Quotes
import TypeScriptEngine.Proofs.Check.Brackets
import TypeScriptEngine.Proofs.Check.Scopes
import TypeScriptEngine.Proofs.SourceMap.Numbers
import TypeScriptEngine.Proofs.Path.Canonical
import TypeScriptEngine.Proofs.Path.Relative
import TypeScriptEngine.Proofs.SourceMap.Source
import TypeScriptEngine.Proofs.Text.Position
import TypeScriptEngine.Proofs.Path.Extension
import TypeScriptEngine.Proofs.Options.Output
import TypeScriptEngine.Proofs.Glob.Directory
import TypeScriptEngine.Proofs.Config.Sources
import TypeScriptEngine.Proofs.Disk.Written
import TypeScriptEngine.Proofs.Resolution.Probe
import TypeScriptEngine.Proofs.Resolution.InPlace
import TypeScriptEngine.Proofs.CommandLine.InPlace
import TypeScriptEngine.Proofs.Engine.Referenced
import TypeScriptEngine.Proofs.Grammar.TypeRules
import TypeScriptEngine.Proofs.Workspace.Targets
import TypeScriptEngine.Proofs.CommandLine.Spelling
