import CodeCensus.Main
import CodeCensus.Proofs.Document.Reading
import CodeCensus.Proofs.Remote.Agreement
import CodeCensus.Proofs.SourceFile.Extraction
import CodeCensus.Proofs.Survey.Outcome
import CodeCensus.Proofs.Document.Json
import CodeCensus.Proofs.Document.TomlScalar
import CodeCensus.Proofs.Document.Toml
import CodeCensus.Proofs.SourceFile.Manifest
import CodeCensus.Proofs.Files.Following
import CodeCensus.Proofs.Files.Access
import CodeCensus.Proofs.Files.Items
import CodeCensus.Proofs.Files.Listing
import CodeCensus.Proofs.Files.Readback
import CodeCensus.Proofs.Language.Growth
import CodeCensus.Proofs.Survey.Barrier
import CodeCensus.Proofs.Language.Registry
import CodeCensus.Proofs.SourceFile.Location
import CodeCensus.Proofs.Census.Separators
import CodeCensus.Proofs.CommandLine.Exclusion
import CodeCensus.Proofs.Configuration
import CodeCensus.Proofs.Survey.Separators
import CodeCensus.Proofs.Declaration.Parameters
import CodeCensus.Proofs.Language.Ternary
import CodeCensus.Proofs.Journal.Handlers
import CodeCensus.Proofs.Record.Readback
import CodeCensus.Proofs.Declaration.Outline
import CodeCensus.Proofs.Declaration.Bindings
import CodeCensus.Proofs.Declaration.ImportBlocks
import CodeCensus.Proofs.Declaration.Dialects
import CodeCensus.Proofs.Declaration.FromImports
import CodeCensus.Proofs.SourceFile.LineEnds
import CodeCensus.Proofs.Census.Selection
import CodeCensus.Proofs.Census.Architecture
import CodeCensus.Proofs.Declaration.Exports
import CodeCensus.Proofs.Declaration.ScriptImports
import CodeCensus.Proofs.Declaration.UseDeclarations
import CodeCensus.Proofs.Census.Framework
import CodeCensus.Proofs.Manifest.Requirements
import CodeCensus.Proofs.Manifest.Packages
import CodeCensus.Proofs.Manifest.Shapes
import CodeCensus.Proofs.Settings
import CodeCensus.Proofs.Remote.Identifiers
import CodeCensus.Proofs.Census.Merging
import CodeCensus.Proofs.Census.Coverage
import CodeCensus.Proofs.Declaration.LineNumbers
