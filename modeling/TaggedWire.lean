import TaggedWire.Schema.Lint
import TaggedWire.Codec.RoundTrip
import TaggedWire.Scan.Mapping
import TaggedWire.Emit.Rust
import TaggedWire.Emit.TypeScript
import TaggedWire.Config.Reader
import TaggedWire.Generator.Builder
import TaggedWire.Generator.Write
import TaggedWire.Starship.Protocol
import TaggedWire.Starship.Codec
import TaggedWire.Starship.Kit
import TaggedWire.CommandLine
import TaggedWire.Main
import TaggedWire.Proofs.Framing
import TaggedWire.Proofs.ScanOrder
import TaggedWire.Proofs.StarshipReading
import TaggedWire.Proofs.StarshipWriting
import TaggedWire.Proofs.StarshipArms
import TaggedWire.Proofs.Acceptance
import TaggedWire.Proofs.Evolution
import TaggedWire.Proofs.PlainPaths
import TaggedWire.Proofs.TreeChanges
import TaggedWire.Proofs.StagedWriting
import TaggedWire.Proofs.FailedRuns
import TaggedWire.Proofs.CleanSchemas
import TaggedWire.Proofs.SchemaFaults
import TaggedWire.Proofs.CategoryTables
import TaggedWire.Proofs.FailedRendering
import TaggedWire.Proofs.AtomicWriting
import TaggedWire.Proofs.BlockGrammar
import TaggedWire.Proofs.NameSegments
import TaggedWire.Proofs.EncodingFaults
import TaggedWire.Proofs.LaterMappings
import TaggedWire.Proofs.CursorDiscipline
import TaggedWire.Proofs.FirstOccurrence
import TaggedWire.Proofs.BlockParts
import TaggedWire.Proofs.CutSources
import TaggedWire.Proofs.InsertedComments
import TaggedWire.Proofs.WarningCounts
import TaggedWire.Proofs.TypeScriptText
import TaggedWire.Proofs.TypeScriptNumbers
import TaggedWire.Proofs.AppendedBytes
import TaggedWire.Proofs.RelativePaths
import TaggedWire.Proofs.TidyLines
import TaggedWire.Proofs.NestedText
import TaggedWire.Proofs.ConfigTexts
import TaggedWire.Proofs.WireSizes
import TaggedWire.Proofs.Lookups
