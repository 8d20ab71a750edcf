import FeatureGate.Text.Bytes
import FeatureGate.Text.Utf8
import FeatureGate.Text.Printable
import FeatureGate.Text.Quoted
import FeatureGate.Text.Base64
import FeatureGate.Text.Csv
import FeatureGate.Source.Position
import FeatureGate.Source.Token
import FeatureGate.Source.SyntaxError
import FeatureGate.Attribute
import FeatureGate.Grammar.Cursor
import FeatureGate.Grammar.Items
import FeatureGate.FeatureSet
import FeatureGate.CompileOptions
import FeatureGate.Store
import FeatureGate.Evaluation
import FeatureGate.Lint
import FeatureGate.FeatureGraph
import FeatureGate.Plan
import FeatureGate.Log
import FeatureGate.Json.Value
import FeatureGate.Json.Text
import FeatureGate.Json.Path
import FeatureGate.Json.Query
import FeatureGate.Json.Printer
import FeatureGate.Yaml.Characters
import FeatureGate.Yaml.Token
import FeatureGate.Yaml.Scalars
import FeatureGate.Yaml.TokenStream
import FeatureGate.Yaml.Timestamp
import FeatureGate.Yaml.Tag
import FeatureGate.Yaml.Node
import FeatureGate.Path
import FeatureGate.Files
import FeatureGate.Manifest
import FeatureGate.Config
import FeatureGate.Config.OfJson
import FeatureGate.Config.OfYaml
import FeatureGate.Config.Builtin
import FeatureGate.Config.Load
import FeatureGate.Watcher
import FeatureGate.CommandLine.Flag
import FeatureGate.CommandLine.Command
import FeatureGate.CommandLine.Options
import FeatureGate.CommandLine.Run
import FeatureGate.Main
import FeatureGate.Proofs.Utf8
import FeatureGate.Proofs.Quoting
import FeatureGate.Proofs.Derivation
import FeatureGate.Proofs.Acceptance
import FeatureGate.Proofs.RoundTrip
import FeatureGate.Proofs.Dependence
import FeatureGate.Proofs.Schedule
import FeatureGate.Proofs.AllOrNothing
import FeatureGate.Proofs.Faults
import FeatureGate.Proofs.LintGate
import FeatureGate.Proofs.LintMeaning
import FeatureGate.Proofs.ReadOnce
import FeatureGate.Proofs.SharedStore
import FeatureGate.Proofs.Publication
import FeatureGate.Proofs.Watching
import FeatureGate.Proofs.Paths
import FeatureGate.Proofs.Rechecking
import FeatureGate.Proofs.StringEnds
import FeatureGate.Proofs.Relabelling
import FeatureGate.Proofs.Layout
import FeatureGate.Proofs.Concatenation
import FeatureGate.Proofs.Places
import FeatureGate.Proofs.Tiling
import FeatureGate.Proofs.Backtracking
import FeatureGate.Proofs.StringExtent
import FeatureGate.Proofs.Spans
import FeatureGate.Proofs.Blame
import FeatureGate.Proofs.Polarity
import FeatureGate.Proofs.GraphExactness
import FeatureGate.Proofs.Resolution
import FeatureGate.Proofs.Spelling
import FeatureGate.Proofs.Registers
import FeatureGate.Proofs.Isolation
import FeatureGate.Proofs.TestOnly
