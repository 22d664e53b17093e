import TreeLowering.Config.Json
import TreeLowering.Config.Toml
import TreeLowering.Json.Writer
import TreeLowering.Lowering
import TreeLowering.Source.Json
import TreeLowering.Target.Equality
import TreeLowering.Target.Json
import TreeLowering.Proofs.PatternCorrect
import TreeLowering.Proofs.Declarations
import TreeLowering.Proofs.Hygiene
import TreeLowering.Proofs.Rebinding
import TreeLowering.Proofs.Completion
import TreeLowering.Proofs.Dispatch
import TreeLowering.Proofs.Spelling
import TreeLowering.Proofs.PipeChains
import TreeLowering.Proofs.Requests
import TreeLowering.Proofs.NamingScheme
import TreeLowering.Proofs.Separation
import TreeLowering.Proofs.Capture
import TreeLowering.Proofs.ComparisonLowering
import TreeLowering.Proofs.ModuleItems
import TreeLowering.Proofs.Evaluator
import TreeLowering.Proofs.Grouping
import TreeLowering.Proofs.TailPosition
import TreeLowering.Proofs.Collecting
import TreeLowering.Proofs.Comprehensions
import TreeLowering.Proofs.StructTags
import TreeLowering.Proofs.FunctionNames
import TreeLowering.Proofs.AttributeReads
import TreeLowering.Proofs.ShortNames
import TreeLowering.Proofs.ImportedModules
import TreeLowering.Proofs.UnsupportedOperators
import TreeLowering.Proofs.GroundTerms
import TreeLowering.Proofs.StructPatterns
import TreeLowering.Proofs.MapKeys
import TreeLowering.Proofs.Truthiness
import TreeLowering.Proofs.ReservedWords
import TreeLowering.Proofs.RoundTrip
import TreeLowering.Proofs.Interpolation
