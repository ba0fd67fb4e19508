import LowPrecision.Json.Settings
import LowPrecision.Pipeline
import LowPrecision.Proofs.Graph.Views
import LowPrecision.Proofs.Graph.Outcomes
import LowPrecision.Proofs.Graph.WellFormed
import LowPrecision.Proofs.Graph.Steps
import LowPrecision.Proofs.Graph.Edits
import LowPrecision.Proofs.Graph.Operations
import LowPrecision.Proofs.Graph.Faces
import LowPrecision.Proofs.Graph.Success
import LowPrecision.Proofs.Graph.Replacement
import LowPrecision.Proofs.Quantization.Chains
import LowPrecision.Proofs.Quantization.RoundTrip
import LowPrecision.Proofs.Graph.Ranks
import LowPrecision.Proofs.Quantization.Channels
import LowPrecision.Proofs.Rewrite.Steps
import LowPrecision.Proofs.Rewrite.Decomposition
import LowPrecision.Proofs.Graph.Regions
import LowPrecision.Proofs.Quantization.Layouts
import LowPrecision.Proofs.Rewrite.Layers
import LowPrecision.Proofs.Rewrite.Commutation
import LowPrecision.Proofs.Graph.BoundedWalks
import LowPrecision.Proofs.Graph.Reworked
import LowPrecision.Proofs.Rewrite.Moves
import LowPrecision.Proofs.Rewrite.Kernels
import LowPrecision.Proofs.Rewrite.Fusion
import LowPrecision.Proofs.Graph.Regular
import LowPrecision.Proofs.Rewrite.Concat
import LowPrecision.Proofs.Rewrite.Rules
import LowPrecision.Proofs.Pipeline.Interface
import LowPrecision.Proofs.Pipeline.Descent
import LowPrecision.Proofs.Pipeline.SweepBound
import LowPrecision.Proofs.Pipeline.Termination
import LowPrecision.Proofs.Graph.Order
import LowPrecision.Proofs.Rewrite.Completion
import LowPrecision.Proofs.Rewrite.Failures
import LowPrecision.Proofs.Quantization.Broadcasting
import LowPrecision.Proofs.Rewrite.Readiness
import LowPrecision.Proofs.Attributes.Store
import LowPrecision.Proofs.Graph.Rerouting
import LowPrecision.Proofs.Rewrite.Answers
import LowPrecision.Proofs.Rewrite.Lineage
import LowPrecision.Proofs.Rewrite.Verdicts
import LowPrecision.Proofs.Pipeline.FixedPoints
import LowPrecision.Proofs.Pipeline.Deferral
import LowPrecision.Proofs.Attributes.SharedCells
import LowPrecision.Proofs.Markup.Propagation
import LowPrecision.Proofs.Markup.Analyses
import LowPrecision.Proofs.Pipeline.Precisions
import LowPrecision.Proofs.Rewrite.TracedChains
import LowPrecision.Proofs.Rewrite.TracedRules
import LowPrecision.Proofs.Rewrite.TracedConcat
import LowPrecision.Proofs.Pipeline.Operands
import LowPrecision.Proofs.Rewrite.Emission
import LowPrecision.Proofs.Rewrite.Recipes
import LowPrecision.Proofs.Rewrite.Symmetry
import LowPrecision.Proofs.Quantization.WholeValues
import LowPrecision.Proofs.Rewrite.Representation
import LowPrecision.Proofs.Pipeline.Groups
import LowPrecision.Proofs.Pipeline.Results
import LowPrecision.Proofs.Rewrite.GuardedRules
import LowPrecision.Proofs.Attributes.Agreement
import LowPrecision.Proofs.Graph.Inheritance
import LowPrecision.Proofs.Markup.Independence
import LowPrecision.Proofs.Markup.Placement
import LowPrecision.Proofs.Pipeline.Cleanup
import LowPrecision.Proofs.Pipeline.Inheritance
import LowPrecision.Proofs.Rewrite.GuardedConcat
import LowPrecision.Proofs.Pipeline.Integers
import LowPrecision.Proofs.Graph.Succession
import LowPrecision.Proofs.Quantization.Limits
import LowPrecision.Proofs.Rewrite.Confinement
import LowPrecision.Proofs.Rewrite.ConfinedPlans
import LowPrecision.Proofs.Rewrite.ConfinedRegions
import LowPrecision.Proofs.Rewrite.ConfinedRules
import LowPrecision.Proofs.Rewrite.Acyclicity
import LowPrecision.Proofs.Pipeline.Totality
import LowPrecision.Proofs.Graph.Walks
import LowPrecision.Proofs.Graph.Backward
import LowPrecision.Proofs.Graph.Neighbours
import LowPrecision.Proofs.Attributes.Grouping
import LowPrecision.Proofs.Markup.Solution
import LowPrecision.Proofs.Quantization.Hulls
import LowPrecision.Proofs.Markup.Components
import LowPrecision.Proofs.Quantization.Values
import LowPrecision.Proofs.Quantization.Elements
import LowPrecision.Proofs.Quantization.Contractions
import LowPrecision.Proofs.Graph.Evaluation
import LowPrecision.Proofs.Rewrite.Relocation
import LowPrecision.Proofs.Rewrite.MovedValues
import LowPrecision.Proofs.Rewrite.LayoutMoves
import LowPrecision.Proofs.Rewrite.ChannelMoves
import LowPrecision.Proofs.Rewrite.LoweredValues
import LowPrecision.Proofs.Rewrite.Lowering
import LowPrecision.Proofs.Rewrite.Products
import LowPrecision.Proofs.Rewrite.Convolutions
import LowPrecision.Proofs.Attributes.Partition
import LowPrecision.Proofs.Rewrite.Recognition
import LowPrecision.Proofs.Quantization.OutputRanges
import LowPrecision.Proofs.Graph.Conversions
import LowPrecision.Proofs.Rewrite.RangeFusions
import LowPrecision.Proofs.Rewrite.ExactConstants
import LowPrecision.Proofs.Markup.Pooling
import LowPrecision.Proofs.Rewrite.FoldedWeights
import LowPrecision.Proofs.Pipeline.CleanupSweeps
import LowPrecision.Proofs.Quantization.Transposition
import LowPrecision.Proofs.Quantization.Spreading
import LowPrecision.Proofs.Pipeline.Quantized
import LowPrecision.Proofs.Pipeline.Recording
import LowPrecision.Proofs.Rewrite.Unquantized
import LowPrecision.Proofs.Pipeline.Unquantized
import LowPrecision.Proofs.Quantization.RoundingErrors
import LowPrecision.Proofs.Quantization.Projections
import LowPrecision.Proofs.Quantization.WordSizes
import LowPrecision.Proofs.Rewrite.Searches
import LowPrecision.Proofs.Rewrite.Successors
