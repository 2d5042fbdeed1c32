import FilterPipeline.Catalog.Reading
import FilterPipeline.Compile.Check
import FilterPipeline.Compile.Compiler
import FilterPipeline.Filter.Arena
import FilterPipeline.Formula.Display
import FilterPipeline.Schema.Reading
import FilterPipeline.Schema.Writing
import FilterPipeline.Proofs.ProjectionCoverage
import FilterPipeline.Proofs.Unrolling
import FilterPipeline.Proofs.ProjectionNames
import FilterPipeline.Proofs.FormulaTokens
import FilterPipeline.Proofs.Inlining
import FilterPipeline.Proofs.QueryTruth
import FilterPipeline.Proofs.TwoForms
import FilterPipeline.Proofs.WellFormedPipelines
import FilterPipeline.Proofs.FormulaNames
import FilterPipeline.Proofs.MainOperator
import FilterPipeline.Proofs.Parentheses
import FilterPipeline.Proofs.PlainReading
import FilterPipeline.Proofs.PlainCleaning
import FilterPipeline.Proofs.WrittenFormulas
import FilterPipeline.Proofs.DisplayedFormulas
import FilterPipeline.Proofs.Fractions
import FilterPipeline.Proofs.Rounding
import FilterPipeline.Proofs.ShortestDecimals
import FilterPipeline.Proofs.ArenaLinks
import FilterPipeline.Proofs.ArenaRemoval
import FilterPipeline.Proofs.ArenaTrees
import FilterPipeline.Proofs.ArenaEdits
import FilterPipeline.Proofs.ArenaRuns
import FilterPipeline.Proofs.CanonicalValues
import FilterPipeline.Proofs.FilterReadings
import FilterPipeline.Proofs.SavedFilters
import FilterPipeline.Proofs.TokenTexts
import FilterPipeline.Proofs.CompactTexts
import FilterPipeline.Proofs.NumberTexts
import FilterPipeline.Proofs.TextScalars
import FilterPipeline.Proofs.Reloading
import FilterPipeline.Proofs.AlikeLiterals
import FilterPipeline.Proofs.AlikeExpressions
import FilterPipeline.Proofs.AlikeQueries
import FilterPipeline.Proofs.ReplacedLiterals
import FilterPipeline.Proofs.CompleteInlining
import FilterPipeline.Proofs.SharedStore
import FilterPipeline.Proofs.Places
import FilterPipeline.Proofs.PlacedExpressions
import FilterPipeline.Proofs.DocumentConditions
import FilterPipeline.Proofs.PlacedProjections
import FilterPipeline.Proofs.PlacedQueries
import FilterPipeline.Proofs.ScopeDiscipline
import FilterPipeline.Proofs.StoredReferences
import FilterPipeline.Proofs.BoundedReading
import FilterPipeline.Proofs.NumberLiterals
import FilterPipeline.Proofs.BarNotations
import FilterPipeline.Proofs.MarkedBars
import FilterPipeline.Proofs.ToldBars
import FilterPipeline.Proofs.LeadingMinus
import FilterPipeline.Proofs.DependencyGraph
import FilterPipeline.Proofs.UsageClosure
import FilterPipeline.Proofs.ExpansionValues
import FilterPipeline.Proofs.RedundantNodes
import FilterPipeline.Proofs.SwitchedConditions
import FilterPipeline.Proofs.LengthTests
import FilterPipeline.Proofs.CoercedOperands
import FilterPipeline.Proofs.WholeNumberTexts
import FilterPipeline.Proofs.NodeNumbering
import FilterPipeline.Proofs.ArenaLoading
import FilterPipeline.Proofs.PathTypes
import FilterPipeline.Proofs.NamedTypes
import FilterPipeline.Proofs.OfferedFields
import FilterPipeline.Proofs.CheckedPipelines
import FilterPipeline.Proofs.OperatorPositions
import FilterPipeline.Proofs.ParenthesisLayers
