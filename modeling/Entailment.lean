import Entailment.Main
import Entailment.Proofs.Align.Histories
import Entailment.Proofs.Align.Layering
import Entailment.Proofs.Align.Precedence
import Entailment.Proofs.Command.Batch
import Entailment.Proofs.Command.Measurement
import Entailment.Proofs.Edit.Calls
import Entailment.Proofs.Edit.Choices
import Entailment.Proofs.Edit.Diagonal
import Entailment.Proofs.Edit.Edits
import Entailment.Proofs.Edit.ForestCost
import Entailment.Proofs.Edit.InPlace
import Entailment.Proofs.Edit.InPlaceScript
import Entailment.Proofs.Edit.InPlaceTables
import Entailment.Proofs.Edit.Journal
import Entailment.Proofs.Edit.LeastCost
import Entailment.Proofs.Edit.Mapping
import Entailment.Proofs.Edit.Metric
import Entailment.Proofs.Edit.Script
import Entailment.Proofs.Edit.Settled
import Entailment.Proofs.Edit.SubtreeTable
import Entailment.Proofs.Edit.Surplus
import Entailment.Proofs.Edit.Tolerance
import Entailment.Proofs.Edit.Transposition
import Entailment.Proofs.Edit.Walk
import Entailment.Proofs.Guarded
import Entailment.Proofs.Json.Texts
import Entailment.Proofs.Measure.Bounds
import Entailment.Proofs.Measure.Counts
import Entailment.Proofs.Measure.FeatureNumbers
import Entailment.Proofs.Measure.FeatureStrings
import Entailment.Proofs.Measure.Features
import Entailment.Proofs.Measure.FrontEnd
import Entailment.Proofs.Measure.Itself
import Entailment.Proofs.Measure.Knowledge
import Entailment.Proofs.Measure.LabelsMode
import Entailment.Proofs.Measure.Scaling
import Entailment.Proofs.Measure.Transformations
import Entailment.Proofs.Measure.Transposition
import Entailment.Proofs.Measure.Trees
import Entailment.Proofs.Outcomes
import Entailment.Proofs.Sentence.Defects
import Entailment.Proofs.Sentence.Fields
import Entailment.Proofs.Sentence.Increments
import Entailment.Proofs.Sentence.LineByLine
import Entailment.Proofs.Sentence.ManualList
import Entailment.Proofs.Sentence.Merge
import Entailment.Proofs.Sentence.MergedTree
import Entailment.Proofs.Sentence.Punctuation
import Entailment.Proofs.Sentence.Reading
import Entailment.Proofs.Sentence.Refusals
import Entailment.Proofs.Sentence.Runs
import Entailment.Proofs.Sentence.WellFormed
import Entailment.Proofs.Sentence.Words
import Entailment.Proofs.Text.Basic
import Entailment.Proofs.Tree.Ancestry
import Entailment.Proofs.Tree.BoundedWalk
import Entailment.Proofs.Tree.Building
import Entailment.Proofs.Tree.Cycles
import Entailment.Proofs.Tree.Decomposition
import Entailment.Proofs.Tree.ForestOrder
import Entailment.Proofs.Tree.Grafting
import Entailment.Proofs.Tree.Keyroots
import Entailment.Proofs.Tree.Leftmost
import Entailment.Proofs.Tree.Numbering
import Entailment.Proofs.Tree.Positions
import Entailment.Proofs.Tree.RootPath
import Entailment.Proofs.Tree.Search
import Entailment.Proofs.Tree.Traversal
import Entailment.Tree.Basic
