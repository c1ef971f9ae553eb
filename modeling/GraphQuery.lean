import GraphQuery.Processor
import GraphQuery.Proofs.Algebra.Placeholders
import GraphQuery.Proofs.Evaluate.ColumnBinding
import GraphQuery.Proofs.Evaluate.Converse
import GraphQuery.Proofs.Evaluate.Counting
import GraphQuery.Proofs.Evaluate.DatasetIsolation
import GraphQuery.Proofs.Evaluate.DatasetLists
import GraphQuery.Proofs.Evaluate.DuplicateTest
import GraphQuery.Proofs.Evaluate.Existence
import GraphQuery.Proofs.Evaluate.Flattening
import GraphQuery.Proofs.Evaluate.GraphUnion
import GraphQuery.Proofs.Evaluate.Grouping
import GraphQuery.Proofs.Evaluate.Independence
import GraphQuery.Proofs.Evaluate.InsertionOrder
import GraphQuery.Proofs.Evaluate.Modifiers
import GraphQuery.Proofs.Evaluate.Paging
import GraphQuery.Proofs.Evaluate.Procedure
import GraphQuery.Proofs.Evaluate.Recompletion
import GraphQuery.Proofs.Evaluate.Subclasses
import GraphQuery.Proofs.Language.Matching
import GraphQuery.Proofs.Solution.Duplicates
import GraphQuery.Proofs.Store.View
import GraphQuery.Proofs.Term.Sameness
import GraphQuery.Proofs.Value.Comparison
import GraphQuery.Proofs.Value.Strings
import GraphQuery.Query.Renaming
