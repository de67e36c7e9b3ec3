import QueryEngine.Plan
import QueryEngine.Proofs.Multimap
import QueryEngine.Proofs.Operator.Stream
import QueryEngine.Proofs.Pairs
import QueryEngine.Proofs.Predicate
import QueryEngine.Proofs.Spill
import QueryEngine.Proofs.Operator.Trial
import QueryEngine.Proofs.Operator.HashJoin
import QueryEngine.Proofs.Operator.BlockJoin
import QueryEngine.Proofs.Store.Index
import QueryEngine.Proofs.Store.Table
import QueryEngine.Proofs.KeyRange
import QueryEngine.Proofs.Operator.IndexScan
import QueryEngine.Proofs.Operator.IndexJoin
import QueryEngine.Proofs.Operator.JoinAgreement
import QueryEngine.Proofs.Store.Edit
import QueryEngine.Proofs.Store.Session
import QueryEngine.Proofs.Measure
import QueryEngine.Proofs.Numeric.Exact
import QueryEngine.Proofs.Store.Placement
import QueryEngine.Proofs.Store.RangeScan
import QueryEngine.Proofs.Store.Resolution
import QueryEngine.Proofs.Operator.Aggregate
import QueryEngine.Proofs.Operator.Fault
import QueryEngine.Proofs.Operator.Failure
import QueryEngine.Proofs.Operator.History
import QueryEngine.Proofs.Operator.Drain
import QueryEngine.Proofs.Operator.BlockBudget
import QueryEngine.Proofs.Operator.Lifecycle
import QueryEngine.Proofs.Operator.Contract
import QueryEngine.Proofs.Operator.Growing
import QueryEngine.Proofs.Operator.Retargeting
import QueryEngine.Proofs.Operator.KeepingJoins
import QueryEngine.Proofs.Operator.Closed
import QueryEngine.Proofs.Operator.RestartTrees
import QueryEngine.Proofs.Operator.Reopening
import QueryEngine.Proofs.Operator.AccessPaths
import QueryEngine.Proofs.Tuple.Bijection
import QueryEngine.Proofs.Tuple.Readers
import QueryEngine.Proofs.Tuple.SelfDelimiting
import QueryEngine.Proofs.Tuple.Projection
import QueryEngine.Proofs.Key.Faithful
import QueryEngine.Proofs.Operator.Selection
import QueryEngine.Proofs.Operator.Product
import QueryEngine.Proofs.Operator.Projection
import QueryEngine.Proofs.Operator.Commutation
import QueryEngine.Proofs.Pipeline
import QueryEngine.Proofs.Operator.Extremes
import QueryEngine.Proofs.Store.RangeRequests
import QueryEngine.Proofs.Tuple.LongTexts
import QueryEngine.Proofs.Operator.Holding
import QueryEngine.Proofs.Multimap.Session
import QueryEngine.Proofs.Operator.Termination
import QueryEngine.Proofs.Store.RowIds
