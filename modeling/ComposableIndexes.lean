import ComposableIndexes.Library.Procedure
import ComposableIndexes.Library.Runs
import ComposableIndexes.Library.OrderedMap
import ComposableIndexes.Library.PartialMap
import ComposableIndexes.Library.Buckets
import ComposableIndexes.Library.Blocks
import ComposableIndexes.Library.Selection
import ComposableIndexes.Library.Ledger
import ComposableIndexes.Model.SimpleTypes
import ComposableIndexes.Model.IdMap
import ComposableIndexes.Model.Update
import ComposableIndexes.Model.Index
import ComposableIndexes.Model.HashIndex
import ComposableIndexes.Model.BTreeIndex
import ComposableIndexes.Model.AggregateIndex
import ComposableIndexes.Model.UnregisteredIndex
import ComposableIndexes.Model.Collection
import ComposableIndexes.Model.Iteration
import ComposableIndexes.Abstract.ChangeLog
import ComposableIndexes.Abstract.Refinement
import ComposableIndexes.Abstract.Leaves
import ComposableIndexes.Abstract.Combinators
import ComposableIndexes.Abstract.Expression
import ComposableIndexes.Abstract.Queries
import ComposableIndexes.Abstract.Propagation
import ComposableIndexes.Abstract.Operations
import ComposableIndexes.Abstract.Calls
import ComposableIndexes.Abstract.Runs
import ComposableIndexes.Abstract.Lockstep
import ComposableIndexes.Abstract.Unzip
import ComposableIndexes.Abstract.Account
import ComposableIndexes.Abstract.AccountCombinators
import ComposableIndexes.Abstract.Sketch
import ComposableIndexes.Abstract.Answers
import ComposableIndexes.Abstract.Mentions
import ComposableIndexes.Abstract.Folding
import ComposableIndexes.Abstract.Journal
import ComposableIndexes.Abstract.Invariants
import ComposableIndexes.Abstract.Delivery
import ComposableIndexes.Abstract.Meaning
import ComposableIndexes.Abstract.Table
import ComposableIndexes.Abstract.Exchange
import ComposableIndexes.Properties.Maintenance
import ComposableIndexes.Properties.Failures
import ComposableIndexes.Properties.Groups
import ComposableIndexes.Properties.Premap
import ComposableIndexes.Properties.Zip
import ComposableIndexes.Properties.Aggregates
import ComposableIndexes.Properties.Ids
import ComposableIndexes.Properties.Validation
import ComposableIndexes.Properties.Conflicts
import ComposableIndexes.Properties.Alter
import ComposableIndexes.Properties.KeyQueries
import ComposableIndexes.Properties.Iteration
import ComposableIndexes.Properties.Replay
import ComposableIndexes.Properties.Insertion
import ComposableIndexes.Properties.IdMaps
import ComposableIndexes.Properties.OrderQueries
import ComposableIndexes.Properties.Registration
import ComposableIndexes.Properties.Holders
import ComposableIndexes.Properties.Identity
import ComposableIndexes.Properties.Totals
import ComposableIndexes.Properties.GroupFolds
import ComposableIndexes.Properties.Undefined
import ComposableIndexes.Properties.Adequacy
import ComposableIndexes.Properties.Convergence
import ComposableIndexes.Properties.Independence
import ComposableIndexes.Properties.Laws
import ComposableIndexes.Properties.Halves
import ComposableIndexes.Properties.Sweep
import ComposableIndexes.Properties.Restore
import ComposableIndexes.Properties.Recovery
import ComposableIndexes.Properties.Arrival
import ComposableIndexes.Properties.CleanUp
import ComposableIndexes.Properties.Coherence
