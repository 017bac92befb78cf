import PageDb.Engine.Session
import PageDb.Proofs.Store.Representation
import PageDb.Proofs.Query.Combinations
import PageDb.Proofs.Query.Merging
import PageDb.Proofs.CrossOrder
import PageDb.Proofs.Query.Cells
import PageDb.Proofs.Query.Delivery
import PageDb.Proofs.Query.Equijoin
import PageDb.Proofs.Table.Calls
import PageDb.Proofs.Lock.Bookkeeping
import PageDb.Proofs.Lock.Books
import PageDb.Proofs.Lock.Locking
import PageDb.Proofs.Lock.Waking
import PageDb.Proofs.Table.Creation
import PageDb.Proofs.Table.Separation
import PageDb.Proofs.Query.Separation
import PageDb.Proofs.Engine.Separation
import PageDb.Proofs.Lock.Serving
import PageDb.Proofs.Engine.Interleaving
import PageDb.Proofs.Engine.Guarding
import PageDb.Proofs.PageFiles
import PageDb.Proofs.Store.Pages
import PageDb.Proofs.Table.Filing
import PageDb.Proofs.Table.Reopening
import PageDb.Proofs.CanonicalImage
import PageDb.Proofs.Store.Separation
import PageDb.Proofs.Store.Readback
import PageDb.Proofs.Lock.Accounts
import PageDb.Proofs.Engine.Releasing
import PageDb.Proofs.Store.Pinning
import PageDb.Proofs.Store.Touching
import PageDb.Proofs.Table.Pinning
import PageDb.Proofs.Table.Touching
import PageDb.Proofs.Engine.Asking
import PageDb.Proofs.Engine.TwoPhase
import PageDb.Proofs.Engine.Keeping
import PageDb.Proofs.Engine.Pinning
import PageDb.Proofs.Engine.StrictLocking
import PageDb.Proofs.Engine.Catalog
import PageDb.Proofs.Store.Filling
import PageDb.Proofs.Table.Iteration
import PageDb.Proofs.Store.Kinds
import PageDb.Proofs.Table.Conformance
import PageDb.Proofs.Store.Assigning
import PageDb.Proofs.Store.Failing
import PageDb.Proofs.Table.Lifetime
import PageDb.Proofs.Table.Selecting
import PageDb.Proofs.Table.Updating
import PageDb.Proofs.Table.Leftovers
import PageDb.Proofs.Engine.Leftovers
import PageDb.Proofs.Query.MergeWalk
import PageDb.Proofs.Query.Enumeration
import PageDb.Proofs.Table.Setting
import PageDb.Proofs.Table.Deleting
import PageDb.Proofs.Table.Display
import PageDb.Proofs.Engine.Changing
import PageDb.Proofs.Query.Ending
import PageDb.Proofs.Query.PointLookup
import PageDb.Proofs.Lock.Granting
import PageDb.Proofs.PrefixFree
import PageDb.Proofs.MixedOrder
import PageDb.Proofs.Store.Keying
import PageDb.Proofs.Table.Progress
import PageDb.Proofs.Query.Exhaustion
import PageDb.Proofs.Query.Foretelling
import PageDb.Proofs.Query.Learning
import PageDb.Proofs.Query.Projecting
import PageDb.Proofs.Store.NextFit
import PageDb.Proofs.Store.Access
import PageDb.Proofs.Store.Recency
