import DrFed.Delivery.Settled
import DrFed.Document.Naming
import DrFed.Document.Ownership
import DrFed.Document.Agreement
import DrFed.LocalWrite.Indexed
import DrFed.Store.Calls
import DrFed.Store.Concurrent
import DrFed.Store.Publication
import DrFed.Document.Recursive
import DrFed.Delivery.Settlement
import DrFed.ActorKeys.Stable
import DrFed.Instances.Quota
import DrFed.Inbox.FirstProof
import DrFed.Receipts.Justified
import DrFed.Document.Fixpoint
import DrFed.Tasks.KeyGeneration
import DrFed.Delivery.Summary
import DrFed.Migrations.Classified
import DrFed.Instances.Canonical
import DrFed.Collections.Traversed
import DrFed.Store.Serialized
import DrFed.Store.Exact
import DrFed.Document.Independent
import DrFed.Document.Refined
import DrFed.LocalWrite.Preserved
import DrFed.LocalWrite.Committed
