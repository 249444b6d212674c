import RowStore.Json.Records
import RowStore.Session
import RowStore.Proofs.Lock.Agreement
import RowStore.Proofs.Lock.Deadlock
import RowStore.Proofs.Lock.LateReader
import RowStore.Proofs.Lock.RealCycle
import RowStore.Proofs.Lock.Wakeup
import RowStore.Proofs.Session.Completion
import RowStore.Proofs.Session.Isolation
import RowStore.Proofs.Session.Repeats
import RowStore.Proofs.Session.Tables
import RowStore.Proofs.Page.Bitmap
import RowStore.Proofs.Query.Replay
import RowStore.Proofs.Query.Aggregation
import RowStore.Proofs.Lock.Footprint
import RowStore.Proofs.Page.Deletes
import RowStore.Proofs.Pool.Placing
import RowStore.Proofs.Page.Vacant
import RowStore.Proofs.Pool.Reading
import RowStore.Proofs.Pool.Tail
import RowStore.Proofs.Session.TailsAndWaits
import RowStore.Proofs.Pool.Shown
import RowStore.Proofs.Pool.FirstFit
import RowStore.Proofs.Pool.Packed
import RowStore.Proofs.Session.Filling
import RowStore.Proofs.Session.PastEnd
import RowStore.Proofs.Session.Footprint
import RowStore.Proofs.Lock.Interrupts
import RowStore.Proofs.Pool.Hindered
import RowStore.Proofs.Pool.Listing
import RowStore.Proofs.Session.Failures
import RowStore.Proofs.Session.Scanning
import RowStore.Proofs.Session.Copying
import RowStore.Proofs.Lock.Cancellation
import RowStore.Proofs.Lock.Delivery
import RowStore.Proofs.Page.BeforeImage
import RowStore.Proofs.Page.Acceptance
import RowStore.Proofs.TableFile.Pages
import RowStore.Proofs.Page.Layout
