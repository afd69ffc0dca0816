import CountedHeap.Call.Dispatch
import CountedHeap.Heap.Root
import CountedHeap.Inspection
import CountedHeap.Registry
import CountedHeap.Sequence.Search
import CountedHeap.Proofs.Calls
import CountedHeap.Proofs.Collection
import CountedHeap.Proofs.Layout
import CountedHeap.Proofs.TableMap
import CountedHeap.Proofs.Staleness
import CountedHeap.Proofs.Scopes
import CountedHeap.Proofs.Garbage
import CountedHeap.Proofs.CopyDepth
import CountedHeap.Proofs.CopyGraph
import CountedHeap.Proofs.Confluence
import CountedHeap.Proofs.Seeking
import CountedHeap.Proofs.ListView
import CountedHeap.Proofs.CallCounts
import CountedHeap.Proofs.Slab
import CountedHeap.Proofs.SortCounts
import CountedHeap.Proofs.InRange
import CountedHeap.Proofs.SortedOrder
import CountedHeap.Proofs.SeekAgreement
import CountedHeap.Proofs.PathReads
import CountedHeap.Proofs.StoredTexts
import CountedHeap.Proofs.Transitivity
import CountedHeap.Proofs.Queues
import CountedHeap.Proofs.SweepBatches
import CountedHeap.Proofs.CopyComparison
import CountedHeap.Proofs.Renderings
import CountedHeap.Proofs.SplitJoin
import CountedHeap.Proofs.RangeReplacement
import CountedHeap.Proofs.LeadingReals
import CountedHeap.Proofs.SortedSlices
import CountedHeap.Proofs.Installing
