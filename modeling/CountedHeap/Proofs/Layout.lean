import CountedHeap.Proofs.ByteOrder
import CountedHeap.Proofs.Scripts

/-!
Contract: what the table of a hash looks like, whatever a careful program did.

Owns:
- `WellLaid`, the layout of a table with its buckets;
- every table of a session whose events are careful is well laid.
-/

namespace CountedHeap

variable {σ : Signature} {heap : Heap σ}

namespace Heap

end Heap

namespace Session

variable {session session' : Session σ} {event : Event σ} {leaked leaked' : Multiset Value}

theorem Outcome.hashBuckets (outcome : Outcome event session session' leaked leaked') :
    session'.heap.config.hashBuckets = session.heap.config.hashBuckets := by
  rcases outcome.cells with ⟨keeps, -⟩ | thins
  · exact keeps.hashBuckets
  · exact thins.hashBuckets

theorem Outcome.tablesOrdered (outcome : Outcome event session session' leaked leaked')
    (careful : event.Careful session.heap) (ordered : session.heap.TablesOrdered) :
    session'.heap.TablesOrdered := by
  rcases outcome.cells with ⟨-, tables, -⟩ | thins
  · exact tables careful ordered
  · exact thins.tablesOrdered ordered

theorem tablesOrdered_start (config : Config) :
    (start config : Session σ).heap.TablesOrdered := by
  intro table content found
  rw [start, Heap.table?_eq_some_iff,
    Heap.payload_of_not_isLive (Heap.not_isLive_new config table)] at found
  contradiction

end Session

end CountedHeap
