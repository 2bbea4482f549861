import SyscallAdvent.Lib.Bytes
import SyscallAdvent.Lib.Chain
import SyscallAdvent.Lib.Descriptor
import SyscallAdvent.Lib.Increment
import SyscallAdvent.Lib.MeanRate
import SyscallAdvent.Lib.Numeral
import SyscallAdvent.Lib.PyText
import SyscallAdvent.Lib.SeekFile
import SyscallAdvent.Proofs.RseqVerdict
import SyscallAdvent.Proofs.RseqBounds
import SyscallAdvent.Proofs.RseqRounds
import SyscallAdvent.Proofs.RseqProgress
import SyscallAdvent.Proofs.RseqLoss
import SyscallAdvent.Proofs.RseqRange
import SyscallAdvent.Proofs.MatrixProduct
import SyscallAdvent.Proofs.MatrixBounds
import SyscallAdvent.Proofs.MatrixAlgebra
import SyscallAdvent.Proofs.BufferCanary
import SyscallAdvent.Proofs.BufferExhaustion
import SyscallAdvent.Proofs.FilterWiring
import SyscallAdvent.Proofs.FilterFailure
import SyscallAdvent.Proofs.FilterMessages
import SyscallAdvent.Proofs.LogReader
import SyscallAdvent.Proofs.LogRoundTrip
import SyscallAdvent.Proofs.ChecksumRange
import SyscallAdvent.Proofs.ChecksumLocal
import SyscallAdvent.Proofs.ChecksumAlgebra
import SyscallAdvent.Proofs.SendfileRounds
import SyscallAdvent.Proofs.SendfileAverages
import SyscallAdvent.Proofs.CatMain
import SyscallAdvent.Proofs.CatOutput
import SyscallAdvent.Proofs.PostboxDispatch
import SyscallAdvent.Proofs.PrinterAgreement
import SyscallAdvent.Proofs.PtySession
import SyscallAdvent.Proofs.ThroughputAccount
import SyscallAdvent.Proofs.ThroughputThrottle
