import Dach.Core.Machine
import Dach.Core.Ppm0
import Dach.Core.Header
import Dach.Core.Block
import Dach.Core.Ar64
import Dach.Core.Bitio
import Dach.Core.Command
import Dach.Core.Meter
import Dach.Core.Stream
import Dach.Core.StreamTest
import Dach.Core.Watch
import Dach.Core.Worker
import Dach.Core.Info
import Dach.Core.Fdb
import Dach.Core.Digest
import Dach.Core.String
import Dach.Core.Cmdline
import Dach.Core.Program
import Dach.Lib.Loop
import Dach.Lib.Outcome
import Dach.Lib.Run
import Dach.Lib.Store
import Dach.Lib.Bits
import Dach.Lib.Chunks
import Dach.Lib.IntervalCoder
import Dach.Lib.CodeLength
import Dach.Lib.CountBounds
import Dach.Lib.Search
import Dach.Lib.Ranking
import Dach.Lib.IntervalDecoder
import Dach.Proofs.Ppm0
import Dach.Proofs.Profile
import Dach.Proofs.Header
import Dach.Proofs.Interval
import Dach.Proofs.Compression
import Dach.Proofs.Selection
import Dach.Proofs.Decoder
import Dach.Proofs.DecoderSafety
import Dach.Proofs.Termination
import Dach.Proofs.Renorm
import Dach.Proofs.Lockstep
import Dach.Proofs.Ranking
import Dach.Proofs.DecodeMeaning
import Dach.Proofs.FileSize
import Dach.Proofs.Simulation
import Dach.Proofs.Portability
import Dach.Proofs.LengthHeader
import Dach.Proofs.Preimage
import Dach.Proofs.Meter
import Dach.Proofs.Budget
import Dach.Proofs.Block
import Dach.Proofs.BlockOps
import Dach.Proofs.Stream
import Dach.Proofs.Pipe
import Dach.Proofs.Operations
import Dach.Proofs.StreamTest
import Dach.Proofs.Watch
import Dach.Proofs.Worker
import Dach.Proofs.BlockCoder
import Dach.Proofs.Info
import Dach.Proofs.Fdb
import Dach.Proofs.FdbRuns
import Dach.Proofs.FdbComplete
import Dach.Proofs.FdbSessions
import Dach.Proofs.Digest
import Dach.Proofs.Readers
import Dach.Proofs.BitPacking
import Dach.Proofs.String
import Dach.Proofs.Cmdline
import Dach.Proofs.Program
