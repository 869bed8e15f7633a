import CudaqQec.Lib.Checked
import CudaqQec.Basic
import CudaqQec.Lib.BitMatrix
import CudaqQec.Sparse.Matrix
import CudaqQec.Sparse.Entries
import CudaqQec.Sparse.Construction
import CudaqQec.ExtendedDem.Bands
import CudaqQec.ExtendedDem.Chain
import CudaqQec.ExtendedDem.Close
import CudaqQec.Commitment.ParallelChecks
import CudaqQec.Commitment.Periodic
import CudaqQec.Commitment.Probe
import CudaqQec.ExtendedDem.Compact
import CudaqQec.ExtendedDem.Memory
import CudaqQec.ExtendedDem.Merge
import CudaqQec.ExtendedDem.OChunked
import CudaqQec.ExtendedDem.Walk
import CudaqQec.ExtendedDem.StitchValid
import CudaqQec.Decoder.Enqueue
import CudaqQec.Node.Coverage
import CudaqQec.Node.MemoryCoverage
import CudaqQec.Node.Published
import CudaqQec.Node.ReadoutShot
import CudaqQec.Dem.Atomic
import CudaqQec.Dem.Simplify
import CudaqQec.Dem.PcmForRounds
import CudaqQec.Dem.ExtendExact
import CudaqQec.Sparse.Text
import CudaqQec.Ingest.Core
import CudaqQec.Ingest.Cutting
import CudaqQec.Ingest.Atomic
import CudaqQec.Ingest.Shots
import CudaqQec.Ingest.Detectors
import CudaqQec.Template.Expanded
import CudaqQec.SlidingWindow.Commit
import CudaqQec.SlidingWindow.Element
import CudaqQec.SlidingWindow.Safety
import CudaqQec.SlidingWindow.Solve
import CudaqQec.Graph.JoinOnce
import CudaqQec.Artifacts.Keys
import CudaqQec.Graph.ConsumedShot
import CudaqQec.Graph.ParityFold
import CudaqQec.Graph.Released
import CudaqQec.Graph.Record
import CudaqQec.Realtime.Dispatch
import CudaqQec.Realtime.Frame
import CudaqQec.Window.Grouping
import CudaqQec.Window.Instances
import CudaqQec.Window.Yaml
import CudaqQec.Graph.RecordMerge
import CudaqQec.Graph.Arrangement
import CudaqQec.Codes.SurfaceGrid
import CudaqQec.Codes.SurfaceStabilizers
import CudaqQec.Codes.PauliWords
import CudaqQec.Codes.SurfaceSchedule
import CudaqQec.Codes.SurfaceCode
import CudaqQec.Lib.SecureHash
import CudaqQec.Artifacts.Sha256
import CudaqQec.Decoder.Lut
import CudaqQec.Dem.BitTensor
import CudaqQec.Dem.Construction
import CudaqQec.Dem.StimSparse
import CudaqQec.Window.Overlap
import CudaqQec.Decoder.Chunked
import CudaqQec.Lib.Arena
import CudaqQec.Node.Predecoder
import CudaqQec.Playback.Advancing
import CudaqQec.Playback.Operands
import CudaqQec.Playback.Parsed
import CudaqQec.Playback.Settled
import CudaqQec.Commitment.SameIndexCycle
import CudaqQec.Core.Graph
import CudaqQec.Core.Undirected
import CudaqQec.Graph.ParallelWidth
import CudaqQec.Codes.SurfaceSizes
import CudaqQec.Graph.Calls
import CudaqQec.Graph.FailedReset
import CudaqQec.Node.StreamTiles
