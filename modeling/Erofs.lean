import Erofs.Bytes
import Erofs.Text
import Erofs.Journal
import Erofs.Flags
import Erofs.FileType
import Erofs.Error
import Erofs.Session
import Erofs.Device
import Erofs.Device.Memory
import Erofs.Device.File
import Erofs.Device.Faulty
import Erofs.BlockCache
import Erofs.Volume
import Erofs.Crc32c
import Erofs.Superblock
import Erofs.Superblock.Load
import Erofs.Inode.Record
import Erofs.Inode
import Erofs.Inode.FlatExtent
import Erofs.Lz4.Block
import Erofs.Lz4.Fit
import Erofs.Lz4.Plan
import Erofs.Compression.MapHeader
import Erofs.Compression.File
import Erofs.Compression.Lcluster
import Erofs.Compression.FullIndex
import Erofs.Compression.Pack
import Erofs.Compression.CompactIndex
import Erofs.Compression.ExtentMap
import Erofs.Compression.OccupiedSize
import Erofs.Directory.Listing
import Erofs.Directory
import Erofs.Directory.Cursor
import Erofs.Path
import Erofs.Statistics
import Erofs.Statistics.Survey
import Erofs.Mount
import Erofs.Proofs.Query
import Erofs.Proofs.Bytes
import Erofs.Proofs.Compression.Resolved
import Erofs.Proofs.Compression.Walk
import Erofs.Proofs.Compression.Allocation
import Erofs.Proofs.Compression.PackPlace
import Erofs.Proofs.Compression.PackScan
import Erofs.Proofs.Compression.PackEntries
import Erofs.Proofs.Compression.BackToBack
import Erofs.Proofs.Compression.IndexTable
import Erofs.Proofs.Compression.FullEncoding
import Erofs.Proofs.Compression.CompactEncoding
import Erofs.Proofs.Compression.PackReading
import Erofs.Proofs.Compression.Encodings
import Erofs.Proofs.Compression.RandomAccess
import Erofs.Proofs.Lz4.Format
import Erofs.Proofs.Lz4.Turns
import Erofs.Proofs.Lz4.Runs
import Erofs.Proofs.Lz4.Decode
import Erofs.Proofs.Lz4.Greedy
import Erofs.Proofs.Compression.Recovery
import Erofs.Proofs.Lz4.Partial
import Erofs.Proofs.Compression.Failures
import Erofs.Proofs.Lz4.Stability
import Erofs.Proofs.Compression.Plausibility
import Erofs.Proofs.Lz4.Bisection
import Erofs.Proofs.Volume.Cache
import Erofs.Proofs.Volume.Reading
import Erofs.Proofs.Volume.Deliveries
import Erofs.Proofs.Volume.Faults
import Erofs.Proofs.Requests
import Erofs.Proofs.Reads
import Erofs.Proofs.Directory.Contents
import Erofs.Proofs.Directory.Cursors
import Erofs.Proofs.Directory.Stepping
import Erofs.Proofs.Directory.Encoding
import Erofs.Proofs.Directory.Decoding
import Erofs.Proofs.Directory.NameSpans
import Erofs.Proofs.Survey.Findings
import Erofs.Proofs.Survey.Totals
import Erofs.Proofs.Survey.Unfolding
import Erofs.Proofs.Survey.Effort
import Erofs.Proofs.Survey.Limits
import Erofs.Proofs.Volume.Answers
import Erofs.Proofs.Mount.Survey
import Erofs.Proofs.Mount.Agreement
import Erofs.Proofs.Volume.Truncation
import Erofs.Proofs.Machine.Word
import Erofs.Proofs.Machine.Program
import Erofs.Proofs.Machine.Storage
import Erofs.Proofs.Machine.Superblock
import Erofs.Proofs.Placement
import Erofs.Proofs.Compression.ExtentMaps
import Erofs.Proofs.Compression.NotedScans
import Erofs.Proofs.Compression.PackSafety
import Erofs.Proofs.Compression.PackTiling
import Erofs.Proofs.Machine.Inode
import Erofs.Proofs.Machine.Directory
import Erofs.Proofs.Machine.File
import Erofs.Proofs.Machine.Pack
import Erofs.Proofs.Machine.CompactIndex
import Erofs.Proofs.Machine.ExtentMap
import Erofs.Proofs.Machine.Lz4
import Erofs.Proofs.Machine.OccupiedSize
import Erofs.Proofs.Machine.Requests
import Erofs.Proofs.Inode.Encoding
import Erofs.Proofs.Inode.Decoding
import Erofs.Proofs.Inode.Reading
import Erofs.Proofs.Directory.Lookup
import Erofs.Proofs.Path.Components
import Erofs.Proofs.Path.Resolution
import Erofs.Proofs.Text.Lossy
import Erofs.Proofs.Survey.Paths
import Erofs.Proofs.Survey.Balance
import Erofs.Proofs.Survey.Accumulation
import Erofs.Proofs.Inode.FlatExtents
import Erofs.Proofs.Crc32c
import Erofs.Proofs.Superblock.Checksum
import Erofs.Proofs.Volume.Recency
import Erofs.Proofs.Volume.Reliability
import Erofs.Proofs.Volume.Capacity
import Erofs.Proofs.Volume.Balance
import Erofs.Proofs.Compression.Independence
import Erofs.Proofs.Superblock.Acceptance
import Erofs.Proofs.Statistics.Histograms
