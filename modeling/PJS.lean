import PJS.Lib.Lists
import PJS.Lib.Assoc
import PJS.Lib.Runs
import PJS.Lib.Trace
import PJS.Lib.Document
import PJS.Lib.Schedule
import PJS.Lib.Skeleton
import PJS.Lib.Nesting
import PJS.Domain.Basic
import PJS.Domain.JsonPath
import PJS.Domain.PathText
import PJS.Domain.JsonData
import PJS.Domain.PriorityHeuristic
import PJS.Domain.Frame
import PJS.Domain.Stream
import PJS.Domain.StreamPatches
import PJS.Domain.Serde
import PJS.Domain.FrameSerde
import PJS.Stream.JsonValue
import PJS.Stream.Priority
import PJS.Stream.Reconstruction
import PJS.Stream.Extraction
import PJS.Stream.RoundTrip
import PJS.Compression.Strategy
import PJS.Compression.RunLength
import PJS.Compression.RunTrip
import PJS.Compression.Delta
import PJS.Compression.Dictionary
import PJS.Compression.Frames
import PJS.Session.StreamSession
import PJS.Session.Ledger
import PJS.Session.Effects
import PJS.Session.Calls
import PJS.Session.Refinement
import PJS.Session.Runs
import PJS.Session.Accounts
import PJS.Session.Gates
import PJS.Session.Events
import PJS.Session.Batches
import PJS.Lib.Utf8
import PJS.Lib.Lines
import PJS.Http.Streaming
import PJS.Http.Transport
import PJS.Lib.Reader
import PJS.Http.IpAddr
import PJS.Http.ClientIp
import PJS.Lib.Puts
import PJS.Domain.FrameReading
import PJS.Wasm.PriorityAssignment
import PJS.Wasm.FrameGeneration
import PJS.Wasm.Reconstruction
import PJS.Wasm.Parity
import PJS.Client.JsValue
import PJS.Client.FrameProcessor
import PJS.Client.Acceptance
import PJS.Client.Reconstructor
import PJS.Client.EndToEnd
import PJS.Lib.Broadcast
import PJS.WebSocket.Controller
import PJS.WebSocket.Transport
import PJS.WebSocket.Effects
import PJS.WebSocket.Isolation
import PJS.WebSocket.Client
import PJS.WebSocket.Agreement
import PJS.Lib.Newest
import PJS.Lib.Pool
import PJS.Publisher.EventLog
import PJS.Publisher.Retention
import PJS.Lib.Window
import PJS.Security.RateLimit
import PJS.Security.SlidingWindow
import PJS.Security.Access
import PJS.Security.Guards
import PJS.Security.Admission
import PJS.Training.DictionaryStore
import PJS.Training.Budget
import PJS.Training.Sweeps
import PJS.Training.Corpus
import PJS.Lib.Feed
import PJS.FrameStore.History
import PJS.FrameStore.Polling
import PJS.Session.Materials
import PJS.Session.CommitOrder
import PJS.Repository.Repository
import PJS.Repository.Atomicity
import PJS.FrameStore.Handlers
import PJS.FrameStore.AppendOrder
import PJS.Repository.StatsCache
import PJS.Repository.Coherence
import PJS.Channel.BoundedChannel
import PJS.Channel.Budget
import PJS.Domain.PathGrammar
import PJS.Domain.PriorityFloor
import PJS.Lib.FloatOrder
import PJS.Domain.DataEq
import PJS.Lib.Check
import PJS.Validation.Schema
import PJS.Validation.Service
import PJS.Validation.Verdict
import PJS.Validation.Uniqueness
import PJS.Validation.QuickCheck
import PJS.Validation.DepthGuard
import PJS.Validation.Meaning
import PJS.Validation.Correctness
import PJS.Lib.JsonText
import PJS.Parser.ZeroCopy
import PJS.Parser.Scan
import PJS.Lib.Locations
import PJS.Stream.Locations
import PJS.Stream.Failures
import PJS.Parser.Cursor
import PJS.Parser.Unescape
import PJS.Stream.PlanShape
import PJS.Session.Expiry
import PJS.Security.ResetHint
import PJS.Session.Selection
import PJS.Compression.Writer
import PJS.Compression.Analyzer
import PJS.Compression.Savings
import PJS.Lib.FloatRound
import PJS.Lib.ByteReader
import PJS.Security.CompressionBomb
import PJS.Compression.Secure
import PJS.Parser.Leaves
import PJS.Parser.Grammar
import PJS.Parser.Tracking
import PJS.Parser.Slices
import PJS.Parser.Faithful
import PJS.Compression.DictionaryOrder
import PJS.Compression.RunLimits
import PJS.Domain.DottedPath
import PJS.Lib.Codes
import PJS.Stream.CompactText
import PJS.WebSocket.Checksum
import PJS.Repository.SessionQuery
import PJS.Lib.Marked
import PJS.Security.DepthScan
import PJS.Domain.JsonConversion
import PJS.Parser.Partial
import PJS.Parser.PartialDepth
import PJS.Client.PathPut
import PJS.Parser.HintLeaves
import PJS.Parser.Truncation
import PJS.Parser.StableHint
import PJS.Parser.Soundness
import PJS.Lib.Align
import PJS.Parser.AlignedBuffer
import PJS.Parser.BufferHistory
import PJS.Parser.BufferPool
import PJS.Parser.PoolRuns
import PJS.Lib.Paging
import PJS.Repository.Paging
import PJS.Lib.Reveal
import PJS.Domain.View
import PJS.Session.Delivery
import PJS.FrameStore.Delivery
import PJS.Lib.Progress
import PJS.Stream.Progress
import PJS.Client.PartialStreams
import PJS.Http.Download
import PJS.Publisher.Handlers
import PJS.Lib.EventStream
import PJS.Http.ServerSentEvents
import PJS.Lib.Levels
import PJS.Validation.SchemaSerde
import PJS.Validation.SchemaTransfer
import PJS.Session.Announcements
import PJS.Publisher.Books
import PJS.Publisher.Reports
import PJS.Session.Numbering
import PJS.Publisher.Custody
import PJS.FrameStore.FramesQuery
