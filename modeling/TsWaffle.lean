import TsWaffle.Lib.Text
import TsWaffle.Lib.Table
import TsWaffle.Lib.OrderedSet
import TsWaffle.Lib.Runs
import TsWaffle.Lib.Window
import TsWaffle.FrequencySmoother
import TsWaffle.TimestampIndex
import TsWaffle.Cache
import TsWaffle.Values
import TsWaffle.RunningKeys
import TsWaffle.Settlement
import TsWaffle.EncryptionEngine
import TsWaffle.Responder
import TsWaffle.Proxy
import TsWaffle.Consumer
import TsWaffle.Reading
import TsWaffle.Selection
import TsWaffle.WritingBack
import TsWaffle.Residence
import TsWaffle.Serving
import TsWaffle.Storing
import TsWaffle.Execution
import TsWaffle.Closing
import TsWaffle.Batches
import TsWaffle.Loading
import TsWaffle.Consuming
import TsWaffle.Novelty
import TsWaffle.Shape
import TsWaffle.Ledger
import TsWaffle.Placement
import TsWaffle.Reference
import TsWaffle.Answers
import TsWaffle.Refinement
import TsWaffle.Overwriting
import TsWaffle.Lib.Counting
import TsWaffle.Indexing
import TsWaffle.Registering
import TsWaffle.Attending
import TsWaffle.Returning
import TsWaffle.Sizing
import TsWaffle.Staging
import TsWaffle.Conserving
import TsWaffle.Lib.Fifo
import TsWaffle.Evicting
import TsWaffle.Lib.Rotation
import TsWaffle.Following
import TsWaffle.Spelling
import TsWaffle.Rotating
import TsWaffle.Aging
import TsWaffle.Draining
import TsWaffle.Agreeing
import TsWaffle.Dispatching
import TsWaffle.Lib.Buckets
import TsWaffle.Ranging
import TsWaffle.Lib.Blocks
import TsWaffle.Codec
import TsWaffle.Summing
import TsWaffle.Lib.Substrings
import TsWaffle.Parsing
import TsWaffle.Searching
import TsWaffle.Refusing
import TsWaffle.Lib.Grouping
import TsWaffle.Sharding
import TsWaffle.Lib.Threads
import TsWaffle.Interleaving
import TsWaffle.Sharing
import TsWaffle.Isolating
import TsWaffle.Colliding
import TsWaffle.Serializing
import TsWaffle.Lib.Recency
import TsWaffle.Caching
import TsWaffle.Touching
import TsWaffle.Queueing
import TsWaffle.Benchmark
import TsWaffle.Lib.Turns
import TsWaffle.Spreading
import TsWaffle.Generating
import TsWaffle.Playing
import TsWaffle.Naming
import TsWaffle.Deploying
import TsWaffle.Sweeping
import TsWaffle.Occupying
import TsWaffle.Lib.Places
import TsWaffle.Pipelining
import TsWaffle.Waking
import TsWaffle.Sealing
import TsWaffle.Lib.Shards
import TsWaffle.Housing
import TsWaffle.Connecting
import TsWaffle.Recording
import TsWaffle.Tracing
import TsWaffle.Lingering
