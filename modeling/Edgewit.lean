import Edgewit.Machine
import Edgewit.Frame
import Edgewit.Reader
import Edgewit.Disk
import Edgewit.Appender
import Edgewit.Protocol
import Edgewit.Failure
import Edgewit.Retention
import Edgewit.Placement
import Edgewit.Pruning
import Edgewit.Tiling
import Edgewit.LogStream
import Edgewit.Restart
import Edgewit.Json
import Edgewit.Schema
import Edgewit.Validation
import Edgewit.Indexer
import Edgewit.Staging
import Edgewit.Refinement
import Edgewit.Compaction
import Edgewit.Watermark
import Edgewit.System
import Edgewit.Ingest
import Edgewit.Recovery
import Edgewit.Replay
import Edgewit.SchemaValidation
import Edgewit.Cutoff
import Edgewit.Management
import Edgewit.Search
import Edgewit.ManagementCalls
import Edgewit.Isolation
import Edgewit.Lifecycle
import Edgewit.Deletion
import Edgewit.BulkBody
import Edgewit.Conformance
import Edgewit.Documents
import Edgewit.Ranking
import Edgewit.Paging
import Edgewit.WalCleanup
import Edgewit.CommitRetry
import Edgewit.DiskFailures
import Edgewit.FrameLimits
import Edgewit.Scanning
import Edgewit.Loading
import Edgewit.RetentionFormat
import Edgewit.SearchLimits
import Edgewit.QueryCoverage
import Edgewit.ClauseTexts
import Edgewit.SizeLimits
import Edgewit.Channels
import Edgewit.Rotation
import Edgewit.Serde
import Edgewit.DefinitionFormat
import Edgewit.IndexApi
import Edgewit.Visibility
import Edgewit.Searchable
import Edgewit.Locking
import Edgewit.Opening
import Edgewit.Edits
import Edgewit.Retained
import Edgewit.Settling
import Edgewit.DiskUse
import Edgewit.Interleaving
import Edgewit.Responders
import Edgewit.Clients
import Edgewit.Ingested
import Edgewit.QueryTokens
