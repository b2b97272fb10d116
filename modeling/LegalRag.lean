import LegalRag.Calls.Program
import LegalRag.Calls.Crash
import LegalRag.Calls.Service
import LegalRag.Calls.Generator
import LegalRag.Calls.Effects
import LegalRag.Redis.SortedSet
import LegalRag.Redis.Lists
import LegalRag.Cache.RateLimit
import LegalRag.Cache.SlidingWindow
import LegalRag.Cache.RateSteps
import LegalRag.Cache.WindowSafe
import LegalRag.Cache.FullWindow
import LegalRag.Db.Models
import LegalRag.Api.Calls
import LegalRag.Memory.ShortTerm
import LegalRag.Memory.LogCache
import LegalRag.Agent.Prompts
import LegalRag.Agent.Graph
import LegalRag.Api.Chat
import LegalRag.Api.Files
import LegalRag.Api.World
import LegalRag.Memory.Views
import LegalRag.Memory.ChatTurns
import LegalRag.Memory.BufferFaithful
import LegalRag.Memory.PromptHistory
import LegalRag.Worker.Queue
import LegalRag.Worker.Delivery
import LegalRag.Db.Table
import LegalRag.Calls.Protocol
import LegalRag.Db.Users
import LegalRag.Auth.Calls
import LegalRag.Auth.Security
import LegalRag.Auth.Routes
import LegalRag.Auth.World
import LegalRag.Auth.Phases
import LegalRag.Auth.SingleUse
import LegalRag.Text.Strings
import LegalRag.Text.Regex
import LegalRag.Ingestion.Parsed
import LegalRag.Ingestion.Chunker
import LegalRag.Ingestion.Calls
import LegalRag.Ingestion.Indexer
import LegalRag.Ingestion.Process
import LegalRag.Ingestion.World
import LegalRag.Ingestion.JobSpec
import LegalRag.Ingestion.Stages
import LegalRag.Ingestion.Consistent
import LegalRag.Ingestion.Recovery
import LegalRag.Ingestion.JobPhases
import LegalRag.Ingestion.Terminal
import LegalRag.Text.Matches
import LegalRag.Ingestion.Tokens
import LegalRag.Ingestion.Markers
import LegalRag.Ingestion.Pages
import LegalRag.Ingestion.Sections
import LegalRag.Ingestion.Citations
import LegalRag.Api.UploadAtomic
import LegalRag.Db.Documents
import LegalRag.Retrieval.Search
import LegalRag.Ingestion.Owner
import LegalRag.Worker.Platform
import LegalRag.Worker.Ownership
import LegalRag.Api.ChatPhases
import LegalRag.Worker.Stranded
import LegalRag.Api.Sessions
import LegalRag.Memory.Counter
import LegalRag.Api.SessionPhases
import LegalRag.Memory.WarmupRace
import LegalRag.Text.Json
import LegalRag.Calls.Contracts
import LegalRag.Cache.Lru
import LegalRag.Cache.Keys
import LegalRag.Llm.Calls
import LegalRag.Llm.Client
import LegalRag.Llm.Transparent
import LegalRag.Llm.Embeddings
import LegalRag.Llm.Deployments
import LegalRag.Memory.Facts
import LegalRag.Memory.SavePhases
import LegalRag.Lists.Ranked
import LegalRag.Memory.Dedupe
import LegalRag.Memory.Redelivery
import LegalRag.Retrieval.Rerank
import LegalRag.Ingestion.Headings
import LegalRag.Ingestion.Formats
import LegalRag.Auth.Issuing
import LegalRag.Auth.Traceless
import LegalRag.Auth.Accounts
import LegalRag.Auth.Binding
import LegalRag.Auth.Deactivated
import LegalRag.Calls.Exact
import LegalRag.Api.EventStream
import LegalRag.Api.ChatOutcome
import LegalRag.Api.ChatStreaming
import LegalRag.Ingestion.Announcing
import LegalRag.Api.FileEvents
import LegalRag.Worker.Progress
import LegalRag.Calls.Gather
import LegalRag.Text.PyValues
import LegalRag.Retrieval.Pipeline
import LegalRag.Retrieval.Shared
import LegalRag.Retrieval.Alone
import LegalRag.Retrieval.Isolation
import LegalRag.Text.Replies
import LegalRag.Retrieval.RerankReplies
import LegalRag.Retrieval.RewriteReplies
import LegalRag.Retrieval.RerankCache
import LegalRag.Retrieval.Contract
import LegalRag.Memory.FactReplies
import LegalRag.Memory.Audit
import LegalRag.Worker.StatusFields
import LegalRag.Calls.Verdict
import LegalRag.Ingestion.Abandoned
import LegalRag.Llm.Batches
import LegalRag.Api.UploadDedupe
import LegalRag.Retrieval.Sources
import LegalRag.Api.NarrowScope
import LegalRag.Lists.Related
import LegalRag.Memory.Replay
import LegalRag.Lists.Recency
import LegalRag.Cache.LruRuns
import LegalRag.Retrieval.KeyTexts
import LegalRag.Lists.Best
import LegalRag.Retrieval.Pool
import LegalRag.Cache.RetryAfter
import LegalRag.Memory.History
import LegalRag.Ingestion.Emitted
import LegalRag.Ingestion.ChunkSizes
import LegalRag.Ingestion.Conservation
import LegalRag.Ingestion.RoundTrip
import LegalRag.Lists.Windows
import LegalRag.Ingestion.Cuts
import LegalRag.Ingestion.PageOrder
import LegalRag.Calls.Transcript
import LegalRag.Ingestion.Pairs
import LegalRag.Calls.Projection
import LegalRag.Cache.Gates
import LegalRag.Api.Conversations
import LegalRag.Api.Private
import LegalRag.Calls.Watch
import LegalRag.Api.Listing
import LegalRag.Api.Archiving
import LegalRag.Ingestion.Provenance
import LegalRag.Api.Originals
import LegalRag.Worker.Originals
import LegalRag.Worker.Traced
import LegalRag.Auth.Guard
import LegalRag.Memory.Recall
import LegalRag.Ingestion.WholeRows
import LegalRag.Worker.IndexedOnce
import LegalRag.Calls.Growing
import LegalRag.Retrieval.Grounded
