import SeaClaw.Lib.Bytes
import SeaClaw.Lib.CBuffer
import SeaClaw.Lib.CString
import SeaClaw.Lib.Utf8
import SeaClaw.Lib.Stream
import SeaClaw.Lib.Socket
import SeaClaw.Lib.WsWire
import SeaClaw.Lib.Binary64
import SeaClaw.Lib.Strtod
import SeaClaw.Lib.Printf
import SeaClaw.Lib.HashChain
import SeaClaw.Core.Error
import SeaClaw.Json.Value
import SeaClaw.Json.Parse
import SeaClaw.Json.Grammar
import SeaClaw.Json.RoundTrip
import SeaClaw.Json.Confinement
import SeaClaw.Json.StringDecode
import SeaClaw.Websocket.Header
import SeaClaw.Websocket.Client
import SeaClaw.Websocket.Reassembly
import SeaClaw.Gateway.ControlProtocol
import SeaClaw.Gateway.ControlResponse
import SeaClaw.Gateway.WsServer
import SeaClaw.Gateway.WsServerRun
import SeaClaw.Gateway.WsServerFraming
import SeaClaw.Gateway.WsServerCuts
import SeaClaw.Security.Policy
import SeaClaw.Security.Shell
import SeaClaw.Security.Allowlist
import SeaClaw.Core.Arena
import SeaClaw.Core.ArenaOwnership
import SeaClaw.Lib.Hex
import SeaClaw.Security.Pairing
import SeaClaw.Lib.Machine
import SeaClaw.Security.PairingSteps
import SeaClaw.Security.PairingAtomic
import SeaClaw.Security.PairingLockout
import SeaClaw.Security.PairingTokens
import SeaClaw.Net.HttpUrl
import SeaClaw.Net.LocalhostOnly
import SeaClaw.Net.PrivateIp
import SeaClaw.Net.IpText
import SeaClaw.Net.IpPrivate
import SeaClaw.Lib.KeyStream
import SeaClaw.Lib.SealedBox
import SeaClaw.Security.Secrets
import SeaClaw.Security.SecretsBox
import SeaClaw.Security.SecretsAuthenticity
import SeaClaw.Security.SecretsRoundTrip
import SeaClaw.Lib.Base64
import SeaClaw.Lib.AssocList
import SeaClaw.Security.Vault
import SeaClaw.Security.VaultFaithful
import SeaClaw.Json.NumberText
import SeaClaw.Json.Rfc8259
import SeaClaw.Json.ParserTexts
import SeaClaw.Json.Acceptance
import SeaClaw.Core.ArenaDisjoint
import SeaClaw.Lib.DepSchedule
import SeaClaw.Agent.Dag
import SeaClaw.Agent.DagValidate
import SeaClaw.Agent.DagSchedule
import SeaClaw.Json.Prefix
import SeaClaw.Agent.LlmCompiler
import SeaClaw.Agent.DagPlan
import SeaClaw.Agent.TaskList
import SeaClaw.Lib.Ring
import SeaClaw.Agent.Mailbox
import SeaClaw.Agent.MailboxDelivery
import SeaClaw.Agent.Undo
import SeaClaw.Agent.Compaction
import SeaClaw.Agent.CompactionPairs
import SeaClaw.Cron.Crontab
import SeaClaw.Cron.CrontabIds
import SeaClaw.Cron.CrontabKeeps
import SeaClaw.Json.Documents
import SeaClaw.Sessions.Manager
import SeaClaw.Lib.Lru
import SeaClaw.Memory.Entry
import SeaClaw.Memory.Cache
import SeaClaw.Memory.CacheLru
import SeaClaw.Sse.EventStream
import SeaClaw.Providers.Sse
import SeaClaw.Sse.Client
import SeaClaw.EventBus.Bus
import SeaClaw.Gateway.RateLimit
import SeaClaw.Gateway.RateWindow
import SeaClaw.Lib.DoublyLinked
import SeaClaw.Lib.ExchangeSort
import SeaClaw.Memory.LruEngine
import SeaClaw.Memory.LruLists
import SeaClaw.Memory.LruRefines
import SeaClaw.Memory.LruRuns
import SeaClaw.Lib.Fgets
import SeaClaw.Memory.Markdown
import SeaClaw.Lib.PosixPath
import SeaClaw.Tools.ValidatePath
import SeaClaw.Providers.Scrub
import SeaClaw.Providers.ScrubCuts
import SeaClaw.Providers.ScrubTokens
import SeaClaw.Providers.ScrubTwice
import SeaClaw.Lib.Strtol
import SeaClaw.Lib.Marking
import SeaClaw.Memory.Consolidation
import SeaClaw.Lib.Timegm
import SeaClaw.Memory.Hygiene
import SeaClaw.Memory.HygieneDuplicates
import SeaClaw.Memory.HygieneRemoves
import SeaClaw.Memory.Stm
import SeaClaw.Memory.StmRecent
import SeaClaw.Memory.Outbox
import SeaClaw.Lib.SlotTable
import SeaClaw.Gateway.Tenant
import SeaClaw.Gateway.TenantIsolation
import SeaClaw.Gateway.Oauth
import SeaClaw.Gateway.OauthVerifier
import SeaClaw.Gateway.HttpAccept
import SeaClaw.Gateway.HttpIsolation
import SeaClaw.Lib.Substring
import SeaClaw.Security.SecretsBounds
import SeaClaw.Agent.CompactionInPlace
import SeaClaw.Agent.CompactionTwice
import SeaClaw.Agent.CompactionPressure
import SeaClaw.Agent.Subagent
import SeaClaw.Lib.Pipe
import SeaClaw.Core.ProcessUtil
import SeaClaw.Core.ProcessCapture
import SeaClaw.Lib.NumberTokens
import SeaClaw.Json.ClosedTexts
import SeaClaw.Config.Load
import SeaClaw.Lib.Sextets
import SeaClaw.Websocket.KeyEncoding
import SeaClaw.Websocket.BuildFrame
import SeaClaw.Sessions.Messages
import SeaClaw.Security.RateTracker
import SeaClaw.Cost.Tracker
import SeaClaw.Gateway.PkceChallenge
import SeaClaw.Json.ObjectStore
import SeaClaw.Routing.AgentRouting
import SeaClaw.Routing.NormalForm
import SeaClaw.Routing.SessionKeys
import SeaClaw.Security.RiskSequence
import SeaClaw.Json.OctetTexts
import SeaClaw.Security.AuditEvent
import SeaClaw.Security.AuditEscape
import SeaClaw.Security.AuditEntries
import SeaClaw.Security.AuditPrinting
import SeaClaw.Security.AuditOutcome
import SeaClaw.Security.AuditJson
import SeaClaw.Mcp.Client
import SeaClaw.Memory.Chunker
import SeaClaw.Memory.ChunkBreaks
import SeaClaw.Memory.ChunkCover
import SeaClaw.Memory.ChunkArray
import SeaClaw.Memory.SimilarityLaws
import SeaClaw.Tools.ResolvedPaths
import SeaClaw.Lib.RankFusion
import SeaClaw.Memory.Rerank
import SeaClaw.Memory.CircuitBreaker
import SeaClaw.Security.EscapeBounds
import SeaClaw.Security.AuditKeys
import SeaClaw.Memory.VectorStore
import SeaClaw.Memory.RrfMerge
import SeaClaw.Lib.GreedyOrder
import SeaClaw.Lib.Words
import SeaClaw.Memory.MmrRerank
import SeaClaw.Cron.Match
import SeaClaw.Context.EventExtract
import SeaClaw.Context.EventScan
import SeaClaw.Context.EventSpans
import SeaClaw.Context.RelativeDates
import SeaClaw.Memory.RedisReply
import SeaClaw.Memory.RedisParse
import SeaClaw.Lib.FirstStop
import SeaClaw.Providers.ErrorClassify
import SeaClaw.Providers.Reliable
import SeaClaw.Providers.FallbackPlan
import SeaClaw.Providers.FallbackLaw
import SeaClaw.Memory.Snapshot
import SeaClaw.Lib.TextLines
import SeaClaw.Tools.ApplyPatch
import SeaClaw.Tools.PatchTable
import SeaClaw.Tools.PatchApplies
import SeaClaw.Sessions.SessionFile
import SeaClaw.Sessions.SessionRestore
import SeaClaw.Sessions.SessionRuns
