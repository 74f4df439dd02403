import DeepSeekWebToApi.Lib.Strings
import DeepSeekWebToApi.Lib.Unicode
import DeepSeekWebToApi.Lib.Utf8
import DeepSeekWebToApi.Lib.KeyMap
import DeepSeekWebToApi.Lib.Json
import DeepSeekWebToApi.Lib.JsonLaws
import DeepSeekWebToApi.Lib.JsonWf
import DeepSeekWebToApi.Lib.JsonCodec
import DeepSeekWebToApi.Lib.JsonAny
import DeepSeekWebToApi.Lib.Runs
import DeepSeekWebToApi.Lib.Table
import DeepSeekWebToApi.Config.Account
import DeepSeekWebToApi.Config.Store
import DeepSeekWebToApi.Config.Identity
import DeepSeekWebToApi.Config.Settings
import DeepSeekWebToApi.Config.Sections
import DeepSeekWebToApi.Config.Codec
import DeepSeekWebToApi.Config.RoundTrip
import DeepSeekWebToApi.Config.Writes
import DeepSeekWebToApi.AccountPool.Core
import DeepSeekWebToApi.AccountPool.Acquire
import DeepSeekWebToApi.AccountPool.Ledger
import DeepSeekWebToApi.AccountPool.Waiters
import DeepSeekWebToApi.Auth.Resolver
import DeepSeekWebToApi.Lib.Text
import DeepSeekWebToApi.Lib.CaseFold
import DeepSeekWebToApi.Lib.RuneText
import DeepSeekWebToApi.Lib.Regexp
import DeepSeekWebToApi.Lib.Loop
import DeepSeekWebToApi.Toolcall.Scan
import DeepSeekWebToApi.Toolcall.Dsml
import DeepSeekWebToApi.Toolcall.Value
import DeepSeekWebToApi.Toolcall.Markup
import DeepSeekWebToApi.Toolcall.Folding
import DeepSeekWebToApi.Toolcall.Parse
import DeepSeekWebToApi.Toolcall.Schema
import DeepSeekWebToApi.Toolstream.Fence
import DeepSeekWebToApi.Toolstream.Sieve
import DeepSeekWebToApi.Toolstream.Segments
import DeepSeekWebToApi.Toolstream.Order
import DeepSeekWebToApi.ChatHistory.Store
import DeepSeekWebToApi.ChatHistory.Conservation
import DeepSeekWebToApi.Lib.Net
import DeepSeekWebToApi.Lib.Http
import DeepSeekWebToApi.Requestmeta.ClientIP
import DeepSeekWebToApi.Requestguard.Guard
import DeepSeekWebToApi.Requestguard.AutoBan
import DeepSeekWebToApi.Requestguard.Justified
import DeepSeekWebToApi.Requestguard.Verdicts
import DeepSeekWebToApi.ResponseCache.Store
import DeepSeekWebToApi.ResponseCache.ReadYourWrites
import DeepSeekWebToApi.ResponseCache.Served
import DeepSeekWebToApi.ResponseCache.Interleaving
import DeepSeekWebToApi.Safetyllm.Prompt
import DeepSeekWebToApi.Safetyllm.Checker
import DeepSeekWebToApi.Safetyllm.HardSignals
import DeepSeekWebToApi.ResponseCache.Accounting
import DeepSeekWebToApi.ResponseCache.SingleFlight
import DeepSeekWebToApi.ResponseCache.FlightEnds
import DeepSeekWebToApi.Upstreamsession.Store
import DeepSeekWebToApi.Upstreamsession.Selection
import DeepSeekWebToApi.Upstreamsession.Leases
import DeepSeekWebToApi.Upstreamsession.Reachability
import DeepSeekWebToApi.Lib.UpperCase
import DeepSeekWebToApi.Lib.Print
import DeepSeekWebToApi.Sse.Parser
import DeepSeekWebToApi.Sse.Content
import DeepSeekWebToApi.Sse.Line
import DeepSeekWebToApi.Sse.Pump
import DeepSeekWebToApi.Client.Continue
import DeepSeekWebToApi.Client.Splice
import DeepSeekWebToApi.Client.Finish
import DeepSeekWebToApi.Lib.Search
import DeepSeekWebToApi.Shared.SessionChunking
import DeepSeekWebToApi.Toolcall.ProperCdata
import DeepSeekWebToApi.Toolstream.PartialTags
import DeepSeekWebToApi.Safetyllm.Provenance
import DeepSeekWebToApi.History.PrefixStore
import DeepSeekWebToApi.History.PrefixPlans
import DeepSeekWebToApi.Lib.LeastLoaded
import DeepSeekWebToApi.Config.Proxies
import DeepSeekWebToApi.Proxyservice.Router
import DeepSeekWebToApi.Proxyservice.Reassign
import DeepSeekWebToApi.Proxyservice.AutoRoute
import DeepSeekWebToApi.Lib.LeastRecent
import DeepSeekWebToApi.AccountPool.Rotation
import DeepSeekWebToApi.Lib.AsciiSearch
import DeepSeekWebToApi.Sse.FilterLeak
import DeepSeekWebToApi.Sse.Collect
import DeepSeekWebToApi.Toolcall.CdataRepair
import DeepSeekWebToApi.AccountPool.AffinityLock
import DeepSeekWebToApi.Config.AccountTable
import DeepSeekWebToApi.AccountPool.SessionKey
import DeepSeekWebToApi.Shared.ChunkTurn
import DeepSeekWebToApi.Shared.ChunkPrompts
import DeepSeekWebToApi.Lib.Places
import DeepSeekWebToApi.Shared.SummaryCompaction
import DeepSeekWebToApi.Promptcompat.Compress
import DeepSeekWebToApi.Prompt.ToolCalls
import DeepSeekWebToApi.Promptcompat.ToolMessageRepair
import DeepSeekWebToApi.Promptcompat.ToolPairing
import DeepSeekWebToApi.Promptcompat.ToolCallIDs
import DeepSeekWebToApi.Toolcall.Backslashes
import DeepSeekWebToApi.Lib.Framed
import DeepSeekWebToApi.Safetyllm.Markers
import DeepSeekWebToApi.Lib.Tally
import DeepSeekWebToApi.Safetyllm.Accounting
import DeepSeekWebToApi.ResponseCache.HitCounts
