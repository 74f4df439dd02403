import DeepSeekWebToApi.Config.Store
import DeepSeekWebToApi.Lib.JsonAny

/- The configuration (`internal/config/config.go`) and its normalisation (`config.go`,
   `credentials.go`, the proxy types of `proxyuri/node.go`).

   A nil pointer is `none`; nil and empty slices and maps are not told apart. A map is the
   list of its entries in the order of the keys; where `normalizeModelAliases` walks one, in
   Go in no fixed order, the order matters only for aliases that become the same. -/
set_option linter.dupNamespace false

namespace DeepSeekWebToApi.Config
open GoStrings GoJson

/-! The sections. -/

structure APIKey where
  key : Bytes := []
  name : Bytes := []
  remark : Bytes := []
  deriving DecidableEq

structure Proxy where
  id : Bytes := []
  name : Bytes := []
  type : Bytes := []
  host : Bytes := []
  port : Int64 := 0
  username : Bytes := []
  password : Bytes := []
  uri : Bytes := []
  subscriptionID : Bytes := []
  disabled : Bool := false
  disabledReason : Bytes := []
  disabledAtUnix : Int64 := 0
  consecutiveFailures : Int64 := 0
  lastTestAtUnix : Int64 := 0
  lastTestSuccess : Bool := false
  lastLatencyMS : Int64 := 0
  lastHTTPStatus : Int64 := 0
  lastTestError : Bytes := []
  lastExitIP : Bytes := []
  lastCountry : Bytes := []
  lastColo : Bytes := []

structure ProxySubscription where
  id : Bytes := []
  name : Bytes := []
  url : Bytes := []
  disabled : Bool := false
  autoUpdateDisabled : Bool := false
  autoTestDisabled : Bool := false
  updateIntervalMinutes : Int64 := 0
  lastUpdatedAtUnix : Int64 := 0
  lastAttemptAtUnix : Int64 := 0
  lastError : Bytes := []
  nodeCount : Int64 := 0

structure ProxyCoreConfig where
  xrayBinaryPath : Bytes := []
  runtimeDir : Bytes := []
  startupTimeoutSeconds : Int64 := 0
  autoDownloadDisabled : Bool := false
  downloadDir : Bytes := []
  downloadVersion : Bytes := []
  installedVersion : Bytes := []

structure ProxyPolicyConfig where
  healthCheckEnabled : Option Bool := none
  automaticRoutingEnabled : Option Bool := none
  healthCheckIntervalMinutes : Int64 := 0
  autoDisableAfterFailures : Int64 := 0
  autoEnableOnRecovery : Option Bool := none
  fallbackProxyID : Bytes := []
  subscriptionUpdateIntervalMinutes : Int64 := 0
  testConcurrency : Int64 := 0

structure AdminConfig where
  key : Bytes := []
  passwordHash : Bytes := []
  jwtSecret : Bytes := []
  jwtExpireHours : Int64 := 0
  jwtValidAfterUnix : Int64 := 0

structure ServerConfig where
  port : Bytes := []
  bindAddr : Bytes := []
  logLevel : Bytes := []
  staticAdminDir : Bytes := []
  autoBuildWebUI : Option Bool := none
  httpTotalTimeoutSeconds : Int64 := 0
  remoteFileUploadEnabled : Option Bool := none

structure StorageConfig where
  dataDir : Bytes := []
  accountsSQLitePath : Bytes := []
  chatHistoryPath : Bytes := []
  chatHistorySQLitePath : Bytes := []
  tokenUsageSQLitePath : Bytes := []
  safetyWordsSQLitePath : Bytes := []
  safetyIPsSQLitePath : Bytes := []
  rawStreamSampleRoot : Bytes := []

structure ResponseCacheConfig where
  dir : Bytes := []
  memoryTTLSeconds : Int64 := 0
  diskTTLSeconds : Int64 := 0
  maxBodyBytes : Int64 := 0
  memoryMaxBytes : Int64 := 0
  diskMaxBytes : Int64 := 0
  semanticKey : Option Bool := none

structure CacheConfig where
  response : ResponseCacheConfig := {}

structure JailbreakConfig where
  enabled : Option Bool := none
  patterns : List Bytes := []

structure SafetyAutoBanConfig where
  enabled : Option Bool := none
  threshold : Int64 := 0
  windowSeconds : Int64 := 0

structure SafetyLLMCheckConfig where
  enabled : Option Bool := none
  model : Bytes := []
  timeoutMs : Int64 := 0
  failOpen : Option Bool := none
  cacheTTLSeconds : Int64 := 0
  cacheMaxEntries : Int64 := 0
  minInputChars : Int64 := 0
  maxInputChars : Int64 := 0
  maxConcurrent : Int64 := 0

structure SafetyConfig where
  enabled : Option Bool := none
  blockMessage : Bytes := []
  blockedIPs : List Bytes := []
  allowedIPs : List Bytes := []
  blockedConversationIDs : List Bytes := []
  bannedContent : List Bytes := []
  bannedRegex : List Bytes := []
  jailbreak : JailbreakConfig := {}
  disabledBuiltinRules : List Bytes := []
  autoBan : SafetyAutoBanConfig := {}
  llmCheck : SafetyLLMCheckConfig := {}

structure RuntimeConfig where
  accountMaxInflight : Int64 := 0
  accountMaxQueue : Int64 := 0
  globalMaxInflight : Int64 := 0
  tokenRefreshIntervalHours : Int64 := 0
  accountHealthCheckIntervalMinutes : Int64 := 0

structure CompatConfig where
  wideInputStrictOutput : Option Bool := none
  stripReferenceMarkers : Option Bool := none

structure ResponsesConfig where
  storeTTLSeconds : Int64 := 0

structure EmbeddingsConfig where
  provider : Bytes := []

structure AutoDeleteConfig where
  mode : Bytes := []
  sessions : Bool := false

structure HistorySplitConfig where
  enabled : Option Bool := none
  triggerAfterTurns : Option Int64 := none

structure CurrentInputFileConfig where
  enabled : Option Bool := none
  minChars : Int64 := 0

structure ThinkingInjectionConfig where
  enabled : Option Bool := none
  prompt : Bytes := []

structure AppUpdateConfig where
  enabled : Option Bool := none
  autoDownload : Option Bool := none
  autoApply : Option Bool := none
  checkIntervalMinutes : Int64 := 0

/-- `F` are the values of `float64`. -/
structure PromptLimitConfig (F : Type) where
  enabled : Option Bool := none
  maxCharsDefault : Int64 := 0
  maxCharsExpert : Int64 := 0
  autoCompressEnabled : Option Bool := none
  compressKeepRecent : Int64 := 0
  compressKeepSystem : Option Bool := none
  proFlashCompressionEnabled : Option Bool := none
  proFlashCompressionTargetChars : Int64 := 0
  sessionChunkingEnabled : Option Bool := none
  sessionChunkingTargetRatio : F
  sessionChunkingMaxChunks : Int64 := 0
  sessionChunkingCommitTimeoutSeconds : Int64 := 0
  summaryCompactionEnabled : Option Bool := none
  summaryCompactionThreshold : F
  incrementalMaxTurns : Option Int64 := none
  incrementalRotationKeepRecent : Int64 := 0

structure Config (F : Type) where
  configSchemaVersion : Int64 := 0
  keys : List Bytes := []
  apiKeys : List APIKey := []
  accounts : List Account := []
  proxies : List Proxy := []
  proxySubscriptions : List ProxySubscription := []
  proxyCore : ProxyCoreConfig := {}
  proxyPolicy : ProxyPolicyConfig := {}
  modelAliases : KeyMap Bytes := []
  admin : AdminConfig := {}
  server : ServerConfig := {}
  storage : StorageConfig := {}
  cache : CacheConfig := {}
  safety : SafetyConfig := {}
  runtime : RuntimeConfig := {}
  compat : CompatConfig := {}
  responses : ResponsesConfig := {}
  embeddings : EmbeddingsConfig := {}
  autoDelete : AutoDeleteConfig := {}
  historySplit : HistorySplitConfig := {}
  currentInputFile : CurrentInputFileConfig := {}
  thinkingInjection : ThinkingInjectionConfig := {}
  promptLimit : PromptLimitConfig F
  appUpdate : AppUpdateConfig := {}
  additionalFields : KeyMap (Any F) := []

/-- `PromptLimitConfig{}`. -/
def PromptLimitConfig.empty {F : Type} (φ : FloatFormat F) : PromptLimitConfig F :=
  { sessionChunkingTargetRatio := φ.zero, summaryCompactionThreshold := φ.zero }

/-- `Config{}`. -/
def Config.empty {F : Type} (φ : FloatFormat F) : Config F := { promptLimit := .empty φ }

/-! Proxies. -/

/-- `proxyuri.NormalizeType`. -/
def normalizeType (value : Bytes) : Bytes :=
  let type := toLower (trimSpace value)
  if type = lit "hy2" ∨ type = lit "hysteria2" then lit "hysteria2"
  else if type = lit "ss" ∨ type = lit "shadowsocks" then lit "shadowsocks"
  else type

/-- `proxyuri.IsCoreType`. -/
def isCoreType (value : Bytes) : Bool :=
  [lit "vless", lit "vmess", lit "hysteria2", lit "shadowsocks"].contains (normalizeType value)

/-- What the configuration takes from a parsed node URI. -/
structure ProxyNode where
  address : Bytes
  port : Int64
  displayName : Bytes

/-- The functions the proxies are normalised with: `proxyuri.Parse`, `strings.ToUpper` and the
    digests of `crypto/sha1` and `crypto/sha256`. -/
structure ProxyTools where
  parse : Bytes → Bytes → Option ProxyNode
  toUpper : Bytes → Bytes
  sha1 : Bytes → Bytes
  sha256 : Bytes → Bytes

def stableProxyID (tools : ProxyTools) (p : Proxy) : Bytes :=
  let type := normalizeType p.type
  let sum :=
    if isCoreType type then tools.sha256 (type ++ lit "|" ++ trimSpace p.uri)
    else tools.sha1 (toLower (trimSpace type) ++ lit "|" ++ toLower (trimSpace p.host) ++ lit "|" ++
      formatInt p.port.toInt ++ lit "|" ++ trimSpace p.username)
  lit "proxy_" ++ hexEncode (sum.take 6)

/-- The first 600 runes of a longer text, and dots. -/
def truncateTestError (text : Bytes) : Bytes :=
  if 600 < (splitRunes text).length then encode (((splitRunes text).take 600).map Prod.fst) ++ lit "..."
  else text

/-! The stages of `normalizeProxy`. -/

def Proxy.trimmed (tools : ProxyTools) (p : Proxy) : Proxy :=
  { p with
    id := trimSpace p.id
    name := trimSpace p.name
    type := normalizeType p.type
    host := trimSpace p.host
    username := trimSpace p.username
    password := trimSpace p.password
    uri := trimSpace p.uri
    subscriptionID := trimSpace p.subscriptionID
    disabledReason := trimSpace p.disabledReason
    lastTestError := truncateTestError (trimSpace p.lastTestError)
    lastExitIP := trimSpace p.lastExitIP
    lastCountry := tools.toUpper (trimSpace p.lastCountry)
    lastColo := tools.toUpper (trimSpace p.lastColo)
    consecutiveFailures := if p.consecutiveFailures < 0 then 0 else p.consecutiveFailures }

/-- The address of a node that is given by its URI. -/
def Proxy.resolved (tools : ProxyTools) (p : Proxy) : Proxy :=
  if isCoreType p.type then
    match tools.parse p.type p.uri with
    | some node =>
      { p with
        host := node.address
        port := node.port
        username := []
        password := []
        name := if p.name = [] then node.displayName else p.name }
    | none => { p with host := [], port := 0, username := [], password := [] }
  else { p with uri := [] }

def Proxy.identified (tools : ProxyTools) (p : Proxy) : Proxy :=
  if p.id = [] then { p with id := stableProxyID tools p } else p

def Proxy.named (p : Proxy) : Proxy :=
  if p.name = [] ∧ p.host ≠ [] ∧ 0 < p.port then
    { p with name := p.host ++ lit ":" ++ formatInt p.port.toInt }
  else p

def normalizeProxy (tools : ProxyTools) (p : Proxy) : Proxy :=
  (((p.trimmed tools).resolved tools).identified tools).named

/-! Credentials. -/

/-- The loop the three lists of credentials are cleaned with: items without a key and items
    whose key was seen are dropped. -/
def dedupeKeys {α β : Type} (key : α → Bytes) (item : α → β) : List Bytes → List α → List β
  | _, [] => []
  | seen, a :: rest =>
    let k := trimSpace (key a)
    if k = [] ∨ k ∈ seen then dedupeKeys key item seen rest
    else item a :: dedupeKeys key item (k :: seen) rest

def APIKey.trimmed (item : APIKey) : APIKey :=
  { key := trimSpace item.key, name := trimSpace item.name, remark := trimSpace item.remark }

def normalizeKeys (keys : List Bytes) : List Bytes := dedupeKeys id trimSpace [] keys

def normalizeAPIKeys (items : List APIKey) : List APIKey := dedupeKeys APIKey.key APIKey.trimmed [] items

/-- An API key for each key, with the name and remark `info` knows for it. -/
def apiKeysFromStrings (keys : List Bytes) (info : Bytes → Option APIKey) : List APIKey :=
  dedupeKeys id
    (fun key =>
      match info (trimSpace key) with
      | some item => { item.trimmed with key := trimSpace key }
      | none => { key := trimSpace key })
    [] keys

def apiKeysToStrings (items : List APIKey) : List Bytes :=
  (items.map (fun item => trimSpace item.key)).filter (fun key => decide (key ≠ []))

def apiKeyMap (items : List APIKey) (key : Bytes) : Option APIKey :=
  if key = [] then none else (items.find? (fun item => trimSpace item.key == key)).map APIKey.trimmed

def equalAPIKeys (a b : List APIKey) : Bool := a.map APIKey.trimmed == b.map APIKey.trimmed

/-- `lower` of `models.go`: ASCII letters only. -/
def lower (s : Bytes) : Bytes := s.map lowerAscii

def normalizeModelAliases (aliases : KeyMap Bytes) : KeyMap Bytes :=
  aliases.foldl
    (fun out kv =>
      let key := trimSpace (lower kv.1)
      let val := trimSpace (lower kv.2)
      if key = [] ∨ val = [] then out else out.insert key val)
    []

section config
variable {F : Type}

/-- `NormalizeCredentials`, at the time `now`. -/
def Config.normalizeCredentials (tools : ProxyTools) (now : Int) (c : Config F) : Config F :=
  let apiKeys := normalizeAPIKeys c.apiKeys
  let keys := normalizeKeys c.keys
  { c with
    keys := if apiKeys ≠ [] then apiKeysToStrings apiKeys else keys
    apiKeys := if apiKeys ≠ [] then apiKeys else apiKeysFromStrings keys (fun _ => none)
    accounts := c.accounts.map (DeepSeekWebToApi.Config.normalizeCredentials now)
    proxies := c.proxies.map (normalizeProxy tools)
    proxySubscriptions := c.proxySubscriptions.map (fun sub =>
      { sub with
        id := trimSpace sub.id
        name := trimSpace sub.name
        url := trimSpace sub.url
        lastError := trimSpace sub.lastError })
    proxyCore :=
      { c.proxyCore with
        xrayBinaryPath := trimSpace c.proxyCore.xrayBinaryPath
        runtimeDir := trimSpace c.proxyCore.runtimeDir
        downloadDir := trimSpace c.proxyCore.downloadDir
        downloadVersion := trimSpace c.proxyCore.downloadVersion
        installedVersion := trimSpace c.proxyCore.installedVersion }
    proxyPolicy := { c.proxyPolicy with fallbackProxyID := trimSpace c.proxyPolicy.fallbackProxyID }
    modelAliases := normalizeModelAliases c.modelAliases }

/-- `ReconcileCredentials`: an edit of `keys` alone is carried over to the API keys. -/
def Config.reconcileCredentials (c base : Config F) : Config F :=
  let currKeys := normalizeKeys c.keys
  let currAPIKeys := normalizeAPIKeys c.apiKeys
  let keysChanged := currKeys != normalizeKeys base.keys
  let apiKeysChanged := !equalAPIKeys currAPIKeys (normalizeAPIKeys base.apiKeys)
  let apiKeys :=
    if keysChanged && !apiKeysChanged then
      apiKeysFromStrings currKeys (apiKeyMap (normalizeAPIKeys base.apiKeys))
    else currAPIKeys
  { c with apiKeys := apiKeys, keys := apiKeysToStrings apiKeys }

end config

end DeepSeekWebToApi.Config
