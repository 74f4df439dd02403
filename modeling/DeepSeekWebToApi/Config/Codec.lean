import DeepSeekWebToApi.Config.Sections

/- The configuration as JSON (`internal/config/codec.go`, `codec_helpers.go`).

   `MarshalJSON` decides for each section by a test of its own whether it is written, and
   the tests pass over some of the settings: a section with nothing else in it is lost. A
   configuration that was normalised is read back exactly where no such section is. -/
set_option linter.dupNamespace false

namespace DeepSeekWebToApi.Config
open GoStrings GoJson

/-! The tests of the sections. -/

/-- A text that is not blank. -/
def given (s : Bytes) : Bool := decide (trimSpace s ≠ [])

def proxyCoreConfigured (c : ProxyCoreConfig) : Bool :=
  given c.xrayBinaryPath || given c.runtimeDir || 0 < c.startupTimeoutSeconds || c.autoDownloadDisabled ||
    given c.downloadDir || given c.downloadVersion || given c.installedVersion

def proxyPolicyConfigured (p : ProxyPolicyConfig) : Bool :=
  p.healthCheckEnabled.isSome || p.automaticRoutingEnabled.isSome || 0 < p.healthCheckIntervalMinutes ||
    0 < p.autoDisableAfterFailures || p.autoEnableOnRecovery.isSome || given p.fallbackProxyID ||
    0 < p.subscriptionUpdateIntervalMinutes || 0 < p.testConcurrency

def adminConfigured (c : AdminConfig) : Bool :=
  given c.key || given c.passwordHash || given c.jwtSecret || 0 < c.jwtExpireHours || 0 < c.jwtValidAfterUnix

def serverConfigured (c : ServerConfig) : Bool :=
  given c.port || given c.bindAddr || given c.logLevel || given c.staticAdminDir || c.autoBuildWebUI.isSome ||
    0 < c.httpTotalTimeoutSeconds || c.remoteFileUploadEnabled.isSome

def storageConfigured (c : StorageConfig) : Bool :=
  given c.dataDir || given c.accountsSQLitePath || given c.chatHistoryPath || given c.chatHistorySQLitePath ||
    given c.tokenUsageSQLitePath || given c.safetyWordsSQLitePath || given c.safetyIPsSQLitePath ||
    given c.rawStreamSampleRoot

def responseCacheConfigured (c : ResponseCacheConfig) : Bool :=
  given c.dir || 0 < c.memoryTTLSeconds || 0 < c.diskTTLSeconds || 0 < c.maxBodyBytes || 0 < c.memoryMaxBytes ||
    0 < c.diskMaxBytes || c.semanticKey.isSome

/-- `disabledBuiltinRules` and `llmCheck` are not looked at. -/
def safetyConfigured (c : SafetyConfig) : Bool :=
  c.enabled.isSome || given c.blockMessage || !c.blockedIPs.isEmpty || !c.allowedIPs.isEmpty ||
    !c.blockedConversationIDs.isEmpty || !c.bannedContent.isEmpty || !c.bannedRegex.isEmpty ||
    c.jailbreak.enabled.isSome || !c.jailbreak.patterns.isEmpty || c.autoBan.enabled.isSome ||
    0 < c.autoBan.threshold || 0 < c.autoBan.windowSeconds

/-- `accountHealthCheckIntervalMinutes` is not looked at. -/
def runtimeConfigured (c : RuntimeConfig) : Bool :=
  0 < c.accountMaxInflight || 0 < c.accountMaxQueue || 0 < c.globalMaxInflight ||
    0 < c.tokenRefreshIntervalHours

def compatConfigured (c : CompatConfig) : Bool :=
  c.wideInputStrictOutput.isSome || c.stripReferenceMarkers.isSome

def historySplitConfigured (c : HistorySplitConfig) : Bool := c.enabled.isSome || c.triggerAfterTurns.isSome

def currentInputFileConfigured (c : CurrentInputFileConfig) : Bool := c.enabled.isSome || c.minChars != 0

def thinkingInjectionConfigured (c : ThinkingInjectionConfig) : Bool := c.enabled.isSome || given c.prompt

def promptLimitConfigured {F : Type} (φ : FloatFormat F) (p : PromptLimitConfig F) : Bool :=
  p.enabled.isSome || 0 < p.maxCharsDefault || 0 < p.maxCharsExpert || p.autoCompressEnabled.isSome ||
    0 < p.compressKeepRecent || p.compressKeepSystem.isSome || p.proFlashCompressionEnabled.isSome ||
    0 < p.proFlashCompressionTargetChars || p.sessionChunkingEnabled.isSome ||
    φ.positive p.sessionChunkingTargetRatio || 0 < p.sessionChunkingMaxChunks ||
    0 < p.sessionChunkingCommitTimeoutSeconds || p.summaryCompactionEnabled.isSome ||
    φ.positive p.summaryCompactionThreshold || p.incrementalMaxTurns.isSome ||
    0 < p.incrementalRotationKeepRecent

def appUpdateConfigured (c : AppUpdateConfig) : Bool :=
  c.enabled.isSome || c.autoDownload.isSome || c.autoApply.isSome || 0 < c.checkIntervalMinutes

/-! Writing and reading. -/

section codec
variable {F : Type} [DecidableEq F] (φ : FloatFormat F)

/-- A section that is written where its test finds it configured. -/
def sectionField {α : Type} (codec : Codec α) (name : String) (configured : α → Bool)
    (get : Config F → α) (set : Config F → α → Config F) : StructField (Config F) :=
  { name := lit name, α := α, codec := codec, get := get, set := set, omits := fun a => !configured a }

/-- The sections of `MarshalJSON` and of the switch of `UnmarshalJSON`. -/
def configFields : List (StructField (Config F)) :=
  [sectionField .int64 "config_schema_version" (fun n => 0 < n) (·.configSchemaVersion)
     ({ · with configSchemaVersion := · }),
   .omitEmptyList .text "keys" (·.keys) ({ · with keys := · }),
   .omitEmptyList apiKeyCodec "api_keys" (·.apiKeys) ({ · with apiKeys := · }),
   .omitEmptyList accountCodec "accounts" (·.accounts) ({ · with accounts := · }),
   .omitEmptyList proxyCodec "proxies" (·.proxies) ({ · with proxies := · }),
   .omitEmptyList proxySubscriptionCodec "proxy_subscriptions" (·.proxySubscriptions)
     ({ · with proxySubscriptions := · }),
   sectionField proxyCoreCodec "proxy_core" proxyCoreConfigured (·.proxyCore) ({ · with proxyCore := · }),
   sectionField proxyPolicyCodec "proxy_policy" proxyPolicyConfigured (·.proxyPolicy)
     ({ · with proxyPolicy := · }),
   .omitEmpty .texts "model_aliases" (·.modelAliases) ({ · with modelAliases := · }),
   sectionField adminCodec "admin" adminConfigured (·.admin) ({ · with admin := · }),
   sectionField serverCodec "server" serverConfigured (·.server) ({ · with server := · }),
   sectionField storageCodec "storage" storageConfigured (·.storage) ({ · with storage := · }),
   sectionField cacheCodec "cache" (fun a => responseCacheConfigured a.response) (·.cache)
     ({ · with cache := · }),
   sectionField safetyCodec "safety" safetyConfigured (·.safety) ({ · with safety := · }),
   sectionField runtimeCodec "runtime" runtimeConfigured (·.runtime) ({ · with runtime := · }),
   sectionField compatCodec "compat" compatConfigured (·.compat) ({ · with compat := · }),
   sectionField responsesCodec "responses" (fun a => 0 < a.storeTTLSeconds) (·.responses)
     ({ · with responses := · }),
   sectionField embeddingsCodec "embeddings" (fun a => given a.provider) (·.embeddings)
     ({ · with embeddings := · }),
   .always autoDeleteCodec "auto_delete" (·.autoDelete) ({ · with autoDelete := · }),
   sectionField historySplitCodec "history_split" historySplitConfigured (·.historySplit)
     ({ · with historySplit := · }),
   sectionField currentInputFileCodec "current_input_file" currentInputFileConfigured (·.currentInputFile)
     ({ · with currentInputFile := · }),
   sectionField thinkingInjectionCodec "thinking_injection" thinkingInjectionConfigured
     (·.thinkingInjection) ({ · with thinkingInjection := · }),
   sectionField (promptLimitCodec φ) "prompt_limit" (promptLimitConfigured φ) (·.promptLimit)
     ({ · with promptLimit := · }),
   sectionField appUpdateCodec "app_update" appUpdateConfigured (·.appUpdate) ({ · with appUpdate := · })]

/-- The keys `UnmarshalJSON` passes over. -/
def legacyKeys : List Bytes := [lit "claude_mapping", lit "claude_model_mapping", lit "toolcall"]

/-- The keys of the switch in `UnmarshalJSON`. -/
def isKnownKey (k : Bytes) : Bool := ((configFields φ).map StructField.name).contains k || legacyKeys.contains k

/-- Whether a section is written under a key, in the place of an additional field. -/
def isWritten (c : Config F) (k : Bytes) : Bool :=
  (configFields φ).any (fun f => f.name == k && !f.omits (f.get c))

/-- `MarshalJSON`; none is its error. -/
def Config.marshalJSON (c : Config F) : Option Bytes := do
  let m ← writeEntries φ (c.additionalFields.filter (fun kv => !isWritten φ c kv.1))
  if (configFields φ).all (fun f => f.omits (f.get c) || f.codec.fits (f.get c)) then
    some (marshal (.obj (writeFields (configFields φ) c m)))
  else none

/-- The fields of no section, without those that cannot be read. -/
def additionalOf (m : Fields) : KeyMap (Any F) :=
  m.filterMap (fun kv => if isKnownKey φ kv.1 then none else (Any.read φ kv.2).map (fun a => (kv.1, a)))

/-- The `map[string]json.RawMessage`; `null` is the nil map. -/
def readObject (b : Bytes) : Option Fields :=
  match decode b with
  | some (.obj m) => some m
  | some .null => some []
  | _ => none

/-- `UnmarshalJSON` into a new configuration, at the time `now`. -/
def unmarshalJSON (tools : ProxyTools) (now : Int) (b : Bytes) : Option (Config F) :=
  (readObject b).bind (fun m => (readStruct (configFields φ) m (.empty φ)).map (fun c =>
    Config.normalizeCredentials tools now { c with additionalFields := additionalOf φ m }))

end codec

end DeepSeekWebToApi.Config
