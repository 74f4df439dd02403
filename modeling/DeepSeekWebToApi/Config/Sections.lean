import DeepSeekWebToApi.Config.Settings

/- The sections of the configuration as JSON: the field tags of `internal/config/config.go`. -/
namespace DeepSeekWebToApi.Config
open GoStrings GoJson

def apiKeyCodec : Codec APIKey :=
  .struct {}
    [.always .text "key" (·.key) ({ · with key := · }),
     .omitEmpty .text "name" (·.name) ({ · with name := · }),
     .omitEmpty .text "remark" (·.remark) ({ · with remark := · })] 0

def accountCodec : Codec Account :=
  .struct {}
    [.omitEmpty .text "name" (·.name) ({ · with name := · }),
     .omitEmpty .text "remark" (·.remark) ({ · with remark := · }),
     .omitEmpty .text "email" (·.email) ({ · with email := · }),
     .omitEmpty .text "mobile" (·.mobile) ({ · with mobile := · }),
     .omitEmpty .text "password" (·.password) ({ · with password := · }),
     .omitEmpty .text "token" (·.token) ({ · with token := · }),
     .omitEmpty .text "proxy_id" (·.proxyID) ({ · with proxyID := · }),
     .omitEmpty .flag "proxy_auto_route" (·.proxyAutoRoute) ({ · with proxyAutoRoute := · }),
     .omitEmpty .flag "disabled" (·.disabled) ({ · with disabled := · }),
     .omitEmpty .text "disabled_reason" (·.disabledReason) ({ · with disabledReason := · }),
     .omitEmpty .int "disabled_at_unix" (·.disabledAtUnix) ({ · with disabledAtUnix := · }),
     .omitEmpty .text "cooldown_state" (·.cooldownState) ({ · with cooldownState := · }),
     .omitEmpty .int "cooldown_until_unix" (·.cooldownUntilUnix) ({ · with cooldownUntilUnix := · })] 0

def proxyCodec : Codec Proxy :=
  .struct {}
    [.omitEmpty .text "id" (·.id) ({ · with id := · }),
     .omitEmpty .text "name" (·.name) ({ · with name := · }),
     .omitEmpty .text "type" (·.type) ({ · with type := · }),
     .omitEmpty .text "host" (·.host) ({ · with host := · }),
     .omitEmpty .int64 "port" (·.port) ({ · with port := · }),
     .omitEmpty .text "username" (·.username) ({ · with username := · }),
     .omitEmpty .text "password" (·.password) ({ · with password := · }),
     .omitEmpty .text "uri" (·.uri) ({ · with uri := · }),
     .omitEmpty .text "subscription_id" (·.subscriptionID) ({ · with subscriptionID := · }),
     .omitEmpty .flag "disabled" (·.disabled) ({ · with disabled := · }),
     .omitEmpty .text "disabled_reason" (·.disabledReason) ({ · with disabledReason := · }),
     .omitEmpty .int64 "disabled_at_unix" (·.disabledAtUnix) ({ · with disabledAtUnix := · }),
     .omitEmpty .int64 "consecutive_failures" (·.consecutiveFailures) ({ · with consecutiveFailures := · }),
     .omitEmpty .int64 "last_test_at_unix" (·.lastTestAtUnix) ({ · with lastTestAtUnix := · }),
     .omitEmpty .flag "last_test_success" (·.lastTestSuccess) ({ · with lastTestSuccess := · }),
     .omitEmpty .int64 "last_latency_ms" (·.lastLatencyMS) ({ · with lastLatencyMS := · }),
     .omitEmpty .int64 "last_http_status" (·.lastHTTPStatus) ({ · with lastHTTPStatus := · }),
     .omitEmpty .text "last_test_error" (·.lastTestError) ({ · with lastTestError := · }),
     .omitEmpty .text "last_exit_ip" (·.lastExitIP) ({ · with lastExitIP := · }),
     .omitEmpty .text "last_country" (·.lastCountry) ({ · with lastCountry := · }),
     .omitEmpty .text "last_colo" (·.lastColo) ({ · with lastColo := · })] 0

def proxySubscriptionCodec : Codec ProxySubscription :=
  .struct {}
    [.omitEmpty .text "id" (·.id) ({ · with id := · }),
     .omitEmpty .text "name" (·.name) ({ · with name := · }),
     .omitEmpty .text "url" (·.url) ({ · with url := · }),
     .omitEmpty .flag "disabled" (·.disabled) ({ · with disabled := · }),
     .omitEmpty .flag "auto_update_disabled" (·.autoUpdateDisabled) ({ · with autoUpdateDisabled := · }),
     .omitEmpty .flag "auto_test_disabled" (·.autoTestDisabled) ({ · with autoTestDisabled := · }),
     .omitEmpty .int64 "update_interval_minutes" (·.updateIntervalMinutes)
       ({ · with updateIntervalMinutes := · }),
     .omitEmpty .int64 "last_updated_at_unix" (·.lastUpdatedAtUnix) ({ · with lastUpdatedAtUnix := · }),
     .omitEmpty .int64 "last_attempt_at_unix" (·.lastAttemptAtUnix) ({ · with lastAttemptAtUnix := · }),
     .omitEmpty .text "last_error" (·.lastError) ({ · with lastError := · }),
     .omitEmpty .int64 "node_count" (·.nodeCount) ({ · with nodeCount := · })] 0

def proxyCoreCodec : Codec ProxyCoreConfig :=
  .struct {}
    [.omitEmpty .text "xray_binary_path" (·.xrayBinaryPath) ({ · with xrayBinaryPath := · }),
     .omitEmpty .text "runtime_dir" (·.runtimeDir) ({ · with runtimeDir := · }),
     .omitEmpty .int64 "startup_timeout_seconds" (·.startupTimeoutSeconds)
       ({ · with startupTimeoutSeconds := · }),
     .omitEmpty .flag "auto_download_disabled" (·.autoDownloadDisabled)
       ({ · with autoDownloadDisabled := · }),
     .omitEmpty .text "download_dir" (·.downloadDir) ({ · with downloadDir := · }),
     .omitEmpty .text "download_version" (·.downloadVersion) ({ · with downloadVersion := · }),
     .omitEmpty .text "installed_version" (·.installedVersion) ({ · with installedVersion := · })] 0

def proxyPolicyCodec : Codec ProxyPolicyConfig :=
  .struct {}
    [.omitEmpty .optFlag "health_check_enabled" (·.healthCheckEnabled) ({ · with healthCheckEnabled := · }),
     .omitEmpty .optFlag "auto_route_enabled" (·.automaticRoutingEnabled)
       ({ · with automaticRoutingEnabled := · }),
     .omitEmpty .int64 "health_check_interval_minutes" (·.healthCheckIntervalMinutes)
       ({ · with healthCheckIntervalMinutes := · }),
     .omitEmpty .int64 "auto_disable_after_failures" (·.autoDisableAfterFailures)
       ({ · with autoDisableAfterFailures := · }),
     .omitEmpty .optFlag "auto_enable_on_recovery" (·.autoEnableOnRecovery)
       ({ · with autoEnableOnRecovery := · }),
     .omitEmpty .text "fallback_proxy_id" (·.fallbackProxyID) ({ · with fallbackProxyID := · }),
     .omitEmpty .int64 "subscription_update_interval_minutes" (·.subscriptionUpdateIntervalMinutes)
       ({ · with subscriptionUpdateIntervalMinutes := · }),
     .omitEmpty .int64 "test_concurrency" (·.testConcurrency) ({ · with testConcurrency := · })] 0

def adminCodec : Codec AdminConfig :=
  .struct {}
    [.omitEmpty .text "key" (·.key) ({ · with key := · }),
     .omitEmpty .text "password_hash" (·.passwordHash) ({ · with passwordHash := · }),
     .omitEmpty .text "jwt_secret" (·.jwtSecret) ({ · with jwtSecret := · }),
     .omitEmpty .int64 "jwt_expire_hours" (·.jwtExpireHours) ({ · with jwtExpireHours := · }),
     .omitEmpty .int64 "jwt_valid_after_unix" (·.jwtValidAfterUnix) ({ · with jwtValidAfterUnix := · })] 0

def serverCodec : Codec ServerConfig :=
  .struct {}
    [.omitEmpty .text "port" (·.port) ({ · with port := · }),
     .omitEmpty .text "bind_addr" (·.bindAddr) ({ · with bindAddr := · }),
     .omitEmpty .text "log_level" (·.logLevel) ({ · with logLevel := · }),
     .omitEmpty .text "static_admin_dir" (·.staticAdminDir) ({ · with staticAdminDir := · }),
     .omitEmpty .optFlag "auto_build_webui" (·.autoBuildWebUI) ({ · with autoBuildWebUI := · }),
     .omitEmpty .int64 "http_total_timeout_seconds" (·.httpTotalTimeoutSeconds)
       ({ · with httpTotalTimeoutSeconds := · }),
     .omitEmpty .optFlag "remote_file_upload_enabled" (·.remoteFileUploadEnabled)
       ({ · with remoteFileUploadEnabled := · })] 0

def storageCodec : Codec StorageConfig :=
  .struct {}
    [.omitEmpty .text "data_dir" (·.dataDir) ({ · with dataDir := · }),
     .omitEmpty .text "accounts_sqlite_path" (·.accountsSQLitePath) ({ · with accountsSQLitePath := · }),
     .omitEmpty .text "chat_history_path" (·.chatHistoryPath) ({ · with chatHistoryPath := · }),
     .omitEmpty .text "chat_history_sqlite_path" (·.chatHistorySQLitePath)
       ({ · with chatHistorySQLitePath := · }),
     .omitEmpty .text "token_usage_sqlite_path" (·.tokenUsageSQLitePath)
       ({ · with tokenUsageSQLitePath := · }),
     .omitEmpty .text "safety_words_sqlite_path" (·.safetyWordsSQLitePath)
       ({ · with safetyWordsSQLitePath := · }),
     .omitEmpty .text "safety_ips_sqlite_path" (·.safetyIPsSQLitePath)
       ({ · with safetyIPsSQLitePath := · }),
     .omitEmpty .text "raw_stream_sample_root" (·.rawStreamSampleRoot)
       ({ · with rawStreamSampleRoot := · })] 0

def responseCacheCodec : Codec ResponseCacheConfig :=
  .struct {}
    [.omitEmpty .text "dir" (·.dir) ({ · with dir := · }),
     .omitEmpty .int64 "memory_ttl_seconds" (·.memoryTTLSeconds) ({ · with memoryTTLSeconds := · }),
     .omitEmpty .int64 "disk_ttl_seconds" (·.diskTTLSeconds) ({ · with diskTTLSeconds := · }),
     .omitEmpty .int64 "max_body_bytes" (·.maxBodyBytes) ({ · with maxBodyBytes := · }),
     .omitEmpty .int64 "memory_max_bytes" (·.memoryMaxBytes) ({ · with memoryMaxBytes := · }),
     .omitEmpty .int64 "disk_max_bytes" (·.diskMaxBytes) ({ · with diskMaxBytes := · }),
     .omitEmpty .optFlag "semantic_key" (·.semanticKey) ({ · with semanticKey := · })] 0

def cacheCodec : Codec CacheConfig :=
  .struct {}
    [.always responseCacheCodec "response" (·.response) ({ · with response := · })] 1

def jailbreakCodec : Codec JailbreakConfig :=
  .struct {}
    [.omitEmpty .optFlag "enabled" (·.enabled) ({ · with enabled := · }),
     .omitEmptyList .text "patterns" (·.patterns) ({ · with patterns := · })] 1

def safetyAutoBanCodec : Codec SafetyAutoBanConfig :=
  .struct {}
    [.omitEmpty .optFlag "enabled" (·.enabled) ({ · with enabled := · }),
     .omitEmpty .int64 "threshold" (·.threshold) ({ · with threshold := · }),
     .omitEmpty .int64 "window_seconds" (·.windowSeconds) ({ · with windowSeconds := · })] 0

def safetyLLMCheckCodec : Codec SafetyLLMCheckConfig :=
  .struct {}
    [.omitEmpty .optFlag "enabled" (·.enabled) ({ · with enabled := · }),
     .omitEmpty .text "model" (·.model) ({ · with model := · }),
     .omitEmpty .int64 "timeout_ms" (·.timeoutMs) ({ · with timeoutMs := · }),
     .omitEmpty .optFlag "fail_open" (·.failOpen) ({ · with failOpen := · }),
     .omitEmpty .int64 "cache_ttl_seconds" (·.cacheTTLSeconds) ({ · with cacheTTLSeconds := · }),
     .omitEmpty .int64 "cache_max_entries" (·.cacheMaxEntries) ({ · with cacheMaxEntries := · }),
     .omitEmpty .int64 "min_input_chars" (·.minInputChars) ({ · with minInputChars := · }),
     .omitEmpty .int64 "max_input_chars" (·.maxInputChars) ({ · with maxInputChars := · }),
     .omitEmpty .int64 "max_concurrent" (·.maxConcurrent) ({ · with maxConcurrent := · })] 0

def safetyCodec : Codec SafetyConfig :=
  .struct {}
    [.omitEmpty .optFlag "enabled" (·.enabled) ({ · with enabled := · }),
     .omitEmpty .text "block_message" (·.blockMessage) ({ · with blockMessage := · }),
     .omitEmptyList .text "blocked_ips" (·.blockedIPs) ({ · with blockedIPs := · }),
     .omitEmptyList .text "allowed_ips" (·.allowedIPs) ({ · with allowedIPs := · }),
     .omitEmptyList .text "blocked_conversation_ids" (·.blockedConversationIDs)
       ({ · with blockedConversationIDs := · }),
     .omitEmptyList .text "banned_content" (·.bannedContent) ({ · with bannedContent := · }),
     .omitEmptyList .text "banned_regex" (·.bannedRegex) ({ · with bannedRegex := · }),
     .always jailbreakCodec "jailbreak" (·.jailbreak) ({ · with jailbreak := · }),
     .omitEmptyList .text "disabled_builtin_rules" (·.disabledBuiltinRules)
       ({ · with disabledBuiltinRules := · }),
     .always safetyAutoBanCodec "auto_ban" (·.autoBan) ({ · with autoBan := · }),
     .always safetyLLMCheckCodec "llm_check" (·.llmCheck) ({ · with llmCheck := · })] 2

def runtimeCodec : Codec RuntimeConfig :=
  .struct {}
    [.omitEmpty .int64 "account_max_inflight" (·.accountMaxInflight) ({ · with accountMaxInflight := · }),
     .omitEmpty .int64 "account_max_queue" (·.accountMaxQueue) ({ · with accountMaxQueue := · }),
     .omitEmpty .int64 "global_max_inflight" (·.globalMaxInflight) ({ · with globalMaxInflight := · }),
     .omitEmpty .int64 "token_refresh_interval_hours" (·.tokenRefreshIntervalHours)
       ({ · with tokenRefreshIntervalHours := · }),
     .omitEmpty .int64 "account_health_check_interval_minutes" (·.accountHealthCheckIntervalMinutes)
       ({ · with accountHealthCheckIntervalMinutes := · })] 0

def compatCodec : Codec CompatConfig :=
  .struct {}
    [.omitEmpty .optFlag "wide_input_strict_output" (·.wideInputStrictOutput)
       ({ · with wideInputStrictOutput := · }),
     .omitEmpty .optFlag "strip_reference_markers" (·.stripReferenceMarkers)
       ({ · with stripReferenceMarkers := · })] 0

def responsesCodec : Codec ResponsesConfig :=
  .struct {}
    [.omitEmpty .int64 "store_ttl_seconds" (·.storeTTLSeconds) ({ · with storeTTLSeconds := · })] 0

def embeddingsCodec : Codec EmbeddingsConfig :=
  .struct {}
    [.omitEmpty .text "provider" (·.provider) ({ · with provider := · })] 0

def autoDeleteCodec : Codec AutoDeleteConfig :=
  .struct {}
    [.omitEmpty .text "mode" (·.mode) ({ · with mode := · }),
     .omitEmpty .flag "sessions" (·.sessions) ({ · with sessions := · })] 0

def historySplitCodec : Codec HistorySplitConfig :=
  .struct {}
    [.omitEmpty .optFlag "enabled" (·.enabled) ({ · with enabled := · }),
     .omitEmpty .optInt "trigger_after_turns" (·.triggerAfterTurns) ({ · with triggerAfterTurns := · })] 0

def currentInputFileCodec : Codec CurrentInputFileConfig :=
  .struct {}
    [.omitEmpty .optFlag "enabled" (·.enabled) ({ · with enabled := · }),
     .omitEmpty .int64 "min_chars" (·.minChars) ({ · with minChars := · })] 0

def thinkingInjectionCodec : Codec ThinkingInjectionConfig :=
  .struct {}
    [.omitEmpty .optFlag "enabled" (·.enabled) ({ · with enabled := · }),
     .omitEmpty .text "prompt" (·.prompt) ({ · with prompt := · })] 0

def appUpdateCodec : Codec AppUpdateConfig :=
  .struct {}
    [.omitEmpty .optFlag "enabled" (·.enabled) ({ · with enabled := · }),
     .omitEmpty .optFlag "auto_download" (·.autoDownload) ({ · with autoDownload := · }),
     .omitEmpty .optFlag "auto_apply" (·.autoApply) ({ · with autoApply := · }),
     .omitEmpty .int64 "check_interval_minutes" (·.checkIntervalMinutes)
       ({ · with checkIntervalMinutes := · })] 0

def promptLimitCodec {F : Type} [DecidableEq F] (φ : FloatFormat F) : Codec (PromptLimitConfig F) :=
  .struct (.empty φ)
    [.omitEmpty .optFlag "enabled" (·.enabled) ({ · with enabled := · }),
     .omitEmpty .int64 "max_chars_default" (·.maxCharsDefault) ({ · with maxCharsDefault := · }),
     .omitEmpty .int64 "max_chars_expert" (·.maxCharsExpert) ({ · with maxCharsExpert := · }),
     .omitEmpty .optFlag "auto_compress_enabled" (·.autoCompressEnabled)
       ({ · with autoCompressEnabled := · }),
     .omitEmpty .int64 "compress_keep_recent" (·.compressKeepRecent) ({ · with compressKeepRecent := · }),
     .omitEmpty .optFlag "compress_keep_system" (·.compressKeepSystem) ({ · with compressKeepSystem := · }),
     .omitEmpty .optFlag "pro_flash_compression_enabled" (·.proFlashCompressionEnabled)
       ({ · with proFlashCompressionEnabled := · }),
     .omitEmpty .int64 "pro_flash_compression_target_chars" (·.proFlashCompressionTargetChars)
       ({ · with proFlashCompressionTargetChars := · }),
     .omitEmpty .optFlag "session_chunking_enabled" (·.sessionChunkingEnabled)
       ({ · with sessionChunkingEnabled := · }),
     .omitEmpty (.float φ) "session_chunking_target_ratio" (·.sessionChunkingTargetRatio)
       ({ · with sessionChunkingTargetRatio := · }),
     .omitEmpty .int64 "session_chunking_max_chunks" (·.sessionChunkingMaxChunks)
       ({ · with sessionChunkingMaxChunks := · }),
     .omitEmpty .int64 "session_chunking_commit_timeout_seconds" (·.sessionChunkingCommitTimeoutSeconds)
       ({ · with sessionChunkingCommitTimeoutSeconds := · }),
     .omitEmpty .optFlag "summary_compaction_enabled" (·.summaryCompactionEnabled)
       ({ · with summaryCompactionEnabled := · }),
     .omitEmpty (.float φ) "summary_compaction_threshold" (·.summaryCompactionThreshold)
       ({ · with summaryCompactionThreshold := · }),
     .omitEmpty .optInt "incremental_max_turns" (·.incrementalMaxTurns)
       ({ · with incrementalMaxTurns := · }),
     .omitEmpty .int64 "incremental_rotation_keep_recent" (·.incrementalRotationKeepRecent)
       ({ · with incrementalRotationKeepRecent := · })]
    0 (of_decide_eq_true rfl) (of_decide_eq_true rfl) (of_decide_eq_true rfl) (by simp) rfl

end DeepSeekWebToApi.Config
