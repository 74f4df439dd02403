import DeepSeekWebToApi.Safetyllm.Prompt
import DeepSeekWebToApi.Lib.Runs

/- The safety checker (`internal/safetyllm/checker.go`, `cache.go`) with any number of calls
   under way.

   A call of `CheckWithAuth` runs in phases; each ends where it gives up a lock, waits for a
   slot or hears from upstream, and the phases of different calls mix in any order. What the
   clock, the caller's context and the upstream model do comes with the step (`Env`). The
   operator may replace the configuration at any time; a call keeps the one it read. -/
namespace DeepSeekWebToApi.Safetyllm
open GoStrings

structure Config where
  enabled : Bool
  model : Bytes
  failOpen : Bool
  cacheTTLSeconds : Int
  cacheMaxEntries : Int
  minInputChars : Int
  maxInputChars : Int
  maxConcurrent : Int
  deriving DecidableEq

def defaultConfig : Config where
  enabled := false
  model := lit "deepseek-v4-flash-nothinking"
  failOpen := true
  cacheTTLSeconds := 600
  cacheMaxEntries := 10000
  minInputChars := 30
  maxInputChars := 8000
  maxConcurrent := 16

structure Verdict where
  violation : Bool := false
  cached : Bool := false
  latencyMs : Int := 0
  failOpen : Bool := false
  deriving DecidableEq

structure AuditSemantics where
  enabled : Bool := false
  model : Bytes := []
  failOpen : Bool := false
  deriving DecidableEq

def semanticsFor (cfg : Config) : AuditSemantics :=
  { enabled := cfg.enabled, model := cfg.model, failOpen := cfg.failOpen }

/-! The cache. Times are nanoseconds since the zero time. -/

structure CacheEntry where
  key : Bytes
  verdict : Verdict
  expiresAt : Int

/-- `lruCache`: the entries in their order, the one used last in front. -/
structure LruCache where
  max : Nat
  order : List CacheEntry := []

def LruCache.without (c : LruCache) (key : Bytes) : List CacheEntry :=
  c.order.filter (fun e => e.key ≠ key)

def LruCache.get (c : LruCache) (key : Bytes) (now : Int) : LruCache × Option Verdict :=
  match c.order.find? (fun e => e.key = key) with
  | none => (c, none)
  | some entry =>
    if entry.expiresAt ≠ 0 ∧ now > entry.expiresAt then ({ c with order := c.without key }, none)
    else ({ c with order := entry :: c.without key }, some entry.verdict)

def LruCache.set (c : LruCache) (key : Bytes) (v : Verdict) (expiresAt : Int) : LruCache :=
  let entry : CacheEntry := { key := key, verdict := v, expiresAt := expiresAt }
  if c.order.any (fun e => e.key = key) then { c with order := entry :: c.without key }
  else { c with order := (entry :: c.order).take c.max }

def LruCache.purge (c : LruCache) : LruCache := { c with order := [] }

/-! The checker. -/

/-- The counters behind `Stats`. -/
structure Counters where
  requestsTotal : Int := 0
  violations : Int := 0
  okCount : Int := 0
  skipped : Int := 0
  cacheHits : Int := 0
  timeouts : Int := 0
  upstreamErrors : Int := 0
  parseErrors : Int := 0
  failOpenInvocations : Int := 0
  concurrentInflight : Int := 0
  totalLatencyMs : Int := 0
  latencyMeasureCount : Int := 0

/-- Where a call is. -/
inductive Phase where
  /-- The configuration has been read. -/
  | configured
  /-- The audit semantics have changed, the cache is to be purged. -/
  | purging
  | admitted
  /-- `requestsTotal` has been incremented. -/
  | counted
  /-- A hard signal was found and counted, the verdict is to be cached. -/
  | flagged (trimmed : Bytes)
  /-- Before the look into the cache. -/
  | looking (trimmed : Bytes)
  | hit (v : Verdict)
  /-- Waiting for a slot. -/
  | waiting (trimmed : Bytes)
  /-- The context ended first. -/
  | refused
  | acquired (trimmed : Bytes)
  /-- Upstream is asked. -/
  | running (trimmed : Bytes)
  /-- The error is counted, `failOpenVerdict` is to come. -/
  | failed (latencyMs : Int)
  | parsed (trimmed : Bytes) (v : Verdict)
  /-- The verdict is in the cache. -/
  | stored (v : Verdict)
  | leaving (v : Verdict)
  | releasing (v : Verdict)

/-- What `RunSafetyCheck` comes back with. -/
inductive Reply where
  | output (text : Bytes)
  | deadlineExceeded
  | error

/-- What a step finds outside the checker. -/
structure Env where
  now : Int := 0
  /-- The context is done, and the select takes that case. -/
  cancelled : Bool := false
  reply : Reply := .error
  latencyMs : Int := 0

/-- A call under way, with the number of steps it has taken. -/
structure Job where
  cfg : Config
  text : Bytes
  phase : Phase := .configured
  steps : Nat := 0

structure Answer where
  cfg : Config
  text : Bytes
  verdict : Verdict

structure LLMChecker where
  /-- `hashInput`. -/
  hashInput : Bytes → Bytes
  /-- The live configuration. -/
  source : Config
  /-- `doer != nil`. -/
  hasDoer : Bool
  cache : LruCache
  slots : Nat
  taken : Nat := 0
  counters : Counters := {}
  lastSemantics : AuditSemantics := {}
  jobs : Nat → Option Job := fun _ => none
  answers : List Answer := []

def newLLMCheckerWithSource (hashInput : Bytes → Bytes) (source : Config) (hasDoer : Bool) : LLMChecker where
  hashInput := hashInput
  source := source
  hasDoer := hasDoer
  cache := { max := if source.cacheMaxEntries ≤ 0 then 1 else source.cacheMaxEntries.toNat }
  slots := if source.maxConcurrent ≤ 0 then 1 else source.maxConcurrent.toNat

/-- A step goes on to a phase or returns. -/
inductive Outcome where
  | go (phase : Phase)
  | returned (v : Verdict)

def LLMChecker.count (c : LLMChecker) (f : Counters → Counters) : LLMChecker :=
  { c with counters := f c.counters }

/-- The counters after a verdict. -/
def Counters.verdict (s : Counters) (violation : Bool) : Counters :=
  if violation then { s with violations := s.violations + 1 } else { s with okCount := s.okCount + 1 }

def LLMChecker.failOpenVerdict (c : LLMChecker) (cfg : Config) (latencyMs : Int) : LLMChecker × Verdict :=
  if cfg.failOpen then
    (c.count (fun s => { s with failOpenInvocations := s.failOpenInvocations + 1, okCount := s.okCount + 1 }),
      { violation := false, failOpen := true, latencyMs := latencyMs })
  else
    (c.count (fun s => { s with violations := s.violations + 1 }),
      { violation := true, failOpen := true, latencyMs := latencyMs })

/-- The middle of a long text is left out. -/
def truncated (cfg : Config) (trimmed : Bytes) : Bytes :=
  if (trimmed.length : Int) > cfg.maxInputChars ∧ cfg.maxInputChars > 0 then
    let keep := cfg.maxInputChars.toNat / 2
    trimmed.take keep ++ lit "\n\n[... truncated for safety check ...]\n\n" ++
      trimmed.drop (trimmed.length - keep)
  else trimmed

def expiry (cfg : Config) (now : Int) : Int := now + cfg.cacheTTLSeconds * 1000000000

/-- One step of a call of `CheckWithAuth`; `none` where it has to wait. -/
def LLMChecker.advance (c : LLMChecker) (cfg : Config) (text : Bytes) (env : Env) :
    Phase → Option (LLMChecker × Outcome)
  | .configured =>
    let current := semanticsFor cfg
    some ({ c with lastSemantics := current },
      .go (if c.lastSemantics ≠ current then .purging else .admitted))
  | .purging => some ({ c with cache := c.cache.purge }, .go .admitted)
  | .admitted =>
    if ¬ cfg.enabled ∨ ¬ c.hasDoer then some (c, .returned {})
    else some (c.count (fun s => { s with requestsTotal := s.requestsTotal + 1 }), .go .counted)
  | .counted => do
    let trimmed ← auditText text
    if (trimmed.length : Int) < cfg.minInputChars then
      some (c.count (fun s => { s with skipped := s.skipped + 1, okCount := s.okCount + 1 }), .returned {})
    else if matchesHardJailbreakSignal trimmed then
      some (c.count (fun s => { s with violations := s.violations + 1 }), .go (.flagged trimmed))
    else some (c, .go (.looking (truncated cfg trimmed)))
  | .flagged trimmed =>
    let v : Verdict := { violation := true }
    some ({ c with cache := c.cache.set (c.hashInput trimmed) v (expiry cfg env.now) }, .returned v)
  | .looking trimmed =>
    match c.cache.get (c.hashInput trimmed) env.now with
    | (cache, some v) => some ({ c with cache := cache }, .go (.hit v))
    | (cache, none) => some ({ c with cache := cache }, .go (.waiting trimmed))
  | .hit v =>
    some (c.count (fun s => Counters.verdict { s with cacheHits := s.cacheHits + 1 } v.violation),
      .returned { v with cached := true })
  | .waiting trimmed =>
    if env.cancelled then some (c, .go .refused)
    else if c.taken < c.slots then some ({ c with taken := c.taken + 1 }, .go (.acquired trimmed))
    else none
  | .refused =>
    let (c, v) := c.failOpenVerdict cfg 0
    some (c, .returned v)
  | .acquired trimmed =>
    some (c.count (fun s => { s with concurrentInflight := s.concurrentInflight + 1 }), .go (.running trimmed))
  | .running trimmed =>
    match env.reply with
    | .deadlineExceeded =>
      some (c.count (fun s => { s with timeouts := s.timeouts + 1 }), .go (.failed env.latencyMs))
    | .error =>
      some (c.count (fun s => { s with upstreamErrors := s.upstreamErrors + 1 }), .go (.failed env.latencyMs))
    | .output text =>
      match parseBinaryVerdict text with
      | none =>
        some (c.count (fun s => { s with parseErrors := s.parseErrors + 1 }), .go (.failed env.latencyMs))
      | some violation =>
        some (c, .go (.parsed trimmed { violation := violation, latencyMs := env.latencyMs }))
  | .failed latencyMs =>
    let (c, v) := c.failOpenVerdict cfg latencyMs
    some (c, .go (.leaving v))
  | .parsed trimmed v =>
    some ({ c with cache := c.cache.set (c.hashInput trimmed) v (expiry cfg env.now) }, .go (.stored v))
  | .stored v =>
    some (c.count (fun s =>
      { s.verdict v.violation with
        totalLatencyMs := s.totalLatencyMs + v.latencyMs
        latencyMeasureCount := s.latencyMeasureCount + 1 }), .go (.leaving v))
  | .leaving v =>
    some (c.count (fun s => { s with concurrentInflight := s.concurrentInflight - 1 }), .go (.releasing v))
  | .releasing v => some ({ c with taken := c.taken - 1 }, .returned v)

inductive Action where
  /-- The operator replaces the configuration. -/
  | configure (cfg : Config)
  /-- `CheckWithAuth` is called and reads the configuration. -/
  | call (tid : Nat) (text : Bytes)
  | next (tid : Nat) (env : Env)

def LLMChecker.setJob (c : LLMChecker) (tid : Nat) (job : Option Job) : LLMChecker :=
  { c with jobs := fun t => if t = tid then job else c.jobs t }

def LLMChecker.step (c : LLMChecker) : Action → Option LLMChecker
  | .configure cfg => some { c with source := cfg }
  | .call tid text =>
    if (c.jobs tid).isSome then none
    else some (c.setJob tid (some { cfg := c.source, text := text }))
  | .next tid env => do
    let job ← c.jobs tid
    let (c, outcome) ← c.advance job.cfg job.text env job.phase
    match outcome with
    | .go phase => some (c.setJob tid (some { job with phase := phase, steps := job.steps + 1 }))
    | .returned v =>
      some { c.setJob tid none with answers := c.answers ++ [⟨job.cfg, job.text, v⟩] }

end DeepSeekWebToApi.Safetyllm
