import DeepSeekWebToApi.Config.Sections
import DeepSeekWebToApi.Requestmeta.ClientIP

/- The request guard (`internal/requestguard`) around a handler that runs the LLM safety
   helper (`internal/httpapi/openai/shared`). `State` is what the guard keeps between
   requests: the offender records, the tables of the safety_ips database and the policy
   cache. `Db` says whether the statements of that database succeed. A blocked request
   is also written to the chat history; nothing here reads it back. -/
namespace DeepSeekWebToApi.Requestguard
open GoStrings GoNet GoJson Config

def defaultBlockMessage : Bytes := lit "request blocked by safety policy"

/-- The tables of `safetystore.IPsStore`, read in the order of their keys. -/
structure IPTables where
  blockedIPs : KeyMap Unit := []
  allowedIPs : KeyMap Unit := []
  blockedConversationIDs : KeyMap Unit := []

structure Db where
  reads : Bool
  writes : Bool

def rows (table : KeyMap Unit) : List Bytes := table.map Prod.fst

/-- `AddBlockedIP`: nothing for a failed write. -/
def IPTables.addBlockedIP (db : Db) (t : IPTables) (value : Bytes) : Option IPTables :=
  if trimSpace value = [] then some t
  else if db.writes then some { t with blockedIPs := t.blockedIPs.insert (trimSpace value) () }
  else none

/-! The policy. -/

structure IPMatcher where
  raw : Bytes
  ip : Option IP
  cidr : Option IPNet

structure Policy where
  enabled : Bool := false
  blockMessage : Bytes := []
  blockedIPs : List IPMatcher := []
  blockedConversationIDs : List Bytes := []

structure Decision where
  blocked : Bool := false
  code : Bytes := []
  detail : Bytes := []

structure Metadata where
  clientIP : Bytes
  conversationID : Bytes

def appendUnique (base extra : List Bytes) : List Bytes :=
  extra.foldl (fun out v => if out.contains v then out else out ++ [v]) base

def parseIPMatcher (raw : Bytes) : Option IPMatcher :=
  let raw := trimSpace raw
  if raw = [] then none
  else
    match parseIP raw with
    | some ip => some ⟨raw, some ip, none⟩
    | none => (parseCIDR raw).map (fun p => ⟨raw, none, some p.2⟩)

def buildPolicy (cfg : SafetyConfig) : Policy :=
  let message := trimSpace cfg.blockMessage
  let p : Policy := { enabled := cfg.enabled.getD false,
                      blockMessage := if message = [] then defaultBlockMessage else message }
  if p.enabled then
    { p with
      blockedIPs := cfg.blockedIPs.filterMap parseIPMatcher
      blockedConversationIDs :=
        ((cfg.blockedConversationIDs.map trimSpace).filter (· ≠ [])).map toLower }
  else p

def IPMatcher.matches (m : IPMatcher) (ip : IP) : Bool :=
  m.ip == some ip || m.cidr.any (fun n => n.contains ip)

def Policy.ipBlocked (p : Policy) (rawIP : Bytes) : Bool :=
  match parseIP (trimSpace rawIP) with
  | none => false
  | some ip => p.blockedIPs.any (fun m => m.matches ip)

def Policy.evaluate (p : Policy) (m : Metadata) : Decision :=
  if !p.enabled then {}
  else if p.ipBlocked m.clientIP then ⟨true, lit "ip_blocked", lit "request ip is blocked"⟩
  else if m.conversationID ≠ [] ∧ p.blockedConversationIDs.contains (toLower m.conversationID) then
    ⟨true, lit "conversation_blocked", lit "conversation id is blocked"⟩
  else {}

/-! The state between requests. -/

structure OffenderRecord where
  count : Nat
  firstSeen : Int
  banned : Bool

/-- Without a database the tables are missing. -/
structure State where
  offenders : KeyMap OffenderRecord := []
  safetyIPs : Option IPTables := none
  signature : Bytes := []
  cached : Policy := {}

/-- The configuration sources of the guard: the store's safety section and the words database. -/
structure Sources where
  store : Option SafetyConfig := none
  safetyWords : Option (List Bytes × List Bytes × List Bytes) := none

def mergeSafetySources (db : Db) (src : Sources) (s : State) : SafetyConfig :=
  let cfg := src.store.getD {}
  let cfg := match src.safetyWords with
    | some (content, regex, jail) =>
      { cfg with
        bannedContent := appendUnique cfg.bannedContent content
        bannedRegex := appendUnique cfg.bannedRegex regex
        jailbreak := { cfg.jailbreak with patterns := appendUnique cfg.jailbreak.patterns jail } }
    | none => cfg
  match s.safetyIPs with
  | some t =>
    if db.reads then
      { cfg with
        blockedIPs := appendUnique cfg.blockedIPs (rows t.blockedIPs)
        blockedConversationIDs :=
          appendUnique cfg.blockedConversationIDs (rows t.blockedConversationIDs) }
    else cfg
  | none => cfg

def safetyConfigSignature (cfg : SafetyConfig) : Bytes := marshal (safetyCodec.write cfg)

/-- `policyCache.load`. -/
def load (db : Db) (src : Sources) (s : State) : State × Policy :=
  let cfg := mergeSafetySources db src s
  let signature := safetyConfigSignature cfg
  if signature = s.signature then (s, s.cached)
  else ({ s with signature := signature, cached := buildPolicy cfg }, buildPolicy cfg)

/-! The auto-ban tracker. -/

def maxOffenderRecords : Nat := 50000

def threshold (cfg : SafetyAutoBanConfig) : Nat :=
  if cfg.threshold ≤ 0 then 3 else cfg.threshold.toInt.toNat

/-- The window in nanoseconds. -/
def window (cfg : SafetyAutoBanConfig) : Int :=
  ((if cfg.windowSeconds ≤ 0 then 600 else cfg.windowSeconds) * 1000000000).toInt

def sweepLocked (window now : Int) (offenders : KeyMap OffenderRecord) : KeyMap OffenderRecord :=
  offenders.filter (fun kv => kv.2.banned || !decide (window < now - kv.2.firstSeen))

def isAllowlisted (db : Db) (s : State) (ip : Bytes) : Bool :=
  match s.safetyIPs with
  | none => false
  | some t =>
    if db.reads then
      match parseIP (trimSpace ip) with
      | none => false
      | some parsed =>
        (rows t.allowedIPs).any (fun raw =>
          let raw := trimSpace raw
          raw ≠ [] && (parseIP raw == some parsed || (parseCIDR raw).any (fun p => p.2.contains parsed)))
    else false

/-- A violation that starts a record. -/
def State.restart (s : State) (ip : Bytes) (now : Int) : State :=
  { s with offenders := s.offenders.insert ip ⟨1, now, false⟩ }

/-- The records `note` looks into: a full map is swept first. -/
def State.swept (s : State) (window now : Int) : State :=
  if maxOffenderRecords < s.offenders.length then
    { s with offenders := sweepLocked window now s.offenders }
  else s

/-- The ban itself, once the threshold is crossed: the row, the record and the policy cache.
    Nothing changes when the row cannot be written. -/
def State.ban (db : Db) (s : State) (ip : Bytes) (rec : OffenderRecord) : State × Bool :=
  let banned := { s with offenders := s.offenders.insert ip { rec with banned := true },
                         signature := [] }
  match s.safetyIPs with
  | none => (banned, true)
  | some t =>
    match t.addBlockedIP db ip with
    | none => (s, false)
    | some t => ({ banned with safetyIPs := some t }, true)

/-- A violation of an address that has a record. -/
def State.tally (db : Db) (cfg : SafetyAutoBanConfig) (s : State) (ip : Bytes) (now : Int)
    (rec : OffenderRecord) : State × Bool :=
  if window cfg < now - rec.firstSeen then (s.restart ip now, false)
  else if rec.banned then (s, false)
  else
    let counted := { rec with count := rec.count + 1 }
    let s := { s with offenders := s.offenders.insert ip counted }
    if counted.count < threshold cfg then (s, false)
    else if isAllowlisted db s ip then (s, false)
    else s.ban db ip counted

/-- `autoBanTracker.note`: whether this violation has just banned the address. -/
def note (db : Db) (cfg : SafetyAutoBanConfig) (s : State) (ip : Bytes) (now : Int) : State × Bool :=
  if cfg.enabled = some false then (s, false)
  else
    let ip := trimSpace ip
    if ip = [] then (s, false)
    else
      let s := s.swept (window cfg) now
      match s.offenders.get ip with
      | none => (s.restart ip now, false)
      | some rec => s.tally db cfg ip now rec

/-! The middleware. -/

def shouldCountAutoBan (code : Bytes) : Bool :=
  [lit "llm_safety_blocked", lit "content_blocked", lit "content_regex_blocked",
   lit "jailbreak_blocked"].contains code

/-- What came of reading the body. -/
inductive BodyRead where
  | available
  | failed
  | tooLarge
  deriving DecidableEq

structure Incoming where
  request : Requestmeta.Request
  body : BodyRead
  conversationID : Bytes
  now : Int

/-- An answer: plain text by `http.Error`, the guard's refusal, or what the handler wrote. -/
inductive Answer where
  | plain (status : Nat) (text : Bytes)
  | refused (detail code reason : Bytes)
  | handled (code message : Bytes)
  deriving DecidableEq

def Answer.code : Answer → Bytes
  | .plain _ _ => []
  | .refused _ code _ => code
  | .handled code _ => code

def Answer.reachedHandler : Answer → Bool
  | .handled _ _ => true
  | _ => false

/-- The wrapped handler: its safety checker (`Enabled` and the verdict's `Violation`), the
    configured message, and what it answers when the check lets the request through. -/
structure Handler where
  checker : Option (Bool × (Incoming → Bool))
  blockMessage : Bytes
  proceed : Incoming → Bytes × Bytes

/-- `RunSafetyCheckAndBlock`: the code and the message of the refusal, or nothing to proceed. -/
def runSafetyCheckAndBlock (h : Handler) (q : Incoming) : Option (Bytes × Bytes) :=
  match h.checker with
  | some (true, violation) =>
    if violation q then
      some (lit "llm_safety_blocked",
        if h.blockMessage = [] then lit "该请求触发了内容安全策略，已被拒绝。" else h.blockMessage)
    else none
  | _ => none

def Handler.serveHTTP (h : Handler) (q : Incoming) : Answer :=
  let out := (runSafetyCheckAndBlock h q).getD (h.proceed q)
  .handled out.1 out.2

section
variable (db : Db) (src : Sources) (trusted : List IPNet) (h : Handler)

def Incoming.meta (q : Incoming) : Metadata :=
  ⟨Requestmeta.clientIP trusted q.request, q.conversationID⟩

/-- One request through `Middleware`. -/
def serve (s : State) (q : Incoming) : State × Answer :=
  match q.body with
  | .failed => (s, .plain 400 (lit "read request body failed"))
  | .tooLarge => (s, .plain 413 (lit "request body too large"))
  | .available =>
    let (s, p) := load db src s
    let d := p.evaluate (q.meta trusted)
    if d.blocked then
      let s := if shouldCountAutoBan d.code then
          (note db ((src.store.map SafetyConfig.autoBan).getD {}) s (q.meta trusted).clientIP q.now).1
        else s
      (s, .refused p.blockMessage d.code d.detail)
    else (s, h.serveHTTP q)

/-- The requests of a run with their answers. -/
def serveAll : State → List Incoming → State × List (Incoming × Answer)
  | s, [] => (s, [])
  | s, q :: qs =>
    let (s, a) := serve db src trusted h s q
    let (s, rest) := serveAll s qs
    (s, (q, a) :: rest)

end

end DeepSeekWebToApi.Requestguard
