import Mathlib.Data.List.Sort
import DeepSeekWebToApi.Lib.Http
import DeepSeekWebToApi.Lib.JsonLaws
import DeepSeekWebToApi.Lib.Text

/- The two layers of the response cache (`internal/responsecache`): entries in memory with
   a sliding lease, and one file per key on disk. Times are in nanoseconds. `Call` is what
   the outside decides about a call: the clock, the compressed size and the modification
   time of a file it writes, and the order in which equal candidates for an eviction come
   (map iteration and `sort.Slice` leave it open). The counters of hits and misses are not
   kept: no lookup reads them. -/
namespace DeepSeekWebToApi.ResponseCache
open GoStrings GoJson GoHttp

/-- The zero `time.Time`. -/
def zeroTime : Int := -62135596800000000000

def second : Int := 1000000000

/-- `t.Unix()`. -/
def unix (t : Int) : Int := t.fdiv second

structure Entry where
  status : Int
  header : Header
  body : Bytes
  diskExpiresAt : Int
  deriving DecidableEq

/-- A token of a `Cache-Control` value. -/
def hasHeaderToken (raw token : Bytes) : Bool :=
  (split 0x2C raw).any (fun part => toLower (trimSpace part) == toLower (trimSpace token))

def Entry.uncacheableReason (e : Entry) (maxBody : Int) : Bytes :=
  if e.status < 200 ∨ 300 ≤ e.status then lit "status_non_2xx"
  else if e.body.length = 0 then lit "empty_body"
  else if 0 < maxBody ∧ maxBody < e.body.length then lit "oversized_response"
  else if hasHeaderToken (e.header.get (lit "Cache-Control")) (lit "no-store") then
    lit "response_no_store"
  else if 0 < (e.header.values (lit "Set-Cookie")).length then lit "set_cookie"
  else []

def Entry.cacheable (e : Entry) (maxBody : Int) : Bool := e.uncacheableReason maxBody = []

def Entry.memorySize (e : Entry) : Int :=
  e.body.length + (e.header.map (fun kv => (kv.1.length : Int) + (kv.2.map (fun v => (v.length : Int))).sum)).sum

def skipResponseHeader (name : Bytes) : Bool :=
  (["connection", "content-length", "date", "keep-alive", "proxy-authenticate",
    "proxy-authorization", "te", "trailer", "transfer-encoding", "upgrade",
    "x-deepseek-web-to-api-cache", "x-deepseek-web-to-api-cache-expires-at",
    "x-ds2-cache", "x-ds2-cache-expires-at"].map lit).contains (toLower (trimSpace name))

def sanitizeResponseHeader (h : Header) : Header :=
  h.foldl (fun out kv =>
    if skipResponseHeader kv.1 then out else kv.2.foldl (fun out v => Header.add out kv.1 v) out) []

/-- A key is a SHA-256 digest in hexadecimal digits. -/
def normalizeKey (key : Bytes) : Bytes :=
  let key := toLower (trimSpace key)
  if key.length = 64 ∧ key.all (fun b => (hexValue b).isSome) then key else []

structure MemoryEntry where
  entry : Entry
  memoryExpiresAt : Int
  size : Int
  sessionKey : Bytes

structure DiskRecord where
  version : Int
  key : Bytes
  createdAtUnix : Int
  expiresAtUnix : Int
  status : Int
  header : Header
  body : Bytes

def recordVersion : Int := 1

structure DiskFile where
  record : DiskRecord
  size : Int
  modTime : Int

/-- The record `putDisk` writes, as it is decoded again: JSON text is valid UTF-8. -/
def Entry.record (e : Entry) (key : Bytes) (now : Int) : DiskRecord where
  version := recordVersion
  key := key
  createdAtUnix := unix now
  expiresAtUnix := unix e.diskExpiresAt
  status := e.status
  header := e.header.foldl (fun h kv => KeyMap.insert (sanitize kv.1) (kv.2.map sanitize) h) []
  body := e.body

/-- The entry `getDisk` makes of a record. -/
def DiskRecord.entry (r : DiskRecord) : Entry where
  status := r.status
  header := sanitizeResponseHeader r.header
  body := r.body
  diskExpiresAt := r.expiresAtUnix * second

structure Cache where
  dir : Bytes
  memoryTTL : Int
  diskTTL : Int
  maxBody : Int
  memoryMaxBytes : Int
  diskMaxBytes : Int
  memoryBytes : Int := 0
  items : KeyMap MemoryEntry := []
  sessionEntries : KeyMap (List Bytes) := []
  lastDiskSweep : Int := zeroTime
  /-- The cache files of every directory, by key. -/
  disk : Bytes → KeyMap DiskFile := fun _ => []

structure Call where
  now : Int
  fileSize : Int := 0
  modTime : Int := 0
  tie : Bytes → Nat := fun _ => 0

/-! Sessions. -/

def addToSession (sessions : KeyMap (List Bytes)) (sessionKey cacheKey : Bytes) : KeyMap (List Bytes) :=
  if sessionKey = [] ∨ cacheKey = [] then sessions
  else sessions.insert sessionKey
    ((((sessions.get sessionKey).getD []).filter (· ≠ cacheKey)) ++ [cacheKey])

def removeFromSession (sessions : KeyMap (List Bytes)) (sessionKey cacheKey : Bytes) :
    KeyMap (List Bytes) :=
  if sessionKey = [] ∨ cacheKey = [] then sessions
  else
    match sessions.get sessionKey with
    | none => sessions
    | some bucket =>
      let bucket := bucket.filter (· ≠ cacheKey)
      if bucket = [] then sessions.erase sessionKey else sessions.insert sessionKey bucket

/-! Memory. -/

/-- Whether the lease and the entry itself run on. -/
def MemoryEntry.live (item : MemoryEntry) (now : Int) : Bool :=
  now < item.memoryExpiresAt && now < item.entry.diskExpiresAt

/-- `delete(c.items, key)` with its bookkeeping. -/
def Cache.drop (c : Cache) (key : Bytes) (item : MemoryEntry) : Cache :=
  { c with items := c.items.erase key, memoryBytes := c.memoryBytes - item.size,
           sessionEntries := removeFromSession c.sessionEntries item.sessionKey key }

def Cache.sweepMemoryLocked (c : Cache) (now : Int) : Cache :=
  let dead := c.items.filter (fun kv => !kv.2.live now)
  { c with
    items := c.items.filter (fun kv => kv.2.live now)
    memoryBytes := max 0 (c.memoryBytes - (dead.map (fun kv => kv.2.size)).sum)
    sessionEntries := dead.foldl (fun s kv => removeFromSession s kv.2.sessionKey kv.1) c.sessionEntries }

def Cache.bumpSingleEntryExpiryLocked (c : Cache) (key : Bytes) (now : Int) : Cache :=
  match c.items.get key with
  | none => c
  | some item =>
    let extended := min item.entry.diskExpiresAt (now + c.memoryTTL)
    if item.memoryExpiresAt < extended then
      { c with items := c.items.insert key { item with memoryExpiresAt := extended } }
    else c

/-- The leases of the other entries of a session. -/
def Cache.bumpSiblings (c : Cache) (siblings : List Bytes) (key : Bytes) (now : Int) : Cache :=
  siblings.foldl (fun c sibling =>
    if sibling = key then c else c.bumpSingleEntryExpiryLocked sibling now) c

def Cache.bumpMemoryExpiryLocked (c : Cache) (key : Bytes) (now : Int) : Cache :=
  match c.items.get key with
  | none => c
  | some item =>
    if c.memoryTTL ≤ 0 then c
    else
      let bumped := c.bumpSingleEntryExpiryLocked key now
      if item.sessionKey = [] then bumped
      else
        match c.sessionEntries.get item.sessionKey with
        | none => bumped
        | some siblings => if siblings.length ≤ 1 then bumped else bumped.bumpSiblings siblings key now

/-- The candidates for an eviction: the first to expire comes first. -/
def Cache.candidates (c : Cache) (tie : Bytes → Nat) : KeyMap MemoryEntry :=
  c.items.insertionSort (fun a b => a.2.memoryExpiresAt < b.2.memoryExpiresAt ∨
    a.2.memoryExpiresAt = b.2.memoryExpiresAt ∧ tie a.1 ≤ tie b.1)

def Cache.enforceMemoryLimitLocked (c : Cache) (tie : Bytes → Nat) : Cache :=
  if c.memoryMaxBytes ≤ 0 ∨ c.memoryBytes ≤ c.memoryMaxBytes then c
  else
    let c := (c.candidates tie).foldl (fun c cand =>
      if c.memoryBytes ≤ c.memoryMaxBytes then c else c.drop cand.1 cand.2) c
    { c with memoryBytes := max 0 c.memoryBytes }

/-- The new item in the place of the old one. -/
def Cache.inserted (c : Cache) (key sessionKey : Bytes) (entry : Entry) (expiresAt : Int) : Cache :=
  let old := c.items.get key
  { c with
    items := c.items.insert key ⟨entry, expiresAt, entry.memorySize, sessionKey⟩
    memoryBytes := c.memoryBytes - (old.elim 0 MemoryEntry.size) + entry.memorySize
    sessionEntries := addToSession
      (match old with
        | some item => if item.sessionKey = sessionKey then c.sessionEntries
            else removeFromSession c.sessionEntries item.sessionKey key
        | none => c.sessionEntries) sessionKey key }

/-- `putMemoryWithPolicySession` behind the size check, for a lease that lies ahead. A new entry is
    activity of its session. -/
def Cache.store (c : Cache) (key sessionKey : Bytes) (entry : Entry) (expiresAt : Int) (call : Call) : Cache :=
  let c := c.inserted key sessionKey entry expiresAt
  let c := if sessionKey = [] then c
    else c.bumpSiblings ((c.sessionEntries.get sessionKey).getD []) key call.now
  c.enforceMemoryLimitLocked call.tie

def Cache.putMemoryWithPolicySession (c : Cache) (key sessionKey : Bytes) (entry : Entry) (call : Call) :
    Cache :=
  let c := c.sweepMemoryLocked call.now
  if 0 < c.memoryMaxBytes ∧ c.memoryMaxBytes < entry.memorySize then c
  else
    let expiresAt := min entry.diskExpiresAt (call.now + c.memoryTTL)
    if call.now < expiresAt then c.store key sessionKey entry expiresAt call else c

/-! Disk. -/

/-- The files of the cache's directory. -/
def Cache.files (c : Cache) : KeyMap DiskFile := c.disk c.dir

def Cache.setFiles (c : Cache) (files : KeyMap DiskFile) : Cache :=
  { c with disk := fun dir => if dir = c.dir then files else c.disk dir }

/-- A write that succeeds. -/
def Cache.putDisk (c : Cache) (key : Bytes) (entry : Entry) (call : Call) : Cache :=
  if c.dir = [] then c
  else c.setFiles (c.files.insert key ⟨entry.record key call.now, call.fileSize, call.modTime⟩)

/-- A record that is of another version, under another key, expired or not cacheable is removed. -/
def DiskRecord.usable (r : DiskRecord) (key : Bytes) (maxBody now : Int) : Bool :=
  r.version == recordVersion && r.key == key && now < r.expiresAtUnix * second &&
    r.entry.cacheable maxBody

def Cache.getDisk (c : Cache) (key : Bytes) (now : Int) : Cache × Option Entry :=
  if c.dir = [] then (c, none)
  else
    match c.files.get key with
    | none => (c, none)
    | some file =>
      if file.record.usable key c.maxBody now then (c, some file.record.entry)
      else (c.setFiles (c.files.erase key), none)

def Cache.enforceDiskLimit (c : Cache) (call : Call) : Cache :=
  if c.dir = [] ∨ c.diskMaxBytes ≤ 0 then c
  else
    let files := if 0 < c.diskTTL then
        c.files.filter (fun kv => !decide (c.diskTTL < call.now - kv.2.modTime))
      else c.files
    let oldest := files.insertionSort (fun a b => a.2.modTime < b.2.modTime ∨
      a.2.modTime = b.2.modTime ∧ call.tie a.1 ≤ call.tie b.1)
    let kept := oldest.foldl (fun (acc : KeyMap DiskFile × Int) kv =>
      if acc.2 ≤ c.diskMaxBytes then acc else (acc.1.erase kv.1, acc.2 - kv.2.size))
      (files, (files.map (fun kv => kv.2.size)).sum)
    c.setFiles kept.1

def sweepInterval : Int := 600 * second

def Cache.maybeSweepDisk (c : Cache) (now : Int) : Cache :=
  if now - c.lastDiskSweep < sweepInterval then c
  else
    let c := { c with lastDiskSweep := now }
    if c.dir = [] then c
    else c.setFiles (c.files.filter (fun kv => !decide (c.diskTTL < now - kv.2.modTime)))

/-! The cache. -/

/-- What `getWithPolicy` does when memory has no live entry: read the file and fill memory. -/
def Cache.lookupDisk (c : Cache) (key : Bytes) (call : Call) : Cache × Option Entry :=
  match c.getDisk key call.now with
  | (c, none) => (c, none)
  | (c, some entry) => (c.putMemoryWithPolicySession key [] entry call, some entry)

/-- `getWithPolicy`: the entry of a hit. -/
def Cache.get (c : Cache) (key : Bytes) (call : Call) : Cache × Option Entry :=
  let key := normalizeKey key
  if key = [] then (c, none)
  else
    let c := c.sweepMemoryLocked call.now
    match c.items.get key with
    | some item =>
      if item.live call.now then (c.bumpMemoryExpiryLocked key call.now, some item.entry)
      else (c.drop key item).lookupDisk key call
    | none => c.lookupDisk key call

/-- The entry a `Set` stores: without an expiry ahead it gets the default one. -/
def Cache.stamped (c : Cache) (entry : Entry) (now : Int) : Entry :=
  if entry.diskExpiresAt = zeroTime ∨ entry.diskExpiresAt ≤ now then
    { entry with diskExpiresAt := now + c.diskTTL }
  else entry

/-- `setWithPolicySession` for a disk write that succeeds. -/
def Cache.set (c : Cache) (key sessionKey : Bytes) (entry : Entry) (call : Call) : Cache :=
  let key := normalizeKey key
  if key = [] ∨ entry.cacheable c.maxBody = false then c
  else
    let entry := c.stamped entry call.now
    let c := c.putMemoryWithPolicySession key sessionKey entry call
    let c := (c.putDisk key entry call).enforceDiskLimit call
    c.maybeSweepDisk call.now

structure Options where
  dir : Bytes
  memoryTTL : Int
  diskTTL : Int
  maxBody : Int
  memoryMaxBytes : Int
  diskMaxBytes : Int

/-- Options that are not given get their defaults. `clean` is `filepath.Clean`, `defaultDir` is
    `config.ResponseCacheDir()`. -/
def normalizeOptions (clean : Bytes → Bytes) (defaultDir : Bytes) (opts : Options) : Options where
  dir := clean (if trimSpace opts.dir = [] then defaultDir else trimSpace opts.dir)
  memoryTTL := if opts.memoryTTL ≤ 0 then 30 * 60 * second else opts.memoryTTL
  diskTTL := if opts.diskTTL ≤ 0 then 48 * 3600 * second else opts.diskTTL
  maxBody := if opts.maxBody ≤ 0 then 67108864 else opts.maxBody
  memoryMaxBytes := if opts.memoryMaxBytes ≤ 0 then 3800000000 else opts.memoryMaxBytes
  diskMaxBytes := if opts.diskMaxBytes ≤ 0 then 16000000000 else opts.diskMaxBytes

/-- `ApplyOptions`: the memory layer starts anew. -/
def Cache.applyOptions (clean : Bytes → Bytes) (defaultDir : Bytes) (c : Cache) (opts : Options) : Cache :=
  let opts := normalizeOptions clean defaultDir opts
  { dir := opts.dir, memoryTTL := opts.memoryTTL, diskTTL := opts.diskTTL, maxBody := opts.maxBody,
    memoryMaxBytes := opts.memoryMaxBytes, diskMaxBytes := opts.diskMaxBytes, disk := c.disk }

end DeepSeekWebToApi.ResponseCache
