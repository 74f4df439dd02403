import DeepSeekWebToApi.Lib.JsonAny
import DeepSeekWebToApi.Lib.Table
import Mathlib.Algebra.Group.Int.Defs
import Mathlib.Data.List.Sort

/- The SQLite chat history and its token counts (`internal/chathistory`: `sqlite_store.go`,
   `sqlite_helpers.go`, `sqlite_write.go`, `sqlite_import.go`, `sqlite_metrics.go`,
   `token_stats_store.go`, `metrics.go`).

   There are two databases. The main one holds the entries and, in its meta table, the usage of
   the entries that were pruned; it changes by transactions, whose commit may fail. The other
   one holds the usage of the pruned entries a second time and is written at once, in the
   middle of a transaction of the main one; its statements are taken to succeed. Of an entry
   only what the counts depend on is kept. The totals for each model (their rows are taken to
   be readable), the outcome counts and the revisions are left out. -/
namespace DeepSeekWebToApi.ChatHistory
open GoStrings GoJson

/-! Token usage. -/

structure TokenUsageTotals where
  requests : Int64 := 0
  inputTokens : Int64 := 0
  outputTokens : Int64 := 0
  cacheHitInputTokens : Int64 := 0
  cacheMissInputTokens : Int64 := 0
  totalTokens : Int64 := 0
  deriving DecidableEq, Repr

namespace TokenUsageTotals

instance : Zero TokenUsageTotals := ⟨{}⟩

/-- `TokenUsageTotals.add`. -/
instance : Add TokenUsageTotals where
  add t next :=
    { requests := t.requests + next.requests
      inputTokens := t.inputTokens + next.inputTokens
      outputTokens := t.outputTokens + next.outputTokens
      cacheHitInputTokens := t.cacheHitInputTokens + next.cacheHitInputTokens
      cacheMissInputTokens := t.cacheMissInputTokens + next.cacheMissInputTokens
      totalTokens := t.totalTokens + next.totalTokens }

theorem add_def (t u : TokenUsageTotals) : t + u =
    ⟨t.requests + u.requests, t.inputTokens + u.inputTokens, t.outputTokens + u.outputTokens,
      t.cacheHitInputTokens + u.cacheHitInputTokens, t.cacheMissInputTokens + u.cacheMissInputTokens,
      t.totalTokens + u.totalTokens⟩ := rfl

theorem zero_def : (0 : TokenUsageTotals) = ⟨0, 0, 0, 0, 0, 0⟩ := rfl

instance : AddCommMonoid TokenUsageTotals where
  add_assoc t u v := by simp only [add_def, Int64.add_assoc]
  zero_add t := by simp only [add_def, zero_def, Int64.zero_add]
  add_zero t := by simp only [add_def, zero_def, Int64.add_zero]
  add_comm t u := by simp only [add_def, Int64.add_comm]
  nsmul := nsmulRec

theorem add_right_cancel {t u v : TokenUsageTotals} (h : t + v = u + v) : t = u := by
  cases t
  cases u
  simp only [add_def, mk.injEq, Int64.add_left_inj] at h ⊢
  exact h

/-- No field of the sum leaves the range of `int64`. -/
def sumsExactly (t u : TokenUsageTotals) : Bool :=
  [(t.requests, u.requests), (t.inputTokens, u.inputTokens), (t.outputTokens, u.outputTokens),
    (t.cacheHitInputTokens, u.cacheHitInputTokens), (t.cacheMissInputTokens, u.cacheMissInputTokens),
    (t.totalTokens, u.totalTokens)].all (fun (a, b) => (a + b).toInt = a.toInt + b.toInt)

end TokenUsageTotals

/-- Conversions of the standard library: `int64` of a float, and the number a text stands for
    (`strconv.ParseInt`, else `strconv.ParseFloat`). -/
structure NumberReading (F : Type) where
  truncate : F → Int64
  parseText : Bytes → Option Int64

section usage
variable {F : Type} (φ : FloatFormat F) (num : NumberReading F)

/-- `decodeUsageJSON`; without entries where there is no map. -/
def decodeUsageJSON (raw : Bytes) : KeyMap (Any F) :=
  match (decode (trimSpace raw)).bind (Any.read φ) with
  | some (.map usage) => usage
  | _ => []

/-- `usageInt`, of the types a decoded value has. -/
def usageInt : Any F → Option Int64
  | .float f => some (num.truncate f)
  | .text s => if trimSpace s = [] then none else num.parseText (trimSpace s)
  | _ => none

def firstUsageInt (usage : KeyMap (Any F)) (keys : List String) : Int64 :=
  (keys.findSome? (fun key => (usage.get (lit key)).bind (usageInt num))).getD 0

def nestedUsageInt (usage : KeyMap (Any F)) (parentKey childKey : String) : Int64 :=
  match usage.get (lit parentKey) with
  | some (.map parent) => ((KeyMap.get parent (lit childKey)).bind (usageInt num)).getD 0
  | _ => 0

def tokenUsageFromMap (usage : KeyMap (Any F)) : TokenUsageTotals :=
  let input := firstUsageInt num usage ["prompt_tokens", "input_tokens"]
  let output := firstUsageInt num usage ["completion_tokens", "output_tokens"]
  let total := firstUsageInt num usage ["total_tokens"]
  let input := if input ≤ 0 ∧ 0 < total ∧ 0 < output then total - output else input
  let output := if output ≤ 0 ∧ 0 < total ∧ 0 < input then total - input else output
  let total := if total ≤ 0 then input + output else total
  let cacheHit := firstUsageInt num usage ["prompt_cache_hit_tokens", "input_cache_hit_tokens",
    "cache_hit_input_tokens", "cache_hit_tokens"]
  let cacheMiss := firstUsageInt num usage ["prompt_cache_miss_tokens", "input_cache_miss_tokens",
    "cache_miss_input_tokens", "cache_miss_tokens"]
  let cacheHit :=
    if cacheHit ≤ 0 then nestedUsageInt num usage "prompt_tokens_details" "cached_tokens" else cacheHit
  let cacheMiss := if cacheMiss ≤ 0 ∧ 0 < input then input - cacheHit else cacheMiss
  { inputTokens := max input 0
    outputTokens := max output 0
    cacheHitInputTokens := max cacheHit 0
    cacheMissInputTokens := max cacheMiss 0
    totalTokens := max total 0 }

/-- What an entry with this usage adds to the counts: nothing without tokens. -/
def countedUsage (usageJSON : Bytes) : TokenUsageTotals :=
  let usage := tokenUsageFromMap num (decodeUsageJSON φ usageJSON)
  if usage.totalTokens ≤ 0 ∧ usage.inputTokens ≤ 0 ∧ usage.outputTokens ≤ 0 then 0
  else { usage with requests := 1 }

end usage

/-! The databases. -/

/-- An entry in the table `chat_history`. -/
structure Row where
  id : Bytes
  createdAt : Int
  updatedAt : Int
  status : Bytes
  usageJSON : Bytes
  deriving DecidableEq, Repr

/-- The main database. `limit`, `prunedTokenTotal` and `importHash` are in its meta table. -/
structure MainDb where
  rows : List Row
  limit : Option Int
  prunedTokenTotal : TokenUsageTotals
  importHash : Option Bytes

/-- The token database. -/
structure StatsDb where
  /-- the row of the grand total; `none` once a sum has left the range of `int64`: SQLite goes on
      with a real number, which `readRollup` cannot read -/
  rollup : Option TokenUsageTotals
  /-- the migration was done -/
  migrated : Bool

/-- `addRollup`, on the row of the grand total. -/
def StatsDb.addRollup (s : StatsDb) (delta : TokenUsageTotals) : StatsDb :=
  if delta.requests ≤ 0 then s
  else
    { s with rollup := s.rollup.bind (fun row => if row.sumsExactly delta then some (row + delta) else none) }

structure History where
  main : MainDb
  stats : StatsDb
  /-- a store is open; it has the token database -/
  isOpen : Bool

def disabledLimit : Int := 0
def defaultLimit : Int := 20000
def maxLimit : Int := 20000
def burstPruneRetainedLimit : Nat := 500

def isAllowedLimit (limit : Int) : Bool := [disabledLimit, 10, 20, 50, maxLimit].contains limit

/-- `retainedHistoryCountAfterPrune`, for a limit that is not the disabled one. -/
def retainedHistoryCountAfterPrune (total : Nat) (limit : Int) : Nat :=
  let limit := if isAllowedLimit limit then limit else defaultLimit
  if limit = maxLimit ∧ maxLimit ≤ total then burstPruneRetainedLimit else limit.toNat

/-- `ORDER BY updated_at DESC, created_at DESC`. -/
def newestFirst (rows : List Row) : List Row :=
  rows.insertionSort (fun a b =>
    b.updatedAt < a.updatedAt ∨ b.updatedAt = a.updatedAt ∧ b.createdAt ≤ a.createdAt)

section store
variable {F : Type} (φ : FloatFormat F) (num : NumberReading F)

def usageOf (rows : List Row) : TokenUsageTotals := (rows.map (fun r => countedUsage φ num r.usageJSON)).sum

def MainDb.effectiveLimit (db : MainDb) : Int := db.limit.getD defaultLimit

/-- The rows `pruneLocked` deletes. -/
def MainDb.pruned (db : MainDb) : List Row :=
  if db.effectiveLimit = disabledLimit then []
  else (newestFirst db.rows).drop (retainedHistoryCountAfterPrune db.rows.length db.effectiveLimit)

/-- `pruneLocked`: the rows are deleted and their usage is added to the meta table. -/
def MainDb.pruneLocked (db : MainDb) : MainDb :=
  let limit :=
    if db.effectiveLimit = disabledLimit ∨ isAllowedLimit db.effectiveLimit then db.limit else some defaultLimit
  { db with
    rows := db.rows.filter (fun r => !(db.pruned.map Row.id).contains r.id)
    limit := limit
    prunedTokenTotal := db.prunedTokenTotal + usageOf φ num db.pruned }

/-- `upsertEntryLocked`, one after the other. -/
def MainDb.upsertAll (db : MainDb) (written : List Row) : MainDb :=
  { db with rows := written.foldl (fun rows row => Table.upsert Row.id row rows) db.rows }

/-! Opening. -/

/-- A legacy JSON index: its digest, its entries and its limit. -/
structure LegacyFile where
  hash : Bytes
  entries : List Row
  limit : Int

/-- The loop over the legacy entries: those without an id and those the table has are passed
    over. -/
def unknownRows : List Bytes → List Row → List Row
  | _, [] => []
  | ids, row :: rest =>
    if trimSpace row.id = [] ∨ row.id ∈ ids then unknownRows ids rest
    else row :: unknownRows (row.id :: ids) rest

/-- The limit a legacy index is imported with. -/
def LegacyFile.allowedLimit (legacy : LegacyFile) : Int :=
  if isAllowedLimit legacy.limit then legacy.limit else defaultLimit

/-- The rows `importLegacyIfEmptyLocked` writes. -/
def MainDb.imports (db : MainDb) : Option LegacyFile → List Row
  | none => []
  | some legacy =>
    if db.importHash = some legacy.hash then []
    else
      let entries := newestFirst legacy.entries
      unknownRows (db.rows.map Row.id)
        (if legacy.allowedLimit = disabledLimit then entries else entries.take legacy.allowedLimit.toNat)

/-- What it writes into the meta table, behind `initMetaLocked`. -/
def MainDb.initMeta (db : MainDb) (legacy : Option LegacyFile) : MainDb :=
  let db := { db with limit := some (if isAllowedLimit db.effectiveLimit then db.effectiveLimit else defaultLimit) }
  match legacy with
  | none => db
  | some legacy =>
    if db.importHash = some legacy.hash then db
    else { db with limit := some legacy.allowedLimit, importHash := some legacy.hash }

/-- The rows `stopUnfinishedLocked` writes. -/
def MainDb.stopped (db : MainDb) (now : Int) : List Row :=
  (db.rows.filter (fun r => r.status = lit "queued" ∨ r.status = lit "streaming")).map
    (fun r => { r with updatedAt := now, status := lit "stopped" })

/-- The rows the initialisation of a store writes. -/
def MainDb.initWrites (db : MainDb) (now : Int) (legacy : Option LegacyFile) : List Row :=
  db.imports legacy ++ (db.upsertAll (db.imports legacy)).stopped now

/-- The main database before the pruning at the end of `init`. -/
def MainDb.initialised (db : MainDb) (now : Int) (legacy : Option LegacyFile) : MainDb :=
  (db.initMeta legacy).upsertAll (db.initWrites now legacy)

/-! Steps. -/

/-- A call and how its commits end. Opening starts a new process; a failure in the transaction
    of its initialisation counts as a failed commit, and the compression of the details behind
    it, in transactions of its own, may fail too. -/
inductive Action where
  | openStore (now : Int) (legacy : Option LegacyFile) (initCommits compresses migrationCommits : Bool)
  | start (id : Bytes) (now : Int) (status : Bytes) (commits : Bool)
  | update (id : Bytes) (now : Int) (status : Bytes) (usageJSON : Option Bytes) (commits : Bool)
  | setLimit (limit : Int) (commits : Bool)

def startRow (id : Bytes) (now : Int) (status : Bytes) : Row :=
  { id := id
    createdAt := now
    updatedAt := now
    status := if trimSpace status = [] then lit "streaming" else trimSpace status
    usageJSON := [] }

def Row.updated (r : Row) (now : Int) (status : Bytes) (usageJSON : Option Bytes) : Row :=
  { r with
    updatedAt := now
    status := if status = [] then r.status else status
    usageJSON := usageJSON.getD r.usageJSON }

/-- The main database as the transaction of a call leaves it before the pruning, and the rows
    it writes; none where the call fails before. -/
def MainDb.transaction (db : MainDb) : Action → Option (MainDb × List Row)
  | .openStore now legacy _ _ _ => some (db.initialised now legacy, db.initWrites now legacy)
  | .start id now status _ =>
    if db.effectiveLimit = disabledLimit then none
    else some (db.upsertAll [startRow id now status], [startRow id now status])
  | .update id now status usageJSON _ =>
    (db.rows.find? (fun r => r.id == trimSpace id)).map (fun r =>
      (db.upsertAll [r.updated now status usageJSON], [r.updated now status usageJSON]))
  | .setLimit limit _ => if isAllowedLimit limit then some ({ db with limit := some limit }, []) else none

/-- `pruneLocked` and the commit in a store with a token database, which has the usage of the
    pruned rows whether or not the commit succeeds. -/
def History.commit (h : History) (db : MainDb) (commits : Bool) : History :=
  { h with
    main := if commits then db.pruneLocked φ num else h.main
    stats := h.stats.addRollup (usageOf φ num db.pruned) }

/-- `migrateLegacyTokenRollupIfNeeded`. -/
def History.migrate (h : History) (commits : Bool) : History :=
  if h.stats.migrated || !commits then h
  else { h with stats := { h.stats.addRollup h.main.prunedTokenTotal with migrated := true } }

/-- `newSQLiteStore`: the store has no token database yet when `init` prunes, and fails with the
    pruning committed where the compression fails. -/
def History.openStore (h : History) (db : MainDb) (initCommits compresses migrationCommits : Bool) : History :=
  if !initCommits then { h with isOpen := false }
  else if !compresses then { h with main := db.pruneLocked φ num, isOpen := false }
  else History.migrate { h with main := db.pruneLocked φ num, isOpen := true } migrationCommits

/-- Whether the transaction of a call is committed, if it comes so far. -/
def Action.commits : Action → Bool
  | .openStore _ _ initCommits _ _ => initCommits
  | .start _ _ _ commits => commits
  | .update _ _ _ _ commits => commits
  | .setLimit _ commits => commits

def History.step (h : History) (a : Action) : History :=
  match h.main.transaction a with
  | none => h
  | some (db, _) =>
    match a with
    | .openStore _ _ initCommits compresses migrationCommits =>
      h.openStore φ num db initCommits compresses migrationCommits
    | a => h.commit φ num db a.commits

/-- `TokenUsageStats().Total` of an open store; `tokenRollupLocked` reads the meta table where it
    cannot read the token database. -/
def History.tokenUsageTotal (h : History) : TokenUsageTotals :=
  h.stats.rollup.getD h.main.prunedTokenTotal + usageOf φ num h.main.rows

end store

end DeepSeekWebToApi.ChatHistory
