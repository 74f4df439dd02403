import DeepSeekWebToApi.ChatHistory.Store
import DeepSeekWebToApi.Lib.Runs

/- Token usage is counted once for each entry, as long as the two places the usage of pruned
   entries is kept in do not come apart.

   The ledger is what the counts are for: every entry that was ever committed, with the usage
   it had last. A pruned entry is counted by the token database; that database is written
   before the transaction it belongs to is committed, and not at all while a store is being
   opened. -/
namespace DeepSeekWebToApi.ChatHistory
open GoStrings GoJson

/-- The entries ever committed with their last usage, and the usage of those that were pruned
    before there was a token database. -/
structure Ledger where
  earlier : TokenUsageTotals
  entries : List (Bytes × Bytes)

def Ledger.record (l : Ledger) (row : Row) : Ledger :=
  { l with entries := Table.upsert Prod.fst (row.id, row.usageJSON) l.entries }

/-- The databases, and the ledger beside them. -/
structure Tracked where
  history : History
  ledger : Ledger

section conservation
variable {F : Type} (φ : FloatFormat F) (num : NumberReading F)

def Ledger.total (l : Ledger) : TokenUsageTotals :=
  l.earlier + (l.entries.map (fun e => countedUsage φ num e.2)).sum

def Tracked.step (t : Tracked) (a : Action) : Option Tracked :=
  let written := ((t.history.main.transaction a).map Prod.snd).getD []
  let next : Tracked :=
    { history := t.history.step φ num a
      ledger := if a.commits then written.foldl Ledger.record t.ledger else t.ledger }
  match a with
  | .openStore _ _ _ _ _ => some next
  | _ => if t.history.isOpen then some next else none

/-- The counts of an open store are those of the ledger. -/
def Tracked.Conserved (t : Tracked) : Prop :=
  t.history.isOpen = true → t.history.tokenUsageTotal φ num = t.ledger.total φ num

/-- The databases before the first store with a token database is opened: entries under
    different ids, and the usage of earlier ones in the meta table. -/
structure Tracked.Initial (t : Tracked) : Prop where
  ids : (t.history.main.rows.map Row.id).Nodup
  stats : t.history.stats = { rollup := some 0, migrated := false }
  closed : t.history.isOpen = false
  ledger : t.ledger = { earlier := t.history.main.prunedTokenTotal
                        entries := t.history.main.rows.map (fun r => (r.id, r.usageJSON)) }

/-- The token database can count the usage: there is a request in it, and no sum leaves the range
    of `int64`. -/
def StatsDb.CanCount (s : StatsDb) (delta : TokenUsageTotals) : Prop :=
  0 < delta.requests ∧ ∀ row ∈ s.rollup, row.sumsExactly delta = true

/-- What the counts need of the pruning at the end of a transaction. A call that prunes entries
    with usage commits, in a store that was migrated and can count it. Opening a store that was
    migrated prunes no entry with usage; otherwise the open fails, the migration succeeds or there
    is nothing to migrate. -/
def Action.CountsKept (stats : StatsDb) (db : MainDb) : Action → Prop
  | .openStore _ _ initCommits compresses migrationCommits => initCommits = true →
    if stats.migrated then usageOf φ num db.pruned = 0
    else compresses = false ∨ db.prunedTokenTotal + usageOf φ num db.pruned = 0 ∨
      migrationCommits = true ∧ stats.CanCount (db.prunedTokenTotal + usageOf φ num db.pruned)
  | a => usageOf φ num db.pruned = 0 ∨
    a.commits = true ∧ stats.migrated = true ∧ stats.CanCount (usageOf φ num db.pruned)

/-- A step the counts survive; an id is not given to a second entry: no entry that was pruned
    is written again. -/
def Safe (t : Tracked) (a : Action) : Prop :=
  ∀ tx ∈ t.history.main.transaction a,
    (∀ r ∈ tx.2, r.id ∈ t.history.main.rows.map Row.id ∨ r.id ∉ t.ledger.entries.map Prod.fst) ∧
    a.CountsKept φ num t.history.stats tx.1

instance CanCount.decidable (s : StatsDb) (delta : TokenUsageTotals) : Decidable (s.CanCount delta) :=
  inferInstanceAs (Decidable (_ ∧ ∀ row ∈ s.rollup, _))

instance CountsKept.decidable (stats : StatsDb) (db : MainDb) :
    (a : Action) → Decidable (a.CountsKept φ num stats db)
  | .openStore _ _ _ _ _ => inferInstanceAs (Decidable (_ → ite _ _ _))
  | .start _ _ _ _ => inferInstanceAs (Decidable (_ ∨ _))
  | .update _ _ _ _ _ => inferInstanceAs (Decidable (_ ∨ _))
  | .setLimit _ _ => inferInstanceAs (Decidable (_ ∨ _))

instance Safe.decidable (t : Tracked) (a : Action) : Decidable (Safe φ num t a) :=
  inferInstanceAs (Decidable (∀ tx ∈ t.history.main.transaction a, _ ∧ _))

instance Conserved.decidable (t : Tracked) : Decidable (t.Conserved φ num) :=
  inferInstanceAs (Decidable (_ → _))

/-! The invariant. -/

variable {φ num}

/-- Rows under ids of their own, each in the ledger with its usage. -/
structure Coherent (rows : List Row) (l : Ledger) : Prop where
  rowIds : (rows.map Row.id).Nodup
  ledgerIds : (l.entries.map Prod.fst).Nodup
  known : ∀ r ∈ rows, (r.id, r.usageJSON) ∈ l.entries

variable {l : Ledger}

theorem coherent_upsert {rows : List Row} {r : Row} (h : Coherent rows l) :
    Coherent (Table.upsert Row.id r rows) (l.record r) := by
  refine ⟨Table.nodup_upsert h.rowIds, Table.nodup_upsert h.ledgerIds, fun s hs => ?_⟩
  rcases Table.mem_upsert hs with rfl | ⟨hs, hne⟩
  · exact Table.mem_upsert_self _ _
  · exact Table.mem_upsert_of_ne (h.known s hs) hne

/-- Writing a row moves the sum over the rows and the ledger by the same amount. -/
theorem total_record {rows : List Row} {r : Row} {rolled : TokenUsageTotals} (h : Coherent rows l)
    (hr : r.id ∈ rows.map Row.id ∨ r.id ∉ l.entries.map Prod.fst)
    (htotal : l.total φ num = rolled + usageOf φ num rows) :
    (l.record r).total φ num = rolled + usageOf φ num (Table.upsert Row.id r rows) := by
  let value : Row → TokenUsageTotals := fun r => countedUsage φ num r.usageJSON
  let entryValue : Bytes × Bytes → TokenUsageTotals := fun e => countedUsage φ num e.2
  by_cases hmem : r.id ∈ rows.map Row.id
  · obtain ⟨old, hold, hkey⟩ := List.mem_map.mp hmem
    have hrows := Table.sum_upsert_old value hkey h.rowIds hold
    have hledger := @Table.sum_upsert_old _ _ _ _ Prod.fst l.entries _ entryValue (r.id, r.usageJSON)
      (old.id, old.usageJSON) hkey h.ledgerIds (h.known old hold)
    refine TokenUsageTotals.add_right_cancel (v := value old) ?_
    calc (l.record r).total φ num + value old
        = l.earlier + (((l.record r).entries.map entryValue).sum + value old) := by
          rw [Ledger.total, add_assoc]
          rfl
      _ = l.earlier + ((l.entries.map entryValue).sum + value r) := by
          rw [← hledger]
          rfl
      _ = l.total φ num + value r := by rw [Ledger.total, add_assoc]
      _ = rolled + (usageOf φ num rows + value r) := by rw [htotal, add_assoc]
      _ = rolled + (usageOf φ num (Table.upsert Row.id r rows) + value old) := by
          rw [usageOf, usageOf, ← hrows]
      _ = rolled + usageOf φ num (Table.upsert Row.id r rows) + value old := by rw [add_assoc]
  · have hrows := Table.sum_upsert_new value hmem
    have hledger := @Table.sum_upsert_new _ _ _ _ Prod.fst l.entries _ entryValue (r.id, r.usageJSON)
      (hr.resolve_left hmem)
    calc (l.record r).total φ num
        = l.earlier + ((l.entries.map entryValue).sum + value r) := by
          rw [Ledger.total, ← hledger]
          rfl
      _ = l.total φ num + value r := by rw [Ledger.total, add_assoc]
      _ = rolled + (usageOf φ num rows + value r) := by rw [htotal, add_assoc]
      _ = rolled + usageOf φ num (Table.upsert Row.id r rows) := by rw [usageOf, usageOf, ← hrows]

/-- The rows of a transaction, one by one. -/
theorem total_recordAll {rolled : TokenUsageTotals} : ∀ {written rows : List Row} {l : Ledger},
    Coherent rows l → (∀ r ∈ written, r.id ∈ rows.map Row.id ∨ r.id ∉ l.entries.map Prod.fst) →
    l.total φ num = rolled + usageOf φ num rows →
    Coherent (written.foldl (fun rows row => Table.upsert Row.id row rows) rows) (written.foldl Ledger.record l) ∧
    (written.foldl Ledger.record l).total φ num =
      rolled + usageOf φ num (written.foldl (fun rows row => Table.upsert Row.id row rows) rows)
  | [], rows, l, hcoherent, _, htotal => ⟨hcoherent, htotal⟩
  | r :: written, rows, l, hcoherent, hids, htotal => by
    obtain ⟨hr, hwritten⟩ := List.forall_mem_cons.mp hids
    rw [List.foldl_cons, List.foldl_cons]
    refine total_recordAll (coherent_upsert hcoherent) (fun s hs => ?_) (total_record hcoherent hr htotal)
    have hledger : ∀ k, k ∈ (l.record r).entries.map Prod.fst ↔ k = r.id ∨ k ∈ l.entries.map Prod.fst :=
      fun _ => Table.mem_keys_upsert
    rw [Table.mem_keys_upsert, hledger]
    -- an id that is new to both is in both afterwards, if it is the one just written
    by_cases heq : s.id = r.id
    · exact Or.inl (Or.inl heq)
    · exact (hwritten s hs).imp Or.inr (fun hout hmem => hmem.elim heq hout)

theorem Coherent.filter {rows : List Row} (h : Coherent rows l) (p : Row → Bool) : Coherent (rows.filter p) l :=
  ⟨h.rowIds.sublist (List.filter_sublist.map Row.id), h.ledgerIds,
    fun r hr => h.known r (List.mem_of_mem_filter hr)⟩

variable {db : MainDb}

/-- The usage of the rows is that of the rows that stay and that of the pruned ones. -/
theorem usageOf_pruneLocked (h : (db.rows.map Row.id).Nodup) :
    usageOf φ num db.rows = usageOf φ num db.pruned + usageOf φ num (db.pruneLocked φ num).rows := by
  have hrows : (db.pruneLocked φ num).rows =
      db.rows.filter (fun r => !(db.pruned.map Row.id).contains r.id) := rfl
  rw [hrows]
  unfold MainDb.pruned
  split_ifs
  · simp only [List.map_nil, List.contains_nil, Bool.not_false, List.filter_true]
    rw [usageOf, usageOf, List.map_nil, List.sum_nil, zero_add]
  · have hperm : (newestFirst db.rows).Perm db.rows := List.perm_insertionSort _ _
    generalize retainedHistoryCountAfterPrune db.rows.length db.effectiveLimit = n
    have hkept := (Table.filter_perm_take hperm h n).map (fun r => countedUsage φ num r.usageJSON)
    have hall := hperm.map (fun r => countedUsage φ num r.usageJSON)
    rw [usageOf, usageOf, usageOf, hkept.sum_eq, ← hall.sum_eq, add_comm, ← List.sum_append, ← List.map_append,
      List.take_append_drop]

/-- What holds between the databases and the ledger. -/
structure Tracked.Inv (φ : FloatFormat F) (num : NumberReading F) (t : Tracked) : Prop where
  coherent : Coherent t.history.main.rows t.ledger
  migrated : t.history.stats.migrated = true → ∃ row, t.history.stats.rollup = some row ∧
    t.ledger.total φ num = row + usageOf φ num t.history.main.rows
  unmigrated : t.history.stats.migrated = false → t.history.stats.rollup = some 0 ∧
    t.ledger.total φ num = t.history.main.prunedTokenTotal + usageOf φ num t.history.main.rows
  opened : t.history.isOpen = true → t.history.stats.migrated = false → t.history.main.prunedTokenTotal = 0

variable {t : Tracked}

theorem Tracked.Inv.conserved (h : t.Inv φ num) : t.Conserved φ num := by
  intro hopen
  rw [History.tokenUsageTotal]
  cases hmigrated : t.history.stats.migrated with
  | true =>
    obtain ⟨row, hrollup, htotal⟩ := h.migrated hmigrated
    rw [htotal, hrollup, Option.getD_some]
  | false =>
    obtain ⟨hrollup, htotal⟩ := h.unmigrated hmigrated
    rw [htotal, hrollup, h.opened hopen hmigrated, Option.getD_some]

/-! The row of the token database. -/

theorem StatsDb.addRollup_zero (s : StatsDb) : s.addRollup 0 = s := if_pos (by decide)

theorem StatsDb.addRollup_migrated (s : StatsDb) (delta : TokenUsageTotals) :
    (s.addRollup delta).migrated = s.migrated := by
  unfold StatsDb.addRollup
  split_ifs <;> rfl

theorem StatsDb.CanCount.addRollup {s : StatsDb} {row delta : TokenUsageTotals} (h : s.CanCount delta)
    (hrow : s.rollup = some row) : (s.addRollup delta).rollup = some (row + delta) := by
  have hpos : ¬ delta.requests ≤ 0 := Int64.not_le.mpr h.1
  rw [StatsDb.addRollup, if_neg hpos, hrow, Option.bind_some, if_pos (h.2 row hrow)]

theorem Tracked.Initial.inv (h : t.Initial) : t.Inv φ num := by
  have hcoherent : Coherent t.history.main.rows t.ledger := by
    refine ⟨h.ids, ?_, fun r hr => ?_⟩
    · rw [h.ledger, List.map_map]
      exact h.ids
    · rw [h.ledger]
      exact List.mem_map_of_mem hr
  refine ⟨hcoherent, fun hm => ?_, fun _ => ⟨?_, ?_⟩, fun ho => ?_⟩
  · rw [h.stats] at hm
    cases hm
  · rw [h.stats]
  · rw [h.ledger, Ledger.total, List.map_map, usageOf, Function.comp_def]
  · rw [h.closed] at ho
    cases ho

/-- The rows of a transaction are those written into the table. -/
theorem transaction_rows {db db' : MainDb} {a : Action} {written : List Row}
    (h : db.transaction a = some (db', written)) :
    db'.rows = written.foldl (fun rows row => Table.upsert Row.id row rows) db.rows ∧
    db'.prunedTokenTotal = db.prunedTokenTotal := by
  have hinit (legacy : Option LegacyFile) : (db.initMeta legacy).rows = db.rows ∧
      (db.initMeta legacy).prunedTokenTotal = db.prunedTokenTotal := by
    unfold MainDb.initMeta
    cases legacy with
    | none => exact ⟨rfl, rfl⟩
    | some legacy =>
      simp only
      split_ifs <;> exact ⟨rfl, rfl⟩
  cases a with
  | openStore now legacy initCommits compresses migrationCommits =>
    obtain ⟨rfl, rfl⟩ := Prod.mk.inj (Option.some.inj h)
    refine ⟨?_, (hinit legacy).2⟩
    rw [MainDb.initialised, MainDb.upsertAll, (hinit legacy).1]
  | start id now status commits =>
    rw [MainDb.transaction] at h
    split_ifs at h
    obtain ⟨rfl, rfl⟩ := Prod.mk.inj (Option.some.inj h)
    exact ⟨rfl, rfl⟩
  | update id now status usageJSON commits =>
    obtain ⟨r, _, heq⟩ := Option.map_eq_some_iff.mp h
    obtain ⟨rfl, rfl⟩ := Prod.mk.inj heq
    exact ⟨rfl, rfl⟩
  | setLimit limit commits =>
    rw [MainDb.transaction] at h
    split_ifs at h
    obtain ⟨rfl, rfl⟩ := Prod.mk.inj (Option.some.inj h)
    exact ⟨rfl, rfl⟩

/-- Pruning moves usage from the rows to where the usage of pruned rows is kept. -/
theorem total_pruneLocked {rolled : TokenUsageTotals} (h : Coherent db.rows l)
    (htotal : l.total φ num = rolled + usageOf φ num db.rows) :
    l.total φ num = rolled + usageOf φ num db.pruned + usageOf φ num (db.pruneLocked φ num).rows := by
  rw [htotal, usageOf_pruneLocked h.rowIds, add_assoc]

/-- A call on an open store. -/
theorem Tracked.Inv.commit {written : List Row} {a : Action} (h : t.Inv φ num)
    (htx : t.history.main.transaction a = some (db, written))
    (hids : ∀ r ∈ written, r.id ∈ t.history.main.rows.map Row.id ∨ r.id ∉ t.ledger.entries.map Prod.fst)
    (hsafe : usageOf φ num db.pruned = 0 ∨ a.commits = true ∧ t.history.stats.migrated = true ∧
      t.history.stats.CanCount (usageOf φ num db.pruned)) :
    Tracked.Inv φ num
      { history := t.history.commit φ num db a.commits
        ledger := if a.commits then written.foldl Ledger.record t.ledger else t.ledger } := by
  obtain ⟨hrows, hmeta⟩ := transaction_rows htx
  have hkept : usageOf φ num db.pruned = 0 → t.history.stats.addRollup (usageOf φ num db.pruned) = t.history.stats :=
    fun hzero => by rw [hzero, StatsDb.addRollup_zero]
  by_cases hcommits : a.commits = true
  · have hwrite (rolled : TokenUsageTotals)
        (htotal : t.ledger.total φ num = rolled + usageOf φ num t.history.main.rows) :=
      @total_recordAll F φ num rolled written t.history.main.rows t.ledger h.coherent hids htotal
    simp only [History.commit, hcommits, if_true]
    have hcoherent : Coherent db.rows (written.foldl Ledger.record t.ledger) := by
      rw [hrows]
      cases hm : t.history.stats.migrated with
      | true =>
        obtain ⟨row, _, htotal⟩ := h.migrated hm
        exact (hwrite _ htotal).1
      | false => exact (hwrite _ (h.unmigrated hm).2).1
    have hzero : t.history.stats.migrated = false → usageOf φ num db.pruned = 0 := fun hm =>
      hsafe.resolve_right fun hr => Bool.noConfusion (hm.symm.trans hr.2.1)
    refine ⟨hcoherent.filter _, fun hm => ?_, fun hm => ?_, fun ho hm => ?_⟩
    · rw [StatsDb.addRollup_migrated] at hm
      obtain ⟨row, hrow, htotal⟩ := h.migrated hm
      refine ⟨row + usageOf φ num db.pruned, ?_, total_pruneLocked hcoherent ?_⟩
      · rcases hsafe with hnone | ⟨-, -, hcan⟩
        · rw [hkept hnone, hrow, hnone, add_zero]
        · exact hcan.addRollup hrow
      · rw [hrows]
        exact (hwrite _ htotal).2
    · rw [StatsDb.addRollup_migrated] at hm
      obtain ⟨hrollup, htotal⟩ := h.unmigrated hm
      refine ⟨by rw [hkept (hzero hm), hrollup], total_pruneLocked hcoherent ?_⟩
      rw [hrows, hmeta]
      exact (hwrite _ htotal).2
    · rw [StatsDb.addRollup_migrated] at hm
      rw [MainDb.pruneLocked, hzero hm, add_zero, hmeta]
      exact h.opened ho hm
  · -- the rollup is written although the rows stay, so it must be zero
    have hzero : usageOf φ num db.pruned = 0 := hsafe.resolve_right fun hr => hcommits hr.1
    simp only [History.commit, Bool.eq_false_iff.mpr hcommits, Bool.false_eq_true, if_false, hkept hzero]
    exact ⟨h.coherent, h.migrated, h.unmigrated, h.opened⟩

/-- Opening a store. -/
theorem Tracked.Inv.openStore {written : List Row} {now : Int} {legacy : Option LegacyFile}
    {initCommits compresses migrationCommits : Bool} (h : t.Inv φ num)
    (htx : t.history.main.transaction (.openStore now legacy initCommits compresses migrationCommits) =
      some (db, written))
    (hids : ∀ r ∈ written, r.id ∈ t.history.main.rows.map Row.id ∨ r.id ∉ t.ledger.entries.map Prod.fst)
    (hsafe : initCommits = true → if t.history.stats.migrated then usageOf φ num db.pruned = 0
      else compresses = false ∨ db.prunedTokenTotal + usageOf φ num db.pruned = 0 ∨ migrationCommits = true ∧
        t.history.stats.CanCount (db.prunedTokenTotal + usageOf φ num db.pruned)) :
    Tracked.Inv φ num
      { history := t.history.openStore φ num db initCommits compresses migrationCommits
        ledger := if initCommits then written.foldl Ledger.record t.ledger else t.ledger } := by
  obtain ⟨hrows, hmeta⟩ := transaction_rows htx
  cases initCommits with
  | false => exact ⟨h.coherent, h.migrated, h.unmigrated, nofun⟩
  | true =>
    have hwrite (rolled : TokenUsageTotals)
        (htotal : t.ledger.total φ num = rolled + usageOf φ num t.history.main.rows) :=
      @total_recordAll F φ num rolled written t.history.main.rows t.ledger h.coherent hids htotal
    have hsafe := hsafe rfl
    simp only [History.openStore, History.migrate, Bool.not_true, Bool.false_eq_true, if_false, if_true]
    cases hm : t.history.stats.migrated with
    | true =>
      -- the pruned rows are counted in the meta table only, so there must be none with usage
      rw [hm, if_pos rfl] at hsafe
      obtain ⟨row, hrow, htotal⟩ := h.migrated hm
      obtain ⟨hcoherent, htotal⟩ := hwrite _ htotal
      rw [← hrows] at hcoherent htotal
      have hpruned := total_pruneLocked hcoherent htotal
      rw [hsafe, add_zero] at hpruned
      simp only [Bool.true_or, if_true]
      have hne : ¬ t.history.stats.migrated = false := by rw [hm]; decide
      cases compresses with
      | false => exact ⟨hcoherent.filter _, fun _ => ⟨row, hrow, hpruned⟩, fun hf => absurd hf hne, nofun⟩
      | true => exact ⟨hcoherent.filter _, fun _ => ⟨row, hrow, hpruned⟩, fun hf => absurd hf hne,
          fun _ hf => absurd hf hne⟩
    | false =>
      rw [hm, if_neg Bool.false_ne_true] at hsafe
      obtain ⟨hrollup, htotal⟩ := h.unmigrated hm
      obtain ⟨hcoherent, htotal⟩ := hwrite _ htotal
      rw [← hrows, ← hmeta] at htotal
      rw [← hrows] at hcoherent
      have hpruned := total_pruneLocked hcoherent htotal
      have hne : ¬ t.history.stats.migrated = true := by rw [hm]; exact Bool.false_ne_true
      cases compresses with
      | false =>
        -- the pruning is committed and waits in the meta table for the next open
        exact ⟨hcoherent.filter _, fun ht => absurd ht hne, fun _ => ⟨hrollup, hpruned⟩, nofun⟩
      | true =>
        have hsafe := hsafe.resolve_left (by decide)
        cases migrationCommits with
        | true =>
          simp only [Bool.not_true, Bool.or_self, Bool.false_eq_true, if_false]
          refine ⟨hcoherent.filter _, fun _ => ⟨db.prunedTokenTotal + usageOf φ num db.pruned, ?_, hpruned⟩, nofun,
            fun _ => nofun⟩
          rcases hsafe with hzero | ⟨-, hcan⟩
          · rw [MainDb.pruneLocked, hzero, StatsDb.addRollup_zero, hrollup]
          · exact (hcan.addRollup hrollup).trans (by rw [zero_add])
        | false =>
          have hzero := hsafe.resolve_right fun hr => Bool.false_ne_true hr.1
          simp only [Bool.not_false, Bool.or_true, if_true]
          exact ⟨hcoherent.filter _, fun ht => absurd ht hne, fun _ => ⟨hrollup, hpruned⟩, fun _ _ => hzero⟩

theorem Tracked.Inv.step {t t' : Tracked} {a : Action} (h : t.Inv φ num) (hsafe : Safe φ num t a)
    (hstep : t.step φ num a = some t') : t'.Inv φ num := by
  have hnext : t' = { history := t.history.step φ num a
                      ledger := if a.commits then
                        (((t.history.main.transaction a).map Prod.snd).getD []).foldl Ledger.record t.ledger
                        else t.ledger } := by
    unfold Tracked.step at hstep
    simp only at hstep
    split at hstep
    · exact (Option.some.inj hstep).symm
    · by_cases hopen : t.history.isOpen = true
      · rw [if_pos hopen] at hstep
        exact (Option.some.inj hstep).symm
      · rw [if_neg hopen] at hstep
        cases hstep
  rw [hnext, History.step]
  cases htx : t.history.main.transaction a with
  | none =>
    simp only [Option.map_none, Option.getD_none, List.foldl_nil, ite_self]
    exact h
  | some tx =>
    obtain ⟨db, written⟩ := tx
    obtain ⟨hids, hcall⟩ := hsafe _ htx
    cases a with
    | openStore now legacy initCommits compresses migrationCommits => exact h.openStore htx hids hcall
    | start id now status commits => exact h.commit htx hids hcall
    | update id now status usageJSON commits => exact h.commit htx hids hcall
    | setLimit limit commits => exact h.commit htx hids hcall

/-- In every run whose steps are safe, the counts are those of the ledger throughout. -/
theorem usage_conserved {t : Tracked} (hinitial : t.Initial) (as : List Action)
    (hsafe : Runs.Meets (Tracked.step φ num) (Safe φ num) t as) :
    Runs.Always (Tracked.step φ num) (Tracked.Conserved φ num) t as := by
  have hinv : Runs.Always (Tracked.step φ num) (Tracked.Inv φ num) t as :=
    Runs.always_of_meets (fun s a s' hs hc hstep => hs.step hc hstep) as t hinitial.inv hsafe
  exact hinv.mono fun s hs => hs.conserved

end conservation

/-! A database with eleven entries, each with one token. -/

def wholeReading : NumberReading Int := { truncate := Int64.ofInt, parseText := fun s => (parseInt s).map Int64.ofInt }

def elevenEntries : Tracked :=
  let rows : List Row := (List.range 11).map (fun i : Nat =>
    { id := [0x61 + i.toUInt8], createdAt := i, updatedAt := i, status := lit "success"
      usageJSON := lit "\x7b\"total_tokens\":1\x7d" })
  { history :=
      { main := { rows := rows, limit := none, prunedTokenTotal := 0, importHash := none }
        stats := { rollup := some 0, migrated := false }
        isOpen := false }
    ledger := { earlier := 0, entries := rows.map (fun r => (r.id, r.usageJSON)) } }

theorem elevenEntries_initial : elevenEntries.Initial := ⟨by decide +kernel, rfl, rfl, rfl⟩

theorem usage_conserved_example :
    Runs.Always (Tracked.step wholeNumbers wholeReading) (Tracked.Conserved wholeNumbers wholeReading) elevenEntries
      [.openStore 20 none true false true, .openStore 21 none true true true, .setLimit 10 true] :=
  usage_conserved elevenEntries_initial _ (by decide +kernel)

/-- The limit is lowered and the commit fails: the entry is counted as pruned and is still
    there. -/
theorem failed_prune_counts_twice :
    ¬Runs.Always (Tracked.step wholeNumbers wholeReading) (Tracked.Conserved wholeNumbers wholeReading) elevenEntries
      [.openStore 20 none true true true, .setLimit 10 false] := by
  have hlast : (Runs.run (Tracked.step wholeNumbers wholeReading) elevenEntries
      [.openStore 20 none true true true, .setLimit 10 false]).map
      (fun t => decide (t.Conserved wholeNumbers wholeReading)) = some false := by decide +kernel
  intro h
  obtain ⟨t, ht, hnot⟩ := Option.map_eq_some_iff.mp hlast
  exact of_decide_eq_false hnot (h.final ht)

end DeepSeekWebToApi.ChatHistory
