import DeepSeekWebToApi.Config.RoundTrip

/- Writes to the configuration store (`internal/config/store.go`: `Update`, `Replace`,
   `UpdateAccountToken`, `saveLocked`; `account_sqlite.go`: `replace`, `updateToken`).

   A call holds the lock from its start to its end, so it is one step on the state. What the
   database, the file system and the clock do in it are inputs of the step. Everything is
   assigned before the file is written and nothing is taken back. -/
set_option linter.dupNamespace false

namespace DeepSeekWebToApi.Config
open GoStrings GoJson

/-- The store: the configuration, its indexes, and the rows of the accounts database if there
    is one. -/
structure StoreState (F : Type) where
  cfg : Config F
  keyMap : Bytes → Bool
  accMap : Bytes → Option Nat
  rows : Option (List AccountRow)
  fromEnv : Bool

/-- How the statement of the token update ends: it fails, the number of its rows cannot be
    read, or neither. -/
inductive TokenExec where
  | fails | affectedFails | succeeds
  deriving DecidableEq

/-- What a call meets. A transaction that fails in any of its statements is rolled back. -/
structure Circumstances where
  now : Int
  nowMilli : Int
  envWriteback : Bool
  replaceFails : Bool
  tokenExec : TokenExec
  fileFails : Bool

inductive WriteError where
  | mutator
  | accountNotFound
  | identifierRequired
  | replaceAccounts
  | updateToken
  | affectedRows
  | marshal
  | writeFile
  deriving DecidableEq

section writes
variable {F : Type} [DecidableEq F] (φ : FloatFormat F) (tools : ProxyTools) (w : Circumstances)

/-- The configuration `saveLocked` writes: without tokens, and without accounts where these are
    in the database. -/
def StoreState.persistCfg (s : StoreState F) : Config F :=
  { s.cfg with
    accounts := if s.rows.isSome then [] else s.cfg.accounts.map (fun acc => { acc with token := [] }) }

/-- `json.MarshalIndent`: it reads the text `MarshalJSON` returned once more. -/
def marshalIndents (c : Config F) : Bool := (c.marshalJSON φ).any (fun b => (decode b).isSome)

def StoreState.saveLocked (s : StoreState F) : StoreState F × Option WriteError :=
  if s.fromEnv && !w.envWriteback then (s, none)
  else if !marshalIndents φ s.persistCfg then (s, some .marshal)
  else if w.fileFails then (s, some .writeFile)
  else ({ s with fromEnv := false }, none)

/-- The assignment of a new configuration: the rows of the database, the configuration and,
    by `rebuildIndexes`, its indexes. -/
def StoreState.assign (s : StoreState F) (cfg : Config F) : StoreState F :=
  let cfg := { cfg with accounts := persistAccounts w.now s.rows.isSome cfg.accounts }
  { s with
    cfg := cfg
    keyMap := fun k => cfg.keys.contains k
    accMap := (rebuildIndexes cfg.accounts).accMap
    rows := s.rows.map (fun _ => cfg.accounts.map (accountRow w.nowMilli)) }

/-- The common end of `Replace` and `Update`. -/
def StoreState.commit (s : StoreState F) (cfg : Config F) : StoreState F × Option WriteError :=
  if s.rows.isSome && w.replaceFails then (s, some .replaceAccounts)
  else (s.assign w cfg).saveLocked φ w

def StoreState.replace (s : StoreState F) (cfg : Config F) : StoreState F × Option WriteError :=
  s.commit φ w (cfg.normalizeCredentials tools w.now)

def StoreState.update (s : StoreState F) (mutator : Config F → Option (Config F)) :
    StoreState F × Option WriteError :=
  match mutator s.cfg with
  | none => (s, some .mutator)
  | some cfg => s.commit φ w ((cfg.reconcileCredentials s.cfg).normalizeCredentials tools w.now)

/-- Enter an identifier of an account into the index. -/
def linkTo (idx : Nat) (m : Bytes → Option Nat) (id : Bytes) : Bytes → Option Nat :=
  if id ≠ [] then Function.update m id (some idx) else m

/-- The token and the aliases `UpdateAccountToken` sets in memory. -/
def StoreState.setToken (s : StoreState F) (idx : Nat) (identifier token : Bytes) : StoreState F :=
  let accounts := s.cfg.accounts.modify idx (fun acc => { acc with token := token })
  let oldID := (s.cfg.accounts[idx]?).elim [] Account.identifier
  let newID := (accounts[idx]?).elim [] Account.identifier
  { s with
    cfg := { s.cfg with accounts := accounts }
    accMap := linkTo idx (linkTo idx (linkTo idx s.accMap identifier) oldID) newID }

/-- `accountSQLiteStore.updateToken`: the rows behind it, and its error. -/
def updateTokenRows (rows : List AccountRow) (identifier token : Bytes) :
    List AccountRow × Option WriteError :=
  let updated := updateToken rows identifier token w.nowMilli
  if trimSpace identifier = [] then (rows, some .identifierRequired)
  else
    match w.tokenExec with
    | .fails => (rows, some .updateToken)
    | .affectedFails => (updated.getD rows, some .affectedRows)
    | .succeeds => (updated.getD rows, if updated.isSome then none else some .accountNotFound)

def StoreState.updateAccountToken (s : StoreState F) (identifier token : Bytes) :
    StoreState F × Option WriteError :=
  let identifier := trimSpace identifier
  match Store.findAccountIndexLocked { accounts := s.cfg.accounts, accMap := s.accMap } identifier with
  | none => (s, some .accountNotFound)
  | some idx =>
    let s := s.setToken idx identifier token
    match s.rows with
    | none => s.saveLocked φ w
    | some rows =>
      match updateTokenRows w rows identifier token with
      | (rows, some err) => ({ s with rows := some rows }, some err)
      | (rows, none) => StoreState.saveLocked φ w { s with rows := some rows }

/-- A call that writes. -/
inductive Write (F : Type) where
  | update (mutator : Config F → Option (Config F))
  | replace (cfg : Config F)
  | updateAccountToken (identifier token : Bytes)

def StoreState.write (s : StoreState F) : Write F → StoreState F × Option WriteError
  | .update mutator => s.update φ tools w mutator
  | .replace cfg => s.replace φ tools w cfg
  | .updateAccountToken identifier token => s.updateAccountToken φ w identifier token

/-! What a call that fails leaves behind. -/

/-- The configuration, the indexes and the rows are the same. -/
structure StoreState.Agrees (s t : StoreState F) : Prop where
  cfg : t.cfg = s.cfg
  keyMap : t.keyMap = s.keyMap
  accMap : t.accMap = s.accMap
  rows : t.rows = s.rows

/-- The configuration is the stored one, and the indexes and the rows of the store are those of its
    configuration, the rows with the time stamp of now. -/
structure StoreState.Holds (s : StoreState F) (cfg : Config F) : Prop where
  cfg : { cfg with accounts := persistAccounts w.now s.rows.isSome cfg.accounts } = s.cfg
  keyMap : ∀ k, s.keyMap k = s.cfg.keys.contains k
  accMap : ∀ id, s.accMap id = (rebuildIndexes s.cfg.accounts).accMap id
  rows : ∀ rows, s.rows = some rows → rows = s.cfg.accounts.map (accountRow w.nowMilli)

/-- The account has the token and is indexed under its names, and so are the rows that match,
    with the time stamp of now, unless the update of the rows fails. -/
structure StoreState.HoldsToken (s : StoreState F) (idx : Nat) (identifier token : Bytes) : Prop where
  account : ∀ acc, s.cfg.accounts[idx]? = some acc →
    acc.token = token ∧ (acc.identifier ≠ [] → s.accMap acc.identifier = some idx)
  named : identifier ≠ [] → s.accMap identifier = some idx
  rows : ∀ rows, s.rows = some rows → identifier ≠ [] → w.tokenExec ≠ .fails →
    ∀ r ∈ rows, rowMatches identifier r = true →
      r.account.token = trimSpace token ∧ r.updatedAt = w.nowMilli

/-- Where the error arises nothing has been assigned. -/
def StoreState.FailsEarly (s : StoreState F) (err : WriteError) : Write F → Prop
  | .updateAccountToken identifier _ =>
    Store.findAccountIndexLocked { accounts := s.cfg.accounts, accMap := s.accMap }
      (trimSpace identifier) = none
  | .update _ | .replace _ => err = .mutator ∨ err = .replaceAccounts

/-- What the call is to write is there before it. -/
def StoreState.NoOp (s : StoreState F) : Write F → Prop
  | .update mutator => ∃ cfg, mutator s.cfg = some cfg ∧
    s.Holds w ((cfg.reconcileCredentials s.cfg).normalizeCredentials tools w.now)
  | .replace cfg => s.Holds w (cfg.normalizeCredentials tools w.now)
  | .updateAccountToken identifier token => ∃ idx,
    Store.findAccountIndexLocked { accounts := s.cfg.accounts, accMap := s.accMap }
      (trimSpace identifier) = some idx ∧ s.HoldsToken w idx (trimSpace identifier) token

variable {w}

omit [DecidableEq F] in
theorem StoreState.Agrees.refl (s : StoreState F) : s.Agrees s := ⟨rfl, rfl, rfl, rfl⟩

/-- Saving sets `fromEnv` at most. -/
theorem agrees_saveLocked_iff {s t : StoreState F} :
    s.Agrees (t.saveLocked φ w).1 ↔ s.Agrees t := by
  unfold StoreState.saveLocked
  split_ifs
  · rfl
  · rfl
  · rfl
  · exact ⟨fun h => ⟨h.cfg, h.keyMap, h.accMap, h.rows⟩, fun h => ⟨h.cfg, h.keyMap, h.accMap, h.rows⟩⟩

omit [DecidableEq F] in
/-- An assignment changes nothing exactly where the store holds the configuration. -/
theorem agrees_assign_iff {s : StoreState F} {cfg : Config F} : s.Agrees (s.assign w cfg) ↔ s.Holds w cfg := by
  have hassign : { cfg with accounts := persistAccounts w.now s.rows.isSome cfg.accounts } = s.cfg →
      s.assign w cfg = { s with
        keyMap := fun k => s.cfg.keys.contains k
        accMap := (rebuildIndexes s.cfg.accounts).accMap
        rows := s.rows.map (fun _ => s.cfg.accounts.map (accountRow w.nowMilli)) } := by
    intro hcfg
    have hkeys := congrArg Config.keys hcfg
    have haccounts : persistAccounts w.now s.rows.isSome cfg.accounts = s.cfg.accounts :=
      congrArg Config.accounts hcfg
    simp only [StoreState.assign, haccounts] at hcfg hkeys ⊢
    rw [hcfg, hkeys]
  constructor
  · intro h
    have hcfg := h.cfg
    rw [hassign hcfg] at h
    refine ⟨hcfg, fun k => (congrFun h.keyMap k).symm, fun id => (congrFun h.accMap id).symm, fun rows hrows => ?_⟩
    have hwritten := h.rows
    simp only [hrows, Option.map_some] at hwritten
    exact (Option.some.inj hwritten).symm
  · intro h
    rw [hassign h.cfg]
    refine ⟨rfl, (funext h.keyMap).symm, (funext h.accMap).symm, ?_⟩
    cases hrows : s.rows with
    | none => rfl
    | some rows => rw [h.rows rows hrows, Option.map_some]

theorem saveLocked_error {t : StoreState F} {err : WriteError} (h : (t.saveLocked φ w).2 = some err) :
    err = .marshal ∨ err = .writeFile := by
  unfold StoreState.saveLocked at h
  split_ifs at h
  · exact Or.inl (Option.some.inj h).symm
  · exact Or.inr (Option.some.inj h).symm

theorem agrees_commit_iff {s : StoreState F} {cfg : Config F} {err : WriteError}
    (h : (s.commit φ w cfg).2 = some err) :
    s.Agrees (s.commit φ w cfg).1 ↔ (err = .mutator ∨ err = .replaceAccounts) ∨ s.Holds w cfg := by
  unfold StoreState.commit at h ⊢
  by_cases hrefused : (s.rows.isSome && w.replaceFails) = true
  · rw [if_pos hrefused] at h ⊢
    exact iff_of_true (.refl s) (Or.inl (Or.inr (Option.some.inj h).symm))
  · rw [if_neg hrefused] at h ⊢
    rw [agrees_saveLocked_iff, agrees_assign_iff]
    have hlate : ¬ (err = .mutator ∨ err = .replaceAccounts) := by
      rcases saveLocked_error φ h with rfl | rfl <;> decide
    exact ⟨Or.inr, fun hor => hor.resolve_left hlate⟩

theorem linkTo_apply (idx : Nat) (m : Bytes → Option Nat) (id k : Bytes) :
    linkTo idx m id k = if id ≠ [] ∧ k = id then some idx else m k := by
  unfold linkTo
  by_cases h : id = []
  · rw [if_neg (not_not.mpr h), if_neg (fun hk => hk.1 h)]
  · rw [if_pos h, Function.update_apply]
    simp only [ne_eq, h, not_false_eq_true, true_and]

/-- Names that are entered into the index were there. -/
theorem linkTo_eq_iff {idx : Nat} {m : Bytes → Option Nat} {a b : Bytes} :
    linkTo idx (linkTo idx (linkTo idx m a) b) b = m ↔
      (a ≠ [] → m a = some idx) ∧ (b ≠ [] → m b = some idx) := by
  constructor
  · intro h
    have hk (k : Bytes) := congrFun h k
    simp only [linkTo_apply] at hk
    refine ⟨fun ha => ?_, fun hb => ?_⟩
    · rw [← hk a]
      split_ifs with h1 h2
      · rfl
      · rfl
      · exact absurd ⟨ha, rfl⟩ h2
    · rw [← hk b, if_pos ⟨hb, rfl⟩]
  · rintro ⟨ha, hb⟩
    funext k
    simp only [linkTo_apply]
    split_ifs with h1 h2
    · rw [h1.2, hb h1.1]
    · rw [h2.2, ha h2.1]
    · rfl

theorem modify_eq_self_iff {α : Type} {f : α → α} : ∀ {l : List α} {i : Nat},
    l.modify i f = l ↔ ∀ a, l[i]? = some a → f a = a
  | [], i => by simp
  | a :: l, 0 => by simp
  | a :: l, i + 1 => by simpa using modify_eq_self_iff

theorem map_rows_eq_self_iff {rows : List AccountRow} {identifier token : Bytes} {nowMilli : Int} :
    rows.map (fun r => if rowMatches identifier r then r.setToken token nowMilli else r) = rows ↔
      ∀ r ∈ rows, rowMatches identifier r = true →
        r.account.token = trimSpace token ∧ r.updatedAt = nowMilli := by
  have hself (f : AccountRow → AccountRow) : rows.map f = rows ↔ ∀ r ∈ rows, f r = r := by
    conv_lhs => rhs; rw [← List.map_id rows]
    exact List.map_inj_left
  rw [hself]
  refine forall_congr' fun r => imp_congr_right fun _ => ?_
  by_cases h : rowMatches identifier r = true
  · rw [if_pos h]
    refine ⟨fun heq _ => ?_, fun hr => ?_⟩
    · exact ⟨(congrArg (fun r => r.account.token) heq).symm, (congrArg AccountRow.updatedAt heq).symm⟩
    · obtain ⟨htoken, htime⟩ := hr h
      rw [AccountRow.setToken, ← htoken, ← htime]
  · rw [if_neg h]
    exact ⟨fun _ hm => absurd hm h, fun _ => rfl⟩

/-- The update writes the rows that match, also where there is none. -/
theorem updateToken_getD {rows : List AccountRow} {identifier token : Bytes} {nowMilli : Int}
    (htrim : trimSpace identifier = identifier) (hne : identifier ≠ []) :
    (updateToken rows identifier token nowMilli).getD rows =
      rows.map (fun r => if rowMatches identifier r then r.setToken token nowMilli else r) := by
  simp only [updateToken, htrim, if_neg hne]
  by_cases hany : rows.any (rowMatches identifier) = true
  · rw [if_pos hany, Option.getD_some]
  · have hnone : ∀ r ∈ rows, rowMatches identifier r = true →
        r.account.token = trimSpace token ∧ r.updatedAt = nowMilli := fun r hr hmatch =>
      absurd (List.any_eq_true.mpr ⟨r, hr, hmatch⟩) hany
    rw [if_neg hany, Option.getD_none, map_rows_eq_self_iff.mpr hnone]

theorem updateTokenRows_eq_iff {rows : List AccountRow} {identifier token : Bytes}
    (htrim : trimSpace identifier = identifier) :
    (updateTokenRows w rows identifier token).1 = rows ↔
      (identifier ≠ [] → w.tokenExec ≠ .fails → ∀ r ∈ rows, rowMatches identifier r = true →
        r.account.token = trimSpace token ∧ r.updatedAt = w.nowMilli) := by
  simp only [updateTokenRows, htrim]
  by_cases hempty : identifier = []
  · rw [if_pos hempty]
    exact ⟨fun _ hne => absurd hempty hne, fun _ => rfl⟩
  · have hmap := @updateToken_getD rows identifier token w.nowMilli htrim hempty
    rw [if_neg hempty]
    cases hexec : w.tokenExec with
    | fails => exact ⟨fun _ _ hne => absurd rfl hne, fun _ => rfl⟩
    | affectedFails =>
      simp only [hmap, map_rows_eq_self_iff]
      exact ⟨fun h _ _ => h, fun h => h hempty nofun⟩
    | succeeds =>
      simp only [hmap, map_rows_eq_self_iff]
      exact ⟨fun h _ _ => h, fun h => h hempty nofun⟩

theorem identifier_with_token (acc : Account) (token : Bytes) :
    Account.identifier { acc with token := token } = acc.identifier := by
  simp only [Account.identifier, normalizeAccountIdentity]
  split_ifs <;> rfl

omit [DecidableEq F] in
/-- What the token update assigns in memory was there. -/
theorem setToken_agrees_iff {s : StoreState F} {idx : Nat} {identifier token : Bytes} :
    (s.setToken idx identifier token).cfg = s.cfg ∧ (s.setToken idx identifier token).accMap = s.accMap ↔
      (∀ acc, s.cfg.accounts[idx]? = some acc →
        acc.token = token ∧ (acc.identifier ≠ [] → s.accMap acc.identifier = some idx)) ∧
      (identifier ≠ [] → s.accMap identifier = some idx) := by
  have hcfg : (s.setToken idx identifier token).cfg = s.cfg ↔
      ∀ acc, s.cfg.accounts[idx]? = some acc → acc.token = token := by
    have haccounts : (s.setToken idx identifier token).cfg = s.cfg ↔
        s.cfg.accounts.modify idx (fun acc => { acc with token := token }) = s.cfg.accounts :=
      ⟨fun h => congrArg Config.accounts h, fun h => congrArg (fun l => { s.cfg with accounts := l }) h⟩
    rw [haccounts, modify_eq_self_iff]
    refine forall_congr' fun acc => imp_congr_right fun _ => ?_
    exact ⟨fun h => (congrArg Account.token h).symm, fun h => by rw [← h]⟩
  have hold : ((s.cfg.accounts.modify idx (fun acc => { acc with token := token }))[idx]?).elim []
      Account.identifier = (s.cfg.accounts[idx]?).elim [] Account.identifier := by
    rw [List.getElem?_modify_eq]
    cases s.cfg.accounts[idx]? with
    | none => rfl
    | some acc => simp only [Option.map_eq_map, Option.map_some, Option.elim_some, identifier_with_token]
  have hmap : (s.setToken idx identifier token).accMap = s.accMap ↔
      (identifier ≠ [] → s.accMap identifier = some idx) ∧
      ∀ acc, s.cfg.accounts[idx]? = some acc → acc.identifier ≠ [] → s.accMap acc.identifier = some idx := by
    simp only [StoreState.setToken, hold, linkTo_eq_iff]
    cases s.cfg.accounts[idx]? with
    | none =>
      simp only [Option.elim_none]
      exact and_congr_right fun _ => ⟨fun _ => nofun, fun _ h => absurd rfl h⟩
    | some acc =>
      simp only [Option.elim_some]
      refine and_congr_right fun _ => ⟨fun h acc' hacc => ?_, fun h => h acc rfl⟩
      obtain rfl := Option.some.inj hacc
      exact h
  rw [hcfg, hmap]
  exact ⟨fun ⟨ht, hn, hi⟩ => ⟨fun acc h => ⟨ht acc h, hi acc h⟩, hn⟩,
    fun ⟨ha, hn⟩ => ⟨fun acc h => (ha acc h).1, hn, fun acc h => (ha acc h).2⟩⟩

variable {φ}

theorem agrees_updateAccountToken_iff {s : StoreState F} {identifier token : Bytes} :
    s.Agrees (s.updateAccountToken φ w identifier token).1 ↔
      s.FailsEarly .accountNotFound (.updateAccountToken identifier token) ∨
        s.NoOp tools w (.updateAccountToken identifier token) := by
  have htrim := trimSpace_idem identifier
  unfold StoreState.updateAccountToken StoreState.FailsEarly StoreState.NoOp
  simp only
  generalize trimSpace identifier = identifier at htrim ⊢
  cases Store.findAccountIndexLocked { accounts := s.cfg.accounts, accMap := s.accMap } identifier with
  | none => exact iff_of_true (.refl s) (Or.inl rfl)
  | some idx =>
    have hmemory := @setToken_agrees_iff F s idx identifier token
    simp only [reduceCtorEq, false_or, Option.some.injEq, exists_eq_left']
    have hrows : (s.setToken idx identifier token).rows = s.rows := rfl
    simp only [hrows]
    cases hdb : s.rows with
    | none =>
      simp only [agrees_saveLocked_iff]
      constructor
      · intro h
        obtain ⟨hacc, hname⟩ := hmemory.mp ⟨h.cfg, h.accMap⟩
        exact ⟨hacc, hname, fun rows hsome => by rw [hdb] at hsome; cases hsome⟩
      · intro h
        obtain ⟨hcfg, hmap⟩ := hmemory.mpr ⟨h.account, h.named⟩
        exact ⟨hcfg, rfl, hmap, rfl⟩
    | some rows =>
      have htable := @updateTokenRows_eq_iff w rows identifier token htrim
      have hend : s.Agrees { s.setToken idx identifier token with
          rows := some (updateTokenRows w rows identifier token).1 } ↔
          s.HoldsToken w idx identifier token := by
        constructor
        · intro h
          obtain ⟨hacc, hname⟩ := hmemory.mp ⟨h.cfg, h.accMap⟩
          refine ⟨hacc, hname, fun rows' hsome => ?_⟩
          obtain rfl : rows = rows' := Option.some.inj (hdb.symm.trans hsome)
          exact htable.mp (Option.some.inj (h.rows.trans hdb))
        · intro h
          obtain ⟨hcfg, hmap⟩ := hmemory.mpr ⟨h.account, h.named⟩
          exact ⟨hcfg, rfl, hmap, (congrArg some (htable.mpr (h.rows rows hdb))).trans hdb.symm⟩
      rcases htoken : updateTokenRows w rows identifier token with ⟨rows', err⟩
      rw [htoken] at hend
      simp only [htoken]
      cases err with
      | some err => exact hend
      | none => exact agrees_saveLocked_iff φ |>.trans hend

/-- A call that returns an error leaves the store as it was exactly where it fails before anything is
    assigned, or writes what is there already. -/
theorem failed_write_keeps_iff (s : StoreState F) (op : Write F) (err : WriteError)
    (herr : (s.write φ tools w op).2 = some err) :
    s.Agrees (s.write φ tools w op).1 ↔ s.FailsEarly err op ∨ s.NoOp tools w op := by
  cases op with
  | update mutator =>
    rw [StoreState.write, StoreState.update] at herr ⊢
    rw [StoreState.FailsEarly, StoreState.NoOp]
    cases hcfg : mutator s.cfg with
    | none =>
      simp only [hcfg] at herr
      exact iff_of_true (.refl s) (Or.inl (Or.inl (Option.some.inj herr).symm))
    | some cfg =>
      simp only [hcfg] at herr
      simp only [agrees_commit_iff φ herr, Option.some.injEq, exists_eq_left']
  | replace cfg =>
    rw [StoreState.write, StoreState.replace] at herr ⊢
    exact agrees_commit_iff φ herr
  | updateAccountToken identifier token =>
    rw [StoreState.write]
    exact agrees_updateAccountToken_iff tools

end writes

/-- A store with one account and its row in the accounts database. -/
def oneAccount : StoreState Int :=
  let acc : Account := { email := lit "a@b.c" }
  { cfg := { Config.empty wholeNumbers with accounts := [acc] }
    keyMap := fun _ => false
    accMap := (rebuildIndexes [acc]).accMap
    rows := some [accountRow 0 acc]
    fromEnv := false }

/-- The configuration file cannot be written. -/
def fullDisk : Circumstances :=
  { now := 0, nowMilli := 0, envWriteback := false, replaceFails := false, tokenExec := .succeeds
    fileFails := true }

/-- An update that gives the configuration back as it is. -/
theorem unchanged_config_keeps :
    (oneAccount.write wholeNumbers plainTools fullDisk (.update some)).2 = some .writeFile ∧
    oneAccount.Agrees (oneAccount.write wholeNumbers plainTools fullDisk (.update some)).1 := by
  have herr : (oneAccount.write wholeNumbers plainTools fullDisk (.update some)).2 = some .writeFile := by
    decide +kernel
  refine ⟨herr, (failed_write_keeps_iff plainTools oneAccount _ _ herr).mpr (Or.inr ⟨_, rfl, ?_⟩)⟩
  refine ⟨rfl, fun _ => rfl, fun _ => rfl, fun rows hrows => ?_⟩
  cases hrows
  rfl

/-- The port is set in memory though the call failed. -/
theorem failed_save_changes_config :
    (oneAccount.write wholeNumbers plainTools fullDisk
      (.update (fun c => some { c with server := { port := lit "5001" } }))).2 = some .writeFile ∧
    ¬oneAccount.Agrees (oneAccount.write wholeNumbers plainTools fullDisk
      (.update (fun c => some { c with server := { port := lit "5001" } }))).1 := by
  refine ⟨by decide +kernel, fun h => ?_⟩
  have hport := congrArg (fun c => c.server.port) h.cfg
  exact absurd hport (by decide +kernel)

end DeepSeekWebToApi.Config
