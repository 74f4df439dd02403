import DeepSeekWebToApi.Config.Account
import Mathlib.Logic.Function.Basic

/- The account half of the configuration store (`internal/config/store.go`,
   `store_index.go`) and of the accounts database (`account_sqlite.go`).

   Accounts are looked up in three ways: through the index `accMap`
   (`findAccountIndexLocked`), by a scan with `accountIdentifiersMatch` (the edits
   `SetAccountDisabled` and `SetAccountCooldown`), and by the `WHERE` clause of the
   token update in SQLite. `Update` here is its effect on the accounts when the
   writes to the database and to the file succeed. -/
namespace DeepSeekWebToApi.Config
open GoStrings

structure Store where
  accounts : List Account
  /-- identifier to position in `accounts` -/
  accMap : Bytes → Option Nat

/-- The account loop of `rebuildIndexes`: a later account with the same identifier wins. -/
def indexAccounts : Nat → List Account → (Bytes → Option Nat) → Bytes → Option Nat
  | _, [], m => m
  | i, acc :: rest, m =>
    indexAccounts (i + 1) rest
      (if acc.identifier ≠ [] then Function.update m acc.identifier (some i) else m)

def rebuildIndexes (accounts : List Account) : Store :=
  { accounts := accounts, accMap := indexAccounts 0 accounts (fun _ => none) }

/-- The keys an identifier is looked up by: itself, then the mobile key of its digits. -/
def lookupCandidates (identifier : Bytes) : List Bytes :=
  let mobile := canonicalMobileKey identifier
  if mobile ≠ [] ∧ mobile ≠ identifier then [identifier, mobile] else [identifier]

def Store.findAccountIndexLocked (s : Store) (identifier : Bytes) : Option Nat :=
  let candidates := lookupCandidates identifier
  match candidates.findSome? (fun key => (s.accMap key).filter (· < s.accounts.length)) with
  | some idx => some idx
  | none => s.accounts.findIdx? (fun acc => candidates.contains acc.identifier)

def Store.findAccount (s : Store) (identifier : Bytes) : Option Account :=
  match s.findAccountIndexLocked (trimSpace identifier) with
  | some idx => s.accounts[idx]?
  | none => none

/-! The pool limits (`store_accessors.go`): a configured positive number, else the number of
    an environment variable, else a default. -/

/-- `cfg.Runtime`, and the environment variables `strconv.Atoi` reads a number from. -/
structure Runtime where
  accountMaxInflight : Int := 0
  accountMaxQueue : Int := 0
  globalMaxInflight : Int := 0
  envAccountMaxInflight : Option Int := none
  envAccountMaxQueue : Option Int := none
  envGlobalMaxInflight : Option Int := none

def Runtime.runtimeAccountMaxInflight (r : Runtime) : Int :=
  if r.accountMaxInflight > 0 then r.accountMaxInflight
  else (r.envAccountMaxInflight.filter (fun n => n > 0)).getD 2

def Runtime.runtimeAccountMaxQueue (r : Runtime) (defaultSize : Int) : Int :=
  if r.accountMaxQueue > 0 then r.accountMaxQueue
  else (r.envAccountMaxQueue.filter (fun n => n ≥ 0)).getD
    (if defaultSize < 0 then 0 else defaultSize)

def Runtime.runtimeGlobalMaxInflight (r : Runtime) (defaultSize : Int) : Int :=
  if r.globalMaxInflight > 0 then r.globalMaxInflight
  else (r.envGlobalMaxInflight.filter (fun n => n > 0)).getD
    (if defaultSize < 0 then 0 else defaultSize)

/-! Edits by identifier. `none` is the error "account not found" (or, for the cooldown,
    "account identifier is required"). -/

def accountIdentifiersMatch (acc : Account) (identifier : Bytes) : Bool :=
  if identifier = [] then false
  else if trimSpace acc.email = identifier ∨ acc.identifier = identifier then true
  else
    let mobile := canonicalMobileKey identifier
    mobile ≠ [] ∧ mobile = canonicalMobileKey acc.mobile

/-- The part of `NormalizeCredentials` that concerns one account. -/
def normalizeCredentials (now : Int) (acc : Account) : Account :=
  let acc := normalizeAccountIdentity acc
  let cooldown := normalizeAccountCooldown now acc.cooldownState acc.cooldownUntilUnix
  { acc with
    name := trimSpace acc.name
    remark := trimSpace acc.remark
    cooldownState := cooldown.1
    cooldownUntilUnix := cooldown.2 }

/-- `persistAccountsLocked`: with a database the stored list is the normalised one. -/
def persistAccounts (now : Int) (accountsDB : Bool) (accounts : List Account) : List Account :=
  if accountsDB then normalizeAndDedupeAccountConfig now accounts else accounts

/-- `Store.Update` on the accounts: the mutator, then the normalisation of the result. -/
def updateAccounts (now : Int) (accountsDB : Bool)
    (mutator : List Account → Option (List Account)) (accounts : List Account) :
    Option (List Account) :=
  (mutator accounts).map
    (fun edited => persistAccounts now accountsDB (edited.map (normalizeCredentials now)))

/-- Edit the first account the scan matches. -/
def editFirstMatch (identifier : Bytes) (edit : Account → Account) (accounts : List Account) :
    Option (List Account) :=
  (accounts.findIdx? (accountIdentifiersMatch · identifier)).map
    (fun i => accounts.modify i edit)

def setAccountDisabled (now : Int) (accountsDB : Bool) (accounts : List Account)
    (identifier : Bytes) (disabled : Bool) (reason : Bytes) : Option (List Account) :=
  updateAccounts now accountsDB
    (editFirstMatch (trimSpace identifier) (fun acc =>
      { acc with
        disabled := disabled
        disabledReason := if disabled then trimSpace reason else []
        disabledAtUnix := if disabled then now else 0
        cooldownState := []
        cooldownUntilUnix := 0 }))
    accounts

def setAccountCooldown (now : Int) (accountsDB : Bool) (accounts : List Account)
    (identifier state : Bytes) (untilUnix : Int) : Option (List Account) :=
  let identifier := trimSpace identifier
  let cooldown := normalizeAccountCooldown now state untilUnix
  if identifier = [] then none
  else if ((rebuildIndexes accounts).findAccount identifier).any
      (fun cur => cur.cooldownState = cooldown.1 ∧ cur.cooldownUntilUnix = cooldown.2) then
    some accounts
  else
    updateAccounts now accountsDB
      (editFirstMatch identifier (fun acc =>
        { acc with cooldownState := cooldown.1, cooldownUntilUnix := cooldown.2 }))
      accounts

/-! The accounts table. -/

/-- A row of the table: the account's columns, its key and the row's time stamps. -/
structure AccountRow where
  identifier : Bytes
  account : Account
  createdAt : Int
  updatedAt : Int
  deriving DecidableEq, Repr

/-- The row `accountSQLiteStore.replace` inserts for an account at time `nowMilli`. -/
def accountRow (nowMilli : Int) (acc : Account) : AccountRow :=
  { identifier := acc.identifier, account := acc, createdAt := nowMilli, updatedAt := nowMilli }

/-- The `WHERE` clause of the token update. -/
def rowMatches (identifier : Bytes) (r : AccountRow) : Bool :=
  r.identifier == identifier || r.account.email == identifier ||
    r.account.mobile == canonicalMobileKey identifier

/-- What the token update writes into a row. -/
def AccountRow.setToken (token : Bytes) (nowMilli : Int) (r : AccountRow) : AccountRow :=
  { r with account := { r.account with token := trimSpace token }, updatedAt := nowMilli }

/-- `accountSQLiteStore.updateToken`: the table after the update, `none` for its errors. -/
def updateToken (rows : List AccountRow) (identifier token : Bytes) (nowMilli : Int) :
    Option (List AccountRow) :=
  let identifier := trimSpace identifier
  if identifier = [] then none
  else if rows.any (rowMatches identifier) then
    some (rows.map (fun r => if rowMatches identifier r then r.setToken token nowMilli else r))
  else none

end DeepSeekWebToApi.Config
