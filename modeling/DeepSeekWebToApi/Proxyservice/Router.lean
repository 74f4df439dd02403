import DeepSeekWebToApi.Lib.LeastLoaded
import DeepSeekWebToApi.Config.Proxies

/- Routes of the accounts over the proxies (`internal/proxyservice/router.go`).

   Nodes and accounts are trimmed where they are compared, as in the source. The clock is
   read once for every proxy that is tested for availability (`clock i` for the proxy with
   the number `i`); `sort.Slice` leaves equal keys in an order of its own (`tie`). Counters
   are maps from ids to numbers, 0 where there is no entry. A function that changes the
   configuration in place returns it beside its result, also when it fails. -/
namespace DeepSeekWebToApi.Proxyservice
open GoStrings GoJson Config LeastLoaded Sorting

structure AutoRouteChange where
  accountID : Bytes
  fromProxyID : Bytes
  toProxyID : Bytes
  reason : Bytes
  deriving DecidableEq

/-- The node an account is on. -/
def node (account : Account) : Bytes := trimSpace account.proxyID

/-! Counting. -/

/-- `ProxyAssignmentCounts`: the enabled accounts of every node, and those of them that are
    routed automatically. -/
def proxyAssignmentCounts (accounts : List Account) : (Bytes → Nat) × (Bytes → Nat) :=
  accounts.foldl
    (fun counts account =>
      if account.disabled then counts
      else if node account = [] then counts
      else (bump counts.1 (node account),
        if account.proxyAutoRoute then bump counts.2 (node account) else counts.2))
    (fun _ => 0, fun _ => 0)

def activeAssignmentsExcluding (accounts : List Account) (excluded : List Bytes) : Bytes → Nat :=
  accounts.foldl
    (fun counts account =>
      if account.disabled then counts
      else if node account = [] then counts
      else if node account ∈ excluded then counts
      else bump counts (node account))
    (fun _ => 0)

/-! The nodes. -/

/-- The proxies that are kept, under their ids; of two with one id the last one counts. -/
def nodesFrom (tools : ProxyTools) (keep : Nat → Proxy → Bool) : Nat → KeyMap Proxy → List Proxy → KeyMap Proxy
  | _, nodes, [] => nodes
  | i, nodes, raw :: rest =>
    let proxy := normalizeProxy tools raw
    nodesFrom tools keep (i + 1) (if keep i proxy then nodes.insert proxy.id proxy else nodes) rest

def effectiveRouteLatency (latency : Int64) : Int64 := if latency ≤ 0 then Int64.maxValue else latency

/-- The order of `leastAssignedRoute`: fewer accounts, then less latency, then the smaller id. -/
def routeBefore (available : KeyMap Proxy) (counts : Bytes → Nat) (x y : Bytes) : Bool :=
  let latency := fun id => effectiveRouteLatency ((available.get id).elim 0 (·.lastLatencyMS))
  if counts x ≠ counts y then counts x < counts y
  else if latency x ≠ latency y then latency x < latency y
  else x ≤ y

def leastAssignedRoute (available : KeyMap Proxy) (counts : Bytes → Nat) : Bytes :=
  ((available.map Prod.fst).insertionSort (fun x y => routeBefore available counts x y = true)).head?.getD []

/-! Moving accounts. -/

/-- The accounts, the counters and the changes noted so far. -/
structure Routes where
  accounts : List Account
  counts : Bytes → Nat
  changes : List AutoRouteChange := []

/-- The account on another node; what it logged in with is forgotten. -/
def onNode (target : Bytes) (account : Account) : Account := { account with proxyID := target, token := [] }

/-- The closure `move` of `ReassignDeletedProxyRoutes`. -/
def Routes.move (r : Routes) (index : Nat) (target reason : Bytes) : Routes :=
  match r.accounts[index]? with
  | none => r
  | some account =>
    if node account = target then r
    else
      { r with
        accounts := r.accounts.set index (onNode target account)
        changes := if account.disabled then r.changes
          else r.changes ++ [⟨account.identifier, node account, target, reason⟩] }

/-- A moved account counts for its node unless it is disabled. -/
def Routes.counted (r : Routes) (index : Nat) (target : Bytes) : Routes :=
  match r.accounts[index]? with
  | none => r
  | some account => if account.disabled then r else { r with counts := bump r.counts target }

/-- A step of either loop of a deletion: the account goes to the node. -/
def Routes.assign (r : Routes) (index : Nat) (target reason : Bytes) : Routes :=
  (r.move index target reason).counted index target

def sortIndices (key : Nat → Bytes) (tie : Nat → Nat) (indices : List Nat) : List Nat :=
  indices.insertionSort (fun i j => key i < key j ∨ key i = key j ∧ tie i ≤ tie j)

/-- A number with at least eight digits, `%08d`. -/
def eightDigits (n : Nat) : Bytes :=
  List.replicate (8 - (formatNat n).length) '0'.toUInt8 ++ formatNat n

def accountSortKey (accounts : List Account) (index : Nat) : Bytes :=
  (accounts[index]?).elim [] Account.identifier ++ [0] ++ eightDigits index

/-- The numbers of the accounts with a property. -/
def indicesWhere (accounts : List Account) (p : Account → Bool) : List Nat :=
  (List.range accounts.length).filter fun i => (accounts[i]?).any p

/-! Deleting proxies. -/

/-- The ids that are deleted; blank ones are none. -/
def wantedIDs (deleted : List Bytes) : List Bytes := (deleted.map trimSpace).filter (· ≠ [])

def noReplacement : Bytes :=
  lit "cannot delete an automatic proxy route because no tested replacement node is available"

/-- The loop over the automatic accounts. -/
def moveAutomatic (available : KeyMap Proxy) : List Nat → Routes → Routes × Except Bytes Unit
  | [], r => (r, .ok ())
  | index :: rest, r =>
    let nextID := leastAssignedRoute available r.counts
    if nextID = [] then (r, .error noReplacement)
    else moveAutomatic available rest (r.assign index nextID (lit "node_deleted"))

/-- The checks before anything is changed. -/
def deletionError (policy : ProxyPolicyConfig) (remaining available : KeyMap Proxy) (fallbackID : Bytes)
    (manual automatic : List Nat) : Option Bytes :=
  let manualError :=
    if manual.length > 0 then
      if fallbackID = [] then some (lit "cannot delete assigned proxy without a configured fallback proxy")
      else
        match remaining.get fallbackID with
        | none => some (lit "configured fallback proxy " ++ fallbackID ++ lit " is unavailable")
        | some fallback =>
          if fallback.disabled then some (lit "configured fallback proxy " ++ fallbackID ++ lit " is disabled")
          else none
    else none
  manualError.or
    (if automatic.length > 0 ∧ policy.autoRouteEnabled = false then
      some (lit "cannot delete an automatic proxy route while automatic routing is disabled")
    else if automatic.length > 0 ∧ available.length = 0 then some noReplacement
    else none)

section
variable {F : Type} (tools : ProxyTools) (clock : Nat → Int64) (tie : Nat → Nat)

def reassignDeletedProxyRoutes (cfg : Config F) (deleted : List Bytes) :
    Config F × Except Bytes (List AutoRouteChange) :=
  let wanted := wantedIDs deleted
  if wanted.length = 0 then (cfg, .ok [])
  else
    let remaining := nodesFrom tools (fun _ proxy => proxy.id ∉ wanted) 0 [] cfg.proxies
    let available := nodesFrom tools (fun i proxy => decide (proxy.id ∉ wanted) &&
      proxyAvailableForRouting tools proxy cfg.proxyPolicy (clock i)) 0 [] cfg.proxies
    let fallbackID := trimSpace cfg.proxyPolicy.fallbackProxyID
    if fallbackID ≠ [] ∧ fallbackID ∈ wanted then
      (cfg, .error (lit "configured fallback proxy " ++ fallbackID ++ lit " is selected for deletion"))
    else
      let manual := indicesWhere cfg.accounts fun a => decide (node a ∈ wanted) && !a.proxyAutoRoute
      let automatic := indicesWhere cfg.accounts fun a => decide (node a ∈ wanted) && a.proxyAutoRoute
      match deletionError cfg.proxyPolicy remaining available fallbackID manual automatic with
      | some err => (cfg, .error err)
      | none =>
        let manual := sortIndices (accountSortKey cfg.accounts) tie manual
        let automatic := sortIndices (accountSortKey cfg.accounts) tie automatic
        let start : Routes := ⟨cfg.accounts, activeAssignmentsExcluding cfg.accounts wanted, []⟩
        let routes := manual.foldl (fun r index => r.assign index fallbackID (lit "node_deleted_fallback")) start
        let result := moveAutomatic available automatic routes
        ({ cfg with accounts := result.1.accounts }, result.2.map fun _ => result.1.changes)

/-- The look at the accounts after a migration. -/
def lastCheck (wanted : List Bytes) (done : Config F × Except Bytes (List AutoRouteChange)) :
    Config F × Except Bytes (List AutoRouteChange) :=
  match done.2 with
  | .error err => (done.1, .error err)
  | .ok changes =>
    if done.1.accounts.any fun a => decide (node a ∈ wanted) then
      (done.1, .error (lit "subscription route migration left an account on a removed proxy"))
    else (done.1, .ok changes)

def reassignSubscriptionRemovedRoutes (cfg : Config F) (deleted : List Bytes) :
    Config F × Except Bytes (List AutoRouteChange) :=
  let wanted := wantedIDs deleted
  if wanted.length = 0 then (cfg, .ok [])
  else
    let fallbackID := trimSpace cfg.proxyPolicy.fallbackProxyID
    let fallbackRemoved := decide (fallbackID ≠ [] ∧ fallbackID ∈ wanted)
    let manualAffected := cfg.accounts.any fun a => !a.proxyAutoRoute && decide (node a ∈ wanted)
    if fallbackRemoved && manualAffected then
      (cfg, .error (lit ("cannot remove subscription nodes while manual accounts require " ++
        "the configured fallback proxy")))
    else
      let cfg : Config F :=
        if fallbackRemoved then { cfg with proxyPolicy := { cfg.proxyPolicy with fallbackProxyID := [] } } else cfg
      lastCheck wanted (reassignDeletedProxyRoutes tools clock tie cfg wanted)

/-! Automatic routing. -/

/-- One turn of the loop of `applyAutoRouteChanges`. -/
def Routes.autoRoute (available : KeyMap Proxy) (r : Routes) (index : Nat) : Routes :=
  match r.accounts[index]? with
  | none => r
  | some account =>
    if (available.get (node account)).isSome then r
    else
      let nextID := leastAssignedRoute available r.counts
      if nextID = [] then r
      else if nextID = node account then r
      else
        let reason := if node account ≠ [] then lit "node_unavailable" else lit "unassigned"
        { accounts := r.accounts.set index (onNode nextID account)
          counts := bump r.counts nextID
          changes := r.changes ++ [⟨account.identifier, node account, nextID, reason⟩] }

/-- An enabled account that may be routed automatically. -/
def managed (a : Account) : Bool := !a.disabled && a.proxyAutoRoute && decide (trimSpace a.password ≠ [])

def applyAutoRouteChanges (cfg : Config F) : Config F × List AutoRouteChange :=
  if cfg.proxyPolicy.autoRouteEnabled = false then (cfg, [])
  else
    let available := nodesFrom tools
      (fun i proxy => proxyAvailableForRouting tools proxy cfg.proxyPolicy (clock i)) 0 [] cfg.proxies
    let indices := sortIndices (fun i => (cfg.accounts[i]?).elim [] Account.identifier) tie
      (indicesWhere cfg.accounts managed)
    let routes := indices.foldl (Routes.autoRoute available)
      ⟨cfg.accounts, (proxyAssignmentCounts cfg.accounts).1, []⟩
    ({ cfg with accounts := routes.accounts }, routes.changes)

end

end DeepSeekWebToApi.Proxyservice
