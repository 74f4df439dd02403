import DeepSeekWebToApi.Proxyservice.Reassign

/- Automatic routing (`applyAutoRouteChanges`).

   The counters of the loop start with the enabled accounts of every node and only grow. An
   account that is moved leaves a node that is not available, so for the available nodes the
   counters stay right (`Counted`), and every move goes to a node with the fewest accounts at
   that moment (`Moves`). The counters themselves make a greedy run, which bounds how far the
   nodes drift apart. -/
namespace DeepSeekWebToApi.Proxyservice
open GoStrings GoJson Config LeastLoaded Sorting

/-- The enabled accounts on a node. -/
def enabledOn (accounts : List Account) (id : Bytes) : Nat :=
  accounts.countP fun a => !a.disabled && decide (node a = id)

theorem assignment_counts_from (id : Bytes) (hid : id ≠ []) : ∀ (accounts : List Account)
    (counts : (Bytes → Nat) × (Bytes → Nat)), (accounts.foldl (fun counts account =>
      if account.disabled then counts
      else if node account = [] then counts
      else (bump counts.1 (node account),
        if account.proxyAutoRoute then bump counts.2 (node account) else counts.2)) counts).1 id =
      counts.1 id + enabledOn accounts id
  | [], counts => rfl
  | a :: accounts, counts => by
    rw [List.foldl_cons, assignment_counts_from id hid accounts, enabledOn, enabledOn, List.countP_cons]
    by_cases hdisabled : a.disabled = true
    · simp [hdisabled]
    · by_cases hnode : node a = id
      · have hne : node a ≠ [] := hnode ▸ hid
        have hone : (if (!a.disabled && decide (node a = id)) = true then 1 else 0) = 1 :=
          if_pos (by simp [hdisabled, hnode])
        rw [if_neg hdisabled, if_neg hne, hone]
        simp only [hnode, bump_self]
        omega
      · by_cases hnil : node a = []
        · simp [hdisabled, hnil, Ne.symm hid]
        · simp [hdisabled, hnil, hnode, bump_of_ne (Ne.symm hnode)]

/-- The counters `applyAutoRouteChanges` starts with. -/
theorem assignment_counts (accounts : List Account) {id : Bytes} (hid : id ≠ []) :
    (proxyAssignmentCounts accounts).1 id = enabledOn accounts id := by
  rw [proxyAssignmentCounts, assignment_counts_from id hid, Nat.zero_add]

/-- Moves one after the other, each to an available node with the fewest enabled accounts. -/
inductive Moves (available : Bytes → Prop) : List Account → List (Nat × Bytes) → List Account → Prop where
  | done (accounts : List Account) : Moves available accounts [] accounts
  | move {accounts after : List Account} {index : Nat} {account : Account} {id : Bytes}
      {rest : List (Nat × Bytes)} (here : accounts[index]? = some account) (mem : available id) (named : id ≠ [])
      (least : ∀ other, available other → enabledOn accounts id ≤ enabledOn accounts other)
      (next : Moves available (accounts.set index (onNode id account)) rest after) :
      Moves available accounts ((index, id) :: rest) after

theorem Moves.placed {available : Bytes → Prop} {before after : List Account} {order : List (Nat × Bytes)}
    (h : Moves available before order after) (hnodup : (order.map Prod.fst).Nodup) :
    Placed available before after (order.map Prod.fst) := by
  induction h with
  | done accounts => exact Placed.nil _ _
  | move here mem named least next ih =>
    exact Placed.step hnodup here mem (ih (List.nodup_cons.mp hnodup).2)

/-- An account that leaves a node counts for the other one only. -/
theorem enabledOn_set {accounts : List Account} {index : Nat} {account : Account} {target id : Bytes}
    (here : accounts[index]? = some account) (henabled : account.disabled = false)
    (htrim : trimSpace target = target) (hleft : node account ≠ id) :
    enabledOn (accounts.set index (onNode target account)) id = bump (enabledOn accounts) target id := by
  obtain ⟨hlt, hget⟩ := List.getElem?_eq_some_iff.mp here
  have hcount := List.countP_set (p := fun a : Account => !a.disabled && decide (node a = id)) hlt
    (a := onNode target account)
  have hnode : node (onNode target account) = target := htrim
  have hdisabled : (onNode target account).disabled = false := henabled
  rw [enabledOn, hcount, hget]
  by_cases hid : id = target
  · subst hid
    simp [bump_self, enabledOn, hleft, hnode, hdisabled]
  · simp [bump_of_ne hid, enabledOn, hleft, hnode, Ne.symm hid]

/-! The loop. -/

section Loop
variable {available : KeyMap Proxy}

/-- The node is in the map. -/
def InPool (available : KeyMap Proxy) (id : Bytes) : Prop := id ∈ available.map Prod.fst

theorem inPool_iff {id : Bytes} : InPool available id ↔ (available.get id).isSome = true := KeyMap.isSome_get.symm

/-- The counters of the available nodes are the numbers of their enabled accounts. -/
def Counted (available : KeyMap Proxy) (r : Routes) : Prop :=
  ∀ id, InPool available id → r.counts id = enabledOn r.accounts id

/-- The account is on a node that is not available. -/
def displacedAt (available : KeyMap Proxy) (accounts : List Account) (index : Nat) : Bool :=
  (accounts[index]?).any fun a => (available.get (node a)).isNone

def changeOf (accounts : List Account) (move : Nat × Bytes) : Option AutoRouteChange :=
  (accounts[move.1]?).map fun a => ⟨a.identifier, node a, move.2,
    if node a ≠ [] then lit "node_unavailable" else lit "unassigned"⟩

variable {index : Nat}

/-- A turn for an account whose node is available. -/
theorem autoRoute_stays {r : Routes} (h : displacedAt available r.accounts index = false) :
    r.autoRoute available index = r := by
  unfold Routes.autoRoute
  split
  · rfl
  · next account haccount =>
    have hsome : (available.get (node account)).isSome = true := by
      rw [displacedAt, haccount, Option.any_some] at h
      rw [← Option.not_isNone, h]
      rfl
    rw [if_pos hsome]

theorem not_inPool_of_displaced {accounts : List Account} {account : Account}
    (haccount : accounts[index]? = some account) (h : displacedAt available accounts index = true) :
    ¬ InPool available (node account) := by
  rw [displacedAt, haccount, Option.any_some, Option.isNone_iff_eq_none] at h
  rw [inPool_iff, h]
  exact Bool.false_ne_true

/-- A turn for another account. -/
theorem autoRoute_moves {r : Routes} {account : Account} (hne : available ≠ [])
    (hids : ∀ id, InPool available id → id ≠ []) (haccount : r.accounts[index]? = some account)
    (h : displacedAt available r.accounts index = true) : r.autoRoute available index =
      ⟨r.accounts.set index (onNode (leastAssignedRoute available r.counts) account),
        bump r.counts (leastAssignedRoute available r.counts),
        r.changes ++ (changeOf r.accounts (index, leastAssignedRoute available r.counts)).toList⟩ := by
  have hroute : InPool available (leastAssignedRoute available r.counts) := (leastAssignedRoute_spec hne r.counts).1
  have hnone : (available.get (node account)).isNone = true := by
    rwa [displacedAt, haccount, Option.any_some] at h
  have hout := not_inPool_of_displaced haccount h
  unfold Routes.autoRoute
  rw [haccount]
  simp only [Option.isNone_iff_eq_none.mp hnone, Option.isSome_none, Bool.false_eq_true, if_false,
    if_neg (hids _ hroute)]
  have hmoves : leastAssignedRoute available r.counts ≠ node account := fun heq => hout (heq ▸ hroute)
  rw [if_neg hmoves]
  simp only [changeOf, haccount, Option.map_some, Option.toList_some]

/-- A move keeps the counters right. -/
theorem Counted.moved {r : Routes} {account : Account} {target : Bytes} {changes : List AutoRouteChange}
    (h : Counted available r) (haccount : r.accounts[index]? = some account)
    (henabled : account.disabled = false) (hout : ¬ InPool available (node account))
    (htrim : trimSpace target = target) :
    Counted available ⟨r.accounts.set index (onNode target account), bump r.counts target, changes⟩ := by
  intro id hid
  have hset := enabledOn_set haccount henabled htrim (fun heq => hout (heq ▸ hid))
  simp only [hset]
  by_cases heq : id = target
  · rw [heq, bump_self, bump_self, h target (heq ▸ hid)]
  · rw [bump_of_ne heq, bump_of_ne heq, h id hid]

/-- The loop over a list of enabled accounts: the displaced ones move, in the order of the list. -/
theorem autoRoute_loop (hne : available ≠ [])
    (hids : ∀ id, InPool available id → id ≠ [] ∧ trimSpace id = id) : ∀ {l : List Nat} {r : Routes}, l.Nodup →
    (∀ i ∈ l, ∃ a, r.accounts[i]? = some a ∧ a.disabled = false) → Counted available r →
    ∃ order : List (Nat × Bytes), order.map Prod.fst = l.filter (displacedAt available r.accounts) ∧
      Moves (InPool available) r.accounts order (l.foldl (Routes.autoRoute available) r).accounts ∧
      Greedy (InPool available) r.counts (order.map Prod.snd) (l.foldl (Routes.autoRoute available) r).counts ∧
      Counted available (l.foldl (Routes.autoRoute available) r) ∧
      (l.foldl (Routes.autoRoute available) r).changes = r.changes ++ order.filterMap (changeOf r.accounts)
  | [], r, _, _, hcounted => ⟨[], rfl, Moves.done _, Greedy.done _, hcounted, (List.append_nil _).symm⟩
  | index :: rest, r, hnodup, hl, hcounted => by
    obtain ⟨hnot, hrest⟩ := List.nodup_cons.mp hnodup
    obtain ⟨account, haccount, henabled⟩ := hl index List.mem_cons_self
    rw [List.foldl_cons]
    cases hdisplaced : displacedAt available r.accounts index with
    | false =>
      rw [autoRoute_stays hdisplaced, List.filter_cons_of_neg (by rw [hdisplaced]; exact Bool.false_ne_true)]
      exact autoRoute_loop hne hids hrest (fun i hi => hl i (List.mem_cons_of_mem _ hi)) hcounted
    | true =>
      have hroute := leastAssignedRoute_spec hne r.counts
      have hout := not_inPool_of_displaced haccount hdisplaced
      rw [autoRoute_moves hne (fun id hid => (hids id hid).1) haccount hdisplaced,
        List.filter_cons_of_pos hdisplaced]
      generalize leastAssignedRoute available r.counts = target at hroute ⊢
      have hcounted' : Counted available ⟨r.accounts.set index (onNode target account), bump r.counts target,
          r.changes ++ (changeOf r.accounts (index, target)).toList⟩ :=
        hcounted.moved haccount henabled hout (hids target hroute.1).2
      -- the accounts of the rest are still where they were
      have hsame : ∀ i ∈ rest, (r.accounts.set index (onNode target account))[i]? = r.accounts[i]? :=
        fun i hi => List.getElem?_set_ne (show index ≠ i from fun heq => hnot (heq ▸ hi))
      obtain ⟨order, horder, hmoves, hgreedy, hend, hchanges⟩ := autoRoute_loop hne hids hrest
        (visits_rest (p := fun a => a.disabled = false) hnodup hl) hcounted'
      have hfilter : rest.filter (displacedAt available (r.accounts.set index (onNode target account))) =
          rest.filter (displacedAt available r.accounts) :=
        List.filter_congr fun i hi => by rw [displacedAt, displacedAt, hsame i hi]
      have hnotes : order.filterMap (changeOf (r.accounts.set index (onNode target account))) =
          order.filterMap (changeOf r.accounts) := by
        refine List.filterMap_congr fun m hm => ?_
        have hmem : m.1 ∈ rest := by
          have hfst : m.1 ∈ order.map Prod.fst := List.mem_map_of_mem hm
          rw [horder] at hfst
          exact (List.mem_filter.mp hfst).1
        rw [changeOf, changeOf, hsame m.1 hmem]
      refine ⟨(index, target) :: order, ?_, ?_, ?_, hend, ?_⟩
      · rw [List.map_cons, horder, hfilter]
      · refine Moves.move haccount hroute.1 (hids target hroute.1).1 (fun other hother => ?_) hmoves
        rw [← hcounted target hroute.1, ← hcounted other hother]
        exact hroute.2 other hother
      · exact Greedy.give hroute.1 hroute.2 hgreedy
      · rw [hchanges, hnotes, List.append_assoc]
        congr 1
        rw [List.filterMap_cons]
        cases changeOf r.accounts (index, target) <;> rfl

end Loop

/-! Main results. -/

section
variable {F : Type} (tools : ProxyTools) (clock : Nat → Int64)

/-- The nodes accounts may be routed to. -/
def pool (cfg : Config F) : KeyMap Proxy :=
  nodesFrom tools (fun i proxy => proxyAvailableForRouting tools proxy cfg.proxyPolicy (clock i)) 0 [] cfg.proxies

variable {tools clock}

variable {cfg : Config F}

theorem inPool_pool {id : Bytes} : InPool (pool tools clock cfg) id ↔ Available tools clock cfg id := by
  rw [inPool_iff]
  constructor
  · intro h
    obtain ⟨proxy, hproxy⟩ := Option.isSome_iff_exists.mp h
    obtain ⟨j, raw, hj, hraw, hid, hkeep⟩ := nodesFrom_get hproxy
    rw [← hraw] at hid hkeep
    rw [proxyAvailable_normalized] at hkeep
    exact ⟨j, raw, hj, hid, hkeep⟩
  · rintro ⟨j, raw, hj, hid, hkeep⟩
    refine nodesFrom_complete _ _ _ _ (Or.inr ⟨j, raw, hj, hid, ?_⟩)
    rw [Nat.zero_add, proxyAvailable_normalized]
    exact hkeep

theorem available_trimmed {id : Bytes} (h : Available tools clock cfg id) : id ≠ [] ∧ trimSpace id = id := by
  obtain ⟨j, raw, -, rfl, -⟩ := h
  exact proxyID_trimmed tools raw

variable (tools clock)

/-- An account that has to be moved: enabled, automatic, with a password, and on a node that
    is not available. -/
def Displaced (cfg : Config F) (a : Account) : Prop :=
  managed a = true ∧ ¬ Available tools clock cfg (node a)

/-- The identifier of an account, by its number. -/
def identifierAt (accounts : List Account) (index : Nat) : Bytes := (accounts[index]?).elim [] Account.identifier

/-- What a run with a node to go to does. -/
structure AutoRouted (cfg cfg' : Config F) (changes : List AutoRouteChange) : Prop where
  config : cfg' = { cfg with accounts := cfg'.accounts }
  accounts : List.Forall₂ (fun a a' =>
    (Displaced tools clock cfg a → ∃ id, Available tools clock cfg id ∧ id ≠ [] ∧ a' = onNode id a) ∧
      (¬ Displaced tools clock cfg a → a' = a)) cfg.accounts cfg'.accounts
  moves : ∃ order : List (Nat × Bytes), (order.map Prod.fst).Nodup ∧
    (∀ i, i ∈ order.map Prod.fst ↔ ∃ a, cfg.accounts[i]? = some a ∧ Displaced tools clock cfg a) ∧
    (order.map Prod.fst).Pairwise (fun i j => identifierAt cfg.accounts i ≤ identifierAt cfg.accounts j) ∧
    Moves (Available tools clock cfg) cfg.accounts order cfg'.accounts ∧
    changes = order.filterMap (changeOf cfg.accounts)
  balanced : ∀ c ∈ changes, ∀ other, Available tools clock cfg other →
    enabledOn cfg'.accounts c.toProxyID ≤ enabledOn cfg'.accounts other + 1

/-- The accounts the loop visits, in its order. -/
def visited (tie : Nat → Nat) (accounts : List Account) : List Nat :=
  sortIndices (identifierAt accounts) tie (indicesWhere accounts managed)

variable {tie : Nat → Nat}

theorem mem_visited {accounts : List Account} {i : Nat} :
    i ∈ visited tie accounts ↔ ∃ a, accounts[i]? = some a ∧ managed a = true := by
  rw [visited, (sortIndices_perm _ _ _).mem_iff, mem_indicesWhere]

theorem visited_sorted (tie : Nat → Nat) (accounts : List Account) :
    (visited tie accounts).Pairwise (fun i j => identifierAt accounts i ≤ identifierAt accounts j) := by
  have htrans : ∀ i j k, identifierAt accounts i ≤ identifierAt accounts j →
      identifierAt accounts j ≤ identifierAt accounts k → identifierAt accounts i ≤ identifierAt accounts k :=
    fun _ _ _ => List.le_trans
  refine pairwise_insertionSort htrans (fun i j h => ?_) (fun i j h => ?_) _
  · rcases h with h | ⟨h, -⟩
    · exact List.le_of_lt h
    · exact h ▸ List.le_refl _
  · exact List.not_lt.mp fun hlt => h (Or.inl hlt)

theorem applyAutoRouteChanges_eq (h : cfg.proxyPolicy.autoRouteEnabled = true) :
    applyAutoRouteChanges tools clock tie cfg =
      let routes := (visited tie cfg.accounts).foldl (Routes.autoRoute (pool tools clock cfg))
        ⟨cfg.accounts, (proxyAssignmentCounts cfg.accounts).1, []⟩
      ({ cfg with accounts := routes.accounts }, routes.changes) := by
  rw [applyAutoRouteChanges, if_neg (by rw [h]; exact Bool.noConfusion)]
  rfl

/-- Accounts that are all where they may be stay there. -/
theorem loop_stays {available : KeyMap Proxy} : ∀ {l : List Nat} {r : Routes},
    (∀ i ∈ l, displacedAt available r.accounts i = false) → l.foldl (Routes.autoRoute available) r = r
  | [], _, _ => rfl
  | index :: rest, r, h => by
    rw [List.foldl_cons, autoRoute_stays (h index List.mem_cons_self)]
    exact loop_stays fun i hi => h i (List.mem_cons_of_mem _ hi)

theorem displacedAt_iff {accounts : List Account} {i : Nat} {a : Account} (ha : accounts[i]? = some a) :
    displacedAt (pool tools clock cfg) accounts i = true ↔ ¬ Available tools clock cfg (node a) := by
  rw [displacedAt, ha, Option.any_some, ← inPool_pool, inPool_iff]
  cases (pool tools clock cfg).get (node a) <;> simp

/-- With no node to go to nothing happens. -/
theorem apply_without_nodes
    (h : cfg.proxyPolicy.autoRouteEnabled = false ∨ ∀ id, ¬ Available tools clock cfg id) :
    applyAutoRouteChanges tools clock tie cfg = (cfg, []) := by
  cases henabled : cfg.proxyPolicy.autoRouteEnabled with
  | false => rw [applyAutoRouteChanges, if_pos henabled]
  | true =>
    have hnone := h.resolve_left (by rw [henabled]; exact Bool.noConfusion)
    have hpool : pool tools clock cfg = [] := by
      refine List.eq_nil_iff_forall_not_mem.mpr fun kv hkv => hnone kv.1 ?_
      exact inPool_pool.mp (List.mem_map_of_mem hkv)
    have hstays : ∀ (l : List Nat) (r : Routes), l.foldl (Routes.autoRoute []) r = r := by
      intro l
      induction l with
      | nil => exact fun r => rfl
      | cons index rest ih =>
        intro r
        have hturn : r.autoRoute [] index = r := by
          unfold Routes.autoRoute
          split
          · rfl
          · rfl
        rw [List.foldl_cons, hturn, ih]
    rw [applyAutoRouteChanges_eq tools clock henabled, hpool]
    simp only [hstays]

/-- With a node to go to every displaced account moves. -/
theorem apply_with_nodes (henabled : cfg.proxyPolicy.autoRouteEnabled = true)
    (hsome : ∃ id, Available tools clock cfg id) :
    AutoRouted tools clock cfg (applyAutoRouteChanges tools clock tie cfg).1
      (applyAutoRouteChanges tools clock tie cfg).2 := by
  have hids : ∀ id, InPool (pool tools clock cfg) id → id ≠ [] ∧ trimSpace id = id :=
    fun id hid => available_trimmed (inPool_pool.mp hid)
  have hne : pool tools clock cfg ≠ [] := by
    obtain ⟨id, hid⟩ := hsome
    intro hnil
    have hmem : InPool (pool tools clock cfg) id := inPool_pool.mpr hid
    rw [hnil] at hmem
    cases hmem
  have hstart : Counted (pool tools clock cfg) ⟨cfg.accounts, (proxyAssignmentCounts cfg.accounts).1, []⟩ :=
    fun id hid => assignment_counts cfg.accounts (hids id hid).1
  have hvisits : ∀ i ∈ visited tie cfg.accounts, ∃ a, cfg.accounts[i]? = some a ∧ a.disabled = false := by
    intro i hi
    obtain ⟨a, ha, hmanaged⟩ := mem_visited.mp hi
    simp only [managed, Bool.and_eq_true, Bool.not_eq_true'] at hmanaged
    exact ⟨a, ha, hmanaged.1.1⟩
  have hnodup : (visited tie cfg.accounts).Nodup := nodup_sortIndices _ _ _
  rw [applyAutoRouteChanges_eq tools clock henabled]
  obtain ⟨order, horder, hmoves, hgreedy, hcounted, hchanges⟩ :=
    autoRoute_loop hne hids hnodup hvisits hstart
  dsimp only at hmoves horder hchanges ⊢
  generalize (visited tie cfg.accounts).foldl (Routes.autoRoute (pool tools clock cfg))
    ⟨cfg.accounts, (proxyAssignmentCounts cfg.accounts).1, []⟩ = routes at hmoves hgreedy hcounted hchanges ⊢
  have hmem : ∀ i, i ∈ order.map Prod.fst ↔ ∃ a, cfg.accounts[i]? = some a ∧ Displaced tools clock cfg a := by
    intro i
    rw [horder, List.mem_filter, mem_visited]
    constructor
    · rintro ⟨⟨a, ha, hmanaged⟩, hdisplaced⟩
      exact ⟨a, ha, hmanaged, (displacedAt_iff tools clock ha).mp hdisplaced⟩
    · rintro ⟨a, ha, hmanaged, hnot⟩
      exact ⟨⟨a, ha, hmanaged⟩, (displacedAt_iff tools clock ha).mpr hnot⟩
  have hdistinct : (order.map Prod.fst).Nodup := horder ▸ hnodup.filter _
  have hplaced := hmoves.placed hdistinct
  refine ⟨rfl, forall₂_of_getElem? fun i => ⟨fun hnone => ?_, fun a ha => ?_⟩,
    ⟨order, hdistinct, hmem, horder ▸ (visited_sorted tie cfg.accounts).filter _, ?_, hchanges⟩, fun c hc => ?_⟩
  · rw [(hplaced i).1 fun hi => ?_, hnone]
    obtain ⟨a, ha, -⟩ := (hmem i).mp hi
    rw [ha] at hnone
    cases hnone
  · by_cases hi : i ∈ order.map Prod.fst
    · obtain ⟨target, htarget, heq⟩ := (hplaced i).2 hi
      obtain ⟨b, hb, hdisplaced⟩ := (hmem i).mp hi
      rw [ha] at hb
      cases hb
      refine ⟨onNode target a, by rw [heq, ha]; rfl, fun _ => ⟨target, inPool_pool.mp htarget, (hids target htarget).1,
        rfl⟩, fun hno => absurd hdisplaced hno⟩
    · refine ⟨a, by rw [(hplaced i).1 hi, ha], fun hdisplaced => ?_, fun _ => rfl⟩
      exact absurd ((hmem i).mpr ⟨a, ha, hdisplaced⟩) hi
  · have hsame : InPool (pool tools clock cfg) = Available tools clock cfg := funext fun id => propext inPool_pool
    rw [← hsame]
    exact hmoves
  · intro other hother
    rw [hchanges, List.nil_append] at hc
    obtain ⟨m, hm, hchange⟩ := List.mem_filterMap.mp hc
    obtain ⟨a, -, rfl⟩ := Option.map_eq_some_iff.mp hchange
    have htarget : m.2 ∈ order.map Prod.snd := List.mem_map_of_mem hm
    have hlevel := hgreedy.level.2 m.2 htarget other (inPool_pool.mpr hother)
    rwa [hcounted m.2 (hgreedy.mem m.2 htarget), hcounted other (inPool_pool.mpr hother)] at hlevel

/-- Routed accounts stay where they are. -/
theorem routed_stays (tie : Nat → Nat) {cfg cfg' : Config F} {changes : List AutoRouteChange}
    (henabled : cfg.proxyPolicy.autoRouteEnabled = true) (h : AutoRouted tools clock cfg cfg' changes) :
    applyAutoRouteChanges tools clock tie cfg' = (cfg', []) := by
  have hpolicy : cfg'.proxyPolicy = cfg.proxyPolicy := by rw [h.config]
  have hpool : pool tools clock cfg' = pool tools clock cfg := by
    rw [h.config]
    rfl
  have hstays : ∀ i ∈ visited tie cfg'.accounts, displacedAt (pool tools clock cfg') cfg'.accounts i = false := by
    intro i hi
    obtain ⟨a', ha', hmanaged⟩ := mem_visited.mp hi
    obtain ⟨hlength, hpairs⟩ := List.forall₂_iff_get.mp h.accounts
    obtain ⟨hi', rfl⟩ := List.getElem?_eq_some_iff.mp ha'
    obtain ⟨hmoved, hkept⟩ := hpairs i (hlength ▸ hi') hi'
    rw [List.get_eq_getElem, List.get_eq_getElem] at hmoved hkept
    rw [hpool, ← Bool.not_eq_true, displacedAt_iff tools clock ha', not_not]
    by_contra hnot
    by_cases hdisplaced : Displaced tools clock cfg (cfg.accounts.get ⟨i, hlength ▸ hi'⟩)
    · -- it was moved to an available node
      obtain ⟨id, hid, -, heq⟩ := hmoved hdisplaced
      have hnode : node (cfg'.accounts.get ⟨i, hi'⟩) = id := by
        rw [List.get_eq_getElem, heq]
        exact (available_trimmed hid).2
      exact hnot (hnode.symm ▸ hid)
    · rw [hkept hdisplaced] at hmanaged hnot
      exact hdisplaced ⟨hmanaged, hnot⟩
  rw [applyAutoRouteChanges_eq tools clock (hpolicy ▸ henabled), loop_stays hstays]

/-- Automatic routing is sticky, balanced and idempotent. -/
theorem auto_routing (tools : ProxyTools) (clock : Nat → Int64) (tie tie' : Nat → Nat) (cfg : Config F) :
    let done := applyAutoRouteChanges tools clock tie cfg
    ((cfg.proxyPolicy.autoRouteEnabled = false ∨ ∀ id, ¬ Available tools clock cfg id) → done = (cfg, [])) ∧
    (cfg.proxyPolicy.autoRouteEnabled = true → (∃ id, Available tools clock cfg id) →
      AutoRouted tools clock cfg done.1 done.2) ∧
    applyAutoRouteChanges tools clock tie' done.1 = (done.1, []) := by
  intro done
  refine ⟨apply_without_nodes tools clock, fun h h' => apply_with_nodes tools clock h h', ?_⟩
  by_cases hidle : cfg.proxyPolicy.autoRouteEnabled = false ∨ ∀ id, ¬ Available tools clock cfg id
  · have hdone : done = (cfg, []) := apply_without_nodes tools clock hidle
    rw [hdone]
    exact apply_without_nodes tools clock hidle
  · rw [not_or, Bool.not_eq_false, not_forall_not] at hidle
    exact routed_stays tools clock tie' hidle.1 (apply_with_nodes tools clock hidle.1 hidle.2)

end

end DeepSeekWebToApi.Proxyservice
