import DeepSeekWebToApi.Proxyservice.Router

/- What deleting proxies does to the accounts.

   The two loops of `ReassignDeletedProxyRoutes` visit every account on a deleted node once
   (`moved_manual`, `moved_automatic`); the checks before them make sure that there is a node
   to go to, so that nothing fails once the first account has been moved. -/
namespace DeepSeekWebToApi.Proxyservice
open GoStrings GoJson Config LeastLoaded Sorting

/-! The nodes. -/

section Nodes
variable {tools : ProxyTools} {keep : Nat → Proxy → Bool}

/-- The ids of the map are the ids of the proxies that are kept. -/
theorem nodesFrom_spec : ∀ (proxies : List Proxy) (i : Nat) (nodes : KeyMap Proxy) (id : Bytes) (proxy : Proxy),
    (nodesFrom tools keep i nodes proxies).get id = some proxy →
      nodes.get id = some proxy ∨ ∃ j raw, proxies[j]? = some raw ∧ normalizeProxy tools raw = proxy ∧
        proxy.id = id ∧ keep (i + j) proxy = true
  | [], _, _, _, _, h => Or.inl h
  | raw :: rest, i, nodes, id, proxy, h => by
    rw [nodesFrom] at h
    generalize hraw : normalizeProxy tools raw = here at h
    rcases nodesFrom_spec rest (i + 1) _ id proxy h with h | ⟨j, raw', hj, hraw', hid, hkeep⟩
    · split_ifs at h with hkeep
      · rw [KeyMap.get_insert] at h
        split_ifs at h with hid
        · cases h
          exact Or.inr ⟨0, raw, rfl, hraw, hid, hkeep⟩
        · exact Or.inl h
      · exact Or.inl h
    · refine Or.inr ⟨j + 1, raw', hj, hraw', hid, ?_⟩
      rw [show i + (j + 1) = i + 1 + j by omega]
      exact hkeep

theorem nodesFrom_get {proxies : List Proxy} {id : Bytes} {proxy : Proxy}
    (h : (nodesFrom tools keep 0 [] proxies).get id = some proxy) :
    ∃ j raw, proxies[j]? = some raw ∧ normalizeProxy tools raw = proxy ∧ proxy.id = id ∧ keep j proxy = true := by
  rcases nodesFrom_spec proxies 0 [] id proxy h with h | ⟨j, raw, hj, hraw, hid, hkeep⟩
  · cases h
  · exact ⟨j, raw, hj, hraw, hid, Nat.zero_add j ▸ hkeep⟩

/-- No proxy that is kept is missing. -/
theorem nodesFrom_complete : ∀ (proxies : List Proxy) (i : Nat) (nodes : KeyMap Proxy) (id : Bytes),
    ((nodes.get id).isSome = true ∨ ∃ j raw, proxies[j]? = some raw ∧ (normalizeProxy tools raw).id = id ∧
      keep (i + j) (normalizeProxy tools raw) = true) →
    ((nodesFrom tools keep i nodes proxies).get id).isSome = true
  | [], _, _, _, h => by
    rcases h with h | ⟨j, raw, hj, -⟩
    · exact h
    · cases hj
  | raw :: rest, i, nodes, id, h => by
    rw [nodesFrom]
    refine nodesFrom_complete rest (i + 1) _ id ?_
    rcases h with h | ⟨j, raw', hj, hid, hkeep⟩
    · refine Or.inl ?_
      split_ifs
      · rw [KeyMap.get_insert]
        split_ifs
        · rfl
        · exact h
      · exact h
    · cases j with
      | zero =>
        cases hj
        rw [Nat.add_zero] at hkeep
        exact Or.inl (by rw [if_pos hkeep, KeyMap.get_insert, if_pos hid]; rfl)
      | succ j =>
        refine Or.inr ⟨j, raw', hj, hid, ?_⟩
        rw [show i + 1 + j = i + (j + 1) by omega]
        exact hkeep

theorem nodesFrom_sorted : ∀ (proxies : List Proxy) (i : Nat) {nodes : KeyMap Proxy}, nodes.Sorted →
    (nodesFrom tools keep i nodes proxies).Sorted
  | [], _, _, h => h
  | raw :: rest, i, nodes, h => by
    rw [nodesFrom]
    generalize normalizeProxy tools raw = here
    split_ifs
    · exact nodesFrom_sorted rest (i + 1) h.insert
    · exact nodesFrom_sorted rest (i + 1) h

end Nodes

/-- The route that is taken is one of the nodes, and none of them has fewer accounts. -/
theorem leastAssignedRoute_spec {available : KeyMap Proxy} (hne : available ≠ []) (counts : Bytes → Nat) :
    leastAssignedRoute available counts ∈ available.map Prod.fst ∧
      ∀ id ∈ available.map Prod.fst, counts (leastAssignedRoute available counts) ≤ counts id := by
  have hfound : ∃ id, ((available.map Prod.fst).insertionSort
      (fun x y => routeBefore available counts x y = true)).head? = some id := by
    have hlen : ((available.map Prod.fst).insertionSort
        (fun x y => routeBefore available counts x y = true)) ≠ [] := by
      intro hnil
      have hlength := (List.perm_insertionSort (fun x y => routeBefore available counts x y = true)
        (available.map Prod.fst)).length_eq
      rw [hnil, List.length_map] at hlength
      exact hne (List.length_eq_zero_iff.mp hlength.symm)
    exact ⟨_, List.head?_eq_some_head hlen⟩
  obtain ⟨id, hid⟩ := hfound
  have hleast : leastAssignedRoute available counts = id := by
    rw [leastAssignedRoute, hid]
    rfl
  have hbefore : ∀ x y, routeBefore available counts x y = true → counts x ≤ counts y := by
    intro x y h
    unfold routeBefore at h
    dsimp only at h
    split_ifs at h with hcounts
    · exact Nat.le_of_lt (of_decide_eq_true h)
    all_goals exact Nat.le_of_eq (not_not.mp hcounts)
  have hafter : ∀ x y, ¬ routeBefore available counts x y = true → counts y ≤ counts x := by
    intro x y h
    unfold routeBefore at h
    dsimp only at h
    split_ifs at h with hcounts
    · exact Nat.not_lt.mp fun hlt => h (decide_eq_true hlt)
    all_goals exact Nat.le_of_eq (not_not.mp hcounts).symm
  rw [hleast]
  exact head_insertionSort (fun x y => counts x ≤ counts y) (fun _ _ _ => Nat.le_trans) hbefore hafter
    (fun _ => Nat.le_refl _) hid

/-! The loops. -/

section Loops
variable {accounts : List Account} {r : Routes}

theorem mem_indicesWhere {p : Account → Bool} {i : Nat} :
    i ∈ indicesWhere accounts p ↔ ∃ a, accounts[i]? = some a ∧ p a = true := by
  rw [indicesWhere, List.mem_filter, List.mem_range, Option.any_eq_true]
  refine ⟨And.right, fun ⟨a, ha, hp⟩ => ⟨?_, a, ha, hp⟩⟩
  exact (List.getElem?_eq_some_iff.mp ha).1

theorem sortIndices_perm (key : Nat → Bytes) (tie : Nat → Nat) (l : List Nat) :
    (sortIndices key tie l).Perm l := List.perm_insertionSort _ l

theorem nodup_sortIndices (key : Nat → Bytes) (tie : Nat → Nat) (p : Account → Bool) :
    (sortIndices key tie (indicesWhere accounts p)).Nodup :=
  (sortIndices_perm key tie _).nodup_iff.mpr (List.nodup_range.filter _)

variable {target : Bytes}

theorem assign_accounts {index : Nat} {account : Account} (reason : Bytes)
    (h : r.accounts[index]? = some account) (hne : node account ≠ target) :
    (r.assign index target reason).accounts = r.accounts.set index (onNode target account) := by
  have hmove : (r.move index target reason).accounts = r.accounts.set index (onNode target account) := by
    simp only [Routes.move, h, if_neg hne]
  unfold Routes.assign Routes.counted
  split
  · exact hmove
  · split_ifs
    · exact hmove
    · exact hmove

/-- The accounts of the list are on nodes that are `good`, all others where they were. -/
def Placed (good : Bytes → Prop) (before after : List Account) (l : List Nat) : Prop :=
  ∀ i, (i ∉ l → after[i]? = before[i]?) ∧
    (i ∈ l → ∃ target, good target ∧ after[i]? = (before[i]?).map (onNode target))

theorem Placed.nil (good : Bytes → Prop) (before : List Account) : Placed good before before [] :=
  fun _ => ⟨fun _ => rfl, fun h => absurd h List.not_mem_nil⟩

/-- A step before the rest of the loop. -/
theorem Placed.step {good : Bytes → Prop} {index : Nat} {rest : List Nat} {account : Account}
    {before after : List Account} (hnodup : (index :: rest).Nodup) (haccount : before[index]? = some account)
    (hgood : good target) (h : Placed good (before.set index (onNode target account)) after rest) :
    Placed good before after (index :: rest) := by
  obtain ⟨hnot, -⟩ := List.nodup_cons.mp hnodup
  intro i
  by_cases hi : i = index
  · subst hi
    refine ⟨fun hmem => absurd List.mem_cons_self hmem, fun _ => ⟨target, hgood, ?_⟩⟩
    rw [(h i).1 hnot, haccount, List.getElem?_set_self (List.getElem?_eq_some_iff.mp haccount).1]
    rfl
  · have hother : (before.set index (onNode target account))[i]? = before[i]? :=
      List.getElem?_set_ne (Ne.symm hi)
    constructor
    · intro hmem
      rw [(h i).1 (fun hr => hmem (List.mem_cons_of_mem _ hr)), hother]
    · intro hmem
      obtain ⟨dest, hdest, heq⟩ := (h i).2 ((List.mem_cons.mp hmem).resolve_left hi)
      exact ⟨dest, hdest, by rw [heq, hother]⟩

/-- The accounts that are still to be visited are where they were. -/
theorem visits_rest {p : Account → Prop} {index : Nat} {rest : List Nat} {account : Account}
    {before : List Account} (hnodup : (index :: rest).Nodup)
    (h : ∀ i ∈ index :: rest, ∃ a, before[i]? = some a ∧ p a) :
    ∀ i ∈ rest, ∃ a, (before.set index (onNode target account))[i]? = some a ∧ p a := by
  obtain ⟨hnot, -⟩ := List.nodup_cons.mp hnodup
  intro i hi
  obtain ⟨a, ha, hp⟩ := h i (List.mem_cons_of_mem _ hi)
  have hne : index ≠ i := fun heq => hnot (heq ▸ hi)
  exact ⟨a, by rw [List.getElem?_set_ne hne]; exact ha, hp⟩

theorem moved_manual (reason : Bytes) : ∀ {l : List Nat} {r : Routes}, l.Nodup →
    (∀ i ∈ l, ∃ a, r.accounts[i]? = some a ∧ node a ≠ target) →
    Placed (· = target) r.accounts (l.foldl (fun r index => r.assign index target reason) r).accounts l
  | [], r, _, _ => Placed.nil _ _
  | index :: rest, r, hnodup, h => by
    obtain ⟨account, haccount, hne⟩ := h index List.mem_cons_self
    have hset := assign_accounts reason haccount hne
    refine Placed.step hnodup haccount rfl ?_
    rw [← hset]
    refine moved_manual reason (List.nodup_cons.mp hnodup).2 ?_
    rw [hset]
    exact visits_rest hnodup h

theorem moved_automatic {available : KeyMap Proxy} (hne : available ≠ [])
    (hids : ∀ id ∈ available.map Prod.fst, id ≠ []) : ∀ {l : List Nat} {r : Routes}, l.Nodup →
    (∀ i ∈ l, ∃ a, r.accounts[i]? = some a ∧ node a ∉ available.map Prod.fst) →
    (moveAutomatic available l r).2 = .ok () ∧
      Placed (· ∈ available.map Prod.fst) r.accounts (moveAutomatic available l r).1.accounts l
  | [], r, _, _ => ⟨rfl, Placed.nil _ _⟩
  | index :: rest, r, hnodup, h => by
    obtain ⟨account, haccount, hnode⟩ := h index List.mem_cons_self
    obtain ⟨hroute, -⟩ := leastAssignedRoute_spec hne r.counts
    have hset := assign_accounts (lit "node_deleted") haccount (fun heq => hnode (heq ▸ hroute))
    have hrest := moved_automatic hne hids (r := r.assign index (leastAssignedRoute available r.counts)
      (lit "node_deleted")) (List.nodup_cons.mp hnodup).2 (by rw [hset]; exact visits_rest hnodup h)
    rw [moveAutomatic, if_neg (hids _ hroute)]
    refine ⟨hrest.1, Placed.step hnodup haccount hroute ?_⟩
    rw [← hset]
    exact hrest.2

end Loops

/-! What a deletion leaves. -/

section
variable {F : Type} (tools : ProxyTools) (clock : Nat → Int64) (tie : Nat → Nat)

/-- A node that accounts may be routed to. -/
def Available (cfg : Config F) (id : Bytes) : Prop :=
  ∃ i raw, cfg.proxies[i]? = some raw ∧ (normalizeProxy tools raw).id = id ∧
    proxyAvailableForRouting tools raw cfg.proxyPolicy (clock i) = true

/-- An available node that is not deleted. -/
def Routable (wanted : List Bytes) (cfg : Config F) (id : Bytes) : Prop :=
  id ∉ wanted ∧ Available tools clock cfg id

/-- The configured fallback, which exists, is enabled and is not deleted. -/
def IsFallback (wanted : List Bytes) (cfg : Config F) (id : Bytes) : Prop :=
  id = trimSpace cfg.proxyPolicy.fallbackProxyID ∧ id ∉ wanted ∧
    ∃ raw ∈ cfg.proxies, (normalizeProxy tools raw).id = id ∧ raw.disabled = false

/-- What becomes of an account. -/
structure SafelyMoved (wanted : List Bytes) (cfg : Config F) (before after : Account) : Prop where
  gone : node after ∉ wanted
  kept : before.proxyID ≠ [] → after.proxyID ≠ []
  untouched : node before ∉ wanted → after = before
  forgotten : node before ∈ wanted → after = onNode after.proxyID before ∧ after.token = []
  manual : node before ∈ wanted → before.proxyAutoRoute = false → IsFallback tools wanted cfg after.proxyID
  automatic : node before ∈ wanted → before.proxyAutoRoute = true → Routable tools clock wanted cfg after.proxyID

variable {wanted : List Bytes} {cfg : Config F}

/-- An account that went to a good node. -/
theorem SafelyMoved.of_target {before : Account} {target : Bytes} (hnode : node before ∈ wanted)
    (hne : target ≠ []) (htrim : trimSpace target = target) (hfree : target ∉ wanted)
    (hmanual : before.proxyAutoRoute = false → IsFallback tools wanted cfg target)
    (hautomatic : before.proxyAutoRoute = true → Routable tools clock wanted cfg target) :
    SafelyMoved tools clock wanted cfg before (onNode target before) where
  gone := by rw [node, onNode, htrim]; exact hfree
  kept := fun _ => hne
  untouched := fun h => absurd hnode h
  forgotten := fun _ => ⟨rfl, rfl⟩
  manual := fun _ => hmanual
  automatic := fun _ => hautomatic

theorem SafelyMoved.refl {account : Account} (hnode : node account ∉ wanted) :
    SafelyMoved tools clock wanted cfg account account where
  gone := hnode
  kept := id
  untouched := fun _ => rfl
  forgotten := fun h => absurd h hnode
  manual := fun h => absurd h hnode
  automatic := fun h => absurd h hnode

/-- Account by account, and nothing else changes. -/
structure Reassigned (wanted : List Bytes) (cfg cfg' : Config F) : Prop where
  accounts : List.Forall₂ (SafelyMoved tools clock wanted cfg) cfg.accounts cfg'.accounts
  proxies : cfg'.proxies = cfg.proxies

theorem wanted_ne_nil {deleted : List Bytes} {id : Bytes} (h : id ∈ wantedIDs deleted) : id ≠ [] :=
  of_decide_eq_true (List.mem_filter.mp h).2

/-- A list that agrees with another place by place. -/
theorem forall₂_of_getElem? {R : Account → Account → Prop} {before after : List Account}
    (h : ∀ i : Nat, (before[i]? = none → after[i]? = none) ∧
      ∀ a, before[i]? = some a → ∃ b, after[i]? = some b ∧ R a b) : List.Forall₂ R before after := by
  have hlen : before.length = after.length := by
    refine Nat.le_antisymm ?_ ?_
    · refine Nat.not_lt.mp fun hlt => ?_
      obtain ⟨b, hb, -⟩ := (h after.length).2 _ (List.getElem?_eq_getElem hlt)
      rw [List.getElem?_eq_none (Nat.le_refl _)] at hb
      cases hb
    · exact List.getElem?_eq_none_iff.mp ((h before.length).1 (List.getElem?_eq_none (Nat.le_refl _)))
  refine List.forall₂_iff_get.mpr ⟨hlen, fun i hi hi' => ?_⟩
  obtain ⟨b, hb, hR⟩ := (h i).2 _ (List.getElem?_eq_getElem hi)
  rw [List.getElem?_eq_getElem hi'] at hb
  cases hb
  exact hR

/-- The maps of the nodes that stay, and of those among them that may be routed to. -/
def remainingNodes (wanted : List Bytes) (cfg : Config F) : KeyMap Proxy :=
  nodesFrom tools (fun _ proxy => proxy.id ∉ wanted) 0 [] cfg.proxies

def availableNodes (wanted : List Bytes) (cfg : Config F) : KeyMap Proxy :=
  nodesFrom tools (fun i proxy => decide (proxy.id ∉ wanted) &&
    proxyAvailableForRouting tools proxy cfg.proxyPolicy (clock i)) 0 [] cfg.proxies

variable {tools clock}

theorem routable_of_mem {id : Bytes} (h : id ∈ (availableNodes tools clock wanted cfg).map Prod.fst) :
    Routable tools clock wanted cfg id ∧ id ≠ [] ∧ trimSpace id = id := by
  obtain ⟨⟨key, proxy⟩, hmem, rfl⟩ := List.mem_map.mp h
  have hget := KeyMap.get_of_mem (nodesFrom_sorted _ _ List.Pairwise.nil) hmem
  obtain ⟨j, raw, hj, hraw, hid, hkeep⟩ := nodesFrom_get hget
  rw [Bool.and_eq_true, decide_eq_true_eq, ← hraw, proxyAvailable_normalized] at hkeep
  have htrimmed := proxyID_trimmed tools raw
  rw [← hraw] at hid
  rw [hid] at htrimmed hkeep
  exact ⟨⟨hkeep.1, j, raw, hj, hid, hkeep.2⟩, htrimmed⟩

theorem isFallback_of_get {proxy : Proxy}
    (h : (remainingNodes tools wanted cfg).get (trimSpace cfg.proxyPolicy.fallbackProxyID) = some proxy)
    (henabled : proxy.disabled = false) :
    IsFallback tools wanted cfg (trimSpace cfg.proxyPolicy.fallbackProxyID) := by
  obtain ⟨j, raw, hj, hraw, hid, hkeep⟩ := nodesFrom_get h
  rw [decide_eq_true_eq, hid] at hkeep
  refine ⟨rfl, hkeep, raw, List.mem_of_getElem? hj, hraw ▸ hid, ?_⟩
  have hsame := (normalizeProxy_state tools raw).disabled
  rw [hraw, henabled] at hsame
  exact hsame.symm

/-- The checks that were passed. -/
theorem deletionError_none {policy : ProxyPolicyConfig} {remaining available : KeyMap Proxy} {fallbackID : Bytes}
    {manual automatic : List Nat}
    (h : deletionError policy remaining available fallbackID manual automatic = none) :
    (manual ≠ [] → fallbackID ≠ [] ∧ ∃ proxy, remaining.get fallbackID = some proxy ∧ proxy.disabled = false) ∧
      (automatic ≠ [] → available ≠ []) := by
  obtain ⟨hmanual, hautomatic⟩ := Option.or_eq_none_iff.mp h
  constructor
  · intro hne
    rw [if_pos (List.length_pos_of_ne_nil hne)] at hmanual
    split_ifs at hmanual with hfallback
    refine ⟨hfallback, ?_⟩
    split at hmanual
    · cases hmanual
    · next proxy hget =>
      split_ifs at hmanual with hdisabled
      exact ⟨proxy, hget, Bool.eq_false_iff.mpr hdisabled⟩
  · intro hne hnil
    rw [hnil] at hautomatic
    split_ifs at hautomatic with h₁ h₂
    exact h₂ ⟨List.length_pos_of_ne_nil hne, rfl⟩

/-- The accounts after both loops. -/
theorem reassigned_accounts {manual automatic : List Nat} {routes : Routes} {result : Routes}
    {fallbackID : Bytes} (hfallbackID : fallbackID = trimSpace cfg.proxyPolicy.fallbackProxyID)
    (hmanual : ∀ i, i ∈ manual ↔ ∃ a, cfg.accounts[i]? = some a ∧ node a ∈ wanted ∧ a.proxyAutoRoute = false)
    (hautomatic : ∀ i, i ∈ automatic ↔ ∃ a, cfg.accounts[i]? = some a ∧ node a ∈ wanted ∧ a.proxyAutoRoute = true)
    (hfallback : manual ≠ [] → fallbackID ≠ [] ∧ IsFallback tools wanted cfg fallbackID)
    (hfirst : Placed (· = fallbackID) cfg.accounts routes.accounts manual)
    (hsecond : Placed (· ∈ (availableNodes tools clock wanted cfg).map Prod.fst) routes.accounts result.accounts
      automatic) :
    List.Forall₂ (SafelyMoved tools clock wanted cfg) cfg.accounts result.accounts := by
  refine forall₂_of_getElem? fun i => ⟨fun hnone => ?_, fun a ha => ?_⟩
  · have hm : i ∉ manual := by
      intro hi
      obtain ⟨a, ha, -⟩ := (hmanual i).mp hi
      rw [ha] at hnone
      cases hnone
    have hau : i ∉ automatic := by
      intro hi
      obtain ⟨a, ha, -⟩ := (hautomatic i).mp hi
      rw [ha] at hnone
      cases hnone
    rw [(hsecond i).1 hau, (hfirst i).1 hm, hnone]
  · by_cases hm : i ∈ manual
    · obtain ⟨b, hb, hnode, hauto⟩ := (hmanual i).mp hm
      rw [ha] at hb
      cases hb
      have hau : i ∉ automatic := by
        intro hi
        obtain ⟨b, hb, -, hauto'⟩ := (hautomatic i).mp hi
        rw [ha] at hb
        cases hb
        exact absurd (hauto.symm.trans hauto') Bool.false_ne_true
      obtain ⟨target, rfl, heq⟩ := (hfirst i).2 hm
      obtain ⟨hne, hisfallback⟩ := hfallback (List.ne_nil_of_mem hm)
      refine ⟨onNode target a, by rw [(hsecond i).1 hau, heq, ha]; rfl, ?_⟩
      refine SafelyMoved.of_target tools clock hnode hne ?_ hisfallback.2.1 (fun _ => hisfallback)
        (fun h => absurd (hauto.symm.trans h) Bool.false_ne_true)
      rw [hfallbackID, trimSpace_idem]
    · have hkept := (hfirst i).1 hm
      by_cases hau : i ∈ automatic
      · obtain ⟨b, hb, hnode, hauto⟩ := (hautomatic i).mp hau
        rw [ha] at hb
        cases hb
        obtain ⟨target, htarget, heq⟩ := (hsecond i).2 hau
        obtain ⟨hroutable, hne, htrim⟩ := routable_of_mem htarget
        refine ⟨onNode target a, by rw [heq, hkept, ha]; rfl, ?_⟩
        exact SafelyMoved.of_target tools clock hnode hne htrim hroutable.1
          (fun h => absurd (h.symm.trans hauto) Bool.false_ne_true) (fun _ => hroutable)
      · refine ⟨a, by rw [(hsecond i).1 hau, hkept, ha], SafelyMoved.refl tools clock fun hnode => ?_⟩
        cases hauto : a.proxyAutoRoute with
        | true => exact hau ((hautomatic i).mpr ⟨a, ha, hnode, hauto⟩)
        | false => exact hm ((hmanual i).mpr ⟨a, ha, hnode, hauto⟩)

/-- With nothing deleted every account stays where it is. -/
theorem reassigned_refl {cfg cfg' : Config F} (haccounts : cfg'.accounts = cfg.accounts)
    (hproxies : cfg'.proxies = cfg.proxies) (h : ∀ a ∈ cfg.accounts, node a ∉ wanted) :
    Reassigned tools clock wanted cfg cfg' := by
  refine ⟨?_, hproxies⟩
  rw [haccounts]
  exact List.forall₂_same.mpr fun a ha => SafelyMoved.refl tools clock (h a ha)

/-- Both loops, over the accounts on deleted nodes. -/
theorem loops_spec (tools : ProxyTools) (clock : Nat → Int64) {manual automatic : List Nat} {fallbackID : Bytes}
    (counts : Bytes → Nat) (hfallbackID : fallbackID = trimSpace cfg.proxyPolicy.fallbackProxyID)
    (hmanual : ∀ i, i ∈ manual ↔ ∃ a, cfg.accounts[i]? = some a ∧ node a ∈ wanted ∧ a.proxyAutoRoute = false)
    (hautomatic : ∀ i, i ∈ automatic ↔ ∃ a, cfg.accounts[i]? = some a ∧ node a ∈ wanted ∧ a.proxyAutoRoute = true)
    (hm : manual.Nodup) (hau : automatic.Nodup) (hleaves : ∀ a : Account, node a ∈ wanted → node a ≠ fallbackID)
    (hfallback : manual ≠ [] → fallbackID ≠ [] ∧ IsFallback tools wanted cfg fallbackID)
    (havailable : automatic ≠ [] → availableNodes tools clock wanted cfg ≠ []) :
    let routes := manual.foldl (fun r index => r.assign index fallbackID (lit "node_deleted_fallback"))
      ⟨cfg.accounts, counts, []⟩
    let result := moveAutomatic (availableNodes tools clock wanted cfg) automatic routes
    result.2 = .ok () ∧ List.Forall₂ (SafelyMoved tools clock wanted cfg) cfg.accounts result.1.accounts := by
  intro routes result
  have hfirst : Placed (· = fallbackID) cfg.accounts routes.accounts manual := by
    refine moved_manual (r := ⟨cfg.accounts, counts, []⟩) _ hm fun i hi => ?_
    obtain ⟨a, ha, hnode, -⟩ := (hmanual i).mp hi
    exact ⟨a, ha, hleaves a hnode⟩
  have hsecond : result.2 = .ok () ∧ Placed (· ∈ (availableNodes tools clock wanted cfg).map Prod.fst)
      routes.accounts result.1.accounts automatic := by
    by_cases hnone : automatic = []
    · have hresult : result = (routes, .ok ()) := by
        simp only [result, hnone, moveAutomatic]
      rw [hresult, hnone]
      exact ⟨rfl, Placed.nil _ _⟩
    · refine moved_automatic (havailable hnone) (fun id hid => (routable_of_mem hid).2.1) hau fun i hi => ?_
      obtain ⟨a, ha, hnode, hauto⟩ := (hautomatic i).mp hi
      -- the first loop has not come to this account
      have hnot : i ∉ manual := by
        intro hi
        obtain ⟨b, hb, -, hauto'⟩ := (hmanual i).mp hi
        rw [ha] at hb
        cases hb
        exact absurd (hauto'.symm.trans hauto) Bool.false_ne_true
      exact ⟨a, by rw [(hfirst i).1 hnot]; exact ha, fun hmem => (routable_of_mem hmem).1.1 hnode⟩
  exact ⟨hsecond.1, reassigned_accounts hfallbackID hmanual hautomatic hfallback hfirst hsecond.2⟩

/-- A deletion is refused before anything is changed, or it moves every account it has to. -/
theorem reassignDeleted_spec (tools : ProxyTools) (clock : Nat → Int64) (tie : Nat → Nat) (cfg : Config F)
    (deleted : List Bytes) :
    (∃ err, reassignDeletedProxyRoutes tools clock tie cfg deleted = (cfg, .error err)) ∨
    ∃ changes, (reassignDeletedProxyRoutes tools clock tie cfg deleted).2 = .ok changes ∧
      Reassigned tools clock (wantedIDs deleted) cfg (reassignDeletedProxyRoutes tools clock tie cfg deleted).1 := by
  unfold reassignDeletedProxyRoutes
  dsimp only
  rw [← remainingNodes, ← availableNodes]
  have hnonblank : ∀ id ∈ wantedIDs deleted, id ≠ [] := fun id => wanted_ne_nil
  generalize wantedIDs deleted = wanted at hnonblank ⊢
  split_ifs with hnone hdeleted
  · refine Or.inr ⟨[], rfl, reassigned_refl rfl rfl fun a _ hnode => ?_⟩
    rw [List.length_eq_zero_iff.mp hnone] at hnode
    cases hnode
  · exact Or.inl ⟨_, rfl⟩
  · split
    · next err _ => exact Or.inl ⟨err, rfl⟩
    · next hpassed =>
      obtain ⟨hfallback, havailable⟩ := deletionError_none hpassed
      have hsorted : ∀ p : Account → Bool, sortIndices (accountSortKey cfg.accounts) tie
          (indicesWhere cfg.accounts p) ≠ [] → indicesWhere cfg.accounts p ≠ [] := by
        intro p hne hnil
        exact hne (List.perm_nil.mp (hnil ▸ sortIndices_perm _ _ _))
      have hmem : ∀ (p : Account → Bool) i, i ∈ sortIndices (accountSortKey cfg.accounts) tie
          (indicesWhere cfg.accounts p) ↔ ∃ a, cfg.accounts[i]? = some a ∧ p a = true := by
        intro p i
        rw [(sortIndices_perm _ _ _).mem_iff, mem_indicesWhere]
      obtain ⟨hok, hmoved⟩ := loops_spec tools clock (activeAssignmentsExcluding cfg.accounts wanted) rfl
        (fun i => (hmem (fun a => decide (node a ∈ wanted) && !a.proxyAutoRoute) i).trans (by simp))
        (fun i => (hmem (fun a => decide (node a ∈ wanted) && a.proxyAutoRoute) i).trans (by simp))
        (nodup_sortIndices _ _ _) (nodup_sortIndices _ _ _)
        (fun a hnode heq => hdeleted ⟨heq ▸ hnonblank _ hnode, heq ▸ hnode⟩)
        (fun hne => by
          obtain ⟨hfid, proxy, hget, henabled⟩ := hfallback (hsorted _ hne)
          exact ⟨hfid, isFallback_of_get hget henabled⟩)
        (fun hne => havailable (hsorted _ hne))
      exact Or.inr ⟨_, by rw [hok]; rfl, hmoved, rfl⟩

theorem wantedIDs_idem (deleted : List Bytes) : wantedIDs (wantedIDs deleted) = wantedIDs deleted := by
  have htrimmed : (wantedIDs deleted).map trimSpace = wantedIDs deleted := by
    refine (List.map_congr_left fun id hid => ?_).trans (List.map_id _)
    obtain ⟨raw, -, rfl⟩ := List.mem_map.mp (List.mem_filter.mp hid).1
    exact trimSpace_idem raw
  rw [wantedIDs, htrimmed]
  exact List.filter_eq_self.mpr fun id hid => (List.mem_filter.mp hid).2

/-- The fallback may be cleared beforehand where no manual account needs it. -/
theorem Reassigned.of_cleared {cfg cfg' : Config F}
    (hmanual : ∀ a ∈ cfg.accounts, node a ∈ wanted → a.proxyAutoRoute ≠ false)
    (h : Reassigned tools clock wanted
      { cfg with proxyPolicy := { cfg.proxyPolicy with fallbackProxyID := [] } } cfg') :
    Reassigned tools clock wanted cfg cfg' := by
  refine ⟨?_, h.proxies⟩
  refine ((List.forall₂_and_left _ _).mpr ⟨hmanual, h.accounts⟩).imp fun a b ⟨hno, hab⟩ => ?_
  exact ⟨hab.gone, hab.kept, hab.untouched, hab.forgotten, fun hnode hauto => absurd hauto (hno hnode),
    hab.automatic⟩

theorem lastCheck_ok {done : Config F × Except Bytes (List AutoRouteChange)} {changes : List AutoRouteChange}
    (h : (lastCheck wanted done).2 = .ok changes) :
    done.2 = .ok changes ∧ (lastCheck wanted done).1 = done.1 := by
  unfold lastCheck at h ⊢
  split at h
  · cases h
  · next changes' hok =>
    split_ifs at h ⊢ with hleft
    exact ⟨hok.trans h, rfl⟩

theorem reassignSubscription_spec (tools : ProxyTools) (clock : Nat → Int64) (tie : Nat → Nat) (cfg : Config F)
    (deleted : List Bytes) {changes : List AutoRouteChange}
    (h : (reassignSubscriptionRemovedRoutes tools clock tie cfg deleted).2 = .ok changes) :
    Reassigned tools clock (wantedIDs deleted) cfg
      (reassignSubscriptionRemovedRoutes tools clock tie cfg deleted).1 := by
  have hdone : ∀ cfg₀ : Config F, (lastCheck (wantedIDs deleted)
      (reassignDeletedProxyRoutes tools clock tie cfg₀ (wantedIDs deleted))).2 = .ok changes →
      Reassigned tools clock (wantedIDs deleted) cfg₀ (lastCheck (wantedIDs deleted)
        (reassignDeletedProxyRoutes tools clock tie cfg₀ (wantedIDs deleted))).1 := by
    intro cfg₀ hlast
    obtain ⟨hok, hcfg⟩ := lastCheck_ok hlast
    rw [hcfg]
    rcases reassignDeleted_spec tools clock tie cfg₀ (wantedIDs deleted) with ⟨err, herr⟩ | ⟨-, -, hmoved⟩
    · rw [herr] at hok
      cases hok
    · rw [wantedIDs_idem] at hmoved
      exact hmoved
  unfold reassignSubscriptionRemovedRoutes at h ⊢
  dsimp only at h ⊢
  split_ifs at h ⊢ with hnone hrefused hremoved
  · refine reassigned_refl rfl rfl fun a _ hnode => ?_
    rw [List.length_eq_zero_iff.mp hnone] at hnode
    cases hnode
  · refine Reassigned.of_cleared (fun a ha hnode hauto => hrefused ?_) (hdone _ h)
    rw [Bool.and_eq_true, List.any_eq_true]
    refine ⟨hremoved, a, ha, ?_⟩
    rw [hauto, decide_eq_true hnode]
    rfl
  · exact hdone cfg h

/-- Deleting proxies never strands or exposes an account, and a deletion that is refused
    changes none. -/
theorem deleted_routes_safe (tools : ProxyTools) (clock : Nat → Int64) (tie : Nat → Nat) (cfg : Config F)
    (deleted : List Bytes) :
    (∀ changes, (reassignDeletedProxyRoutes tools clock tie cfg deleted).2 = .ok changes →
      Reassigned tools clock (wantedIDs deleted) cfg (reassignDeletedProxyRoutes tools clock tie cfg deleted).1) ∧
    (∀ changes, (reassignSubscriptionRemovedRoutes tools clock tie cfg deleted).2 = .ok changes →
      Reassigned tools clock (wantedIDs deleted) cfg
        (reassignSubscriptionRemovedRoutes tools clock tie cfg deleted).1) ∧
    ∀ err, (reassignDeletedProxyRoutes tools clock tie cfg deleted).2 = .error err →
      (reassignDeletedProxyRoutes tools clock tie cfg deleted).1.accounts = cfg.accounts := by
  refine ⟨fun changes h => ?_, fun changes h => reassignSubscription_spec tools clock tie cfg deleted h,
    fun err h => ?_⟩
  · rcases reassignDeleted_spec tools clock tie cfg deleted with ⟨err, herr⟩ | ⟨-, -, hmoved⟩
    · rw [herr] at h
      cases h
    · exact hmoved
  · rcases reassignDeleted_spec tools clock tie cfg deleted with ⟨err', herr⟩ | ⟨changes, hok, -⟩
    · rw [herr]
    · rw [hok] at h
      cases h

end

/-- Plain proxies need none of the functions for nodes that are given by a URI. -/
def plainTools : ProxyTools := ⟨fun _ _ => none, id, id, id⟩

def twoNodes : Config Unit :=
  { promptLimit := { sessionChunkingTargetRatio := (), summaryCompactionThreshold := () }
    proxies := [{ id := lit "old", type := lit "socks5" },
      { id := lit "new", type := lit "socks5", lastTestAtUnix := 900, lastTestSuccess := true }]
    proxyPolicy := { automaticRoutingEnabled := some true, fallbackProxyID := lit "new" }
    accounts := [{ email := lit "a@qq.com", proxyID := lit "old", token := lit "t" },
      { email := lit "b@qq.com", proxyID := lit "old", proxyAutoRoute := true, token := lit "t" }] }

/-- Both kinds of accounts move to the node that is left. -/
theorem old_node_deleted :
    Reassigned plainTools (fun _ => 1000) (wantedIDs [lit "old"]) twoNodes
        (reassignDeletedProxyRoutes plainTools (fun _ => 1000) id twoNodes [lit "old"]).1 ∧
      (reassignDeletedProxyRoutes plainTools (fun _ => 1000) id twoNodes [lit "old"]).1.accounts.map
        (fun a => (a.proxyID, a.token)) = [(lit "new", []), (lit "new", [])] :=
  ⟨(deleted_routes_safe plainTools (fun _ => 1000) id twoNodes [lit "old"]).1
    [⟨lit "a@qq.com", lit "old", lit "new", lit "node_deleted_fallback"⟩,
      ⟨lit "b@qq.com", lit "old", lit "new", lit "node_deleted"⟩] (by rfl), by decide +kernel⟩

end DeepSeekWebToApi.Proxyservice
