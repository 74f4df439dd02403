import DeepSeekWebToApi.Lib.RuneText
import DeepSeekWebToApi.Config.Settings

/- Proxies and the policy they are routed by (`internal/config/config.go`,
   `internal/config/proxy_policy.go`).

   `normalizeProxy` works in four stages, and each touches its own fields only. The time a
   function reads is an argument. -/
namespace DeepSeekWebToApi.Config
open GoStrings GoJson

/-! The routing policy. -/

def ProxyPolicyConfig.autoRouteEnabled (p : ProxyPolicyConfig) : Bool := p.automaticRoutingEnabled = some true

def defaultProxyHealthCheckIntervalMinutes : Int64 := 15

def ProxyPolicyConfig.healthIntervalMinutes (p : ProxyPolicyConfig) : Int64 :=
  if 0 < p.healthCheckIntervalMinutes then p.healthCheckIntervalMinutes
  else defaultProxyHealthCheckIntervalMinutes

/-- A minute, in nanoseconds. -/
def minute : Int64 := 60000000000

/-- `ProxyRouteHealthMaxAge`, in nanoseconds. -/
def proxyRouteHealthMaxAge (policy : ProxyPolicyConfig) : Int64 :=
  let maxAge := policy.healthIntervalMinutes * 2 * minute
  if maxAge < 30 * minute then 30 * minute else maxAge

def proxyAvailableForRoutingAt (tools : ProxyTools) (proxy : Proxy) (nowUnix maxAge : Int64) : Bool :=
  let proxy := normalizeProxy tools proxy
  if proxy.disabled || proxy.lastTestAtUnix ≤ 0 || !proxy.lastTestSuccess then false
  else if maxAge ≤ 0 || nowUnix ≤ proxy.lastTestAtUnix then true
  else nowUnix - proxy.lastTestAtUnix ≤ maxAge / 1000000000

/-- `ProxyAvailableForRouting`, with the time it reads. -/
def proxyAvailableForRouting (tools : ProxyTools) (proxy : Proxy) (policy : ProxyPolicyConfig) (nowUnix : Int64) :
    Bool :=
  proxyAvailableForRoutingAt tools proxy nowUnix (proxyRouteHealthMaxAge policy)

/-! The stages of `normalizeProxy`. -/

/-- The fields the stages after the first leave alone. -/
structure Proxy.SameState (p q : Proxy) : Prop where
  subscriptionID : q.subscriptionID = p.subscriptionID
  disabled : q.disabled = p.disabled
  lastTestAtUnix : q.lastTestAtUnix = p.lastTestAtUnix
  lastTestSuccess : q.lastTestSuccess = p.lastTestSuccess

theorem Proxy.SameState.trans {p q r : Proxy} (h : p.SameState q) (h' : q.SameState r) : p.SameState r :=
  ⟨h'.subscriptionID.trans h.subscriptionID, h'.disabled.trans h.disabled,
    h'.lastTestAtUnix.trans h.lastTestAtUnix, h'.lastTestSuccess.trans h.lastTestSuccess⟩

theorem Proxy.resolved_spec (tools : ProxyTools) (p : Proxy) :
    p.SameState (p.resolved tools) ∧ (p.resolved tools).id = p.id := by
  unfold Proxy.resolved
  split
  · split
    · exact ⟨⟨rfl, rfl, rfl, rfl⟩, rfl⟩
    · exact ⟨⟨rfl, rfl, rfl, rfl⟩, rfl⟩
  · exact ⟨⟨rfl, rfl, rfl, rfl⟩, rfl⟩

theorem Proxy.identified_spec (tools : ProxyTools) (p : Proxy) : p.SameState (p.identified tools) ∧
    ((p.identified tools).id = p.id ∧ p.id ≠ [] ∨ (p.identified tools).id = stableProxyID tools p) := by
  unfold Proxy.identified
  split_ifs with h
  · exact ⟨⟨rfl, rfl, rfl, rfl⟩, Or.inr rfl⟩
  · exact ⟨⟨rfl, rfl, rfl, rfl⟩, Or.inl ⟨rfl, h⟩⟩

theorem Proxy.named_spec (p : Proxy) : p.SameState p.named ∧ p.named.id = p.id := by
  unfold Proxy.named
  split_ifs
  · exact ⟨⟨rfl, rfl, rfl, rfl⟩, rfl⟩
  · exact ⟨⟨rfl, rfl, rfl, rfl⟩, rfl⟩

theorem normalizeProxy_state (tools : ProxyTools) (p : Proxy) :
    (p.trimmed tools).SameState (normalizeProxy tools p) :=
  ((Proxy.resolved_spec tools _).1.trans (Proxy.identified_spec tools _).1).trans (Proxy.named_spec _).1

/-- An id is the trimmed one of the proxy or one made from its address. -/
theorem normalizeProxy_id (tools : ProxyTools) (raw : Proxy) :
    ((normalizeProxy tools raw).id = trimSpace raw.id ∧ trimSpace raw.id ≠ []) ∨
      ∃ p, (normalizeProxy tools raw).id = stableProxyID tools p := by
  rw [normalizeProxy, (Proxy.named_spec _).2]
  rcases (Proxy.identified_spec tools ((raw.trimmed tools).resolved tools)).2 with ⟨hid, hne⟩ | hid
  · rw [(Proxy.resolved_spec tools _).2] at hid hne
    exact Or.inl ⟨hid, hne⟩
  · exact Or.inr ⟨_, hid⟩

theorem hexEncode_solid (s : Bytes) : ∀ b ∈ hexEncode s, b.toNat < 0x80 ∧ isSpace b.toNat = false := by
  have hdigit : ∀ n < 16, (hexDigit n).toNat < 0x80 ∧ isSpace (hexDigit n).toNat = false := by decide
  intro b hb
  obtain ⟨c, -, hb⟩ := List.mem_flatMap.mp hb
  have hc := c.toNat_lt
  rcases List.mem_cons.mp hb with rfl | hb
  · exact hdigit _ (by omega)
  · rw [List.mem_singleton.mp hb]
    exact hdigit _ (by omega)

theorem stableProxyID_trimmed (tools : ProxyTools) (p : Proxy) :
    trimSpace (stableProxyID tools p) = stableProxyID tools p := by
  refine trimSpace_of_solid fun b hb => ?_
  rcases List.mem_append.mp hb with hb | hb
  · have hname : ∀ b ∈ lit "proxy_", b.toNat < 0x80 ∧ isSpace b.toNat = false := by decide +kernel
    exact hname b hb
  · exact hexEncode_solid _ b hb

/-- A proxy always has an id, with no white space around it. -/
theorem proxyID_trimmed (tools : ProxyTools) (raw : Proxy) :
    (normalizeProxy tools raw).id ≠ [] ∧ trimSpace (normalizeProxy tools raw).id = (normalizeProxy tools raw).id := by
  rcases normalizeProxy_id tools raw with ⟨hid, hne⟩ | ⟨p, hid⟩
  · rw [hid]
    exact ⟨hne, trimSpace_idem raw.id⟩
  · rw [hid]
    exact ⟨List.append_ne_nil_of_left_ne_nil (by decide) _, stableProxyID_trimmed tools p⟩

theorem proxyAvailable_normalized (tools : ProxyTools) (raw : Proxy) (policy : ProxyPolicyConfig) (now : Int64) :
    proxyAvailableForRouting tools (normalizeProxy tools raw) policy now =
      proxyAvailableForRouting tools raw policy now := by
  have hraw := normalizeProxy_state tools raw
  have hagain := normalizeProxy_state tools (normalizeProxy tools raw)
  unfold proxyAvailableForRouting proxyAvailableForRoutingAt
  simp only [hraw.disabled, hraw.lastTestAtUnix, hraw.lastTestSuccess, hagain.disabled, hagain.lastTestAtUnix,
    hagain.lastTestSuccess, Proxy.trimmed]

end DeepSeekWebToApi.Config
