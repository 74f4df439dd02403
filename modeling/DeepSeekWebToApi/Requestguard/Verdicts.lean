import DeepSeekWebToApi.Requestguard.AutoBan

/- Whether the verdicts of the wrapped handler reach the auto-ban. `evaluate` knows two
   refusals, and neither is one the tracker counts; the verdict is written by the handler,
   behind the place where the middleware counts. So `note` is never called, a request
   leaves the policy as it found it, and every answer of a run is the one the first policy
   gives. -/
namespace DeepSeekWebToApi.Requestguard
open GoStrings GoNet Config

section
variable (db : Db) (src : Sources) (trusted : List IPNet) (h : Handler)

/-- The answers an address got, with their times. -/
def answersTo (log : List (Incoming × Answer)) (ip : Bytes) : List (Int × Bytes) :=
  (log.filter (fun entry => (entry.1.meta trusted).clientIP == ip)).map
    (fun entry => (entry.1.now, entry.2.code))

/-- The latest answers of the address, as many as the threshold asks for, are safety verdicts within
    the window. -/
def VerdictsInWindow (cfg : SafetyAutoBanConfig) (log : List (Incoming × Answer)) (ip : Bytes) : Prop :=
  WithinWindow cfg ((answersTo trusted log ip).map Prod.fst) ∧
    ∀ answer ∈ (answersTo trusted log ip).rtake (threshold cfg), answer.2 = lit "llm_safety_blocked"

instance (cfg : SafetyAutoBanConfig) (log : List (Incoming × Answer)) (ip : Bytes) :
    Decidable (VerdictsInWindow trusted cfg log ip) := inferInstanceAs (Decidable (_ ∧ _))

/-- What the middleware answers under a policy. -/
def respond (p : Policy) (q : Incoming) : Answer :=
  match q.body with
  | .failed => .plain 400 (lit "read request body failed")
  | .tooLarge => .plain 413 (lit "request body too large")
  | .available =>
    let d := p.evaluate (q.meta trusted)
    if d.blocked then .refused p.blockMessage d.code d.detail else h.serveHTTP q

/-- The policy the next request meets. -/
def policyOf (s : State) : Policy := (load db src s).2

variable {db src trusted h}

/-- No refusal of the policy is a violation the tracker counts. -/
theorem evaluate_not_counted (p : Policy) (m : Metadata) :
    shouldCountAutoBan (p.evaluate m).code = false := by
  rw [Policy.evaluate]
  split_ifs <;> decide +kernel

theorem load_safetyIPs (s : State) : (load db src s).1.safetyIPs = s.safetyIPs := by
  simp only [load]
  split_ifs <;> rfl

/-- Loading again finds the policy in the cache. -/
theorem policyOf_load (s : State) : policyOf db src (load db src s).1 = policyOf db src s := by
  have hmerge : mergeSafetySources db src (load db src s).1 = mergeSafetySources db src s := by
    rw [mergeSafetySources, load_safetyIPs]
    rfl
  simp only [policyOf]
  rw [load, hmerge]
  by_cases hsig : safetyConfigSignature (mergeSafetySources db src s) = s.signature
  · simp only [load, if_pos hsig]
  · simp only [load, if_neg hsig, if_pos]

theorem serve_eq (s : State) (q : Incoming) :
    (serve db src trusted h s q).2 = respond trusted h (policyOf db src s) q ∧
      policyOf db src (serve db src trusted h s q).1 = policyOf db src s := by
  simp only [serve, respond, policyOf]
  cases q.body with
  | failed => exact ⟨rfl, rfl⟩
  | tooLarge => exact ⟨rfl, rfl⟩
  | available =>
    simp only [evaluate_not_counted, Bool.false_eq_true, if_false]
    by_cases hb : ((load db src s).2.evaluate (q.meta trusted)).blocked = true
    · simp only [if_pos hb]
      exact ⟨(if_pos hb).symm, policyOf_load s⟩
    · simp only [if_neg hb]
      exact ⟨(if_neg hb).symm, policyOf_load s⟩

/-- A run leaves the policy alone and answers every request under it. -/
theorem serveAll_eq : ∀ (qs : List Incoming) (s : State),
    (serveAll db src trusted h s qs).2 =
        qs.map (fun q => (q, respond trusted h (policyOf db src s) q)) ∧
      policyOf db src (serveAll db src trusted h s qs).1 = policyOf db src s
  | [], _ => ⟨rfl, rfl⟩
  | q :: qs, s => by
    obtain ⟨hanswer, hpolicy⟩ := @serve_eq db src trusted h s q
    obtain ⟨hrest, hfinal⟩ := serveAll_eq qs (serve db src trusted h s q).1
    simp only [serveAll, List.map_cons]
    rw [hrest, hanswer, hfinal, hpolicy]
    exact ⟨rfl, rfl⟩

theorem evaluate_ipBlocked {p : Policy} {m : Metadata} (hen : p.enabled = true)
    (hip : p.ipBlocked m.clientIP = true) :
    p.evaluate m = ⟨true, lit "ip_blocked", lit "request ip is blocked"⟩ := by
  simp [Policy.evaluate, hen, hip]

/-- The policy refuses with this code for an address it blocks only. -/
theorem evaluate_code {p : Policy} {m : Metadata} (hcode : (p.evaluate m).code = lit "ip_blocked") :
    p.enabled = true ∧ p.ipBlocked m.clientIP = true := by
  rw [Policy.evaluate] at hcode
  split_ifs at hcode with hen hip
  · exact absurd hcode (by decide)
  · exact ⟨by simpa using hen, hip⟩
  · exact absurd hcode (by decide)
  · exact absurd hcode (by decide)

theorem respond_ipBlocked {p : Policy} {q : Incoming} {detail reason : Bytes}
    (hr : respond trusted h p q = .refused detail (lit "ip_blocked") reason) :
    p.enabled = true ∧ p.ipBlocked (q.meta trusted).clientIP = true := by
  rw [respond] at hr
  split at hr
  · cases hr
  · cases hr
  · dsimp only at hr
    split_ifs at hr
    · exact evaluate_code (Answer.refused.inj hr).2.1
    · cases hr

/-- A request that got a safety verdict came from an address the policy does not block. -/
theorem respond_verdict {p : Policy} {q : Incoming}
    (hr : (respond trusted h p q).code = lit "llm_safety_blocked") :
    ¬ (p.enabled = true ∧ p.ipBlocked (q.meta trusted).clientIP = true) := by
  rintro ⟨hen, hip⟩
  have hcodes : lit "ip_blocked" ≠ lit "llm_safety_blocked" := by decide
  rw [respond] at hr
  split at hr
  · exact absurd hr (by decide)
  · exact absurd hr (by decide)
  · simp only [evaluate_ipBlocked hen hip, if_true] at hr
    exact hcodes hr

/-- However many safety verdicts an address got within the window, the middleware does not answer
    its next request with `ip_blocked`. -/
theorem verdicts_never_ban {cfg : SafetyAutoBanConfig} (s : State) (qs : List Incoming)
    (next : Incoming) (hverdicts : VerdictsInWindow trusted cfg (serveAll db src trusted h s qs).2
      (next.meta trusted).clientIP) (detail reason : Bytes) :
    (serve db src trusted h (serveAll db src trusted h s qs).1 next).2 ≠
      .refused detail (lit "ip_blocked") reason := by
  obtain ⟨hlog, hpolicy⟩ := @serveAll_eq db src trusted h qs s
  rw [(serve_eq _ next).1, hpolicy]
  intro hnext
  -- the threshold is positive, so there is a latest verdict
  obtain ⟨⟨hlen, _⟩, hcodes⟩ := hverdicts
  rw [List.length_map] at hlen
  have hne : (answersTo trusted (serveAll db src trusted h s qs).2
      (next.meta trusted).clientIP).rtake (threshold cfg) ≠ [] := by
    intro hnil
    have hzero := congrArg List.length hnil
    have hpos := threshold_pos cfg
    rw [List.rtake, List.length_drop, List.length_nil] at hzero
    omega
  obtain ⟨answer, hanswer⟩ := List.exists_mem_of_ne_nil _ hne
  have hmem := List.mem_of_mem_drop hanswer
  rw [answersTo, hlog] at hmem
  obtain ⟨entry, hentry, rfl⟩ := List.mem_map.mp hmem
  obtain ⟨hentry, hip⟩ := List.mem_filter.mp hentry
  obtain ⟨q, _, rfl⟩ := List.mem_map.mp hentry
  refine respond_verdict (hcodes _ hanswer) ?_
  rw [beq_iff_eq.mp hip]
  exact respond_ipBlocked hnext

end

/-! A caller that is refused by the safety check four times in a row. -/

def sampleSources : Sources := { store := some { enabled := some true } }

def sampleHandler : Handler := ⟨some (true, fun _ => true), [], fun _ => ([], [])⟩

def refusedAt (seconds : Int) : Incoming :=
  ⟨⟨lit "198.51.100.7:40000", []⟩, .available, [], seconds * 1000000000⟩

theorem verdicts_never_ban_example : (serve ⟨true, true⟩ sampleSources [] sampleHandler
    (serveAll ⟨true, true⟩ sampleSources [] sampleHandler { safetyIPs := some {} }
      [refusedAt 0, refusedAt 1, refusedAt 2]).1 (refusedAt 3)).2 ≠
    .refused defaultBlockMessage (lit "ip_blocked") (lit "request ip is blocked") :=
  @verdicts_never_ban _ _ _ _ {} _ _ _ (by decide +kernel) _ _

/-- The fourth request after three verdicts reaches the handler. -/
theorem fourth_request_reaches_handler :
    let run := serveAll ⟨true, true⟩ sampleSources [] sampleHandler { safetyIPs := some {} }
      [refusedAt 0, refusedAt 1, refusedAt 2]
    VerdictsInWindow [] {} run.2 (lit "198.51.100.7") ∧
      (serve ⟨true, true⟩ sampleSources [] sampleHandler run.1 (refusedAt 3)).2.reachedHandler =
        true := by
  decide +kernel

end DeepSeekWebToApi.Requestguard
