import DeepSeekWebToApi.Safetyllm.HardSignals
import Mathlib.Logic.Function.Basic

/- Which call a verdict of the cache comes from.

   The cache is keyed by the text alone. `maybePurgeCacheOnSemanticsChange` empties it when a
   call sees another triple (Enabled, Model, FailOpen) than the call before, and a call that
   has read its configuration earlier goes on as if nothing had happened. `Traced` runs the
   checker and notes for every key the call that stored its entry last (`origin`), for every
   hit the call whose verdict it found (`found`), and for every answer from the cache both
   sides (`served`).

   The notes are right in every run (`Sound`). Asking and storing call agree as long as calls
   use the cache only under the triple that was noted last, with no purge outstanding
   (`InForce`, `InStep`). -/
namespace DeepSeekWebToApi.Safetyllm
open GoStrings

/-- The call that stored a verdict: what it was asked under, and the verdict it computed. -/
structure Writer where
  semantics : AuditSemantics
  verdict : Verdict
  deriving DecidableEq

deriving instance DecidableEq for Answer

/-- An answer from the cache and the call its verdict comes from. -/
structure Served where
  answer : Answer
  writer : Option Writer
  deriving DecidableEq

structure Traced where
  checker : LLMChecker
  origin : Bytes → Option Writer := fun _ => none
  found : Nat → Option Writer := fun _ => none
  served : List Served := []

/-- The text and the verdict a call in this phase is about to store. -/
def Phase.stores : Phase → Option (Bytes × Verdict)
  | .flagged trimmed => some (trimmed, { violation := true })
  | .parsed trimmed v => some (trimmed, v)
  | _ => none

/-- The notes taken when the call makes its next step. -/
def Traced.note (t : Traced) (tid : Nat) (job : Job) : Traced :=
  match job.phase with
  | .looking trimmed =>
    { t with found := Function.update t.found tid (t.origin (t.checker.hashInput trimmed)) }
  | .hit v =>
    { t with served := t.served ++ [⟨⟨job.cfg, job.text, { v with cached := true }⟩, t.found tid⟩] }
  | phase =>
    match phase.stores with
    | some (trimmed, v) =>
      { t with origin := Function.update t.origin (t.checker.hashInput trimmed)
                 (some ⟨semanticsFor job.cfg, v⟩) }
    | none => t

def Traced.noteAction (t : Traced) : Action → Traced
  | .next tid _ => (t.checker.jobs tid).elim t (t.note tid)
  | _ => t

def Traced.step (t : Traced) (a : Action) : Option Traced :=
  (t.checker.step a).map fun c => { t.noteAction a with checker := c }

def traced (hashInput : Bytes → Bytes) (source : Config) (hasDoer : Bool) : Traced :=
  { checker := newLLMCheckerWithSource hashInput source hasDoer }

/-- Every answer from the cache repeats the verdict of a call under the same triple. -/
structure Traced.Matching (t : Traced) : Prop where
  /-- The answers with `Cached` set are those that have been noted. -/
  answers : t.checker.answers.filter (·.verdict.cached) = t.served.map (·.answer)
  writers : ∀ r ∈ t.served, ∃ w, r.writer = some w ∧
    r.answer.verdict = { w.verdict with cached := true } ∧ w.semantics = semanticsFor r.answer.cfg

/-! What a step of a call does to the cache and to `lastSemantics`. -/

/-- A verdict the phase carries on its way out is not marked as cached. -/
def Phase.Uncached : Phase → Prop
  | .parsed _ v => v.cached = false
  | .stored v => v.cached = false
  | .leaving v => v.cached = false
  | .releasing v => v.cached = false
  | _ => True

/-- The phases that involve neither the cache nor the noted triple. -/
def Phase.quiet : Phase → Bool
  | .configured => false
  | .purging => false
  | .flagged _ => false
  | .looking _ => false
  | .hit _ => false
  | .parsed _ _ => false
  | _ => true

/-- The call goes on past the cache, or returns a verdict of its own. -/
def Outcome.Own : Outcome → Prop
  | .go phase => phase.Uncached ∧ phase ≠ .purging ∧ ∀ v, phase ≠ .hit v
  | .returned v => v.cached = false

structure LLMChecker.SameCache (c d : LLMChecker) : Prop where
  cache : d.cache = c.cache
  lastSemantics : d.lastSemantics = c.lastSemantics

theorem LLMChecker.failOpenVerdict_own (c : LLMChecker) (cfg : Config) (latencyMs : Int) :
    c.SameCache (c.failOpenVerdict cfg latencyMs).1 ∧
      (c.failOpenVerdict cfg latencyMs).2.cached = false := by
  unfold LLMChecker.failOpenVerdict
  split
  · exact ⟨⟨rfl, rfl⟩, rfl⟩
  · exact ⟨⟨rfl, rfl⟩, rfl⟩

theorem Outcome.own_go {phase : Phase} (h : phase.quiet = true) (hu : phase.Uncached) :
    (Outcome.go phase).Own := by
  refine ⟨hu, ?_, ?_⟩
  · rintro rfl
    cases h
  · rintro v rfl
    cases h

theorem LLMChecker.advance_quiet {c d : LLMChecker} {cfg : Config} {text : Bytes} {env : Env} {phase : Phase}
    {o : Outcome} (hquiet : phase.quiet = true) (h : c.advance cfg text env phase = some (d, o)) :
    c.SameCache d ∧ (phase.Uncached → o.Own) := by
  cases phase with
  | configured => cases hquiet
  | purging => cases hquiet
  | flagged trimmed => cases hquiet
  | looking trimmed => cases hquiet
  | hit v => cases hquiet
  | parsed trimmed v => cases hquiet
  | admitted =>
    simp only [LLMChecker.advance] at h
    split_ifs at h
    · cases h
      exact ⟨⟨rfl, rfl⟩, fun _ => rfl⟩
    · cases h
      exact ⟨⟨rfl, rfl⟩, fun _ => Outcome.own_go rfl trivial⟩
  | counted =>
    obtain ⟨trimmed, -, h⟩ := Option.bind_eq_some_iff.mp h
    split_ifs at h
    · cases h
      exact ⟨⟨rfl, rfl⟩, fun _ => rfl⟩
    · cases h
      exact ⟨⟨rfl, rfl⟩, fun _ => ⟨trivial, Phase.noConfusion, fun _ => Phase.noConfusion⟩⟩
    · cases h
      exact ⟨⟨rfl, rfl⟩, fun _ => ⟨trivial, Phase.noConfusion, fun _ => Phase.noConfusion⟩⟩
  | waiting trimmed =>
    simp only [LLMChecker.advance] at h
    split_ifs at h
    · cases h
      exact ⟨⟨rfl, rfl⟩, fun _ => Outcome.own_go rfl trivial⟩
    · cases h
      exact ⟨⟨rfl, rfl⟩, fun _ => Outcome.own_go rfl trivial⟩
  | refused =>
    cases h
    exact (c.failOpenVerdict_own cfg 0).imp_right fun h _ => h
  | acquired trimmed =>
    cases h
    exact ⟨⟨rfl, rfl⟩, fun _ => Outcome.own_go rfl trivial⟩
  | running trimmed =>
    simp only [LLMChecker.advance] at h
    split at h
    · cases h
      exact ⟨⟨rfl, rfl⟩, fun _ => Outcome.own_go rfl trivial⟩
    · cases h
      exact ⟨⟨rfl, rfl⟩, fun _ => Outcome.own_go rfl trivial⟩
    · split at h
      · cases h
        exact ⟨⟨rfl, rfl⟩, fun _ => Outcome.own_go rfl trivial⟩
      · cases h
        exact ⟨⟨rfl, rfl⟩, fun _ => ⟨rfl, Phase.noConfusion, fun _ => Phase.noConfusion⟩⟩
  | failed latencyMs =>
    cases h
    exact ⟨(c.failOpenVerdict_own cfg latencyMs).1,
      fun _ => Outcome.own_go rfl (c.failOpenVerdict_own cfg latencyMs).2⟩
  | stored v =>
    cases h
    exact ⟨⟨rfl, rfl⟩, fun hu => Outcome.own_go rfl hu⟩
  | leaving v =>
    cases h
    exact ⟨⟨rfl, rfl⟩, fun hu => Outcome.own_go rfl hu⟩
  | releasing v =>
    cases h
    exact ⟨⟨rfl, rfl⟩, id⟩

/-- The entries a store leaves: the new one, and those of other keys. -/
theorem LruCache.mem_set {c : LruCache} {key : Bytes} {v : Verdict} {expiresAt : Int} {e : CacheEntry}
    (h : e ∈ (c.set key v expiresAt).order) :
    e = ⟨key, v, expiresAt⟩ ∨ (e ∈ c.order ∧ e.key ≠ key) := by
  unfold LruCache.set at h
  dsimp only at h
  split at h
  · rcases List.mem_cons.mp h with rfl | h
    · exact Or.inl rfl
    · obtain ⟨hmem, hkey⟩ := List.mem_filter.mp h
      exact Or.inr ⟨hmem, of_decide_eq_true hkey⟩
  · next hnone =>
    rcases List.mem_cons.mp (List.mem_of_mem_take h) with rfl | hmem
    · exact Or.inl rfl
    · refine Or.inr ⟨hmem, fun hkey => hnone ?_⟩
      exact List.any_eq_true.mpr ⟨e, hmem, decide_eq_true hkey⟩

/-- A look keeps entries only, and what it finds is the verdict of one. -/
theorem LruCache.mem_get (c : LruCache) (key : Bytes) (now : Int) :
    (∀ e ∈ (c.get key now).1.order, e ∈ c.order) ∧
      ∀ v, (c.get key now).2 = some v → ∃ e ∈ c.order, e.key = key ∧ e.verdict = v := by
  unfold LruCache.get
  split
  · exact ⟨fun e he => he, fun v hv => nomatch hv⟩
  · next entry hfind =>
    have hmem := List.mem_of_find?_eq_some hfind
    have hkey : entry.key = key := by simpa using List.find?_some hfind
    split
    · exact ⟨fun e he => (List.mem_filter.mp he).1, fun v hv => nomatch hv⟩
    · refine ⟨fun e he => ?_, fun v hv => ⟨entry, hmem, hkey, Option.some.inj hv⟩⟩
      rcases List.mem_cons.mp he with rfl | he
      · exact hmem
      · exact (List.mem_filter.mp he).1

/-! A step of the machine. -/

def Outcome.answers (job : Job) : Outcome → List Answer
  | .go _ => []
  | .returned v => [⟨job.cfg, job.text, v⟩]

/-- What the step of the call `tid` from `c` has made of the checker, apart from what
    `advance` did to the rest of it. -/
structure LLMChecker.Moved (c : LLMChecker) (tid : Nat) (job : Job) (o : Outcome) (c' : LLMChecker) : Prop where
  here : c.jobs tid = some job
  jobs : ∀ s, c'.jobs s = if s = tid then job.after o else c.jobs s
  answers : c'.answers = c.answers ++ o.answers job

theorem LLMChecker.step_moves {c c' : LLMChecker} {tid : Nat} {env : Env}
    (h : c.step (.next tid env) = some c') : ∃ job d o,
      c.advance job.cfg job.text env job.phase = some (d, o) ∧ d.SameCache c' ∧ c.Moved tid job o c' := by
  obtain ⟨job, d, o, hjob, hadvance, hkeeps, hc'⟩ := LLMChecker.step_next h
  refine ⟨job, d, o, hadvance, ?_⟩
  cases o with
  | go phase =>
    simp only at hc'
    subst hc'
    refine ⟨⟨rfl, rfl⟩, hjob, fun s => ?_, ?_⟩
    · simp only [LLMChecker.setJob, Job.after, hkeeps.jobs]
    · simp only [LLMChecker.setJob, Outcome.answers, hkeeps.answers, List.append_nil]
  | returned v =>
    simp only at hc'
    subst hc'
    refine ⟨⟨rfl, rfl⟩, hjob, fun s => ?_, ?_⟩
    · simp only [LLMChecker.setJob, Job.after, hkeeps.jobs]
    · simp only [Outcome.answers, hkeeps.answers]

/-- No call has noted another triple and not purged the cache yet. -/
def LLMChecker.Settled (c : LLMChecker) : Prop :=
  ∀ tid job, c.jobs tid = some job → job.phase ≠ .purging

theorem LLMChecker.Moved.settled {c c' : LLMChecker} {tid : Nat} {job : Job} {o : Outcome}
    (h : c.Moved tid job o c') (hphase : job.phase ≠ .purging) (hsettled : c'.Settled) : c.Settled := by
  intro s j hj
  by_cases hs : s = tid
  · rw [hs, h.here] at hj
    cases hj
    exact hphase
  · exact hsettled s j (by rw [h.jobs, if_neg hs]; exact hj)

/-! The invariant. -/

/-- The notes are right: each entry, hit and answer of the cache carries the verdict of the
    call that is noted for it. Where `agree` is asked for, the triples fit as well. -/
structure Traced.Sound (agree : Prop) (t : Traced) : Prop where
  entries : ∀ e ∈ t.checker.cache.order, ∃ w, t.origin e.key = some w ∧ w.verdict = e.verdict ∧
    (agree → t.checker.Settled → w.semantics = t.checker.lastSemantics)
  hits : ∀ tid job v, t.checker.jobs tid = some job → job.phase = .hit v →
    ∃ w, t.found tid = some w ∧ w.verdict = v ∧ (agree → w.semantics = semanticsFor job.cfg)
  uncached : ∀ tid job, t.checker.jobs tid = some job → job.phase.Uncached
  answers : t.checker.answers.filter (·.verdict.cached) = t.served.map (·.answer)
  writers : ∀ r ∈ t.served, ∃ w, r.writer = some w ∧
    r.answer.verdict = { w.verdict with cached := true } ∧ (agree → w.semantics = semanticsFor r.answer.cfg)

/-- A phase whose step looks into the cache or stores in it. -/
def Phase.usesCache : Phase → Bool
  | .flagged _ => true
  | .looking _ => true
  | .parsed _ _ => true
  | _ => false

/-- A call uses the cache only while its own triple is the one noted last and no purge is
    outstanding. -/
def InForce (t : Traced) : Action → Prop
  | .next tid _ => ∀ job, t.checker.jobs tid = some job → job.phase.usesCache = true →
      t.checker.lastSemantics = semanticsFor job.cfg ∧ t.checker.Settled
  | _ => True

section Step
variable {agree : Prop} {t t' : Traced} {tid : Nat} {job : Job} {o : Outcome}

/-- A step that hands out nothing of the cache: what it leaves in the cache and where the call
    goes is all there is to check. -/
theorem Traced.Sound.moved (h : t.Sound agree) (hmoved : t.checker.Moved tid job o t'.checker)
    (hfound : ∀ s, s ≠ tid → t'.found s = t.found s) (hserved : t'.served = t.served)
    (hentries : ∀ e ∈ t'.checker.cache.order, ∃ w, t'.origin e.key = some w ∧ w.verdict = e.verdict ∧
      (agree → t'.checker.Settled → w.semantics = t'.checker.lastSemantics))
    (hnext : ∀ phase, o = .go phase → phase.Uncached ∧ ∀ v, phase = .hit v →
      ∃ w, t'.found tid = some w ∧ w.verdict = v ∧ (agree → w.semantics = semanticsFor job.cfg))
    (hreturned : ∀ v, o = .returned v → v.cached = false) : t'.Sound agree := by
  have hjobs : ∀ s j, t'.checker.jobs s = some j →
      (s = tid ∧ ∃ phase, o = .go phase ∧ j = { job with phase := phase, steps := job.steps + 1 }) ∨
        (s ≠ tid ∧ t.checker.jobs s = some j) := by
    intro s j hj
    rw [hmoved.jobs] at hj
    split at hj
    · next hs =>
      cases o with
      | go phase => exact Or.inl ⟨hs, phase, rfl, (Option.some.inj hj).symm⟩
      | returned v => cases hj
    · next hs => exact Or.inr ⟨hs, hj⟩
  refine ⟨hentries, fun s j v hj hhit => ?_, fun s j hj => ?_, ?_, hserved ▸ h.writers⟩
  · rcases hjobs s j hj with ⟨rfl, phase, ho, rfl⟩ | ⟨hs, hold⟩
    · exact (hnext phase ho).2 v hhit
    · rw [hfound s hs]
      exact h.hits s j v hold hhit
  · rcases hjobs s j hj with ⟨-, phase, ho, rfl⟩ | ⟨-, hold⟩
    · exact (hnext phase ho).1
    · exact h.uncached s j hold
  · rw [hmoved.answers, List.filter_append, h.answers, hserved]
    cases o with
    | go phase => exact List.append_nil _
    | returned v =>
      rw [Outcome.answers, List.filter_cons_of_neg (by rw [hreturned v rfl]; exact Bool.false_ne_true)]
      exact List.append_nil _

/-- The entries of an unchanged cache, under the triple noted before. -/
theorem Traced.Sound.entries_same (h : t.Sound agree) (t' : Traced) (hmoved : t.checker.Moved tid job o t'.checker)
    (hphase : job.phase ≠ .purging) (hsame : t.checker.SameCache t'.checker) (horigin : t'.origin = t.origin) :
    ∀ e ∈ t'.checker.cache.order, ∃ w, t'.origin e.key = some w ∧ w.verdict = e.verdict ∧
      (agree → t'.checker.Settled → w.semantics = t'.checker.lastSemantics) := by
  intro e he
  rw [hsame.cache] at he
  obtain ⟨w, hw, hv, hagree⟩ := h.entries e he
  refine ⟨w, horigin ▸ hw, hv, fun ha hsettled => ?_⟩
  rw [hsame.lastSemantics]
  exact hagree ha (hmoved.settled hphase hsettled)

variable {c' : LLMChecker} {env : Env}

theorem Traced.note_quiet {phase : Phase} (hphase : job.phase = phase) (hquiet : phase.quiet = true) :
    t.note tid job = t := by
  unfold Traced.note
  rw [hphase]
  cases phase <;> first | rfl | cases hquiet

/-- The step of a call that stores its verdict. -/
theorem Traced.Sound.stores (h : t.Sound agree) (hforce : agree → InForce t (.next tid env))
    (hmoved : t.checker.Moved tid job o c') {trimmed : Bytes} {v : Verdict}
    (hstores : job.phase.stores = some (trimmed, v)) {expiresAt : Int}
    (hcache : c'.cache = t.checker.cache.set (t.checker.hashInput trimmed) v expiresAt)
    (hlast : c'.lastSemantics = t.checker.lastSemantics) (hown : o.Own) :
    Traced.Sound agree { t.note tid job with checker := c' } := by
  have huses : job.phase.usesCache = true := by
    cases hp : job.phase <;> rw [hp] at hstores <;> first | rfl | cases hstores
  have hnote : t.note tid job =
      { t with
        origin := Function.update t.origin (t.checker.hashInput trimmed) (some ⟨semanticsFor job.cfg, v⟩) } := by
    unfold Traced.note
    cases hp : job.phase <;> rw [hp] at hstores <;> cases hstores <;> rfl
  rw [hnote]
  refine h.moved hmoved (fun _ _ => rfl) rfl (fun e he => ?_) (fun phase ho => ?_) (fun w ho => ?_)
  · simp only [hcache] at he
    rcases LruCache.mem_set he with rfl | ⟨hold, hkey⟩
    · refine ⟨_, Function.update_self _ _ _, rfl, fun ha _ => ?_⟩
      exact ((hforce ha job hmoved.here huses).1.symm).trans hlast.symm
    · obtain ⟨w, hw, hv, hagree⟩ := h.entries e hold
      refine ⟨w, (Function.update_of_ne hkey _ _).trans hw, hv, fun ha _ => ?_⟩
      exact (hagree ha (hforce ha job hmoved.here huses).2).trans hlast.symm
  · subst ho
    exact ⟨hown.1, fun v hv => absurd hv (hown.2.2 v)⟩
  · subst ho
    exact hown

/-- The step of a call that looks into the cache. -/
theorem Traced.Sound.looks (h : t.Sound agree) (hforce : agree → InForce t (.next tid env))
    (hmoved : t.checker.Moved tid job o c') {trimmed : Bytes} (hphase : job.phase = .looking trimmed)
    (now : Int) (hcache : c'.cache = (t.checker.cache.get (t.checker.hashInput trimmed) now).1)
    (hlast : c'.lastSemantics = t.checker.lastSemantics)
    (ho : o = .go (((t.checker.cache.get (t.checker.hashInput trimmed) now).2).elim (.waiting trimmed) .hit)) :
    Traced.Sound agree { t.note tid job with checker := c' } := by
  have hnote : t.note tid job =
      { t with found := Function.update t.found tid (t.origin (t.checker.hashInput trimmed)) } := by
    unfold Traced.note
    rw [hphase]
  have huses : job.phase.usesCache = true := by rw [hphase]; rfl
  obtain ⟨hkept, hfound⟩ := t.checker.cache.mem_get (t.checker.hashInput trimmed) now
  rw [hnote]
  refine h.moved hmoved (fun s hs => Function.update_of_ne hs _ _) rfl (fun e he => ?_) (fun phase hgo => ?_)
    (fun w hret => by rw [ho] at hret; cases hret)
  · simp only [hcache] at he
    obtain ⟨w, hw, hv, hagree⟩ := h.entries e (hkept e he)
    refine ⟨w, hw, hv, fun ha hsettled => ?_⟩
    refine (hagree ha (hmoved.settled ?_ hsettled)).trans hlast.symm
    rw [hphase]
    exact Phase.noConfusion
  · rw [ho] at hgo
    cases hgo
    cases hget : (t.checker.cache.get (t.checker.hashInput trimmed) now).2 with
    | none => exact ⟨trivial, fun v hv => nomatch hv⟩
    | some found =>
      refine ⟨trivial, fun v hv => ?_⟩
      cases hv
      obtain ⟨e, he, hkey, hverdict⟩ := hfound found hget
      obtain ⟨w, hw, hv, hagree⟩ := h.entries e he
      refine ⟨w, (Function.update_self _ _ _).trans (hkey ▸ hw), hv.trans hverdict, fun ha => ?_⟩
      obtain ⟨hsem, hsettled⟩ := hforce ha job hmoved.here huses
      exact (hagree ha hsettled).trans hsem

/-- The step of a call that returns what it has found. -/
theorem Traced.Sound.serves (h : t.Sound agree) {v : Verdict}
    (hmoved : t.checker.Moved tid job (.returned { v with cached := true }) c') (hphase : job.phase = .hit v)
    (hsame : t.checker.SameCache c') : Traced.Sound agree { t.note tid job with checker := c' } := by
  have hnote : t.note tid job = { t with served := t.served ++
      [⟨⟨job.cfg, job.text, { v with cached := true }⟩, t.found tid⟩] } := by
    unfold Traced.note
    rw [hphase]
  have hjobs : ∀ s j, c'.jobs s = some j → t.checker.jobs s = some j := by
    intro s j hj
    rw [hmoved.jobs] at hj
    split at hj
    · cases hj
    · exact hj
  rw [hnote]
  refine ⟨h.entries_same { t with checker := c' } hmoved ?_ hsame rfl,
    fun s j w hj hhit => h.hits s j w (hjobs s j hj) hhit, fun s j hj => h.uncached s j (hjobs s j hj), ?_,
    fun r hr => ?_⟩
  · rw [hphase]
    exact Phase.noConfusion
  · simp only [hmoved.answers, List.filter_append, h.answers, List.map_append]
    rfl
  · rcases List.mem_append.mp hr with hr | hr
    · exact h.writers r hr
    · cases List.mem_singleton.mp hr
      obtain ⟨w, hw, hverdict, hagree⟩ := h.hits tid job v hmoved.here hphase
      exact ⟨w, hw, by rw [hverdict], hagree⟩

/-- The step of a call that notes its triple: where that is another one, a purge is outstanding. -/
theorem Traced.Sound.notes (h : t.Sound agree) (hmoved : t.checker.Moved tid job o c')
    (hphase : job.phase = .configured) (hcache : c'.cache = t.checker.cache)
    (hlast : c'.lastSemantics = semanticsFor job.cfg)
    (ho : o = .go (if t.checker.lastSemantics ≠ semanticsFor job.cfg then .purging else .admitted)) :
    Traced.Sound agree { t.note tid job with checker := c' } := by
  have hnote : t.note tid job = t := by
    unfold Traced.note
    rw [hphase]
    rfl
  rw [hnote]
  refine h.moved hmoved (fun _ _ => rfl) rfl (fun e he => ?_) (fun phase hgo => ?_)
    (fun w hret => by rw [ho] at hret; cases hret)
  · simp only [hcache] at he
    obtain ⟨w, hw, hv, hagree⟩ := h.entries e he
    refine ⟨w, hw, hv, fun ha hsettled => ?_⟩
    by_cases hchanged : t.checker.lastSemantics = semanticsFor job.cfg
    · refine (hagree ha (hmoved.settled ?_ hsettled)).trans (hchanged.trans hlast.symm)
      rw [hphase]
      exact Phase.noConfusion
    · -- the call itself is on its way to the purge
      refine absurd rfl (hsettled tid { job with phase := .purging, steps := job.steps + 1 } ?_)
      simp only [hmoved.jobs, if_true, ho, if_pos hchanged, ne_eq, Job.after]
  · rw [ho] at hgo
    split at hgo
    · cases hgo
      exact ⟨trivial, fun v hv => nomatch hv⟩
    · cases hgo
      exact ⟨trivial, fun v hv => nomatch hv⟩

theorem Traced.Sound.next (h : t.Sound agree) (hforce : agree → InForce t (.next tid env))
    (hstep : t.checker.step (.next tid env) = some c') :
    Traced.Sound agree { t.noteAction (.next tid env) with checker := c' } := by
  obtain ⟨job, d, o, hadvance, hsame, hmoved⟩ := LLMChecker.step_moves hstep
  rw [show t.noteAction (.next tid env) = t.note tid job by rw [Traced.noteAction, hmoved.here]; rfl]
  have hu := h.uncached tid job hmoved.here
  cases hphase : job.phase with
  | configured =>
    rw [hphase] at hadvance
    cases hadvance
    exact h.notes hmoved hphase hsame.cache hsame.lastSemantics rfl
  | purging =>
    rw [hphase] at hadvance
    cases hadvance
    have hnote : t.note tid job = t := by
      unfold Traced.note
      rw [hphase]
      rfl
    rw [hnote]
    refine h.moved hmoved (fun _ _ => rfl) rfl (fun e he => ?_) (fun phase hgo => ?_) (fun w hret => ?_)
    · simp only [hsame.cache, LruCache.purge] at he
      cases he
    · cases hgo
      refine ⟨trivial, fun v hv => ?_⟩
      cases hv
    · cases hret
  | flagged trimmed =>
    rw [hphase] at hadvance
    cases hadvance
    exact h.stores hforce hmoved (by rw [hphase]; rfl) hsame.cache hsame.lastSemantics rfl
  | looking trimmed =>
    rw [hphase] at hadvance
    simp only [LLMChecker.advance] at hadvance
    split at hadvance
    · next cache v hget =>
      cases hadvance
      exact h.looks hforce hmoved hphase env.now (by rw [hget]; exact hsame.cache)
        hsame.lastSemantics (by rw [hget]; rfl)
    · next cache hget =>
      cases hadvance
      exact h.looks hforce hmoved hphase env.now (by rw [hget]; exact hsame.cache)
        hsame.lastSemantics (by rw [hget]; rfl)
  | hit v =>
    rw [hphase] at hadvance
    cases hadvance
    exact h.serves hmoved hphase ⟨hsame.cache, hsame.lastSemantics⟩
  | parsed trimmed v =>
    rw [hphase] at hadvance hu
    cases hadvance
    exact h.stores hforce hmoved (by rw [hphase]; rfl) hsame.cache hsame.lastSemantics
      ⟨hu, Phase.noConfusion, fun _ => Phase.noConfusion⟩
  | _ =>
    have hquiet : job.phase.quiet = true := by rw [hphase]; rfl
    obtain ⟨hkept, hown⟩ := LLMChecker.advance_quiet hquiet hadvance
    replace hown := hown hu
    rw [Traced.note_quiet rfl hquiet]
    refine h.moved hmoved (fun _ _ => rfl) rfl (h.entries_same { t with checker := c' } hmoved ?_
      ⟨hsame.cache.trans hkept.cache, hsame.lastSemantics.trans hkept.lastSemantics⟩ rfl)
      (fun phase hgo => ?_) (fun w hret => ?_)
    · rw [hphase]
      exact Phase.noConfusion
    · subst hgo
      exact ⟨hown.1, fun v hv => absurd hv (hown.2.2 v)⟩
    · subst hret
      exact hown

theorem Traced.Sound.step (h : t.Sound agree) {a : Action} (hforce : agree → InForce t a)
    (hstep : t.step a = some t') : t'.Sound agree := by
  obtain ⟨c', hc', rfl⟩ := Option.map_eq_some_iff.mp hstep
  cases a with
  | configure source =>
    cases hc'
    exact ⟨h.entries, h.hits, h.uncached, h.answers, h.writers⟩
  | call tid text =>
    simp only [LLMChecker.step] at hc'
    split at hc'
    · cases hc'
    · next hfree =>
      cases hc'
      have hjobs : ∀ s j, (t.checker.setJob tid (some { cfg := t.checker.source, text := text })).jobs s = some j →
          j.phase = .configured ∨ t.checker.jobs s = some j := by
        intro s j hj
        rcases LLMChecker.setJob_jobs hj with ⟨-, hnew⟩ | ⟨-, hold⟩
        · cases hnew
          exact Or.inl rfl
        · exact Or.inr hold
      refine ⟨fun e he => ?_, fun s j v hj hhit => ?_, fun s j hj => ?_, h.answers, h.writers⟩
      · obtain ⟨w, hw, hv, hagree⟩ := h.entries e he
        refine ⟨w, hw, hv, fun ha hsettled => hagree ha fun s j hj => hsettled s j ?_⟩
        have hs : s ≠ tid := by
          rintro rfl
          rw [hj] at hfree
          exact hfree rfl
        simp only [LLMChecker.setJob, if_neg hs]
        exact hj
      · rcases hjobs s j hj with hnew | hold
        · rw [hnew] at hhit
          cases hhit
        · exact h.hits s j v hold hhit
      · rcases hjobs s j hj with hnew | hold
        · rw [hnew]
          trivial
        · exact h.uncached s j hold
  | next tid env => exact h.next hforce hc'

end Step

theorem sound_traced (agree : Prop) (hashInput : Bytes → Bytes) (source : Config) (hasDoer : Bool) :
    (traced hashInput source hasDoer).Sound agree := by
  refine ⟨fun e he => absurd he List.not_mem_nil, fun tid job v hjob => ?_, fun tid job hjob => ?_, rfl,
    fun r hr => absurd hr List.not_mem_nil⟩
  · cases hjob
  · cases hjob

/-! One caller: its calls come one after the other, whatever the operator does meanwhile. -/

/-- The action is the operator's or one of the caller `tid`. -/
def Action.isOf (tid : Nat) : Action → Bool
  | .configure _ => true
  | .call s _ => s == tid
  | .next s _ => s == tid

/-- No other call is under way, and the triple noted last is that of the one call, as soon as
    it has noted its own. -/
structure LLMChecker.Lone (tid : Nat) (c : LLMChecker) : Prop where
  others : ∀ s job, c.jobs s = some job → s = tid
  noted : ∀ job, c.jobs tid = some job → job.phase ≠ .configured → c.lastSemantics = semanticsFor job.cfg

theorem LLMChecker.advance_noted {c d : LLMChecker} {cfg : Config} {text : Bytes} {env : Env} {phase : Phase}
    {o : Outcome} (h : c.advance cfg text env phase = some (d, o))
    (hnoted : phase ≠ .configured → c.lastSemantics = semanticsFor cfg) : d.lastSemantics = semanticsFor cfg := by
  cases phase with
  | configured =>
    cases h
    rfl
  | purging =>
    cases h
    exact hnoted Phase.noConfusion
  | flagged trimmed =>
    cases h
    exact hnoted Phase.noConfusion
  | parsed trimmed v =>
    cases h
    exact hnoted Phase.noConfusion
  | hit v =>
    cases h
    exact hnoted Phase.noConfusion
  | looking trimmed =>
    simp only [LLMChecker.advance] at h
    split at h
    · cases h
      exact hnoted Phase.noConfusion
    · cases h
      exact hnoted Phase.noConfusion
  | _ =>
    rw [(LLMChecker.advance_quiet rfl h).1.lastSemantics]
    exact hnoted Phase.noConfusion

theorem LLMChecker.Lone.step {tid : Nat} {c c' : LLMChecker} {a : Action} (h : c.Lone tid)
    (hown : a.isOf tid = true) (hstep : c.step a = some c') : c'.Lone tid := by
  cases a with
  | configure source =>
    cases hstep
    exact ⟨h.others, h.noted⟩
  | call s text =>
    have hs : s = tid := beq_iff_eq.mp hown
    subst hs
    simp only [LLMChecker.step] at hstep
    split at hstep
    · cases hstep
    · cases hstep
      refine ⟨fun u job hjob => ?_, fun job hjob hphase => ?_⟩
      · rcases LLMChecker.setJob_jobs hjob with ⟨rfl, -⟩ | ⟨-, hold⟩
        · rfl
        · exact h.others u job hold
      · rcases LLMChecker.setJob_jobs hjob with ⟨-, hnew⟩ | ⟨hne, -⟩
        · cases hnew
          exact absurd rfl hphase
        · exact absurd rfl hne
  | next s env =>
    have hs : s = tid := beq_iff_eq.mp hown
    subst hs
    obtain ⟨job, d, o, hadvance, hsame, hmoved⟩ := LLMChecker.step_moves hstep
    refine ⟨fun u j hj => ?_, fun j hj _ => ?_⟩
    · rw [hmoved.jobs] at hj
      split at hj
      · next hu => exact hu
      · exact h.others u j hj
    · rw [hmoved.jobs, if_pos rfl] at hj
      rw [hsame.lastSemantics, LLMChecker.advance_noted hadvance (h.noted job hmoved.here)]
      cases o with
      | go phase =>
        cases hj
        rfl
      | returned v => cases hj

/-- The calls of one caller use the cache under the triple in force. -/
theorem lone_caller_in_force (hashInput : Bytes → Bytes) (source : Config) (hasDoer : Bool) (tid : Nat)
    {actions : List Action} (hown : ∀ a ∈ actions, a.isOf tid = true) :
    Runs.Meets Traced.step InForce (traced hashInput source hasDoer) actions := by
  refine Runs.meets_of_inv (P := fun t => t.checker.Lone tid) (fun t a t' h ha hstep => ?_) actions ?_ hown
  · obtain ⟨c', hc', rfl⟩ := Option.map_eq_some_iff.mp hstep
    refine ⟨?_, h.step ha hc'⟩
    cases a with
    | configure source => trivial
    | call s text => trivial
    | next s env =>
      have hs : s = tid := beq_iff_eq.mp ha
      subst hs
      intro job hjob huses
      refine ⟨h.noted job hjob fun hphase => ?_, fun u j hj hphase => ?_⟩
      · rw [hphase] at huses
        cases huses
      · rw [h.others u j hj, hjob] at hj
        cases hj
        rw [hphase] at huses
        cases huses
  · refine ⟨fun s job hjob => ?_, fun job hjob => ?_⟩
    · cases hjob
    · cases hjob

/-! Main results. -/

/-- As long as calls use the cache under the triple in force only, every answer from the cache
    repeats the verdict of a call under the asking triple. -/
theorem cached_verdicts_match {hashInput : Bytes → Bytes} {source : Config} {hasDoer : Bool}
    {actions : List Action} (hforce : Runs.Meets Traced.step InForce (traced hashInput source hasDoer) actions) :
    Runs.Always Traced.step Traced.Matching (traced hashInput source hasDoer) actions := by
  have hsound := Runs.always_of_meets (P := Traced.Sound True)
    (fun _ _ _ h hc hstep => h.step (fun _ => hc) hstep) actions _ (sound_traced True hashInput source hasDoer) hforce
  refine hsound.mono fun t h => ⟨h.answers, fun r hr => ?_⟩
  obtain ⟨w, hw, hverdict, hagree⟩ := h.writers r hr
  exact ⟨w, hw, hverdict, hagree trivial⟩

def flashCheck : Config := { defaultConfig with enabled := true }

def proCheck : Config := { flashCheck with model := lit "deepseek-v4-pro-nothinking" }

def seaStory : Bytes := lit "Tell me a story about the sea, please."

/-- The same two questions with no other call between, and the answer from the cache. -/
theorem second_call_matches : Runs.Always Traced.step Traced.Matching (traced id flashCheck true)
    (.call 0 seaStory :: List.replicate 12 (.next 0 passed) ++ .configure proCheck :: .configure flashCheck ::
      .call 0 seaStory :: List.replicate 5 (.next 0 passed)) :=
  cached_verdicts_match (lone_caller_in_force id flashCheck true 0 (by decide))

/-- The first call waits for upstream when the operator changes the model. The second call
    purges the cache, the first stores its verdict behind that, and the third finds it. -/
def lateStore : List Action :=
  .call 0 seaStory :: List.replicate 7 (.next 0 passed) ++
    .configure proCheck :: .call 1 (lit "hi") :: List.replicate 4 (.next 1 passed) ++
    List.replicate 2 (.next 0 passed) ++
    .call 2 seaStory :: List.replicate 5 (.next 2 passed)

theorem late_store_served : ∃ t, Runs.run Traced.step (traced id flashCheck true) lateStore = some t ∧
    ¬ t.Matching ∧ t.served = [⟨⟨proCheck, seaStory, { cached := true }⟩, some ⟨semanticsFor flashCheck, {}⟩⟩] := by
  have hserved : (Runs.run Traced.step (traced id flashCheck true) lateStore).map (·.served) =
      some [⟨⟨proCheck, seaStory, { cached := true }⟩, some ⟨semanticsFor flashCheck, {}⟩⟩] := by
    decide +kernel
  obtain ⟨t, hrun, hserved⟩ := Option.map_eq_some_iff.mp hserved
  refine ⟨t, hrun, fun hmatching => ?_, hserved⟩
  obtain ⟨w, hw, -, hsem⟩ := hmatching.writers _ (by rw [hserved]; exact List.mem_singleton_self _)
  cases hw
  exact absurd hsem (by decide)

end DeepSeekWebToApi.Safetyllm
