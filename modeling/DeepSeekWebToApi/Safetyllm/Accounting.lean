import DeepSeekWebToApi.Lib.Tally
import DeepSeekWebToApi.Safetyllm.HardSignals

/- The slots and the counters of the safety checker over any mix of calls.

   A call takes a slot of the semaphore and gives it back, raises `concurrentInflight` and
   lowers it, is counted in `requestsTotal` and later once under `violations` or `okCount`.
   What a call in the middle has still to give back depends on its phase alone
   (`Phase.slot`, `Phase.inflight`, `Phase.owed`), and one step of a call books exactly the
   difference (`advance_books`), so the numbers of the checker are the sums over the calls
   under way. -/
namespace DeepSeekWebToApi.Safetyllm
open GoStrings Tally

/-- The call holds a slot of the semaphore. -/
def Phase.slot : Phase → Int
  | .acquired _ => 1
  | .running _ => 1
  | .failed _ => 1
  | .parsed _ _ => 1
  | .stored _ => 1
  | .leaving _ => 1
  | .releasing _ => 1
  | _ => 0

/-- The call is counted in `concurrentInflight`. -/
def Phase.inflight : Phase → Int
  | .running _ => 1
  | .failed _ => 1
  | .parsed _ _ => 1
  | .stored _ => 1
  | .leaving _ => 1
  | _ => 0

/-- The call is counted in `requestsTotal` and not yet as a violation or as fine. -/
def Phase.owed : Phase → Int
  | .counted => 1
  | .looking _ => 1
  | .hit _ => 1
  | .waiting _ => 1
  | .refused => 1
  | .acquired _ => 1
  | .running _ => 1
  | .failed _ => 1
  | .parsed _ _ => 1
  | .stored _ => 1
  | _ => 0

/-- The weight of the phase a step leads to; a call that has returned has none. -/
def Outcome.weigh (w : Phase → Int) : Outcome → Int
  | .go phase => w phase
  | .returned _ => 0

/-- The requests counted without a verdict. -/
def Counters.unsettled (s : Counters) : Int := s.requestsTotal - s.violations - s.okCount

/-- What a step from `phase` to `o` has booked. -/
structure LLMChecker.Books (c d : LLMChecker) (phase : Phase) (o : Outcome) : Prop where
  slots : d.slots = c.slots
  taken : (d.taken : Int) = c.taken - phase.slot + o.weigh Phase.slot
  inflight : d.counters.concurrentInflight =
    c.counters.concurrentInflight - phase.inflight + o.weigh Phase.inflight
  unsettled : d.counters.unsettled = c.counters.unsettled - phase.owed + o.weigh Phase.owed
  bound : c.taken ≤ c.slots → d.taken ≤ d.slots

variable {c d : LLMChecker}

/-- A step that leaves the semaphore alone. -/
theorem LLMChecker.Books.of_counts {phase : Phase} {o : Outcome} (hslots : d.slots = c.slots)
    (htaken : d.taken = c.taken) (hslot : o.weigh Phase.slot = phase.slot)
    (hinflight : d.counters.concurrentInflight =
      c.counters.concurrentInflight - phase.inflight + o.weigh Phase.inflight)
    (howed : d.counters.unsettled = c.counters.unsettled - phase.owed + o.weigh Phase.owed) :
    c.Books d phase o where
  slots := hslots
  taken := by rw [htaken, hslot]; omega
  inflight := hinflight
  unsettled := howed
  bound := by rw [htaken, hslots]; exact id

/-- A step that books nothing. -/
theorem LLMChecker.Books.of_same {phase : Phase} {o : Outcome} (hslots : d.slots = c.slots)
    (htaken : d.taken = c.taken) (hcounters : d.counters = c.counters) (hslot : o.weigh Phase.slot = phase.slot)
    (hinflight : o.weigh Phase.inflight = phase.inflight) (howed : o.weigh Phase.owed = phase.owed) :
    c.Books d phase o := by
  refine .of_counts hslots htaken hslot ?_ ?_
  · rw [hcounters, hinflight]
    omega
  · rw [hcounters, howed]
    omega

theorem Counters.verdict_unsettled (s : Counters) (violation : Bool) :
    (s.verdict violation).unsettled = s.unsettled - 1 := by
  cases violation <;> simp only [Counters.verdict, Counters.unsettled, if_true, Bool.false_eq_true, if_false] <;> omega

theorem Counters.verdict_inflight (s : Counters) (violation : Bool) :
    (s.verdict violation).concurrentInflight = s.concurrentInflight := by
  cases violation <;> rfl

/-- `failOpenVerdict` settles one request, whichever way it goes. -/
theorem LLMChecker.failOpenVerdict_settles (c : LLMChecker) (cfg : Config) (latencyMs : Int) :
    (c.failOpenVerdict cfg latencyMs).1.slots = c.slots ∧ (c.failOpenVerdict cfg latencyMs).1.taken = c.taken ∧
      (c.failOpenVerdict cfg latencyMs).1.counters.concurrentInflight = c.counters.concurrentInflight ∧
      (c.failOpenVerdict cfg latencyMs).1.counters.unsettled = c.counters.unsettled - 1 := by
  unfold LLMChecker.failOpenVerdict
  split
  · refine ⟨rfl, rfl, rfl, ?_⟩
    simp only [LLMChecker.count, Counters.unsettled]
    omega
  · refine ⟨rfl, rfl, rfl, ?_⟩
    simp only [LLMChecker.count, Counters.unsettled]
    omega

/-- One step of a call books the difference of the two phases, on each of its ways out. -/
theorem LLMChecker.advance_books {cfg : Config} {text : Bytes} {env : Env} {phase : Phase} {o : Outcome}
    (hheld : phase.slot ≤ c.taken) (h : c.advance cfg text env phase = some (d, o)) : c.Books d phase o := by
  cases phase with
  | configured =>
    cases h
    split <;> exact .of_same rfl rfl rfl rfl rfl rfl
  | purging =>
    cases h
    exact .of_same rfl rfl rfl rfl rfl rfl
  | admitted =>
    simp only [LLMChecker.advance] at h
    split_ifs at h
    · cases h
      exact .of_same rfl rfl rfl rfl rfl rfl
    · cases h
      refine .of_counts rfl rfl rfl (by simp [count, Phase.inflight, Outcome.weigh]) ?_
      simp only [count, Counters.unsettled, Phase.owed, Outcome.weigh]
      omega
  | counted =>
    obtain ⟨trimmed, -, h⟩ := Option.bind_eq_some_iff.mp h
    split_ifs at h
    · cases h
      refine .of_counts rfl rfl rfl (by simp [count, Phase.inflight, Outcome.weigh]) ?_
      simp only [count, Counters.unsettled, Phase.owed, Outcome.weigh]
      omega
    · cases h
      refine .of_counts rfl rfl rfl (by simp [count, Phase.inflight, Outcome.weigh]) ?_
      simp only [count, Counters.unsettled, Phase.owed, Outcome.weigh]
      omega
    · cases h
      exact .of_same rfl rfl rfl rfl rfl rfl
  | flagged trimmed =>
    cases h
    exact .of_same rfl rfl rfl rfl rfl rfl
  | looking trimmed =>
    simp only [LLMChecker.advance] at h
    split at h <;> cases h <;> exact .of_same rfl rfl rfl rfl rfl rfl
  | hit v =>
    cases h
    refine .of_counts rfl rfl rfl ?_ ?_
    · simp [count, Counters.verdict_inflight, Phase.inflight, Outcome.weigh]
    · simp only [count, Counters.verdict_unsettled, Phase.owed, Outcome.weigh]
      simp [Counters.unsettled]
  | waiting trimmed =>
    simp only [LLMChecker.advance] at h
    split_ifs at h with hcancelled hfree
    · cases h
      exact .of_same rfl rfl rfl rfl rfl rfl
    · -- the slot is taken: there was one
      cases h
      refine ⟨rfl, ?_, ?_, ?_, fun _ => hfree⟩
      · simp [Phase.slot, Outcome.weigh]
      · simp [Phase.inflight, Outcome.weigh]
      · simp [Phase.owed, Outcome.weigh]
  | refused =>
    simp only [LLMChecker.advance, Option.some.injEq, Prod.mk.injEq] at h
    obtain ⟨rfl, rfl⟩ := h
    obtain ⟨hslots, htaken, hinflight, hsettled⟩ := c.failOpenVerdict_settles cfg 0
    exact .of_counts hslots htaken rfl (by rw [hinflight]; simp [Phase.inflight, Outcome.weigh])
      (by rw [hsettled]; simp [Phase.owed, Outcome.weigh])
  | acquired trimmed =>
    cases h
    exact .of_counts rfl rfl rfl (by simp [count, Phase.inflight, Outcome.weigh])
      (by simp [count, Counters.unsettled, Phase.owed, Outcome.weigh])
  | running trimmed =>
    have hcounts {f : Counters → Counters} {latencyMs : Int}
        (hinflight : (f c.counters).concurrentInflight = c.counters.concurrentInflight)
        (hunsettled : (f c.counters).unsettled = c.counters.unsettled) :
        c.Books (c.count f) (.running trimmed) (.go (.failed latencyMs)) :=
      .of_counts rfl rfl rfl (by simp [count, hinflight, Phase.inflight, Outcome.weigh])
        (by simp [count, hunsettled, Phase.owed, Outcome.weigh])
    simp only [LLMChecker.advance] at h
    split at h
    · cases h
      exact hcounts rfl rfl
    · cases h
      exact hcounts rfl rfl
    · split at h
      · cases h
        exact hcounts rfl rfl
      · cases h
        exact .of_same rfl rfl rfl rfl rfl rfl
  | failed latencyMs =>
    simp only [LLMChecker.advance, Option.some.injEq, Prod.mk.injEq] at h
    obtain ⟨rfl, rfl⟩ := h
    obtain ⟨hslots, htaken, hinflight, hsettled⟩ := c.failOpenVerdict_settles cfg latencyMs
    exact .of_counts hslots htaken rfl (by rw [hinflight]; simp [Phase.inflight, Outcome.weigh])
      (by rw [hsettled]; simp [Phase.owed, Outcome.weigh])
  | parsed trimmed v =>
    cases h
    exact .of_same rfl rfl rfl rfl rfl rfl
  | stored v =>
    cases h
    refine .of_counts rfl rfl rfl ?_ ?_
    · simp [count, Counters.verdict_inflight, Phase.inflight, Outcome.weigh]
    · have hsettled := Counters.verdict_unsettled c.counters v.violation
      simp only [Counters.unsettled] at hsettled
      simp only [count, Counters.unsettled, Phase.owed, Outcome.weigh]
      omega
  | leaving v =>
    cases h
    refine .of_counts rfl rfl rfl ?_ (by simp [count, Counters.unsettled, Phase.owed, Outcome.weigh])
    simp only [count, Phase.inflight, Outcome.weigh]
    omega
  | releasing v =>
    cases h
    have hone : (1 : Int) ≤ c.taken := hheld
    refine ⟨rfl, ?_, ?_, ?_, fun hle => ?_⟩
    · simp only [Phase.slot, Outcome.weigh]
      omega
    · simp [Phase.inflight, Outcome.weigh]
    · simp [Phase.owed, Outcome.weigh]
    · exact Nat.le_trans (Nat.sub_le _ _) hle

/-! The sums over the calls under way. -/

def Job.slot (job : Job) : Int := job.phase.slot

def Job.inflight (job : Job) : Int := job.phase.inflight

def Job.owed (job : Job) : Int := job.phase.owed

theorem Phase.slot_nonneg (phase : Phase) : 0 ≤ phase.slot := by
  cases phase <;> simp [Phase.slot]

theorem Phase.inflight_nonneg (phase : Phase) : 0 ≤ phase.inflight := by
  cases phase <;> simp [Phase.inflight]

theorem Phase.inflight_le_slot (phase : Phase) : phase.inflight ≤ phase.slot := by
  cases phase <;> simp [Phase.inflight, Phase.slot]

/-- The numbers of the checker are those of the calls under way. -/
structure LLMChecker.Balanced (slots : Nat) (c : LLMChecker) : Prop where
  slots : c.slots = slots
  bound : c.taken ≤ c.slots
  books : ∃ ids, Within ids c.jobs ∧ (c.taken : Int) = total ids c.jobs Job.slot ∧
    c.counters.concurrentInflight = total ids c.jobs Job.inflight ∧
    c.counters.unsettled = total ids c.jobs Job.owed

theorem Job.weigh_after (job : Job) (w : Phase → Int) (o : Outcome) :
    (job.after o).elim 0 (fun j => w j.phase) = o.weigh w := by
  cases o <;> rfl

theorem LLMChecker.replaces_setJob (c : LLMChecker) (tid : Nat) (job : Option Job) :
    Replaces c.jobs (c.setJob tid job).jobs tid job :=
  ⟨if_pos rfl, fun _ h => if_neg h⟩

/-- A step of a call leaves the numbers `advance` gives, and replaces its job. -/
theorem LLMChecker.step_next_replaces {tid : Nat} {env : Env} (h : c.step (.next tid env) = some d) :
    ∃ job e o, c.jobs tid = some job ∧ c.advance job.cfg job.text env job.phase = some (e, o) ∧
      d.slots = e.slots ∧ d.taken = e.taken ∧ d.counters = e.counters ∧
      Replaces c.jobs d.jobs tid (job.after o) := by
  obtain ⟨job, e, o, hjob, hadvance, hkeeps, hd⟩ := LLMChecker.step_next h
  refine ⟨job, e, o, hjob, hadvance, ?_⟩
  cases o with
  | go phase =>
    subst hd
    exact ⟨rfl, rfl, rfl, hkeeps.jobs ▸ e.replaces_setJob tid _⟩
  | returned v =>
    subst hd
    exact ⟨rfl, rfl, rfl, hkeeps.jobs ▸ e.replaces_setJob tid none⟩

theorem LLMChecker.Balanced.step {slots : Nat} {a : Action} (hc : c.Balanced slots) (h : c.step a = some d) :
    d.Balanced slots := by
  obtain ⟨ids, hwithin, htaken, hinflight, howed⟩ := hc.books
  cases a with
  | configure cfg =>
    cases h
    exact ⟨hc.slots, hc.bound, ids, hwithin, htaken, hinflight, howed⟩
  | call tid text =>
    simp only [LLMChecker.step] at h
    split_ifs at h with hbusy
    cases h
    -- a call that has read its configuration has nothing to give back
    have hidle : c.jobs tid = none := Option.not_isSome_iff_eq_none.mp hbusy
    have hnew := c.replaces_setJob tid (some { cfg := c.source, text := text })
    have hnothing : ∀ n : Int, n - 0 + 0 = n := fun n => by omega
    refine ⟨hc.slots, hc.bound, insert tid ids, hwithin.insert hnew, ?_, ?_, ?_⟩
    · rw [total_update hwithin hnew, hidle, ← htaken]
      exact (hnothing _).symm
    · rw [total_update hwithin hnew, hidle, ← hinflight]
      exact (hnothing _).symm
    · rw [total_update hwithin hnew, hidle, ← howed]
      exact (hnothing _).symm
  | next tid env =>
    obtain ⟨job, e, o, hjob, hadvance, hslots, hd, hcounters, hr⟩ := LLMChecker.step_next_replaces h
    have hheld : job.phase.slot ≤ c.taken := by
      rw [htaken]
      exact le_total hwithin (fun j => j.phase.slot_nonneg) hjob
    have hbooks := LLMChecker.advance_books hheld hadvance
    refine ⟨hslots.trans (hbooks.slots.trans hc.slots), ?_, insert tid ids, hwithin.insert hr, ?_, ?_, ?_⟩
    · rw [hd, hslots]
      exact hbooks.bound hc.bound
    · rw [total_update hwithin hr, hjob, ← htaken, hd, hbooks.taken]
      exact congrArg _ (job.weigh_after Phase.slot o).symm
    · rw [total_update hwithin hr, hjob, ← hinflight, hcounters, hbooks.inflight]
      exact congrArg _ (job.weigh_after Phase.inflight o).symm
    · rw [total_update hwithin hr, hjob, ← howed, hcounters, hbooks.unsettled]
      exact congrArg _ (job.weigh_after Phase.owed o).symm

/-- The `MaxConcurrent` read at construction, at least one. -/
def Config.bound (source : Config) : Nat := (max 1 source.maxConcurrent).toNat

theorem balanced_new (hashInput : Bytes → Bytes) (source : Config) (hasDoer : Bool) :
    (newLLMCheckerWithSource hashInput source hasDoer).Balanced source.bound where
  slots := by
    simp only [newLLMCheckerWithSource, Config.bound]
    split <;> omega
  bound := Nat.zero_le _
  books := ⟨∅, fun _ _ => rfl, rfl, rfl, rfl⟩

/-- The call is inside `RunSafetyCheck`. -/
def Job.Running (job : Job) : Prop := ∃ trimmed, job.phase = .running trimmed

/-- The bound on the calls at work, and the balance when there is none. -/
structure LLMChecker.Accounted (bound : Nat) (c : LLMChecker) : Prop where
  running : {tid | ∃ job, c.jobs tid = some job ∧ job.Running}.encard ≤ bound
  inflight : c.counters.concurrentInflight ≤ bound
  idle : (∀ tid, c.jobs tid = none) → c.counters.concurrentInflight = 0 ∧ c.taken = 0 ∧
    c.counters.requestsTotal = c.counters.violations + c.counters.okCount

theorem LLMChecker.Balanced.accounted {slots : Nat} {c : LLMChecker} (h : c.Balanced slots) :
    c.Accounted slots := by
  obtain ⟨ids, hwithin, htaken, hinflight, howed⟩ := h.books
  have hbound := h.bound
  have hslots := h.slots
  have hle : c.counters.concurrentInflight ≤ slots := by
    have hmono : total ids c.jobs Job.inflight ≤ total ids c.jobs Job.slot :=
      total_mono fun j => j.phase.inflight_le_slot
    omega
  refine ⟨?_, hle, fun hidle => ?_⟩
  · have hrunning : ∀ job : Job, job.Running → 1 ≤ job.inflight := by
      rintro job ⟨trimmed, hphase⟩
      rw [Job.inflight, hphase]
      exact le_refl 1
    have hnonneg : ∀ job : Job, 0 ≤ job.inflight := fun job => job.phase.inflight_nonneg
    have hcard := encard_le_total hwithin hnonneg hrunning
    rw [← hinflight] at hcard
    have hnat : c.counters.concurrentInflight.toNat ≤ slots := by omega
    exact hcard.trans (by exact_mod_cast hnat)
  · rw [total_idle hidle] at htaken hinflight howed
    refine ⟨hinflight, by exact_mod_cast htaken, ?_⟩
    simp only [Counters.unsettled] at howed
    omega

/-- Over every mix of calls, changes of the configuration and answers from upstream, no more
    calls are inside `RunSafetyCheck` than the semaphore has slots, `concurrentInflight` stays
    within them, and when no call is under way everything is given back and every request
    counted has one verdict. -/
theorem checker_accounting (hashInput : Bytes → Bytes) (source : Config) (hasDoer : Bool) (actions : List Action) :
    Runs.Always LLMChecker.step (LLMChecker.Accounted source.bound)
      (newLLMCheckerWithSource hashInput source hasDoer) actions := by
  have hinv : Runs.Always LLMChecker.step (LLMChecker.Balanced source.bound)
      (newLLMCheckerWithSource hashInput source hasDoer) actions :=
    Runs.always_inv (fun _ _ _ hc h => hc.step h) actions _ (balanced_new hashInput source hasDoer)
  exact hinv.mono fun _ h => h.accounted

end DeepSeekWebToApi.Safetyllm
