import DeepSeekWebToApi.Lib.Tally
import DeepSeekWebToApi.ResponseCache.Interleaving
import DeepSeekWebToApi.ResponseCache.SingleFlight

/- The hit counters of the cache middleware (`Wrap`, `waitForInflightOwner`, `getWithPolicy`,
   `recordHit`, `recordMiss`, `recordInflightHit`).

   A request looks its key up, and behind a miss goes into the single flight: it runs upstream
   as the owner of a slot, or waits for the owner and looks the key up again. The steps of
   different requests mix in any order; a step ends where a lock is given up, a file has been
   read or written, or something outside is awaited. A lookup that hits counts the hit, and a
   request that has waited counts it once more (`recordInflightHit`), so the hit counters are
   the answers from the cache and the answers behind a wait again (`Middleware.Booked`). -/
namespace DeepSeekWebToApi.ResponseCache
open GoStrings Tally SingleFlight

/-! The counters. -/

/-- The part of `pathStat` lookups count in. -/
structure PathStat where
  hits : Int := 0
  misses : Int := 0
  memoryHits : Int := 0
  diskHits : Int := 0
  inflightHits : Int := 0

structure Stats where
  hits : Int := 0
  misses : Int := 0
  memoryHits : Int := 0
  diskHits : Int := 0
  inflightHits : Int := 0
  pathStats : KeyMap PathStat := []

inductive Source where
  | memory
  | disk

def Stats.pathStat (s : Stats) (path : Bytes) : PathStat := (s.pathStats.get path).getD {}

/-- What is done to `pathStatLocked(path)`; a blank path has none. -/
def Stats.onPath (s : Stats) (path : Bytes) (f : PathStat → PathStat) : Stats :=
  let path := trimSpace path
  if path = [] then s else { s with pathStats := s.pathStats.insert path (f (s.pathStat path)) }

def Stats.recordHitLocked (s : Stats) (path : Bytes) : Source → Stats
  | .memory =>
    { s with hits := s.hits + 1, memoryHits := s.memoryHits + 1 }.onPath path
      (fun stat => { stat with hits := stat.hits + 1, memoryHits := stat.memoryHits + 1 })
  | .disk =>
    { s with hits := s.hits + 1, diskHits := s.diskHits + 1 }.onPath path
      (fun stat => { stat with hits := stat.hits + 1, diskHits := stat.diskHits + 1 })

def Stats.recordMiss (s : Stats) (path : Bytes) : Stats :=
  { s with misses := s.misses + 1 }.onPath path (fun stat => { stat with misses := stat.misses + 1 })

def Stats.recordInflightHit (s : Stats) (path : Bytes) : Stats :=
  { s with inflightHits := s.inflightHits + 1, hits := s.hits + 1 }.onPath path
    (fun stat => { stat with inflightHits := stat.inflightHits + 1, hits := stat.hits + 1 })

/-! The middleware. -/

/-- Where a request is; `waited` tells whether the lookup is the one of `waitForInflightOwner`. -/
inductive Stage where
  /-- Before the locked part of `getWithPolicy`. -/
  | probing (waited : Bool)
  | reading (waited : Bool) (now : Int)
  /-- The file gave an entry, memory is to be filled. -/
  | filling (waited : Bool) (now : Int) (entry : Entry)
  /-- `recordHit` is to come. -/
  | counting (waited : Bool) (entry : Entry)
  /-- `recordMiss` is to come. -/
  | missing (waited : Bool)
  /-- `recordInflightHit` is to come. -/
  | noting (entry : Entry)
  /-- `writeCachedResponse` is to come. -/
  | answering (waited : Bool) (entry : Entry)
  /-- In the single flight: waiting, upstream, or on the way out. -/
  | flying
  /-- The response is in memory, its file is to be written. -/
  | writing (entry : Entry) (call : Call)

/-- A request that may be answered from the cache: `policy.Path`, the key and the session key. -/
structure Visit where
  path : Bytes
  key : Bytes
  sessionKey : Bytes
  stage : Stage := .probing false

/-- A response written from the cache. -/
structure Served where
  path : Bytes
  waited : Bool
  entry : Entry

/-- How a wait ends. -/
inductive WaitEnd where
  | done
  | timeout
  | cancelled

/-- What a step finds outside: the clock, how a wait ends, the response from upstream if it can
    be cached, and what a `Set` leaves open. -/
structure Outside where
  call : Call := { now := 0 }
  wait : WaitEnd := .done
  response : Option Entry := none
  writeFails : Bool := false

structure Middleware where
  cache : Cache
  flight : Flight := Flight.start
  stats : Stats := {}
  visits : Nat → Option Visit := fun _ => none
  served : List Served := []

/-- A lookup that hit: behind a wait the hit is noted once more. -/
def Stage.hit (waited : Bool) (entry : Entry) : Stage := if waited then .noting entry else .answering false entry

/-- A step in the single flight alone. -/
def Middleware.fly (m : Middleware) (a : FineAction) : Option (Middleware × Option Stage) :=
  (fineStep m.flight a).map (fun flight => ({ m with flight := flight }, some .flying))

/-- A lookup that missed: the request goes into the single flight, or on in it. -/
def Middleware.missed (m : Middleware) (r : Nat) (v : Visit) (waited : Bool) : Option (Middleware × Option Stage) :=
  m.fly (if waited then .wake r false else .acquire r v.key)

/-- One step of a request: where it is next, or that it has left. -/
def Middleware.advance (m : Middleware) (r : Nat) (v : Visit) (env : Outside) :
    Stage → Option (Middleware × Option Stage)
  | .probing waited =>
    let key := normalizeKey v.key
    if key = [] then m.missed r v waited
    else
      match m.cache.probe key env.call.now with
      | (cache, some entry) =>
        some ({ m with cache := cache, stats := m.stats.recordHitLocked v.path .memory }, some (.hit waited entry))
      | (cache, none) => some ({ m with cache := cache }, some (.reading waited env.call.now))
  | .reading waited now =>
    match m.cache.getDisk (normalizeKey v.key) now with
    | (cache, some entry) => some ({ m with cache := cache }, some (.filling waited now entry))
    | (cache, none) => some ({ m with cache := cache }, some (.missing waited))
  | .filling waited now entry =>
    let call : Call := { now := now, tie := env.call.tie }
    some ({ m with cache := m.cache.putMemoryWithPolicySession (normalizeKey v.key) [] entry call },
      some (.counting waited entry))
  | .counting waited entry =>
    some ({ m with stats := m.stats.recordHitLocked v.path .disk }, some (.hit waited entry))
  | .missing waited => { m with stats := m.stats.recordMiss v.path }.missed r v waited
  | .noting entry => some ({ m with stats := m.stats.recordInflightHit v.path }, some (.answering true entry))
  | .answering waited entry =>
    (if waited then fineStep m.flight (.wake r true) else some m.flight).map (fun flight =>
      ({ m with flight := flight, served := m.served ++ [⟨v.path, waited, entry⟩] }, none))
  | .flying =>
    match m.flight.requests r with
    | .idle => none
    | .waiting _ slot _ =>
      match env.wait with
      | .done => if m.flight.closed slot then some (m, some (.probing true)) else none
      | .timeout => m.fly (.timeout r)
      | .cancelled => m.fly (.cancel r)
    | .woken _ => m.fly (.reacquire r)
    | .serving _ _ =>
      match env.response with
      | none => m.fly (.serve r)
      | some entry =>
        if normalizeKey v.key = [] ∨ entry.cacheable m.cache.maxBody = false then m.fly (.serve r)
        else
          let entry := m.cache.stamped entry env.call.now
          some ({ m with cache := m.cache.putMemoryWithPolicySession (normalizeKey v.key) v.sessionKey entry env.call },
            some (.writing entry env.call))
    | .releasing _ _ => m.fly (.unregister r)
    | .closing _ => m.fly (.close r)
    | .finished => some (m, none)
  | .writing entry call =>
    let cache := if env.writeFails then m.cache
      else (m.cache.putDisk (normalizeKey v.key) entry call).enforceDiskLimit call
    { m with cache := cache.maybeSweepDisk call.now }.fly (.serve r)

inductive Move where
  /-- A request comes that may be answered from the cache. -/
  | arrive (r : Nat) (path key sessionKey : Bytes)
  | next (r : Nat) (env : Outside)

def Middleware.setVisit (m : Middleware) (r : Nat) (v : Option Visit) : Middleware :=
  { m with visits := fun i => if i = r then v else m.visits i }

/-- The request behind a step, if it has not left. -/
def Visit.after (v : Visit) (stage : Option Stage) : Option Visit := stage.map (fun stage => { v with stage := stage })

def Middleware.step (m : Middleware) : Move → Option Middleware
  | .arrive r path key sessionKey =>
    if (m.visits r).isSome then none
    else some (m.setVisit r (some { path := path, key := key, sessionKey := sessionKey }))
  | .next r env => do
    let v ← m.visits r
    let (m, stage) ← m.advance r v env v.stage
    return m.setVisit r (v.after stage)

/-! What a step books. -/

/-- The hits counted altogether, or on a path. -/
def Stats.hitsOn (s : Stats) : Option Bytes → Int
  | none => s.hits
  | some path => (s.pathStat path).hits

/-- Whether a request on a path counts there. -/
def concerns : Option Bytes → Bytes → Bool
  | none, _ => true
  | some p, path => trimSpace path = p

/-- One hit of a request on `path`. -/
def share (q : Option Bytes) (path : Bytes) : Int := if concerns q path then 1 else 0

theorem Stats.pathStat_onPath (s : Stats) (path : Bytes) (f : PathStat → PathStat) {p : Bytes} (hp : p ≠ []) :
    (s.onPath path f).pathStat p = if trimSpace path = p then f (s.pathStat p) else s.pathStat p := by
  simp only [Stats.onPath]
  split_ifs with hblank hsame hsame
  · exact absurd (hsame.symm.trans hblank) hp
  · rfl
  · rw [Stats.pathStat, KeyMap.get_insert, if_pos hsame, hsame]
    rfl
  · rw [Stats.pathStat, KeyMap.get_insert, if_neg hsame]
    rfl

theorem Stats.hits_onPath (s : Stats) (path : Bytes) (f : PathStat → PathStat) : (s.onPath path f).hits = s.hits := by
  simp only [Stats.onPath]
  split_ifs <;> rfl

variable {path : Bytes} {q : Option Bytes}

/-- A record that raises the hits, altogether and on its path. -/
theorem Stats.hitsOn_raised {s t : Stats} {f : PathStat → PathStat} (hhits : t.hits = s.hits + 1)
    (hpaths : t.pathStats = s.pathStats) (hf : ∀ stat, (f stat).hits = stat.hits + 1) (hq : q ≠ some []) :
    (t.onPath path f).hitsOn q = s.hitsOn q + share q path := by
  cases q with
  | none => exact (Stats.hits_onPath t path f).trans hhits
  | some p =>
    have hp : p ≠ [] := fun h => hq (congrArg some h)
    have hsame : t.pathStat p = s.pathStat p := by rw [Stats.pathStat, hpaths, Stats.pathStat]
    simp only [Stats.hitsOn, Stats.pathStat_onPath t path f hp, share, concerns, hsame, decide_eq_true_eq]
    split_ifs
    · exact hf _
    · exact (Int.add_zero _).symm

theorem Stats.hitsOn_recordHitLocked (s : Stats) (path : Bytes) (source : Source) (hq : q ≠ some []) :
    (s.recordHitLocked path source).hitsOn q = s.hitsOn q + share q path := by
  cases source with
  | memory =>
    rw [Stats.recordHitLocked]
    refine Stats.hitsOn_raised ?_ ?_ ?_ hq
    · rfl
    · rfl
    · exact fun _ => rfl
  | disk =>
    rw [Stats.recordHitLocked]
    refine Stats.hitsOn_raised ?_ ?_ ?_ hq
    · rfl
    · rfl
    · exact fun _ => rfl

theorem Stats.hitsOn_recordInflightHit (s : Stats) (path : Bytes) (hq : q ≠ some []) :
    (s.recordInflightHit path).hitsOn q = s.hitsOn q + share q path := by
  rw [Stats.recordInflightHit]
  refine Stats.hitsOn_raised ?_ ?_ ?_ hq
  · rfl
  · rfl
  · exact fun _ => rfl

theorem Stats.hitsOn_recordMiss (s : Stats) (path : Bytes) (hq : q ≠ some []) :
    (s.recordMiss path).hitsOn q = s.hitsOn q := by
  cases q with
  | none => exact Stats.hits_onPath _ path _
  | some p =>
    have hp : p ≠ [] := fun h => hq (congrArg some h)
    simp only [Stats.hitsOn, Stats.recordMiss, Stats.pathStat_onPath _ path _ hp]
    split_ifs <;> rfl

/-- How often a request in this stage has been counted as a hit. -/
def Stage.counted : Stage → Int
  | .noting _ => 1
  | .answering false _ => 1
  | .answering true _ => 2
  | _ => 0

def Visit.counted (q : Option Bytes) (v : Visit) : Int := share q v.path * v.stage.counted

/-- How often an answer has been counted as a hit: behind a wait, twice. -/
def Served.counted (q : Option Bytes) (a : Served) : Int := share q a.path * (if a.waited then 2 else 1)

/-- The hits without the answers. -/
def Middleware.due (m : Middleware) (q : Option Bytes) : Int :=
  m.stats.hitsOn q - (m.served.map (Served.counted q)).sum

/-- What a step of a request in one stage to another, or out, has done to the counters. -/
structure Middleware.Books (m n : Middleware) (path : Bytes) (stage : Stage) (o : Option Stage) : Prop where
  visits : n.visits = m.visits
  due : ∀ q, q ≠ some [] → n.due q = m.due q - share q path * stage.counted +
    share q path * o.elim 0 Stage.counted

variable {m n : Middleware} {stage : Stage} {o : Option Stage}

/-- A step that leaves the counters and the answers alone. -/
theorem Middleware.Books.of_same (hvisits : n.visits = m.visits) (hdue : ∀ q, q ≠ some [] → n.due q = m.due q)
    (hcounted : o.elim 0 Stage.counted = stage.counted) : m.Books n path stage o := by
  refine ⟨hvisits, fun q hq => ?_⟩
  rw [hdue q hq, hcounted]
  omega

/-- A step that counts one hit of its request. -/
theorem Middleware.Books.of_hit (hvisits : n.visits = m.visits) (hserved : n.served = m.served)
    (hstats : ∀ q, q ≠ some [] → n.stats.hitsOn q = m.stats.hitsOn q + share q path)
    (hcounted : o.elim 0 Stage.counted = stage.counted + 1) : m.Books n path stage o := by
  refine ⟨hvisits, fun q hq => ?_⟩
  rw [Middleware.due, Middleware.due, hstats q hq, hserved, hcounted, Int.mul_add, Int.mul_one]
  omega

theorem Middleware.Books.of_fly {a : FineAction} (hcounted : stage.counted = 0) (h : m.fly a = some (n, o)) :
    m.Books n path stage o := by
  obtain ⟨flight, -, heq⟩ := Option.map_eq_some_iff.mp h
  cases heq
  exact .of_same rfl (fun _ _ => rfl) hcounted.symm

theorem Stage.counted_hit (waited : Bool) (entry : Entry) : (Stage.hit waited entry).counted = 1 := by
  cases waited <;> rfl

variable {r : Nat} {env : Outside}

theorem Middleware.advance_books {v : Visit} (h : m.advance r v env stage = some (n, o)) :
    m.Books n v.path stage o := by
  cases stage with
  | probing waited =>
    simp only [Middleware.advance] at h
    split at h
    · exact .of_fly rfl h
    · split at h
      · cases h
        exact .of_hit rfl rfl (fun q hq => Stats.hitsOn_recordHitLocked _ _ _ hq) (Stage.counted_hit _ _)
      · cases h
        exact .of_same rfl (fun _ _ => rfl) rfl
  | reading waited now =>
    simp only [Middleware.advance] at h
    split at h <;> cases h <;> exact .of_same rfl (fun _ _ => rfl) rfl
  | filling waited now entry =>
    cases h
    exact .of_same rfl (fun _ _ => rfl) rfl
  | counting waited entry =>
    cases h
    exact .of_hit rfl rfl (fun q hq => Stats.hitsOn_recordHitLocked _ _ _ hq) (Stage.counted_hit _ _)
  | missing waited =>
    obtain ⟨flight, -, heq⟩ := Option.map_eq_some_iff.mp h
    cases heq
    refine .of_same rfl (fun q hq => ?_) rfl
    rw [Middleware.due, Middleware.due, Stats.hitsOn_recordMiss _ _ hq]
  | noting entry =>
    cases h
    exact .of_hit rfl rfl (fun q hq => Stats.hitsOn_recordInflightHit _ _ hq) rfl
  | answering waited entry =>
    obtain ⟨flight, -, heq⟩ := Option.map_eq_some_iff.mp h
    cases heq
    refine ⟨rfl, fun q _ => ?_⟩
    -- what was counted for the request is now counted for its answer
    have hcounted : Served.counted q ⟨v.path, waited, entry⟩ = share q v.path * (Stage.answering waited entry).counted := by
      cases waited <;> rfl
    simp only [Middleware.due, List.map_append, List.sum_append, List.map_singleton, List.sum_singleton,
      hcounted, Option.elim_none, Int.mul_zero]
    omega
  | flying =>
    simp only [Middleware.advance] at h
    split at h
    · cases h
    · split at h
      · split at h
        · cases h
          exact .of_same rfl (fun _ _ => rfl) rfl
        · cases h
      · exact .of_fly rfl h
      · exact .of_fly rfl h
    · exact .of_fly rfl h
    · split at h
      · exact .of_fly rfl h
      · split at h
        · exact .of_fly rfl h
        · cases h
          exact .of_same rfl (fun _ _ => rfl) rfl
    · exact .of_fly rfl h
    · exact .of_fly rfl h
    · cases h
      exact .of_same rfl (fun _ _ => rfl) rfl
  | writing entry call =>
    obtain ⟨flight, -, heq⟩ := Option.map_eq_some_iff.mp h
    cases heq
    exact .of_same rfl (fun _ _ => rfl) rfl

theorem Middleware.replaces_setVisit (m : Middleware) (r : Nat) (v : Option Visit) :
    Replaces m.visits (m.setVisit r v).visits r v :=
  ⟨if_pos rfl, fun _ h => if_neg h⟩

variable {m t : Middleware}

theorem Middleware.step_next (h : m.step (.next r env) = some t) :
    ∃ v n o, m.visits r = some v ∧ m.advance r v env v.stage = some (n, o) ∧ t = n.setVisit r (v.after o) := by
  obtain ⟨v, hv, h⟩ := Option.bind_eq_some_iff.mp h
  obtain ⟨⟨n, o⟩, hadvance, h⟩ := Option.bind_eq_some_iff.mp h
  exact ⟨v, n, o, hv, hadvance, (Option.some.inj h).symm⟩

theorem Middleware.step_arrive {path key sessionKey : Bytes}
    (h : m.step (.arrive r path key sessionKey) = some t) :
    m.visits r = none ∧ t = m.setVisit r (some { path := path, key := key, sessionKey := sessionKey }) := by
  simp only [Middleware.step] at h
  split_ifs at h with hbusy
  exact ⟨Option.not_isSome_iff_eq_none.mp hbusy, (Option.some.inj h).symm⟩

/-- The hits since `base` are those of the answers and those of the requests under way. -/
def Middleware.Booked (base : Stats) (m : Middleware) : Prop :=
  ∃ ids, Within ids m.visits ∧ ∀ q, q ≠ some [] → m.due q = base.hitsOn q + total ids m.visits (Visit.counted q)

theorem Visit.counted_after (q : Option Bytes) (v : Visit) (o : Option Stage) :
    (v.after o).elim 0 (Visit.counted q) = share q v.path * o.elim 0 Stage.counted := by
  cases o with
  | none => exact (Int.mul_zero _).symm
  | some stage => rfl

theorem Middleware.Booked.step {base : Stats} {a : Move} (hm : m.Booked base) (h : m.step a = some t) :
    t.Booked base := by
  obtain ⟨ids, hwithin, hdue⟩ := hm
  cases a with
  | arrive r path key sessionKey =>
    obtain ⟨hfree, rfl⟩ := Middleware.step_arrive h
    have hnew := m.replaces_setVisit r (some { path := path, key := key, sessionKey := sessionKey })
    refine ⟨insert r ids, hwithin.insert hnew, fun q hq => ?_⟩
    -- a request that comes has not been counted
    have hzero : Visit.counted q { path := path, key := key, sessionKey := sessionKey } = 0 := Int.mul_zero _
    rw [total_update hwithin hnew, hfree, Option.elim_none, Option.elim_some, hzero]
    have hsame := hdue q hq
    change m.due q = _
    omega
  | next r env =>
    obtain ⟨v, n, o, hv, hadvance, rfl⟩ := Middleware.step_next h
    have hbooks := Middleware.advance_books hadvance
    have hnew := hbooks.visits ▸ n.replaces_setVisit r (v.after o)
    refine ⟨insert r ids, hwithin.insert hnew, fun q hq => ?_⟩
    have hold : (some v).elim 0 (Visit.counted q) = share q v.path * v.stage.counted := rfl
    rw [total_update hwithin hnew, hv, Visit.counted_after, hold]
    have hstep := hbooks.due q hq
    have hsame := hdue q hq
    change n.due q = _
    omega

/-! The answers that are counted twice. -/

/-- Memory has an entry for the key whose lease runs on. -/
def Cache.HoldsLive (c : Cache) (key : Bytes) (now : Int) : Prop :=
  ∃ item, (c.sweepMemoryLocked now).items.get key = some item ∧ item.live now = true

/-- The disk has a file for the key that can be used. -/
def Cache.HoldsFile (c : Cache) (key : Bytes) (now : Int) : Prop :=
  c.dir ≠ [] ∧ ∃ file, c.files.get key = some file ∧ file.record.usable key c.maxBody now = true

theorem Cache.probe_isSome_iff (c : Cache) (key : Bytes) (now : Int) :
    (c.probe key now).2.isSome = true ↔ c.HoldsLive key now := by
  simp only [Cache.probe, Cache.HoldsLive]
  split
  · next item hitem =>
    rw [hitem]
    split
    · next hlive => exact iff_of_true rfl ⟨item, rfl, hlive⟩
    · next hdead =>
      refine iff_of_false Bool.false_ne_true ?_
      rintro ⟨item', heq, hlive⟩
      exact hdead (Option.some.inj heq ▸ hlive)
  · next hnone =>
    refine iff_of_false Bool.false_ne_true ?_
    rintro ⟨item, heq, -⟩
    rw [hnone] at heq
    cases heq

theorem Cache.getDisk_isSome_iff (c : Cache) (key : Bytes) (now : Int) :
    (c.getDisk key now).2.isSome = true ↔ c.HoldsFile key now := by
  simp only [Cache.getDisk, Cache.HoldsFile]
  split
  · next hdir => exact iff_of_false Bool.false_ne_true fun h => h.1 hdir
  · next hdir =>
    split
    · next hnone =>
      refine iff_of_false Bool.false_ne_true ?_
      rintro ⟨-, file, heq, -⟩
      rw [hnone] at heq
      cases heq
    · next file hfile =>
      split
      · next husable => exact iff_of_true rfl ⟨hdir, file, hfile, husable⟩
      · next hno =>
        refine iff_of_false Bool.false_ne_true ?_
        rintro ⟨-, file', heq, husable⟩
        rw [hfile] at heq
        exact hno (Option.some.inj heq ▸ husable)

/-- A request that has waited looks its key up and finds it. -/
def Middleware.Finds (m : Middleware) (v : Visit) (env : Outside) : Stage → Prop
  | .probing true => normalizeKey v.key ≠ [] ∧ m.cache.HoldsLive (normalizeKey v.key) env.call.now
  | .reading true now => m.cache.HoldsFile (normalizeKey v.key) now
  | _ => False

def Middleware.WaiterFinds (m : Middleware) : Move → Prop
  | .arrive _ _ _ _ => False
  | .next r env => ∃ v, m.visits r = some v ∧ m.Finds v env v.stage

/-- The request has waited, and its lookup has found the key. -/
def Stage.waitedHit : Stage → Bool
  | .filling waited _ _ => waited
  | .counting waited _ => waited
  | .noting _ => true
  | .answering waited _ => waited
  | _ => false

theorem Stage.waitedHit_hit (waited : Bool) (entry : Entry) : (Stage.hit waited entry).waitedHit = waited := by
  cases waited <;> rfl

/-- Some answer was given behind a wait. -/
def Middleware.Repeated (m : Middleware) : Prop := ∃ a ∈ m.served, a.waited = true

/-- A step without an answer: only where the request has got to counts. -/
theorem Middleware.waits_of_served {F : Prop} (hserved : n.served = m.served)
    (ho : o.any Stage.waitedHit = true ↔ stage.waitedHit = true ∨ F) :
    (n.Repeated ∨ o.any Stage.waitedHit = true) ↔ (m.Repeated ∨ stage.waitedHit = true ∨ F) := by
  rw [ho, Middleware.Repeated, Middleware.Repeated, hserved]

theorem Middleware.waits_of_fly {a : FineAction} {v : Visit} (hwaited : stage.waitedHit = false)
    (hfinds : ¬ m.Finds v env stage) (h : m.fly a = some (n, o)) : (n.Repeated ∨ o.any Stage.waitedHit = true) ↔
      (m.Repeated ∨ stage.waitedHit = true ∨ m.Finds v env stage) := by
  obtain ⟨flight, -, heq⟩ := Option.map_eq_some_iff.mp h
  cases heq
  exact waits_of_served rfl (iff_of_false Bool.false_ne_true (by simp [hwaited, hfinds]))

/-- A step of a request leads to an answer behind a wait, given or under way, from one, or from
    a lookup behind a wait that finds the key. -/
theorem Middleware.advance_waits {v : Visit} (h : m.advance r v env stage = some (n, o)) :
    (n.Repeated ∨ o.any Stage.waitedHit = true) ↔
      (m.Repeated ∨ stage.waitedHit = true ∨ m.Finds v env stage) := by
  cases stage with
  | probing waited =>
    simp only [Middleware.advance] at h
    have hprobe := m.cache.probe_isSome_iff (normalizeKey v.key) env.call.now
    split at h
    · next hkey =>
      refine waits_of_fly rfl ?_ h
      cases waited with
      | false => exact id
      | true => exact fun hfinds => hfinds.1 hkey
    · next hkey =>
      split at h
      · next cache entry heq =>
        cases h
        rw [heq] at hprobe
        refine waits_of_served rfl ?_
        cases waited with
        | false => exact iff_of_false Bool.false_ne_true (by simp [Stage.waitedHit, Middleware.Finds])
        | true => exact iff_of_true rfl (Or.inr ⟨hkey, hprobe.mp rfl⟩)
      · next cache heq =>
        cases h
        rw [heq] at hprobe
        refine waits_of_served rfl (iff_of_false Bool.false_ne_true ?_)
        cases waited with
        | false => simp [Stage.waitedHit, Middleware.Finds]
        | true =>
          rintro (hwaited | ⟨-, hlive⟩)
          · cases hwaited
          · cases hprobe.mpr hlive
  | reading waited now =>
    simp only [Middleware.advance] at h
    have hdisk := m.cache.getDisk_isSome_iff (normalizeKey v.key) now
    split at h
    · next cache entry heq =>
      cases h
      rw [heq] at hdisk
      refine waits_of_served rfl ?_
      cases waited with
      | false => exact iff_of_false Bool.false_ne_true (by simp [Stage.waitedHit, Middleware.Finds])
      | true => exact iff_of_true rfl (Or.inr (hdisk.mp rfl))
    · next cache heq =>
      cases h
      rw [heq] at hdisk
      refine waits_of_served rfl (iff_of_false Bool.false_ne_true ?_)
      cases waited with
      | false => simp [Stage.waitedHit, Middleware.Finds]
      | true =>
        rintro (hwaited | hfile)
        · cases hwaited
        · cases hdisk.mpr hfile
  | filling waited now entry =>
    cases h
    exact waits_of_served rfl (by simp [Stage.waitedHit, Middleware.Finds])
  | counting waited entry =>
    cases h
    refine waits_of_served rfl ?_
    rw [Option.any_some, Stage.waitedHit_hit]
    simp [Stage.waitedHit, Middleware.Finds]
  | missing waited =>
    obtain ⟨flight, -, heq⟩ := Option.map_eq_some_iff.mp h
    cases heq
    exact waits_of_served rfl (by simp [Stage.waitedHit, Middleware.Finds])
  | noting entry =>
    cases h
    exact waits_of_served rfl (by simp [Stage.waitedHit])
  | answering waited entry =>
    obtain ⟨flight, -, heq⟩ := Option.map_eq_some_iff.mp h
    cases heq
    simp only [Middleware.Repeated, Middleware.Finds, Stage.waitedHit, List.mem_append, List.mem_singleton,
      Option.any_none, Bool.false_eq_true, or_false]
    constructor
    · rintro ⟨a, hmem | rfl, hwaited⟩
      · exact Or.inl ⟨a, hmem, hwaited⟩
      · exact Or.inr hwaited
    · rintro (⟨a, hmem, hwaited⟩ | hwaited)
      · exact ⟨a, Or.inl hmem, hwaited⟩
      · exact ⟨_, Or.inr rfl, hwaited⟩
  | flying =>
    simp only [Middleware.advance] at h
    split at h
    · cases h
    · split at h
      · split at h
        · cases h
          exact waits_of_served rfl (by simp [Stage.waitedHit, Middleware.Finds])
        · cases h
      · exact waits_of_fly rfl id h
      · exact waits_of_fly rfl id h
    · exact waits_of_fly rfl id h
    · split at h
      · exact waits_of_fly rfl id h
      · split at h
        · exact waits_of_fly rfl id h
        · cases h
          exact waits_of_served rfl (by simp [Stage.waitedHit, Middleware.Finds])
    · exact waits_of_fly rfl id h
    · exact waits_of_fly rfl id h
    · cases h
      exact waits_of_served rfl (by simp [Stage.waitedHit, Middleware.Finds])
  | writing entry call =>
    obtain ⟨flight, -, heq⟩ := Option.map_eq_some_iff.mp h
    cases heq
    exact waits_of_served rfl (by simp [Stage.waitedHit, Middleware.Finds])

/-- An answer behind a wait was given, or is under way. -/
def Middleware.Doubled (m : Middleware) : Prop :=
  m.Repeated ∨ ∃ r v, m.visits r = some v ∧ v.stage.waitedHit = true

theorem Middleware.doubled_setVisit {v : Option Visit} (hvisits : n.visits = m.visits) :
    (n.setVisit r v).Doubled ↔ (n.Repeated ∨ v.any (·.stage.waitedHit) = true) ∨
      ∃ i w, i ≠ r ∧ m.visits i = some w ∧ w.stage.waitedHit = true := by
  have hnew := hvisits ▸ n.replaces_setVisit r v
  constructor
  · rintro (hrepeated | ⟨i, w, hi, hw⟩)
    · exact Or.inl (Or.inl hrepeated)
    · by_cases hir : i = r
      · subst hir
        rw [hnew.1] at hi
        exact Or.inl (Or.inr (by rw [hi]; exact hw))
      · rw [hnew.2 i hir] at hi
        exact Or.inr ⟨i, w, hir, hi, hw⟩
  · rintro ((hrepeated | hany) | ⟨i, w, hir, hi, hw⟩)
    · exact Or.inl hrepeated
    · obtain ⟨w, hv, hw⟩ := (Option.any_eq_true _ _).mp hany
      exact Or.inr ⟨r, w, hnew.1.trans hv, hw⟩
    · exact Or.inr ⟨i, w, (hnew.2 i hir).trans hi, hw⟩

theorem Middleware.doubled_split {m : Middleware} : m.Doubled ↔
    (m.Repeated ∨ (m.visits r).any (·.stage.waitedHit) = true) ∨
      ∃ i w, i ≠ r ∧ m.visits i = some w ∧ w.stage.waitedHit = true := by
  have hsame : m.setVisit r (m.visits r) = m := by
    have hfun : (fun i => if i = r then m.visits r else m.visits i) = m.visits := by
      funext i
      split
      · next hir => rw [hir]
      · rfl
    simp only [Middleware.setVisit, hfun]
  have h := Middleware.doubled_setVisit (m := m) (r := r) (v := m.visits r) rfl
  rwa [hsame] at h

/-- A step brings an answer behind a wait exactly where such a request finds its key. -/
theorem Middleware.doubled_step {a : Move} (h : m.step a = some t) :
    t.Doubled ↔ m.Doubled ∨ m.WaiterFinds a := by
  cases a with
  | arrive r path key sessionKey =>
    obtain ⟨hfree, rfl⟩ := Middleware.step_arrive h
    rw [Middleware.doubled_setVisit rfl, Middleware.doubled_split (r := r), hfree]
    simp [Middleware.WaiterFinds, Stage.waitedHit]
  | next r env =>
    obtain ⟨v, n, o, hv, hadvance, rfl⟩ := Middleware.step_next h
    have hwaits := Middleware.advance_waits hadvance
    have hafter : (v.after o).any (·.stage.waitedHit) = o.any Stage.waitedHit := by cases o <;> rfl
    have hfinds : m.WaiterFinds (.next r env) ↔ m.Finds v env v.stage := by
      simp only [Middleware.WaiterFinds, hv, Option.some.injEq, exists_eq_left']
    rw [Middleware.doubled_setVisit (Middleware.advance_books hadvance).visits,
      Middleware.doubled_split (r := r), hafter, hwaits, hv, hfinds, Option.any_some]
    simp only [or_assoc]
    refine or_congr_right (or_congr_right ?_)
    exact or_comm

/-! The law of the counters. -/

/-- An answer behind a wait counts once more. -/
theorem sum_counted (q : Option Bytes) : ∀ served : List Served, (served.map (Served.counted q)).sum =
    served.countP (fun a => concerns q a.path) + served.countP (fun a => concerns q a.path && a.waited)
  | [] => rfl
  | a :: served => by
    have ih := sum_counted q served
    rw [List.map_cons, List.sum_cons, ih, List.countP_cons, List.countP_cons, Served.counted, share]
    rcases a.waited <;> rcases concerns q a.path <;> simp <;> omega

/-- The request a move is about. -/
def Move.request : Move → Nat
  | .arrive r _ _ _ => r
  | .next r _ => r

/-- A request is moved by its own steps only. -/
theorem visits_of_others : ∀ {moves : List Move} {m n : Middleware}, (∀ a ∈ moves, a.request ≠ r) →
    Runs.run Middleware.step m moves = some n → n.visits r = m.visits r
  | [], _, _, _, h => by
    cases h
    rfl
  | a :: moves, m, n, hother, h => by
    obtain ⟨ha, hrest⟩ := List.forall_mem_cons.mp hother
    simp only [Runs.run] at h
    split at h
    · next t ht =>
      rw [visits_of_others hrest h]
      cases a with
      | arrive i path key sessionKey =>
        obtain ⟨-, rfl⟩ := Middleware.step_arrive ht
        exact (m.replaces_setVisit i _).2 r (Ne.symm ha)
      | next i env =>
        obtain ⟨v, k, o, -, hadvance, rfl⟩ := Middleware.step_next ht
        rw [(k.replaces_setVisit i _).2 r (Ne.symm ha), (Middleware.advance_books hadvance).visits]
    · cases h

/-- Over every run of requests, from any cache and any counts, once no request is under way:
    the hits counted since, altogether and on every path, are the answers from the cache
    exactly where no request that has waited for an owner found its key. -/
theorem hits_are_answers_iff (cache : Cache) (stats : Stats) (moves : List Move) {m : Middleware}
    (hrun : Runs.run Middleware.step { cache := cache, stats := stats } moves = some m)
    (hidle : ∀ r, m.visits r = none) :
    (m.stats.hits - stats.hits = m.served.length ∧ ∀ path, path ≠ [] →
      (m.stats.pathStat path).hits - (stats.pathStat path).hits =
        m.served.countP (fun a => trimSpace a.path = path)) ↔
      Runs.Meets Middleware.step (fun m a => ¬ m.WaiterFinds a) { cache := cache, stats := stats } moves := by
  have hbooked : m.Booked stats := by
    refine Runs.run_inv (fun _ _ _ hb h => hb.step h) moves ?_ hrun
    exact ⟨∅, fun _ _ => rfl, fun q _ => by simp [Middleware.due, total]⟩
  have hcount : ∀ q, q ≠ some [] → m.stats.hitsOn q - stats.hitsOn q =
      m.served.countP (fun a => concerns q a.path) + m.served.countP (fun a => concerns q a.path && a.waited) := by
    intro q hq
    obtain ⟨ids, -, hdue⟩ := hbooked
    have h := hdue q hq
    rw [total_idle hidle, Middleware.due, sum_counted] at h
    omega
  have hclean : ¬ Middleware.Doubled { cache := cache, stats := stats } := by
    rintro (⟨a, ha, -⟩ | ⟨r, v, hv, -⟩)
    · cases ha
    · cases hv
  have hexact := Runs.run_exact (P := fun m => ¬ m.Doubled) (L := Middleware.Doubled)
    (C := fun m a => ¬ m.WaiterFinds a) (fun s a t hs h => ?_) (fun s a t hs h => ?_) moves hclean hrun
  · rcases hexact with ⟨hmeets, hclear⟩ | ⟨hmeets, hdoubled⟩
    · -- no answer behind a wait
      refine iff_of_true ?_ hmeets
      have hnone : ∀ q, m.served.countP (fun a => concerns q a.path && a.waited) = 0 := by
        intro q
        refine List.countP_eq_zero.mpr fun a ha hboth => hclear (Or.inl ⟨a, ha, ?_⟩)
        exact (Bool.and_eq_true _ _ ▸ hboth).2
      constructor
      · have hall := hcount none (by simp)
        rw [hnone] at hall
        simpa [concerns, Stats.hitsOn] using hall
      · intro path hpath
        have hone := hcount (some path) (by simpa using hpath)
        rw [hnone] at hone
        simpa [concerns, Stats.hitsOn] using hone
    · refine iff_of_false (fun hlaw => ?_) hmeets
      rcases hdoubled with ⟨a, ha, hwaited⟩ | ⟨r, v, hv, -⟩
      · have hall := hcount none (by simp)
        have hpos : 0 < m.served.countP (fun a => concerns none a.path && a.waited) :=
          List.countP_pos_iff.mpr ⟨a, ha, hwaited⟩
        have hlength : m.served.countP (fun a => concerns none a.path) = m.served.length := by simp [concerns]
        have hglobal := hlaw.1
        rw [hlength] at hall
        simp only [Stats.hitsOn] at hall
        omega
      · rw [hidle r] at hv
        cases hv
  · have hstep := Middleware.doubled_step h
    by_cases hfinds : s.WaiterFinds a
    · exact Or.inr ⟨fun hno => hno hfinds, hstep.mpr (Or.inr hfinds)⟩
    · exact Or.inl ⟨hfinds, fun ht => (hstep.mp ht).elim hs hfinds⟩
  · exact (Middleware.doubled_step h).mpr (Or.inl hs)

def chatPath : Bytes := lit "/v1/chat/completions"

/-- A response that can be cached. -/
def sampleResponse : Entry := ⟨200, [], lit "{}", zeroTime⟩

/-- A request that misses, runs upstream and stores its response, and one that comes later. -/
def oneAfterTheOther : List Move :=
  [.arrive 0 chatPath sampleKey []] ++ List.replicate 3 (.next 0 {}) ++
    [.next 0 { response := some sampleResponse }] ++ List.replicate 4 (.next 0 {}) ++
    [.arrive 1 chatPath sampleKey []] ++ List.replicate 2 (.next 1 {})

theorem hits_are_answers_in_turn : ∃ m,
    Runs.run Middleware.step { cache := smallCache } oneAfterTheOther = some m ∧ (∀ r, m.visits r = none) ∧
      ((m.stats.hits - 0 = m.served.length ∧ ∀ path, path ≠ [] →
        (m.stats.pathStat path).hits - 0 = m.served.countP (fun a => trimSpace a.path = path)) ↔
        Runs.Meets Middleware.step (fun m a => ¬ m.WaiterFinds a) { cache := smallCache } oneAfterTheOther) := by
  have hsome : (Runs.run Middleware.step { cache := smallCache } oneAfterTheOther).any (fun m =>
      (m.visits 0).isNone && (m.visits 1).isNone) = true := by decide +kernel
  obtain ⟨m, hrun, hboth⟩ := (Option.any_eq_true _ _).mp hsome
  rw [Bool.and_eq_true, Option.isNone_iff_eq_none, Option.isNone_iff_eq_none] at hboth
  have hidle : ∀ r, m.visits r = none := by
    intro r
    by_cases h0 : r = 0
    · rw [h0, hboth.1]
    by_cases h1 : r = 1
    · rw [h1, hboth.2]
    have hother : ∀ a ∈ oneAfterTheOther, a.request = 0 ∨ a.request = 1 := by decide
    refine visits_of_others (fun a ha => ?_) hrun
    rcases hother a ha with heq | heq <;> omega
  exact ⟨m, hrun, hidle, hits_are_answers_iff smallCache {} oneAfterTheOther hrun hidle⟩

/-- Two requests for one key at once: the second waits for the first. -/
def twoAtOnce : List Move :=
  [.arrive 0 chatPath sampleKey []] ++ List.replicate 3 (.next 0 {}) ++
    [.arrive 1 chatPath sampleKey []] ++ List.replicate 3 (.next 1 {}) ++
    [.next 0 { response := some sampleResponse }] ++ List.replicate 4 (.next 0 {}) ++
    List.replicate 4 (.next 1 {})

/-- One request is answered from the cache, and two hits are counted. -/
theorem waiter_counted_twice :
    (Runs.run Middleware.step { cache := smallCache } twoAtOnce).map (fun m =>
      ((m.visits 0).isNone && (m.visits 1).isNone, m.served.length, m.stats.hits, (m.stats.pathStat chatPath).hits)) =
        some (true, 1, 2, 2) := by
  decide +kernel

end DeepSeekWebToApi.ResponseCache
