import DeepSeekWebToApi.ResponseCache.ReadYourWrites

/- Concurrent calls of the response cache. A `Get` is a locked probe of memory, a read of
   the file and a locked fill; a `Set` is a locked put, a write of the file, which may fail,
   the enforcement of the disk limit behind a write, and the sweep of the disk
   (`get_eq_steps`, `set_eq_steps`: run alone, the steps are the call). Any thread may
   take its next step at any time; the clock is read with the first step of a call. A `Get`
   expects an entry if the `Set` of its key that started last has returned, no other one
   starts before the `Get` returns, and the entry has not expired by then. A reader that
   fills memory with what it read before a `Set` undoes that `Set`;
   `answers_expected` names the steps a run must avoid. -/
namespace DeepSeekWebToApi.ResponseCache
open GoStrings

/-- The locked part of `getWithPolicy`. -/
def Cache.probe (c : Cache) (key : Bytes) (now : Int) : Cache × Option Entry :=
  let c := c.sweepMemoryLocked now
  match c.items.get key with
  | some item =>
    if item.live now then (c.bumpMemoryExpiryLocked key now, some item.entry)
    else (c.drop key item, none)
  | none => (c, none)

variable {key : Bytes}

theorem Cache.get_eq_steps (c : Cache) (hkey : normalizeKey key ≠ []) (call : Call) : c.get key call =
      match c.probe (normalizeKey key) call.now with
      | (c, some entry) => (c, some entry)
      | (c, none) => c.lookupDisk (normalizeKey key) call := by
  rw [Cache.get, if_neg hkey, Cache.probe]
  cases hitem : (c.sweepMemoryLocked call.now).items.get (normalizeKey key) with
  | none => simp only [hitem]
  | some item =>
    simp only [hitem]
    cases item.live call.now <;> rfl

theorem Cache.set_eq_steps (c : Cache) {key sessionKey : Bytes} {entry : Entry}
    (hkey : normalizeKey key ≠ []) (hcache : entry.cacheable c.maxBody = true) (call : Call) :
    c.set key sessionKey entry call =
      (((c.putMemoryWithPolicySession (normalizeKey key) sessionKey (c.stamped entry call.now)
        call).putDisk (normalizeKey key) (c.stamped entry call.now) call).enforceDiskLimit
          call).maybeSweepDisk call.now := by
  rw [Cache.set, if_neg (by simp [hkey, hcache])]

/-- A call between two of its steps. -/
inductive Pending where
  | reading (key : Bytes) (now : Int) (expected : Option Entry)
  | filling (key : Bytes) (now : Int) (entry : Entry) (expected : Option Entry)
  | writing (key : Bytes) (entry : Entry) (call : Call)
  | limiting (key : Bytes) (call : Call)
  | sweeping (key : Bytes) (call : Call)

/-- The `Set` of a key that started last, its thread until it returns, and whether its file is
    written. -/
structure Latest where
  entry : Entry
  writer : Option Nat
  written : Bool

/-- The thread has written its file. -/
def Latest.wrote (tid : Nat) (l : Latest) : Latest :=
  if l.writer = some tid then { l with written := true } else l

def Latest.returned (tid : Nat) (l : Latest) : Latest :=
  if l.writer = some tid then { l with writer := none } else l

/-- An answer of a `Get`: what it expects and what it gives. -/
structure Answer where
  expected : Option Entry
  result : Option Entry

structure Shared where
  cache : Cache
  clock : Int
  threads : Nat → Option Pending := fun _ => none
  latest : Bytes → Option Latest := fun _ => none
  answers : List Answer := []

inductive Action where
  | startGet (tid : Nat) (key : Bytes) (now : Int)
  | readDisk (tid : Nat)
  | fill (tid : Nat) (tie : Bytes → Nat)
  | startSet (tid : Nat) (key sessionKey : Bytes) (entry : Entry) (call : Call)
  | writeDisk (tid : Nat) (succeeds : Bool)
  | limitDisk (tid : Nat)
  | sweepDisk (tid : Nat)

def Shared.setThread (w : Shared) (tid : Nat) (p : Option Pending) : Shared :=
  { w with threads := fun t => if t = tid then p else w.threads t }

def Shared.setLatest (w : Shared) (key : Bytes) (l : Option Latest) : Shared :=
  { w with latest := fun k => if k = key then l else w.latest k }

/-- The entry a `Get` that starts now expects. -/
def Shared.expects (w : Shared) (key : Bytes) : Option Entry :=
  (w.latest key).bind (fun l => if l.writer = none then some l.entry else none)

/-- A `Get` returns; an entry that has expired is not expected any more. -/
def Shared.answer (w : Shared) (expected result : Option Entry) : Shared :=
  { w with answers := w.answers ++ [⟨expected.filter (fun e => w.clock < e.diskExpiresAt), result⟩] }

/-- A `Set` that starts ends what the calls under way expect of its key. -/
def Pending.forget (key : Bytes) : Pending → Pending
  | .reading k now expected => .reading k now (if k = key then none else expected)
  | .filling k now entry expected => .filling k now entry (if k = key then none else expected)
  | p => p

/-- One step of one thread; a `Set` is of an entry the cache accepts and memory takes. -/
def Shared.step (w : Shared) : Action → Option Shared
  | .startGet tid key now =>
    if now < w.clock ∨ (w.threads tid).isSome ∨ normalizeKey key = [] then none
    else
      let key := normalizeKey key
      match w.cache.probe key now with
      | (c, some entry) =>
        some (Shared.answer { w with cache := c, clock := now } (w.expects key) (some entry))
      | (c, none) =>
        some (Shared.setThread { w with cache := c, clock := now } tid
          (some (.reading key now (w.expects key))))
  | .readDisk tid =>
    match w.threads tid with
    | some (.reading key now expected) =>
      match w.cache.getDisk key now with
      | (c, none) => some (Shared.answer ({ w with cache := c }.setThread tid none) expected none)
      | (c, some entry) =>
        some ({ w with cache := c }.setThread tid (some (.filling key now entry expected)))
    | _ => none
  | .fill tid tie =>
    match w.threads tid with
    | some (.filling key now entry expected) =>
      let c := w.cache.putMemoryWithPolicySession key [] entry { now := now, tie := tie }
      some (Shared.answer ({ w with cache := c }.setThread tid none) expected (some entry))
    | _ => none
  | .startSet tid key sessionKey entry call =>
    let e := w.cache.stamped entry call.now
    if call.now < w.clock ∨ (w.threads tid).isSome ∨ normalizeKey key = [] ∨
        entry.cacheable w.cache.maxBody = false ∨ ¬ w.cache.Takes e call.now then none
    else
      let key := normalizeKey key
      let w := { w with
        cache := w.cache.putMemoryWithPolicySession key sessionKey e call
        clock := call.now
        threads := fun t => (w.threads t).map (Pending.forget key) }
      some ((w.setThread tid (some (.writing key e call))).setLatest key (some ⟨e, some tid, false⟩))
  | .writeDisk tid succeeds =>
    match w.threads tid with
    | some (.writing key entry call) =>
      if succeeds then
        some ((Shared.setThread { w with cache := w.cache.putDisk key entry call } tid
          (some (.limiting key call))).setLatest key ((w.latest key).map (Latest.wrote tid)))
      else some (w.setThread tid (some (.sweeping key call)))
    | _ => none
  | .limitDisk tid =>
    match w.threads tid with
    | some (.limiting key call) =>
      some (Shared.setThread { w with cache := w.cache.enforceDiskLimit call } tid
        (some (.sweeping key call)))
    | _ => none
  | .sweepDisk tid =>
    match w.threads tid with
    | some (.sweeping key call) =>
      some ((Shared.setThread { w with cache := w.cache.maybeSweepDisk call.now } tid none).setLatest
        key ((w.latest key).map (Latest.returned tid)))
    | _ => none

/-- Every `Get` gave what it expects. -/
def Shared.Answered (w : Shared) : Prop :=
  ∀ a ∈ w.answers, ∀ e, a.expected = some e → ∃ entry, a.result = some entry ∧ entry.IsCopyOf e

/-- The files of the latest entries are still in the directory of the cache. -/
def Shared.Survive (w : Shared) (c : Cache) : Prop :=
  ∀ kv ∈ w.cache.files, ∀ l ∈ w.latest kv.1, l.written = true →
    w.clock < unix l.entry.diskExpiresAt * second → (c.files.get kv.1).isSome = true

/-- The next step of a call is in order: no file is read in the last fraction of a second of the
    latest entry, a fill brings nothing but the latest entry into memory, no file is written
    once the latest `Set` of its key has written, and the files of the latest entries survive the
    limit and the sweep of the disk. -/
def Pending.Ordered (w : Shared) : Pending → Prop
  | .reading key _ _ => ∀ l ∈ w.latest key,
    w.clock < unix l.entry.diskExpiresAt * second ∨ l.entry.diskExpiresAt ≤ w.clock
  | .filling key now entry _ => ∀ l ∈ w.latest key, w.cache.Takes entry now → entry.IsCopyOf l.entry
  | .writing key _ _ => ∀ l ∈ w.latest key, l.written = false
  | .limiting _ call => w.Survive (w.cache.enforceDiskLimit call)
  | .sweeping _ call => w.Survive (w.cache.maybeSweepDisk call.now)

/-- The call is not the latest `Set` of its key. -/
def Pending.Overtaken (w : Shared) (tid : Nat) : Pending → Prop
  | .writing key _ _ => ∀ l ∈ w.latest key, l.writer ≠ some tid
  | _ => True

/-- A step is in order; a `Set` starts with an entry that can be read back from its file, and the
    write of the latest one does not fail. -/
def Ordered (w : Shared) : Action → Prop
  | .startGet _ _ _ => True
  | .startSet _ _ _ entry call =>
    (w.cache.stamped entry call.now).restored.cacheable w.cache.maxBody = true
  | .writeDisk tid false => ∀ p ∈ w.threads tid, p.Overtaken w tid
  | .readDisk tid | .fill tid _ | .writeDisk tid true | .limitDisk tid | .sweepDisk tid =>
    ∀ p ∈ w.threads tid, p.Ordered w

instance (w : Shared) : ∀ p : Pending, Decidable (p.Ordered w)
  | .reading _ _ _ | .filling _ _ _ _ | .writing _ _ _ | .limiting _ _ | .sweeping _ _ => by
    unfold Pending.Ordered Shared.Survive
    infer_instance

instance (w : Shared) (tid : Nat) : ∀ p : Pending, Decidable (p.Overtaken w tid)
  | .writing _ _ _ | .reading _ _ _ | .filling _ _ _ _ | .limiting _ _ | .sweeping _ _ => by
    unfold Pending.Overtaken
    infer_instance

instance (w : Shared) : ∀ a, Decidable (Ordered w a)
  | .startGet _ _ _ | .startSet _ _ _ _ _ | .readDisk _ | .fill _ _ | .writeDisk _ true
  | .writeDisk _ false | .limitDisk _ | .sweepDisk _ => by
    unfold Ordered
    infer_instance

/-! The steps on the cache. -/

theorem Cache.Keeps.probe (c : Cache) (key : Bytes) (now : Int) : c.Keeps (c.probe key now).1 := by
  have hsweep := Cache.Keeps.sweep c now
  rw [Cache.probe]
  cases hitem : (c.sweepMemoryLocked now).items.get key with
  | none =>
    exact hsweep
  | some item =>
    dsimp only
    split_ifs
    · exact hsweep.trans (.bump _ key now)
    · exact hsweep.trans (.drop _ key item)

variable {c : Cache}

theorem Cache.Holds.probe {E : Bytes → Entry → Prop} (h : c.Holds E) {now : Int} {entry : Entry}
    (hentry : (c.probe key now).2 = some entry) : E key entry := by
  have hsweep := (Cache.Keeps.sweep c now).holds E h
  rw [Cache.probe] at hentry
  cases hitem : (c.sweepMemoryLocked now).items.get key with
  | none =>
    simp only [hitem] at hentry
    cases hentry
  | some item =>
    simp only [hitem] at hentry
    split_ifs at hentry
    obtain rfl := Option.some.inj hentry
    exact hsweep.entries key item hitem

/-- Reading a file removes no other file, nor the file itself if it can be used. -/
theorem Cache.getDisk_keeps_file (hs : c.FilesSorted) {key k : Bytes} {now : Int} {file : DiskFile}
    (hget : c.files.get k = some file) (husable : k = key → file.record.usable key c.maxBody now = true) :
    (c.getDisk key now).1.files.get k = some file := by
  rw [Cache.getDisk]
  split_ifs
  · exact hget
  · cases hfile : c.files.get key with
    | none => exact hget
    | some file' =>
      dsimp only
      split_ifs with h
      · exact hget
      · have hsorted : c.files.Sorted := hs c.dir
        rw [Cache.files_setFiles, KeyMap.get_erase]
        have hk : k ≠ key := by
          rintro rfl
          obtain rfl := Option.some.inj (hget.symm.trans hfile)
          exact h (husable rfl)
        rw [if_neg (Ne.symm hk)]
        exact hget

theorem Cache.putDisk_frame (hdir : c.dir ≠ []) (hs : c.FilesSorted) (key : Bytes) (entry : Entry) (call : Call) :
    (c.putDisk key entry call).items = c.items ∧ (c.putDisk key entry call).dir = c.dir ∧
      (c.putDisk key entry call).maxBody = c.maxBody ∧ (c.putDisk key entry call).FilesSorted ∧
      ∀ k, (c.putDisk key entry call).files.get k =
        if key = k then some ⟨entry.record key call.now, call.fileSize, call.modTime⟩
        else c.files.get k := by
  rw [Cache.putDisk, if_neg hdir]
  refine ⟨rfl, rfl, rfl, hs.setFiles (hs c.dir).insert, fun k => ?_⟩
  rw [Cache.files_setFiles, KeyMap.get_insert]

theorem Entry.record_usable {e : Entry} {t now maxBody : Int} (hnow : now < unix e.diskExpiresAt * second)
    (hcache : e.restored.cacheable maxBody = true) : (e.record key t).usable key maxBody now = true := by
  simp only [DiskRecord.usable, Bool.and_eq_true, decide_eq_true_eq]
  exact ⟨⟨⟨rfl, beq_self_eq_true key⟩, hnow⟩, hcache⟩

/-! What holds of every state of a run whose steps are in order. -/

/-- What is known of a call under way. -/
def Pending.Sound (w : Shared) : Pending → Prop
  | .reading key now expected => now ≤ w.clock ∧ ∀ e ∈ expected, w.latest key = some ⟨e, none, true⟩
  | .filling _ _ entry expected => ∀ e ∈ expected, entry.IsCopyOf e ∨ e.diskExpiresAt ≤ w.clock
  | _ => True

/-- What is known of the latest `Set` of a key: its entry can be read back, and its thread is going to
    write the file or the file is there up to the last second. -/
structure Latest.Sound (w : Shared) (key : Bytes) (l : Latest) : Prop where
  readable : l.entry.restored.cacheable w.cache.maxBody = true
  file : l.written = true → w.clock < unix l.entry.diskExpiresAt * second →
    ∃ file t, w.cache.files.get key = some file ∧ file.record = l.entry.record key t
  writing : l.written = false → ∃ tid call, l.writer = some tid ∧
    w.threads tid = some (.writing key l.entry call)

/-- What memory may hold. -/
def copyOf (latest : Bytes → Option Latest) (key : Bytes) (entry : Entry) : Prop :=
  ∀ l ∈ latest key, entry.IsCopyOf l.entry

structure Shared.Inv (w : Shared) : Prop where
  dir : w.cache.dir ≠ []
  files : w.cache.FilesSorted
  memory : w.cache.Holds (copyOf w.latest)
  latest : ∀ key l, w.latest key = some l → l.Sound w key
  threads : ∀ tid p, w.threads tid = some p → p.Sound w
  answered : w.Answered

variable {w : Shared}

theorem Shared.Inv.expects (h : w.Inv) {e : Entry} (he : w.expects key = some e) :
    w.latest key = some ⟨e, none, true⟩ := by
  obtain ⟨⟨entry, writer, written⟩, hl, hif⟩ := Option.bind_eq_some_iff.mp he
  split_ifs at hif with hw
  obtain rfl := Option.some.inj hif
  obtain rfl : writer = none := hw
  cases written with
  | true => exact hl
  | false =>
    obtain ⟨tid, -, htid, -⟩ := (h.latest key _ hl).writing rfl
    cases htid

theorem Latest.wrote_entry (tid : Nat) (l : Latest) : (l.wrote tid).entry = l.entry := by
  unfold Latest.wrote
  split_ifs <;> rfl

theorem Latest.returned_entry (tid : Nat) (l : Latest) : (l.returned tid).entry = l.entry := by
  unfold Latest.returned
  split_ifs <;> rfl

/-- The latest `Set` of a key stays the latest. -/
theorem Shared.latest_of_set {f : Latest → Latest} (hf : ∀ l, (f l).entry = l.entry) {k key : Bytes}
    {l : Latest} (hl : (w.setLatest key ((w.latest key).map f)).latest k = some l) :
    ∃ l', w.latest k = some l' ∧ l.entry = l'.entry := by
  by_cases hk : k = key
  · subst hk
    obtain ⟨l', hl', rfl⟩ := Option.map_eq_some_iff.mp ((if_pos rfl).symm.trans hl)
    exact ⟨l', hl', hf l'⟩
  · exact ⟨l, (if_neg hk).symm.trans hl, rfl⟩

theorem Shared.Answered.answer (h : w.Answered) {expected result : Option Entry}
    (hnew : ∀ e, expected = some e → w.clock < e.diskExpiresAt →
      ∃ entry, result = some entry ∧ entry.IsCopyOf e) :
    (w.answer expected result).Answered := by
  intro a ha e he
  rcases List.mem_append.mp ha with ha | ha
  · exact h a ha e he
  · obtain rfl := List.mem_singleton.mp ha
    obtain ⟨hexp, hclock⟩ := Option.filter_eq_some_iff.mp he
    exact hnew e hexp (of_decide_eq_true hclock)

variable {w v : Shared}

/-- What is known of the latest `Set` stays known while its file and its writer stay. -/
theorem Latest.Sound.mono {l : Latest} (h : l.Sound w key) (hmax : v.cache.maxBody = w.cache.maxBody)
    (hclock : w.clock ≤ v.clock)
    (hfile : l.written = true → v.clock < unix l.entry.diskExpiresAt * second → ∀ file t,
      w.cache.files.get key = some file → file.record = l.entry.record key t →
        v.cache.files.get key = some file)
    (hwriter : ∀ tid call, w.threads tid = some (.writing key l.entry call) →
      v.threads tid = some (.writing key l.entry call)) :
    l.Sound v key where
  readable := hmax ▸ h.readable
  file := by
    intro hw hv
    obtain ⟨file, t, hget, hrec⟩ := h.file hw (by omega)
    exact ⟨file, t, hfile hw hv file t hget hrec, hrec⟩
  writing := by
    intro hw
    obtain ⟨tid, call, htid, hcall⟩ := h.writing hw
    exact ⟨tid, call, htid, hwriter tid call hcall⟩

theorem Pending.Sound.mono {p : Pending} (h : p.Sound w) (hclock : w.clock ≤ v.clock)
    (hlatest : ∀ key now e, p = .reading key now (some e) → w.latest key = some ⟨e, none, true⟩ →
      v.latest key = some ⟨e, none, true⟩) :
    p.Sound v := by
  cases p with
  | reading key now expected =>
    refine ⟨h.1.trans hclock, fun e he => hlatest key now e ?_ (h.2 e he)⟩
    rw [Option.mem_def.mp he]
  | filling key now entry expected => exact fun e he => (h e he).imp_right fun hexp => hexp.trans hclock
  | _ => trivial

variable {tid : Nat}

/-- A step that changes one thread, which is not to write a file, starts no `Set` and keeps the files
    of the latest entries. -/
theorem Shared.Inv.of_read_step (h : w.Inv) (hclock : w.clock ≤ v.clock) (hlatest : v.latest = w.latest)
    (hthreads : ∀ t, t ≠ tid → v.threads t = w.threads t)
    (hreader : ∀ k e call, w.threads tid ≠ some (.writing k e call)) (hdir : v.cache.dir = w.cache.dir)
    (hmax : v.cache.maxBody = w.cache.maxBody) (hsorted : v.cache.FilesSorted)
    (hmemory : v.cache.Holds (copyOf w.latest)) (hfile : ∀ k l, w.latest k = some l → l.written = true →
      w.clock < unix l.entry.diskExpiresAt * second → ∀ file t, w.cache.files.get k = some file →
        file.record = l.entry.record k t → v.cache.files.get k = some file)
    (hown : ∀ p, v.threads tid = some p → p.Sound v) (hanswered : v.Answered) : v.Inv where
  dir := hdir ▸ h.dir
  files := hsorted
  memory := hlatest ▸ hmemory
  latest := by
    intro k l hl
    rw [hlatest] at hl
    refine (h.latest k l hl).mono hmax hclock (fun hw hv => hfile k l hl hw (by omega))
      fun t call ht => ?_
    have hne : t ≠ tid := by
      rintro rfl
      exact hreader _ _ _ ht
    exact (hthreads t hne).trans ht
  threads := by
    intro t p hp
    by_cases ht : t = tid
    · exact hown p (ht ▸ hp)
    · exact (h.threads t p ((hthreads t ht).symm.trans hp)).mono hclock fun _ _ _ _ hl => hlatest ▸ hl
  answered := hanswered

theorem Shared.Inv.startGet (h : w.Inv) {now : Int} (hstep : w.step (.startGet tid key now) = some v) : v.Inv := by
  rw [Shared.step] at hstep
  split_ifs at hstep with hguard
  push Not at hguard
  obtain ⟨hclock, hidle, -⟩ := hguard
  have hidle : w.threads tid = none := by simpa using hidle
  have hreader : ∀ k e call, w.threads tid ≠ some (.writing k e call) := by simp [hidle]
  have hkeep := Cache.Keeps.probe w.cache (normalizeKey key) now
  have hentry : ∀ entry, (w.cache.probe (normalizeKey key) now).2 = some entry →
      copyOf w.latest (normalizeKey key) entry := fun _ => h.memory.probe
  dsimp only at hstep
  cases hprobe : w.cache.probe (normalizeKey key) now with
  | mk c result =>
  rw [hprobe] at hkeep hentry hstep
  have hfiles : c.files = w.cache.files := by rw [Cache.files, Cache.files, hkeep.disk, hkeep.dir]
  have hsorted : c.FilesSorted := fun dir => hkeep.disk ▸ h.files dir
  have hmemory := hkeep.holds _ h.memory
  cases result with
  | some entry =>
    obtain rfl := Option.some.inj hstep
    refine h.of_read_step hclock rfl (fun _ _ => rfl) hreader hkeep.dir hkeep.maxBody hsorted hmemory
      (fun _ _ _ _ _ _ _ hget _ => hfiles ▸ hget) (fun p hp => absurd (hidle.symm.trans hp) (Option.some_ne_none p).symm) ?_
    have hw : Shared.Answered { w with cache := c, clock := now } := h.answered
    exact hw.answer fun e he _ => ⟨entry, rfl, hentry entry rfl _ (h.expects he)⟩
  | none =>
    obtain rfl := Option.some.inj hstep
    refine h.of_read_step hclock rfl (fun _ ht => if_neg ht) hreader hkeep.dir hkeep.maxBody hsorted
      hmemory (fun _ _ _ _ _ _ _ hget _ => hfiles ▸ hget) (fun p hp => ?_) h.answered
    obtain rfl := Option.some.inj ((if_pos rfl).symm.trans hp)
    exact ⟨le_refl now, fun e he => h.expects he⟩

theorem Shared.Inv.readDisk (h : w.Inv) (hord : Ordered w (.readDisk tid))
    (hstep : w.step (.readDisk tid) = some v) : v.Inv := by
  rw [Shared.step] at hstep
  split at hstep
  case h_2 => cases hstep
  rename_i key now expected hthread
  have hreader : ∀ k e call, w.threads tid ≠ some (.writing k e call) := by simp [hthread]
  obtain ⟨hnow, hexpected⟩ := h.threads tid _ hthread
  have hord := hord _ hthread
  have hprune := Cache.Prunes.getDisk w.cache key now
  -- the file of the latest entry is used, and stays
  have husable : ∀ l, w.latest key = some l → w.clock < unix l.entry.diskExpiresAt * second →
      ∀ t, (l.entry.record key t).usable key w.cache.maxBody now = true := fun l hl hv t =>
    Entry.record_usable (by omega) (h.latest key l hl).readable
  have hkept : ∀ k l, w.latest k = some l → l.written = true →
      w.clock < unix l.entry.diskExpiresAt * second → ∀ file t, w.cache.files.get k = some file →
        file.record = l.entry.record k t → (w.cache.getDisk key now).1.files.get k = some file := by
    intro k l hl _ hv file t hget hrec
    refine Cache.getDisk_keeps_file h.files hget ?_
    rintro rfl
    rw [hrec]
    exact husable l hl hv t
  have hresult : ∀ e ∈ expected, w.clock < e.diskExpiresAt →
      (w.cache.getDisk key now).2 = some e.restored := by
    intro e he hexp
    have hl := hexpected e he
    have hv : w.clock < unix e.diskExpiresAt * second := (hord _ hl).resolve_right (not_le.mpr hexp)
    obtain ⟨file, t, hget, hrec⟩ := (h.latest key _ hl).file rfl hv
    exact Cache.getDisk_eq_some_iff.mpr ⟨h.dir, file, hget, hrec ▸ husable _ hl hv t, by rw [hrec]; rfl⟩
  cases hdisk : w.cache.getDisk key now with
  | mk c result =>
  rw [hdisk] at hprune hkept hresult hstep
  have hmemory : c.Holds (copyOf w.latest) :=
    ⟨hprune.items ▸ h.memory.sorted, fun k item hget => h.memory.entries k item (hprune.items ▸ hget)⟩
  cases result with
  | none =>
    obtain rfl := Option.some.inj hstep
    refine h.of_read_step le_rfl rfl (fun _ ht => if_neg ht) hreader hprune.dir hprune.maxBody
      (hprune.sorted h.files) hmemory hkept (fun p hp => absurd ((if_pos rfl).symm.trans hp) (Option.some_ne_none p).symm) ?_
    have hw : Shared.Answered ({ w with cache := c }.setThread tid none) := h.answered
    exact hw.answer fun e he hexp => nomatch hresult e he hexp
  | some entry =>
    obtain rfl := Option.some.inj hstep
    refine h.of_read_step le_rfl rfl (fun _ ht => if_neg ht) hreader hprune.dir hprune.maxBody
      (hprune.sorted h.files) hmemory hkept (fun p hp => ?_) h.answered
    obtain rfl := Option.some.inj ((if_pos rfl).symm.trans hp)
    intro e he
    rcases lt_or_ge w.clock e.diskExpiresAt with hexp | hexp
    · exact .inl (.inr (Option.some.inj (hresult e he hexp)))
    · exact .inr hexp

theorem Shared.Inv.fill (h : w.Inv) {tie : Bytes → Nat} (hord : Ordered w (.fill tid tie))
    (hstep : w.step (.fill tid tie) = some v) : v.Inv := by
  rw [Shared.step] at hstep
  split at hstep
  case h_2 => cases hstep
  rename_i key now entry expected hthread
  obtain rfl := Option.some.inj hstep
  have hreader : ∀ k e call, w.threads tid ≠ some (.writing k e call) := by simp [hthread]
  have hcopy : ∀ e ∈ expected, _ := h.threads tid _ hthread
  have hord : ∀ l ∈ w.latest key, w.cache.Takes entry now → _ := hord _ hthread
  obtain ⟨hdir, hmax, hdisk⟩ := Cache.put_frame w.cache key [] entry { now := now, tie := tie }
  have hfiles : (w.cache.putMemoryWithPolicySession key [] entry { now := now, tie := tie }).files =
      w.cache.files := by rw [Cache.files, Cache.files, hdisk, hdir]
  have hmemory : (w.cache.putMemoryWithPolicySession key [] entry { now := now, tie := tie }).Holds
      (copyOf w.latest) := Cache.holds_put h.memory.sorted
    (fun k item _ hget _ => h.memory.entries k item hget)
    (fun item hget _ _ => h.memory.entries key item hget) (fun htakes l hl => hord l hl htakes) []
  refine h.of_read_step le_rfl rfl (fun _ ht => if_neg ht) hreader hdir hmax
    (fun dir => hdisk.symm ▸ h.files dir) hmemory (fun _ _ _ _ _ _ _ hget _ => hfiles.symm ▸ hget)
    (fun p hp => absurd ((if_pos rfl).symm.trans hp) (Option.some_ne_none p).symm) ?_
  have hw : Shared.Answered (Shared.setThread { w with
    cache := w.cache.putMemoryWithPolicySession key [] entry { now := now, tie := tie } } tid none) :=
    h.answered
  exact hw.answer fun e he hexp => ⟨entry, rfl, (hcopy e he).resolve_right (not_le.mpr hexp)⟩

theorem Pending.Sound.forget {p : Pending} (h : p.Sound w) (hclock : w.clock ≤ v.clock)
    (hlatest : ∀ k, k ≠ key → v.latest k = w.latest k) : (p.forget key).Sound v := by
  cases p with
  | writing | limiting | sweeping => trivial
  | filling k now entry expected =>
    intro e he
    by_cases hk : k = key
    · simp [hk] at he
    · rw [if_neg hk] at he
      exact (h e he).imp_right fun hexp => hexp.trans hclock
  | reading k now expected =>
    refine ⟨h.1.trans hclock, fun e he => ?_⟩
    by_cases hk : k = key
    · simp [hk] at he
    · rw [if_neg hk] at he
      exact (hlatest k hk).trans (h.2 e he)

theorem Shared.Inv.startSet (h : w.Inv) {key sessionKey : Bytes} {entry : Entry} {call : Call}
    (hord : Ordered w (.startSet tid key sessionKey entry call))
    (hstep : w.step (.startSet tid key sessionKey entry call) = some v) : v.Inv := by
  rw [Shared.step] at hstep
  dsimp only at hstep
  split_ifs at hstep with hguard
  push Not at hguard
  obtain ⟨hclock, hidle, -, -, htakes⟩ := hguard
  have hidle : w.threads tid = none := by simpa using hidle
  obtain rfl := Option.some.inj hstep
  generalize he : w.cache.stamped entry call.now = e at *
  have hreadable : e.restored.cacheable w.cache.maxBody = true := he ▸ hord
  obtain ⟨hdir, hmax, hdisk⟩ := Cache.put_frame w.cache (normalizeKey key) sessionKey e call
  generalize hc : w.cache.putMemoryWithPolicySession (normalizeKey key) sessionKey e call = c at *
  have hfiles : c.files = w.cache.files := by rw [Cache.files, Cache.files, hdisk, hdir]
  refine ⟨hdir ▸ h.dir, fun dir => hdisk.symm ▸ h.files dir, ?_, ?_, ?_, h.answered⟩
  · show c.Holds _
    rw [← hc]
    refine Cache.holds_put h.memory.sorted (fun k item hk hget _ l hl => ?_)
      (fun _ _ _ hno => absurd htakes hno) (fun _ l hl => ?_) sessionKey
    · exact h.memory.entries k item hget l ((if_neg hk).symm.trans hl)
    · obtain rfl := Option.some.inj ((if_pos rfl).symm.trans hl)
      exact .inl rfl
  · intro k l hl
    by_cases hk : k = normalizeKey key
    · obtain rfl := Option.some.inj ((if_pos hk).symm.trans hl)
      exact {
        readable := hmax.symm ▸ hreadable
        file := fun hno => absurd hno Bool.false_ne_true
        writing := fun _ => ⟨tid, call, rfl, (if_pos rfl).trans (by rw [hk])⟩ }
    · refine (h.latest k l ((if_neg hk).symm.trans hl)).mono hmax hclock
        (fun _ _ file t hget _ => hfiles ▸ hget) fun t call' ht => ?_
      have hne : t ≠ tid := by
        rintro rfl
        cases hidle.symm.trans ht
      exact (if_neg hne).trans (congrArg (Option.map (Pending.forget (normalizeKey key))) ht)
  · intro t p hp
    by_cases ht : t = tid
    · obtain rfl := Option.some.inj ((if_pos ht).symm.trans hp)
      trivial
    · obtain ⟨q, hq, rfl⟩ := Option.map_eq_some_iff.mp ((if_neg ht).symm.trans hp)
      exact (h.threads t q hq).forget hclock fun k hk => if_neg hk

theorem Shared.Inv.writeDisk (h : w.Inv) {succeeds : Bool} (hord : Ordered w (.writeDisk tid succeeds))
    (hstep : w.step (.writeDisk tid succeeds) = some v) : v.Inv := by
  rw [Shared.step] at hstep
  split at hstep
  case h_2 => cases hstep
  rename_i key entry call hthread
  cases succeeds with
  | false =>
    have hord : ∀ l ∈ w.latest key, l.writer ≠ some tid := hord _ hthread
    obtain rfl := Option.some.inj hstep
    refine ⟨h.dir, h.files, h.memory, fun k l hl => ?_, fun t p hp => ?_, h.answered⟩
    · have hsound := h.latest k l hl
      refine ⟨hsound.readable, hsound.file, fun hw => ?_⟩
      obtain ⟨t, call', hwriter, hcall⟩ := hsound.writing hw
      have hne : t ≠ tid := by
        rintro rfl
        obtain ⟨rfl, -⟩ := Pending.writing.inj (Option.some.inj (hthread.symm.trans hcall))
        exact hord l hl hwriter
      exact ⟨t, call', hwriter, (if_neg hne).trans hcall⟩
    · by_cases ht : t = tid
      · obtain rfl := Option.some.inj ((if_pos ht).symm.trans hp)
        trivial
      · exact (h.threads t p ((if_neg ht).symm.trans hp)).mono le_rfl fun _ _ _ _ hl => hl
  | true =>
    have hord : ∀ l ∈ w.latest key, l.written = false := hord _ hthread
    obtain rfl := Option.some.inj hstep
    obtain ⟨hitems, hdir, hmax, hsorted, hget⟩ := Cache.putDisk_frame h.dir h.files key entry call
    generalize w.cache.putDisk key entry call = c at *
    refine ⟨hdir ▸ h.dir, hsorted, ?_, fun k l hl => ?_, fun t p hp => ?_, h.answered⟩
    · refine ⟨hitems.symm ▸ h.memory.sorted, fun k item hitem l hl => ?_⟩
      obtain ⟨l', hl', hentry⟩ := Shared.latest_of_set (fun l => Latest.wrote_entry tid l) hl
      exact hentry ▸ h.memory.entries k item (hitems ▸ hitem) l' hl'
    · by_cases hk : k = key
      · subst hk
        obtain ⟨l', hl', rfl⟩ := Option.map_eq_some_iff.mp ((if_pos rfl).symm.trans hl)
        have hsound := h.latest k l' hl'
        obtain ⟨t, call', hwriter, hcall⟩ := hsound.writing (hord l' hl')
        rw [Latest.wrote]
        split_ifs with hown
        · -- the thread is the one of the latest `Set`, so this is its entry
          obtain rfl := Option.some.inj (hwriter.symm.trans hown)
          obtain ⟨-, rfl, -⟩ := Pending.writing.inj (Option.some.inj (hthread.symm.trans hcall))
          exact ⟨hmax.symm ▸ hsound.readable, fun _ _ => ⟨_, call.now, (hget k).trans (if_pos rfl), rfl⟩,
            fun hno => absurd hno Bool.noConfusion⟩
        · have hne : t ≠ tid := fun ht => hown (ht ▸ hwriter)
          refine ⟨hmax.symm ▸ hsound.readable, fun hw => ?_, fun _ => ?_⟩
          · rw [hord l' hl'] at hw
            cases hw
          · exact ⟨t, call', hwriter, (if_neg hne).trans hcall⟩
      · refine (h.latest k l ((if_neg hk).symm.trans hl)).mono hmax le_rfl (fun _ _ file t hfile _ => ?_)
          fun t call' ht => ?_
        · exact (hget k).trans ((if_neg (Ne.symm hk)).trans hfile)
        · have hne : t ≠ tid := by
            rintro rfl
            exact hk (Pending.writing.inj (Option.some.inj (hthread.symm.trans ht))).1.symm
          exact (if_neg hne).trans ht
    · by_cases ht : t = tid
      · obtain rfl := Option.some.inj ((if_pos ht).symm.trans hp)
        trivial
      · refine (h.threads t p ((if_neg ht).symm.trans hp)).mono le_rfl fun k now e _ hl => ?_
        have hk : k ≠ key := by
          rintro rfl
          cases hord _ hl
        exact (if_neg hk).trans hl

/-- A step that takes files away, but none of a latest entry. -/
theorem Shared.Inv.prune (h : w.Inv) (hprune : w.cache.Prunes c) (hsurvive : w.Survive c)
    (hwriter : ∀ k e call, w.threads tid ≠ some (.writing k e call)) {p : Option Pending}
    (hp : ∀ q, p = some q → ∀ v, q.Sound v) : (Shared.setThread { w with cache := c } tid p).Inv := by
  refine h.of_read_step le_rfl rfl (fun _ ht => if_neg ht) hwriter hprune.dir hprune.maxBody
    (hprune.sorted h.files) ?_ (fun k l hl hw hv file t hget _ => ?_) (fun q hq => ?_) h.answered
  · exact ⟨hprune.items ▸ h.memory.sorted, fun k item hget => h.memory.entries k item (hprune.items ▸ hget)⟩
  · have hkept := hsurvive (k, file) (KeyMap.mem_of_get hget) l hl hw hv
    obtain ⟨file', hfile'⟩ := Option.isSome_iff_exists.mp hkept
    rw [hprune.files h.files k file' hfile'] at hget
    exact hget ▸ hfile'
  · exact hp q ((if_pos rfl).symm.trans hq) _

theorem Shared.Inv.limitDisk (h : w.Inv) (hord : Ordered w (.limitDisk tid))
    (hstep : w.step (.limitDisk tid) = some v) : v.Inv := by
  rw [Shared.step] at hstep
  split at hstep
  case h_2 => cases hstep
  rename_i key call hthread
  obtain rfl := Option.some.inj hstep
  refine h.prune (.enforceDiskLimit w.cache call) (hord _ hthread) (by simp [hthread]) ?_
  rintro q ⟨⟩ v
  trivial

/-- A `Set` that is over has written its file, if it is the latest. -/
theorem Shared.Inv.returned (h : w.Inv) (hidle : w.threads tid = none) (key : Bytes) :
    (w.setLatest key ((w.latest key).map (Latest.returned tid))).Inv := by
  refine ⟨h.dir, h.files, ?_, fun k l hl => ?_, fun t p hp => ?_, h.answered⟩
  · refine ⟨h.memory.sorted, fun k item hitem l hl => ?_⟩
    obtain ⟨l', hl', hentry⟩ := Shared.latest_of_set (fun l => Latest.returned_entry tid l) hl
    exact hentry ▸ h.memory.entries k item hitem l' hl'
  · by_cases hk : k = key
    · subst hk
      obtain ⟨l', hl', rfl⟩ := Option.map_eq_some_iff.mp ((if_pos rfl).symm.trans hl)
      have hsound := h.latest k l' hl'
      rw [Latest.returned]
      split_ifs with hown
      · refine ⟨hsound.readable, hsound.file, fun hw => ?_⟩
        obtain ⟨t, call, hwriter, hcall⟩ := hsound.writing hw
        obtain rfl := Option.some.inj (hwriter.symm.trans hown)
        cases hidle.symm.trans hcall
      · exact ⟨hsound.readable, hsound.file, hsound.writing⟩
    · have hsound := h.latest k l ((if_neg hk).symm.trans hl)
      exact ⟨hsound.readable, hsound.file, hsound.writing⟩
  · refine (h.threads t p hp).mono le_rfl fun k now e _ hl => ?_
    by_cases hk : k = key
    · subst hk
      exact (if_pos rfl).trans (by rw [hl]; rfl)
    · exact (if_neg hk).trans hl

theorem Shared.Inv.sweepDisk (h : w.Inv) (hord : Ordered w (.sweepDisk tid))
    (hstep : w.step (.sweepDisk tid) = some v) : v.Inv := by
  rw [Shared.step] at hstep
  split at hstep
  case h_2 => cases hstep
  rename_i key call hthread
  obtain rfl := Option.some.inj hstep
  have hwriter : ∀ k e call, w.threads tid ≠ some (.writing k e call) := by simp [hthread]
  have hswept := h.prune (p := none) (.maybeSweepDisk w.cache call.now) (hord _ hthread) hwriter
    (fun q hq => by cases hq)
  exact hswept.returned (if_pos rfl) key

theorem Shared.Inv.step {a : Action} (h : w.Inv) (hord : Ordered w a) (hstep : w.step a = some v) : v.Inv := by
  cases a with
  | startGet tid key now => exact h.startGet hstep
  | readDisk tid => exact h.readDisk hord hstep
  | fill tid tie => exact h.fill hord hstep
  | startSet tid key sessionKey entry call => exact h.startSet hord hstep
  | writeDisk tid succeeds => exact h.writeDisk hord hstep
  | limitDisk tid => exact h.limitDisk hord hstep
  | sweepDisk tid => exact h.sweepDisk hord hstep

/-- In a run whose steps are all in order, from a cache with a directory, every `Get` gives what it
    expects. -/
theorem answers_expected {c : Cache} (now : Int) (hdir : c.dir ≠ []) (hitems : c.items.Sorted)
    (hfiles : c.FilesSorted) (actions : List Action)
    (hord : Runs.Meets Shared.step Ordered { cache := c, clock := now } actions) :
    Runs.Always Shared.step Shared.Answered { cache := c, clock := now } actions := by
  have hinv : Shared.Inv { cache := c, clock := now } :=
    { dir := hdir
      files := hfiles
      memory := ⟨hitems, fun _ _ _ l hl => nomatch hl⟩
      latest := fun _ l hl => nomatch hl
      threads := fun _ p hp => nomatch hp
      answered := fun a ha => nomatch ha }
  have hrun := Runs.always_of_meets (fun w a v h hc hv => Shared.Inv.step h hc hv) actions _ hinv hord
  exact hrun.mono fun w h => h.answered

/-! A reader that is overtaken. -/

def startSetAt (tid : Nat) (seconds : Int) (body : String) : Action :=
  .startSet tid sampleKey [] ⟨200, [], lit body, zeroTime⟩ { now := seconds * second }

def startGetAt (tid : Nat) (seconds : Int) : Action := .startGet tid sampleKey (seconds * second)

theorem overlap_in_order :
    Runs.Always Shared.step Shared.Answered { cache := smallCache, clock := 0 }
      [startSetAt 0 1 "old", .writeDisk 0 true, .limitDisk 0, .sweepDisk 0, startGetAt 1 2000,
       .readDisk 1, .fill 1 (fun _ => 0), startSetAt 4 2001 "lost", startSetAt 0 2001 "new",
       .writeDisk 4 false, startGetAt 2 2001, .writeDisk 0 true, .sweepDisk 4, .limitDisk 0,
       .sweepDisk 0, startGetAt 2 5000, .readDisk 2, startGetAt 3 5000, .readDisk 3,
       .fill 3 (fun _ => 0), .fill 2 (fun _ => 0)] :=
  @answers_expected smallCache 0 (by decide) List.Pairwise.nil (fun _ => List.Pairwise.nil) _
    (by decide +kernel)

def overtakenReader : List Action :=
  [startSetAt 0 1 "old", .writeDisk 0 true, .limitDisk 0, .sweepDisk 0, startGetAt 1 2000, .readDisk 1,
   startSetAt 0 2001 "new", .writeDisk 0 true, .limitDisk 0, .sweepDisk 0, .fill 1 (fun _ => 0),
   startGetAt 2 2002]

/-- The bodies that were expected and given. -/
def bodies (w : Shared) : List (Option Bytes × Option Bytes) :=
  w.answers.map (fun a => (a.expected.map Entry.body, a.result.map Entry.body))

/-- The file is read before the `Set` and put into memory after it. -/
theorem overtaken_reader_hides_new :
    (Runs.run Shared.step { cache := smallCache, clock := 0 } overtakenReader).map bodies =
      some [(none, some (lit "old")), (some (lit "new"), some (lit "old"))] ∧
    ¬ Runs.Always Shared.step Shared.Answered { cache := smallCache, clock := 0 } overtakenReader := by
  have hrun : (Runs.run Shared.step { cache := smallCache, clock := 0 } overtakenReader).map bodies =
      some [(none, some (lit "old")), (some (lit "new"), some (lit "old"))] := by decide +kernel
  refine ⟨hrun, fun h => ?_⟩
  have hstale : (Runs.run Shared.step { cache := smallCache, clock := 0 } overtakenReader).any (fun w =>
      w.answers.any (fun a => a.expected.any (fun e => a.result.any (fun entry =>
        !decide (entry.IsCopyOf e))))) = true := by decide +kernel
  obtain ⟨w, hw, hany⟩ := (Option.any_eq_true _ _).mp hstale
  obtain ⟨⟨expected, result⟩, ha, hno⟩ := List.any_eq_true.mp hany
  obtain ⟨e, he, hno⟩ := (Option.any_eq_true _ _).mp hno
  obtain ⟨entry, hentry, hno⟩ := (Option.any_eq_true _ _).mp hno
  obtain ⟨entry', hentry', hcopy⟩ := h.final hw _ ha e he
  obtain rfl := Option.some.inj (hentry.symm.trans hentry')
  simp [hcopy] at hno

end DeepSeekWebToApi.ResponseCache
