import DeepSeekWebToApi.Lib.Runs
import DeepSeekWebToApi.ResponseCache.Store

/- Reading one's own writes. A run is a sequence of `Set`, `Get` and `ApplyOptions` calls
   under a clock that does not go back. `Session` keeps beside the cache, for every key,
   the entry its last `Set` stored. An entry comes back from memory as it was stored and
   from disk as `restored`: with whole seconds and the headers that may be replayed. The
   memory layer shadows the disk, and a `Set` whose entry memory does not take leaves the
   older item where it is; `fresh_iff_meets` says that this, and a directory with older
   files, are the only ways to read an older entry. -/
namespace DeepSeekWebToApi.ResponseCache
open GoStrings

/-- An entry that went over the disk. -/
def Entry.restored (e : Entry) : Entry := (e.record [] 0).entry

/-- What a `Get` may give for a stored entry. -/
def Entry.IsCopyOf (copy e : Entry) : Prop := copy = e ∨ copy = e.restored

instance (copy e : Entry) : Decidable (copy.IsCopyOf e) := inferInstanceAs (Decidable (_ ∨ _))

inductive Op where
  | set (key sessionKey : Bytes) (entry : Entry) (call : Call)
  | get (key : Bytes) (call : Call)
  | applyOptions (opts : Options) (now : Int)

def Op.now : Op → Int
  | .set _ _ _ call => call.now
  | .get _ call => call.now
  | .applyOptions _ now => now

structure Session where
  cache : Cache
  now : Int
  latest : KeyMap Entry := []

section
variable (clean : Bytes → Bytes) (defaultDir : Bytes)

/-- The entries last set: a `Set` that the cache does not accept changes nothing. -/
def Session.recorded (w : Session) : Op → KeyMap Entry
  | .set key _ entry call =>
    if normalizeKey key = [] ∨ entry.cacheable w.cache.maxBody = false then w.latest
    else w.latest.insert (normalizeKey key) (w.cache.stamped entry call.now)
  | _ => w.latest

def Cache.exec (c : Cache) : Op → Cache
  | .set key sessionKey entry call => c.set key sessionKey entry call
  | .get key call => (c.get key call).1
  | .applyOptions opts _ => c.applyOptions clean defaultDir opts

def Session.step (w : Session) (op : Op) : Option Session :=
  if op.now < w.now then none else some ⟨w.cache.exec clean defaultDir op, op.now, w.recorded op⟩

/-- From here on, whatever `Get` hits has the entry of the last `Set` of its key. -/
def Session.Fresh (w : Session) : Prop :=
  ∀ key e call entry, w.latest.get (normalizeKey key) = some e → w.now ≤ call.now →
    (w.cache.get key call).2 = some entry → entry.IsCopyOf e

/-- Memory takes the entry: it fits and its lease lies ahead. -/
def Cache.Takes (c : Cache) (entry : Entry) (now : Int) : Prop :=
  ¬ (0 < c.memoryMaxBytes ∧ c.memoryMaxBytes < entry.memorySize) ∧
    now < min entry.diskExpiresAt (now + c.memoryTTL)

/-- The files of the cache's directory that can be read hold the entries last set. -/
def Cache.FilesCurrent (c : Cache) (latest : KeyMap Entry) (now : Int) : Prop :=
  c.dir = [] ∨ ∀ kv ∈ latest, ∀ file ∈ c.files.get kv.1,
    file.record.usable kv.1 c.maxBody now = true → file.record.entry.IsCopyOf kv.2

/-- A `Set` whose entry memory does not take finds no other live entry of its key there, and an
    option change finds no readable file with another entry in its directory. -/
def Current (w : Session) : Op → Prop
  | .set key _ entry call =>
    normalizeKey key = [] ∨ entry.cacheable w.cache.maxBody = false ∨
      w.cache.Takes (w.cache.stamped entry call.now) call.now ∨
      ∀ item ∈ w.cache.items.get (normalizeKey key), item.live call.now = true →
        item.entry.IsCopyOf (w.cache.stamped entry call.now)
  | .get _ _ => True
  | .applyOptions opts now =>
    (w.cache.applyOptions clean defaultDir opts).FilesCurrent w.latest now

end

instance (c : Cache) (entry : Entry) (now : Int) : Decidable (c.Takes entry now) :=
  inferInstanceAs (Decidable (_ ∧ _))

instance (c : Cache) (latest : KeyMap Entry) (now : Int) : Decidable (c.FilesCurrent latest now) :=
  inferInstanceAs (Decidable (_ ∨ _))

instance (clean : Bytes → Bytes) (defaultDir : Bytes) (w : Session) :
    ∀ op, Decidable (Current clean defaultDir w op)
  | .set _ _ _ _ => inferInstanceAs (Decidable (_ ∨ _))
  | .get _ _ => .isTrue trivial
  | .applyOptions _ _ => inferInstanceAs (Decidable (Cache.FilesCurrent _ _ _))

/-! Memory: no operation but a put brings an entry in. -/

/-- Every entry in memory has the property. -/
structure Cache.Holds (c : Cache) (E : Bytes → Entry → Prop) : Prop where
  sorted : c.items.Sorted
  entries : ∀ key item, c.items.get key = some item → E key item.entry

/-- From one cache to the other memory got no new entry, and all else that a lookup reads is the
    same. -/
structure Cache.Keeps (c c' : Cache) : Prop where
  holds : ∀ E, c.Holds E → c'.Holds E
  dir : c'.dir = c.dir
  maxBody : c'.maxBody = c.maxBody
  memoryTTL : c'.memoryTTL = c.memoryTTL
  memoryMaxBytes : c'.memoryMaxBytes = c.memoryMaxBytes
  disk : c'.disk = c.disk

theorem Cache.Keeps.refl (c : Cache) : c.Keeps c := ⟨fun _ h => h, rfl, rfl, rfl, rfl, rfl⟩

theorem Cache.Keeps.trans {a b c : Cache} (h : a.Keeps b) (g : b.Keeps c) : a.Keeps c :=
  ⟨fun E hE => g.holds E (h.holds E hE), g.dir.trans h.dir, g.maxBody.trans h.maxBody,
    g.memoryTTL.trans h.memoryTTL, g.memoryMaxBytes.trans h.memoryMaxBytes, g.disk.trans h.disk⟩

theorem Cache.Keeps.foldl {α : Type} {f : Cache → α → Cache} (h : ∀ (c : Cache) (a : α), c.Keeps (f c a)) :
    ∀ (l : List α) (c : Cache), c.Keeps (l.foldl f c)
  | [], c => .refl c
  | a :: l, c => (h c a).trans (Cache.Keeps.foldl h l (f c a))

theorem Cache.Keeps.drop (c : Cache) (key : Bytes) (item : MemoryEntry) :
    c.Keeps (c.drop key item) where
  holds := by
    intro E hE
    refine ⟨hE.sorted.filter _, fun k it hget => ?_⟩
    rw [Cache.drop, KeyMap.get_erase] at hget
    split_ifs at hget
    exact hE.entries k it hget
  dir := rfl
  maxBody := rfl
  memoryTTL := rfl
  memoryMaxBytes := rfl
  disk := rfl

theorem Cache.Keeps.sweep (c : Cache) (now : Int) : c.Keeps (c.sweepMemoryLocked now) where
  holds := by
    intro E hE
    refine ⟨hE.sorted.filter _, fun k it hget => ?_⟩
    rw [Cache.sweepMemoryLocked, KeyMap.get_filter hE.sorted] at hget
    exact hE.entries k it (Option.filter_eq_some_iff.mp hget).1
  dir := rfl
  maxBody := rfl
  memoryTTL := rfl
  memoryMaxBytes := rfl
  disk := rfl

theorem Cache.Keeps.bumpSingle (c : Cache) (key : Bytes) (now : Int) :
    c.Keeps (c.bumpSingleEntryExpiryLocked key now) := by
  rw [Cache.bumpSingleEntryExpiryLocked]
  split
  · exact .refl c
  · next item hitem =>
    dsimp only
    split_ifs
    · refine ⟨fun E hE => ⟨hE.sorted.insert, fun k it hget => ?_⟩, rfl, rfl, rfl, rfl, rfl⟩
      rw [KeyMap.get_insert] at hget
      split_ifs at hget with hk
      · obtain rfl := Option.some.inj hget
        exact hk ▸ hE.entries key item hitem
      · exact hE.entries k it hget
    · exact .refl c

theorem Cache.Keeps.bumpSiblings (c : Cache) (siblings : List Bytes) (key : Bytes) (now : Int) :
    c.Keeps (c.bumpSiblings siblings key now) := by
  refine Cache.Keeps.foldl (fun c sibling => ?_) siblings c
  split_ifs
  · exact .refl c
  · exact .bumpSingle c sibling now

theorem Cache.Keeps.bump (c : Cache) (key : Bytes) (now : Int) :
    c.Keeps (c.bumpMemoryExpiryLocked key now) := by
  rw [Cache.bumpMemoryExpiryLocked]
  split
  · exact .refl c
  · split_ifs
    · exact .refl c
    · exact .bumpSingle c key now
    · split
      · exact .bumpSingle c key now
      · split_ifs
        · exact .bumpSingle c key now
        · exact (Cache.Keeps.bumpSingle c key now).trans (.bumpSiblings _ _ key now)

theorem Cache.Keeps.enforce (c : Cache) (tie : Bytes → Nat) :
    c.Keeps (c.enforceMemoryLimitLocked tie) := by
  rw [Cache.enforceMemoryLimitLocked]
  split_ifs
  · exact .refl c
  · have hfold := Cache.Keeps.foldl (f := fun c (cand : Bytes × MemoryEntry) =>
        if c.memoryBytes ≤ c.memoryMaxBytes then c else c.drop cand.1 cand.2) (fun c cand => by
      split_ifs
      · exact .refl c
      · exact .drop c cand.1 cand.2) (c.candidates tie) c
    exact ⟨fun E hE => ⟨(hfold.holds E hE).sorted, (hfold.holds E hE).entries⟩, hfold.dir,
      hfold.maxBody, hfold.memoryTTL, hfold.memoryMaxBytes, hfold.disk⟩

variable {c : Cache} {now : Int} {E : Bytes → Entry → Prop}

/-- After a sweep memory holds what was live. -/
theorem Cache.holds_sweep (hs : c.items.Sorted)
    (h : ∀ key item, c.items.get key = some item → item.live now = true → E key item.entry) :
    (c.sweepMemoryLocked now).Holds E where
  sorted := hs.filter _
  entries := by
    intro key item hget
    rw [Cache.sweepMemoryLocked, KeyMap.get_filter hs] at hget
    obtain ⟨hget, hlive⟩ := Option.filter_eq_some_iff.mp hget
    exact h key item hget hlive

theorem Cache.Keeps.store (c : Cache) (key sessionKey : Bytes) (entry : Entry) (expiresAt : Int)
    (call : Call) :
    (c.inserted key sessionKey entry expiresAt).Keeps (c.store key sessionKey entry expiresAt call) := by
  rw [Cache.store]
  split_ifs
  · exact .enforce _ _
  · exact (Cache.Keeps.bumpSiblings _ _ key call.now).trans (.enforce _ _)

/-- What is put takes the place of what was there under its key. -/
theorem Cache.holds_store {key : Bytes} {entry : Entry} (hs : c.items.Sorted)
    (h : ∀ k item, k ≠ key → c.items.get k = some item → E k item.entry) (he : E key entry) (sessionKey : Bytes)
    (expiresAt : Int) (call : Call) : (c.store key sessionKey entry expiresAt call).Holds E := by
  refine (Cache.Keeps.store c key sessionKey entry expiresAt call).holds E ⟨hs.insert, ?_⟩
  intro k item hget
  rw [Cache.inserted, KeyMap.get_insert] at hget
  split_ifs at hget with hk
  · obtain rfl := Option.some.inj hget
    exact hk ▸ he
  · exact h k item (Ne.symm hk) hget

/-- What a put leaves in memory: the entry if memory takes it, and what was live. -/
theorem Cache.holds_put {key : Bytes} {entry : Entry} {call : Call} (hs : c.items.Sorted)
    (h : ∀ k item, k ≠ key → c.items.get k = some item → item.live call.now = true → E k item.entry)
    (hkey : ∀ item, c.items.get key = some item → item.live call.now = true →
      ¬ c.Takes entry call.now → E key item.entry)
    (he : c.Takes entry call.now → E key entry) (sessionKey : Bytes) :
    (c.putMemoryWithPolicySession key sessionKey entry call).Holds E := by
  have hsweep : ∀ k item, (c.sweepMemoryLocked call.now).items.get k = some item →
      c.items.get k = some item ∧ item.live call.now = true := by
    intro k item hget
    rw [Cache.sweepMemoryLocked, KeyMap.get_filter hs] at hget
    exact Option.filter_eq_some_iff.mp hget
  have hkept : ¬ c.Takes entry call.now → (c.sweepMemoryLocked call.now).Holds E := by
    refine fun hno => ⟨hs.filter _, fun k item hget => ?_⟩
    obtain ⟨hget, hlive⟩ := hsweep k item hget
    by_cases hk : k = key
    · subst hk
      exact hkey item hget hlive hno
    · exact h k item hk hget hlive
  rw [Cache.putMemoryWithPolicySession]
  dsimp only
  split_ifs with hbig hlease
  · exact hkept fun htakes => htakes.1 hbig
  · refine Cache.holds_store (hs.filter _) (fun k item hk hget => ?_) (he ⟨hbig, hlease⟩) _ _ _
    obtain ⟨hget, hlive⟩ := hsweep k item hget
    exact h k item hk hget hlive
  · exact hkept fun htakes => hlease htakes.2

theorem Cache.put_frame (c : Cache) (key sessionKey : Bytes) (entry : Entry) (call : Call) :
    (c.putMemoryWithPolicySession key sessionKey entry call).dir = c.dir ∧
      (c.putMemoryWithPolicySession key sessionKey entry call).maxBody = c.maxBody ∧
      (c.putMemoryWithPolicySession key sessionKey entry call).disk = c.disk := by
  rw [Cache.putMemoryWithPolicySession]
  dsimp only
  split_ifs
  · exact ⟨rfl, rfl, rfl⟩
  · have hkeep := Cache.Keeps.store (c.sweepMemoryLocked call.now) key sessionKey entry
      (min entry.diskExpiresAt (call.now + (c.sweepMemoryLocked call.now).memoryTTL)) call
    exact ⟨hkeep.dir, hkeep.maxBody, hkeep.disk⟩
  · exact ⟨rfl, rfl, rfl⟩

/-! Disk: no operation but a write brings a file in. -/

def Cache.FilesSorted (c : Cache) : Prop := ∀ dir, (c.disk dir).Sorted

/-- From one cache to the other the directory lost files at most. -/
structure Cache.Prunes (c c' : Cache) : Prop where
  items : c'.items = c.items
  dir : c'.dir = c.dir
  maxBody : c'.maxBody = c.maxBody
  sorted : c.FilesSorted → c'.FilesSorted
  files : c.FilesSorted → ∀ key file, c'.files.get key = some file → c.files.get key = some file

theorem Cache.files_setFiles (c : Cache) (fs : KeyMap DiskFile) : (c.setFiles fs).files = fs :=
  if_pos rfl

theorem Cache.FilesSorted.setFiles (h : c.FilesSorted) {fs : KeyMap DiskFile} (hfs : fs.Sorted) :
    (c.setFiles fs).FilesSorted := by
  intro dir
  show KeyMap.Sorted (if dir = c.dir then fs else c.disk dir)
  split_ifs
  · exact hfs
  · exact h dir

theorem Cache.Prunes.refl (c : Cache) : c.Prunes c := ⟨rfl, rfl, rfl, id, fun _ _ _ h => h⟩

theorem Cache.Prunes.trans {a b c : Cache} (h : a.Prunes b) (g : b.Prunes c) : a.Prunes c where
  items := g.items.trans h.items
  dir := g.dir.trans h.dir
  maxBody := g.maxBody.trans h.maxBody
  sorted := fun hs => g.sorted (h.sorted hs)
  files := fun hs key file hget => h.files hs key file (g.files (h.sorted hs) key file hget)

/-- Keeping some of the files. -/
theorem Cache.Prunes.setFiles {fs : KeyMap DiskFile} (hsorted : c.files.Sorted → fs.Sorted)
    (hfs : c.files.Sorted → ∀ key file, fs.get key = some file → c.files.get key = some file) :
    c.Prunes (c.setFiles fs) where
  items := rfl
  dir := rfl
  maxBody := rfl
  sorted := fun hs => hs.setFiles (hsorted (hs c.dir))
  files := by
    intro hs key file hget
    rw [Cache.files_setFiles] at hget
    exact hfs (hs c.dir) key file hget

theorem get_of_get_filter {m : KeyMap DiskFile} {p : Bytes × DiskFile → Bool} (h : m.Sorted)
    {key : Bytes} {file : DiskFile} (hget : KeyMap.get (m.filter p) key = some file) :
    m.get key = some file := by
  rw [KeyMap.get_filter h] at hget
  exact (Option.filter_eq_some_iff.mp hget).1

theorem Cache.Prunes.filter (c : Cache) (p : Bytes × DiskFile → Bool) :
    c.Prunes (c.setFiles (c.files.filter p)) :=
  .setFiles (fun hs => hs.filter p) fun hs _ _ hget => get_of_get_filter hs hget

theorem Cache.Prunes.getDisk (c : Cache) (key : Bytes) (now : Int) : c.Prunes (c.getDisk key now).1 := by
  rw [Cache.getDisk]
  split_ifs
  · exact .refl c
  · split
    · exact .refl c
    · split_ifs
      · exact .refl c
      · exact .filter c _

theorem Cache.Prunes.maybeSweepDisk (c : Cache) (now : Int) : c.Prunes (c.maybeSweepDisk now) := by
  rw [Cache.maybeSweepDisk]
  have htime : c.Prunes { c with lastDiskSweep := now } := ⟨rfl, rfl, rfl, id, fun _ _ _ h => h⟩
  split_ifs
  · exact .refl c
  · dsimp only
    split_ifs
    · exact htime
    · exact htime.trans (.filter _ _)

theorem Cache.Prunes.enforceDiskLimit (c : Cache) (call : Call) :
    c.Prunes (c.enforceDiskLimit call) := by
  rw [Cache.enforceDiskLimit]
  by_cases hoff : c.dir = [] ∨ c.diskMaxBytes ≤ 0
  · rw [if_pos hoff]
    exact .refl c
  rw [if_neg hoff]
  -- what the loop keeps is a part of what it starts with
  have hloop : ∀ (l : KeyMap DiskFile) (acc : KeyMap DiskFile × Int), acc.1.Sorted →
      let kept := l.foldl (fun (acc : KeyMap DiskFile × Int) kv =>
        if acc.2 ≤ c.diskMaxBytes then acc else (acc.1.erase kv.1, acc.2 - kv.2.size)) acc
      kept.1.Sorted ∧ ∀ key file, kept.1.get key = some file → acc.1.get key = some file := by
    intro l
    induction l with
    | nil => exact fun acc hs => ⟨hs, fun _ _ h => h⟩
    | cons kv l ih =>
      intro acc hs
      simp only [List.foldl_cons]
      split_ifs
      · exact ih acc hs
      · obtain ⟨hsorted, hget⟩ := ih (acc.1.erase kv.1, acc.2 - kv.2.size) (hs.filter _)
        exact ⟨hsorted, fun key file h => get_of_get_filter hs (hget key file h)⟩
  dsimp only
  split_ifs
  · refine .setFiles (fun hs => (hloop _ (_, _) (hs.filter _)).1) fun hs key file h => ?_
    exact get_of_get_filter hs ((hloop _ (_, _) (hs.filter _)).2 key file h)
  · exact .setFiles (fun hs => (hloop _ (_, _) hs).1) fun hs => (hloop _ (_, _) hs).2

/-! What a call leaves behind. -/

theorem MemoryEntry.live_of_le {item : MemoryEntry} {s t : Int} (hst : s ≤ t)
    (h : item.live t = true) : item.live s = true := by
  simp only [MemoryEntry.live, Bool.and_eq_true, decide_eq_true_eq] at h ⊢
  omega

theorem DiskRecord.usable_of_le {r : DiskRecord} {key : Bytes} {maxBody s t : Int} (hst : s ≤ t)
    (h : r.usable key maxBody t = true) : r.usable key maxBody s = true := by
  simp only [DiskRecord.usable, Bool.and_eq_true, decide_eq_true_eq] at h ⊢
  exact ⟨⟨h.1.1, by omega⟩, h.2⟩

/-- A lookup on disk gives an entry exactly if the directory has a readable file. -/
theorem Cache.getDisk_eq_some_iff {key : Bytes} {entry : Entry} :
    (c.getDisk key now).2 = some entry ↔ c.dir ≠ [] ∧ ∃ file, c.files.get key = some file ∧
      file.record.usable key c.maxBody now = true ∧ file.record.entry = entry := by
  rw [Cache.getDisk]
  by_cases hdir : c.dir = []
  · simp [hdir]
  · rw [if_neg hdir]
    cases hfile : c.files.get key with
    | none => simp
    | some file =>
      by_cases husable : file.record.usable key c.maxBody now = true <;> simp [hdir, husable]

theorem Cache.Keeps.getDisk {c c' : Cache} (h : c.Keeps c') (key : Bytes) (now : Int) :
    (c'.getDisk key now).2 = (c.getDisk key now).2 := by
  refine Option.ext fun entry => ?_
  rw [Cache.getDisk_eq_some_iff, Cache.getDisk_eq_some_iff, Cache.files, Cache.files, h.dir,
    h.maxBody, h.disk]

theorem Cache.lookupDisk_result (c : Cache) (key : Bytes) (call : Call) :
    (c.lookupDisk key call).2 = (c.getDisk key call.now).2 := by
  rw [Cache.lookupDisk]
  split
  · next h => rw [h]
  · next h => rw [h]

/-- What `Get` gives: the live entry in memory, or else the readable file. -/
theorem Cache.get_result (hs : c.items.Sorted) {key : Bytes} (hkey : normalizeKey key ≠ []) (call : Call) :
    (c.get key call).2 =
      match (c.items.get (normalizeKey key)).filter (fun item => item.live call.now) with
      | some item => some item.entry
      | none => (c.getDisk (normalizeKey key) call.now).2 := by
  rw [Cache.get, if_neg hkey]
  have hsweep : (c.sweepMemoryLocked call.now).items.get (normalizeKey key) =
      (c.items.get (normalizeKey key)).filter (fun item => item.live call.now) :=
    KeyMap.get_filter hs
  rw [← hsweep]
  cases hitem : (c.sweepMemoryLocked call.now).items.get (normalizeKey key) with
  | none =>
    simp only [hitem]
    exact (Cache.lookupDisk_result _ _ _).trans ((Cache.Keeps.sweep c call.now).getDisk _ _)
  | some item =>
    have hlive : item.live call.now = true :=
      (Option.filter_eq_some_iff.mp (hsweep.symm.trans hitem)).2
    simp only [hitem, if_pos hlive]

/-- The parts of a cache that a lookup on disk reads, after a call that wrote nothing there. -/
structure Cache.DiskShrinks (c c' : Cache) : Prop where
  dir : c'.dir = c.dir
  maxBody : c'.maxBody = c.maxBody
  sorted : c'.FilesSorted
  files : ∀ key file, c'.files.get key = some file → c.files.get key = some file

theorem Cache.DiskShrinks.of_keeps {a b c : Cache} (h : a.Keeps b) (g : b.DiskShrinks c) :
    a.DiskShrinks c where
  dir := g.dir.trans h.dir
  maxBody := g.maxBody.trans h.maxBody
  sorted := g.sorted
  files := by
    intro key file hget
    have hb := g.files key file hget
    rwa [Cache.files, h.disk, h.dir] at hb

theorem Cache.lookupDisk_leaves {key : Bytes} {call : Call} (hmem : c.Holds E) (hfiles : c.FilesSorted)
    (hdisk : ∀ entry, (c.getDisk key call.now).2 = some entry → E key entry) :
    (c.lookupDisk key call).1.Holds E ∧ c.DiskShrinks (c.lookupDisk key call).1 := by
  have hprune := Cache.Prunes.getDisk c key call.now
  have hmem' : (c.getDisk key call.now).1.Holds E :=
    ⟨hprune.items ▸ hmem.sorted, fun k item hget => hmem.entries k item (hprune.items ▸ hget)⟩
  rw [Cache.lookupDisk]
  split
  · next c' h =>
    rw [h] at hprune hmem'
    exact ⟨hmem', hprune.dir, hprune.maxBody, hprune.sorted hfiles, hprune.files hfiles⟩
  · next c' entry h =>
    rw [h] at hprune hmem'
    have hentry : E key entry := hdisk entry (by rw [h])
    obtain ⟨hdir, hmax, hput⟩ := Cache.put_frame c' key [] entry call
    refine ⟨Cache.holds_put hmem'.sorted (fun k item _ hget _ => hmem'.entries k item hget)
      (fun item hget _ _ => hmem'.entries key item hget) (fun _ => hentry) [], ?_⟩
    refine ⟨hdir.trans hprune.dir, hmax.trans hprune.maxBody, ?_, ?_⟩
    · intro dir
      rw [hput]
      exact hprune.sorted hfiles dir
    · intro k file hget
      rw [Cache.files, hput, hdir] at hget
      exact hprune.files hfiles k file hget

theorem Cache.get_leaves {key : Bytes} {call : Call} (hs : c.items.Sorted) (hfiles : c.FilesSorted)
    (hmem : ∀ k item, c.items.get k = some item → item.live call.now = true → E k item.entry)
    (hdisk : ∀ entry, (c.getDisk (normalizeKey key) call.now).2 = some entry →
      E (normalizeKey key) entry)
    (hkey : normalizeKey key ≠ []) : (c.get key call).1.Holds E ∧ c.DiskShrinks (c.get key call).1 := by
  have hsweep := Cache.holds_sweep hs hmem
  have hkeep := Cache.Keeps.sweep c call.now
  -- a cache with less in memory finds the same on disk
  have hlookup : ∀ {c' : Cache}, c.Keeps c' → c'.Holds E →
      (c'.lookupDisk (normalizeKey key) call).1.Holds E ∧
        c.DiskShrinks (c'.lookupDisk (normalizeKey key) call).1 := by
    intro c' hc hE
    have hleaves := Cache.lookupDisk_leaves hE (fun dir => hc.disk ▸ hfiles dir)
      (fun entry h => hdisk entry ((hc.getDisk _ _).symm.trans h))
    exact ⟨hleaves.1, .of_keeps hc hleaves.2⟩
  rw [Cache.get, if_neg hkey]
  cases hitem : (c.sweepMemoryLocked call.now).items.get (normalizeKey key) with
  | none =>
    simp only [hitem]
    exact hlookup hkeep hsweep
  | some item =>
    simp only [hitem]
    split_ifs
    · have hbump := hkeep.trans (.bump _ (normalizeKey key) call.now)
      exact ⟨(Cache.Keeps.bump _ _ _).holds E hsweep,
        .of_keeps hbump ⟨rfl, rfl, fun dir => hbump.disk ▸ hfiles dir, fun _ _ h => h⟩⟩
    · have hdrop := Cache.Keeps.drop (c.sweepMemoryLocked call.now) (normalizeKey key) item
      exact hlookup (hkeep.trans hdrop) (hdrop.holds E hsweep)

/-! Whole runs. -/

/-- What holds of every session: the order of the maps, real keys, and current files. -/
structure Session.Inv (w : Session) : Prop where
  items : w.cache.items.Sorted
  files : w.cache.FilesSorted
  sorted : w.latest.Sorted
  keys : ∀ kv ∈ w.latest, kv.1 ≠ [] ∧ ∃ key, normalizeKey key = kv.1
  current : w.cache.FilesCurrent w.latest w.now

/-- What is live in memory are entries last set. -/
def Session.MemoryCurrent (w : Session) : Prop :=
  ∀ kv ∈ w.latest, ∀ item, w.cache.items.get kv.1 = some item → item.live w.now = true →
    item.entry.IsCopyOf kv.2

/-- Being a copy of the entry last set, if there is one. -/
def copyOfLatest (latest : KeyMap Entry) (key : Bytes) (entry : Entry) : Prop :=
  ∀ e, (key, e) ∈ latest → entry.IsCopyOf e

/-- With current files, a session is fresh exactly if its memory is. -/
theorem Session.Inv.fresh_iff {w : Session} (h : w.Inv) : w.Fresh ↔ w.MemoryCurrent := by
  constructor
  · intro hfresh kv hkv item hitem hlive
    obtain ⟨hne, key, hkey⟩ := h.keys kv hkv
    refine hfresh key kv.2 { now := w.now } item.entry ?_ (le_refl _) ?_
    · rw [hkey]
      exact KeyMap.get_of_mem h.sorted hkv
    · rw [Cache.get_result h.items (hkey ▸ hne), hkey, hitem, Option.filter_some, if_pos hlive]
  · intro hmem key e call entry hlatest hnow hget
    have hkv := KeyMap.mem_of_get hlatest
    have hne := (h.keys _ hkv).1
    rw [Cache.get_result h.items hne] at hget
    split at hget
    · next item hitem =>
      obtain rfl := Option.some.inj hget
      obtain ⟨hitem, hlive⟩ := Option.filter_eq_some_iff.mp hitem
      exact hmem _ hkv item hitem (item.live_of_le hnow hlive)
    · obtain ⟨hdir, file, hfile, husable, rfl⟩ := Cache.getDisk_eq_some_iff.mp hget
      exact h.current.resolve_left hdir _ hkv file (by simpa using hfile)
        (DiskRecord.usable_of_le hnow husable)

theorem Cache.FilesCurrent.shrink {c c' : Cache} {latest : KeyMap Entry} {s t : Int}
    (h : c.FilesCurrent latest s) (hst : s ≤ t) (hs : c.DiskShrinks c') :
    c'.FilesCurrent latest t := by
  refine h.imp (fun hdir => hs.dir.trans hdir) fun hcur kv hkv file hfile husable => ?_
  have hfile := hs.files kv.1 file (by simpa using hfile)
  rw [hs.maxBody] at husable
  exact hcur kv hkv file (by simpa using hfile) (DiskRecord.usable_of_le hst husable)

theorem Session.Inv.copy {w : Session} (h : w.Inv) (hfresh : w.Fresh) (hnow : w.now ≤ now) :
    ∀ key item, w.cache.items.get key = some item → item.live now = true →
      copyOfLatest w.latest key item.entry := fun _ item hitem hlive _ he =>
  h.fresh_iff.mp hfresh _ he item hitem (item.live_of_le hnow hlive)

/-- Time alone keeps a session fresh. -/
theorem Session.later {w : Session} (h : w.Inv) (hfresh : w.Fresh) (hnow : w.now ≤ now) :
    Session.Fresh ⟨w.cache, now, w.latest⟩ ∧ Session.Inv ⟨w.cache, now, w.latest⟩ := by
  have hinv : Session.Inv ⟨w.cache, now, w.latest⟩ :=
    ⟨h.items, h.files, h.sorted, h.keys,
      h.current.shrink hnow ⟨rfl, rfl, h.files, fun _ _ hget => hget⟩⟩
  refine ⟨hinv.fresh_iff.mpr fun kv hkv item hitem hlive => ?_, hinv⟩
  exact h.copy hfresh hnow kv.1 item hitem hlive kv.2 hkv

/-- After a `Get` the session is as fresh as before. -/
theorem Session.get_fresh {w : Session} (h : w.Inv) (hfresh : w.Fresh) {key : Bytes} {call : Call}
    (hnow : w.now ≤ call.now) :
    Session.Fresh ⟨(w.cache.get key call).1, call.now, w.latest⟩ ∧
      Session.Inv ⟨(w.cache.get key call).1, call.now, w.latest⟩ := by
  by_cases hkey : normalizeKey key = []
  · rw [Cache.get, if_pos hkey]
    exact Session.later h hfresh hnow
  · obtain ⟨hmem, hdisk⟩ : (w.cache.get key call).1.Holds (copyOfLatest w.latest) ∧
        w.cache.DiskShrinks (w.cache.get key call).1 := by
      refine Cache.get_leaves h.items h.files (h.copy hfresh hnow) (fun entry hentry e he => ?_) hkey
      obtain ⟨hdir, file, hfile, husable, rfl⟩ := Cache.getDisk_eq_some_iff.mp hentry
      exact h.current.resolve_left hdir _ he file (by simpa using hfile)
        (DiskRecord.usable_of_le hnow husable)
    have hinv : Session.Inv ⟨(w.cache.get key call).1, call.now, w.latest⟩ :=
      ⟨hmem.sorted, hdisk.sorted, h.sorted, h.keys, h.current.shrink hnow hdisk⟩
    exact ⟨hinv.fresh_iff.mpr fun kv hkv item hitem _ => hmem.entries kv.1 item hitem kv.2 hkv, hinv⟩

/-- A put that memory does not take is a sweep. -/
theorem Cache.put_of_not_takes {entry : Entry} {call : Call} (h : ¬ c.Takes entry call.now)
    (key sessionKey : Bytes) :
    c.putMemoryWithPolicySession key sessionKey entry call = c.sweepMemoryLocked call.now := by
  rw [Cache.putMemoryWithPolicySession]
  dsimp only
  split_ifs with hbig hlease
  · rfl
  · exact absurd ⟨hbig, hlease⟩ h
  · rfl

theorem mem_insert_iff {latest : KeyMap Entry} (hs : latest.Sorted) {key k : Bytes} {e e' : Entry} :
    (k, e') ∈ latest.insert key e ↔ if key = k then e' = e else (k, e') ∈ latest := by
  have hmem : ∀ {m : KeyMap Entry}, m.Sorted → ((k, e') ∈ m ↔ m.get k = some e') := fun hm =>
    ⟨KeyMap.get_of_mem hm, KeyMap.mem_of_get⟩
  rw [hmem hs.insert, hmem hs, KeyMap.get_insert]
  split_ifs
  · exact ⟨fun h => (Option.some.inj h).symm, fun h => h ▸ rfl⟩
  · rfl

/-- What a `Set` the cache accepts leaves behind. -/
theorem Session.set_inv {w : Session} (h : w.Inv) {key sessionKey : Bytes} {entry : Entry} {call : Call}
    (hnow : w.now ≤ call.now) (hkey : normalizeKey key ≠ [])
    (hcache : entry.cacheable w.cache.maxBody = true) :
    Session.Inv ⟨w.cache.set key sessionKey entry call, call.now,
        w.latest.insert (normalizeKey key) (w.cache.stamped entry call.now)⟩ ∧
      (w.cache.set key sessionKey entry call).items =
        (w.cache.putMemoryWithPolicySession (normalizeKey key) sessionKey
          (w.cache.stamped entry call.now) call).items := by
  have hset : w.cache.set key sessionKey entry call =
      (((w.cache.putMemoryWithPolicySession (normalizeKey key) sessionKey
        (w.cache.stamped entry call.now) call).putDisk (normalizeKey key)
          (w.cache.stamped entry call.now) call).enforceDiskLimit call).maybeSweepDisk call.now := by
    rw [Cache.set, if_neg (by simp [hkey, hcache])]
  generalize w.cache.stamped entry call.now = e at hset ⊢
  obtain ⟨hdir, hmax, hdisk⟩ := Cache.put_frame w.cache (normalizeKey key) sessionKey e call
  have hput : (w.cache.putMemoryWithPolicySession (normalizeKey key) sessionKey e call).Holds
      (fun _ _ => True) := Cache.holds_put h.items (fun _ _ _ _ _ => trivial)
    (fun _ _ _ _ => trivial) (fun _ => trivial) sessionKey
  generalize w.cache.putMemoryWithPolicySession (normalizeKey key) sessionKey e call = c1 at *
  have hprune := (Cache.Prunes.enforceDiskLimit (c1.putDisk (normalizeKey key) e call) call).trans
    (.maybeSweepDisk _ call.now)
  rw [← hset] at hprune
  have hitems : (c1.putDisk (normalizeKey key) e call).items = c1.items := by
    rw [Cache.putDisk]
    split_ifs <;> rfl
  have hfiles1 : c1.FilesSorted := fun dir => hdisk ▸ h.files dir
  have hfiles2 : (c1.putDisk (normalizeKey key) e call).FilesSorted := by
    rw [Cache.putDisk]
    split_ifs
    · exact hfiles1
    · exact hfiles1.setFiles (hfiles1 c1.dir).insert
  refine ⟨⟨?_, hprune.sorted hfiles2, h.sorted.insert, ?_, ?_⟩, hprune.items.trans hitems⟩
  · rw [hprune.items, hitems]
    exact hput.sorted
  · intro kv hkv
    rcases KeyMap.mem_insert hkv with rfl | hkv
    · exact ⟨hkey, key, rfl⟩
    · exact h.keys kv hkv
  · by_cases hempty : c1.dir = []
    · refine Or.inl ?_
      rw [hprune.dir, Cache.putDisk, if_pos hempty, hempty]
    · refine Or.inr fun kv hkv file hfile husable => ?_
      have hfile := hprune.files hfiles2 kv.1 file (by simpa using hfile)
      rw [Cache.putDisk, if_neg hempty, Cache.files_setFiles, KeyMap.get_insert] at hfile
      have hmem := (mem_insert_iff h.sorted).mp hkv
      split_ifs at hfile hmem with hk
      · obtain rfl := Option.some.inj hfile
        exact Or.inr (congrArg Entry.restored hmem.symm)
      · rw [Cache.files, hdisk, hdir] at hfile
        have hmaxBody : (w.cache.set key sessionKey entry call).maxBody = w.cache.maxBody := by
          rw [hprune.maxBody, Cache.putDisk, if_neg hempty]
          exact hmax
        rw [hmaxBody] at husable
        exact h.current.resolve_left (hdir ▸ hempty) kv hmem file (by simpa [Cache.files] using hfile)
          (DiskRecord.usable_of_le hnow husable)

/-- A `Set` keeps the session fresh exactly if memory takes its entry or has no other live one. -/
theorem Session.set_fresh_iff {w : Session} (h : w.Inv) (hfresh : w.Fresh) {key sessionKey : Bytes}
    {entry : Entry} {call : Call} (hnow : w.now ≤ call.now) (hkey : normalizeKey key ≠ [])
    (hcache : entry.cacheable w.cache.maxBody = true) :
    Session.Fresh ⟨w.cache.set key sessionKey entry call, call.now,
        w.latest.insert (normalizeKey key) (w.cache.stamped entry call.now)⟩ ↔
      w.cache.Takes (w.cache.stamped entry call.now) call.now ∨
        ∀ item ∈ w.cache.items.get (normalizeKey key), item.live call.now = true →
          item.entry.IsCopyOf (w.cache.stamped entry call.now) := by
  obtain ⟨hinv, hitems⟩ := @Session.set_inv w h key sessionKey entry call hnow hkey hcache
  rw [hinv.fresh_iff]
  constructor
  · intro hmem
    by_cases htakes : w.cache.Takes (w.cache.stamped entry call.now) call.now
    · exact Or.inl htakes
    · refine Or.inr fun item hitem hlive => ?_
      have hitem : w.cache.items.get (normalizeKey key) = some item := by simpa using hitem
      refine hmem (normalizeKey key, w.cache.stamped entry call.now)
        ((mem_insert_iff h.sorted).mpr ?_) item ?_ hlive
      · rw [if_pos rfl]
      rw [hitems, Cache.put_of_not_takes htakes, Cache.sweepMemoryLocked, KeyMap.get_filter h.items,
        hitem, Option.filter_some, if_pos hlive]
  · intro hcur kv hkv item hitem _
    rw [hitems] at hitem
    have hold := h.copy hfresh hnow
    have hput : (w.cache.putMemoryWithPolicySession (normalizeKey key) sessionKey
        (w.cache.stamped entry call.now) call).Holds (copyOfLatest
          (w.latest.insert (normalizeKey key) (w.cache.stamped entry call.now))) := by
      refine Cache.holds_put h.items (fun k it hk hget hlive e he => ?_) (fun it hget hlive hno e he => ?_)
        (fun _ e he => ?_) sessionKey
      all_goals rw [mem_insert_iff h.sorted] at he
      · rw [if_neg (Ne.symm hk)] at he
        exact hold k it hget hlive e he
      · rw [if_pos rfl] at he
        exact he ▸ hcur.resolve_left hno it (by simpa using hget) hlive
      · rw [if_pos rfl] at he
        exact Or.inl he.symm
    exact hput.entries kv.1 item hitem kv.2 hkv

/-- After an option change the session is fresh exactly if the files of its directory are current. -/
theorem Session.apply_fresh_iff {clean : Bytes → Bytes} {defaultDir : Bytes} {w : Session} (h : w.Inv)
    (opts : Options) (now : Int) :
    Session.Fresh ⟨w.cache.applyOptions clean defaultDir opts, now, w.latest⟩ ↔
      (w.cache.applyOptions clean defaultDir opts).FilesCurrent w.latest now := by
  have hresult : ∀ {key : Bytes} {call : Call}, normalizeKey key ≠ [] →
      ((w.cache.applyOptions clean defaultDir opts).get key call).2 =
        ((w.cache.applyOptions clean defaultDir opts).getDisk (normalizeKey key) call.now).2 := by
    intro key call hkey
    exact @Cache.get_result (w.cache.applyOptions clean defaultDir opts) List.Pairwise.nil key hkey call
  constructor
  · intro hfresh
    refine or_iff_not_imp_left.mpr fun hdir kv hkv file hfile husable => ?_
    obtain ⟨hne, key, hkey⟩ := h.keys kv hkv
    refine hfresh key kv.2 { now := now } _ ?_ (le_refl _) ?_
    · rw [hkey]
      exact KeyMap.get_of_mem h.sorted hkv
    · rw [hresult (hkey ▸ hne), hkey]
      exact Cache.getDisk_eq_some_iff.mpr ⟨hdir, file, by simpa using hfile, husable, rfl⟩
  · intro hcur
    have hinv : Session.Inv ⟨w.cache.applyOptions clean defaultDir opts, now, w.latest⟩ :=
      ⟨List.Pairwise.nil, h.files, h.sorted, h.keys, hcur⟩
    refine hinv.fresh_iff.mpr fun kv _ item hitem _ => ?_
    cases hitem

/-- One call keeps a session fresh exactly under the condition. -/
theorem Session.step_fresh_iff {clean : Bytes → Bytes} {defaultDir : Bytes} {w v : Session} {op : Op}
    (hfresh : w.Fresh) (h : w.Inv) (hstep : w.step clean defaultDir op = some v) :
    (v.Fresh ↔ Current clean defaultDir w op) ∧ (v.Fresh → v.Inv) := by
  rw [Session.step] at hstep
  split_ifs at hstep with hback
  obtain rfl := Option.some.inj hstep
  have hnow : w.now ≤ op.now := not_lt.mp hback
  cases op with
  | get key call =>
    obtain ⟨hf, hi⟩ := @Session.get_fresh w h hfresh key call hnow
    exact ⟨iff_of_true hf trivial, fun _ => hi⟩
  | applyOptions opts now =>
    have hiff := @Session.apply_fresh_iff clean defaultDir w h opts now
    exact ⟨hiff, fun hf => ⟨List.Pairwise.nil, h.files, h.sorted, h.keys, hiff.mp hf⟩⟩
  | set key sessionKey entry call =>
    by_cases hreject : normalizeKey key = [] ∨ entry.cacheable w.cache.maxBody = false
    · obtain ⟨hf, hi⟩ := Session.later h hfresh hnow
      simp only [Cache.exec, Cache.set, Session.recorded, if_pos hreject]
      exact ⟨iff_of_true hf (hreject.elim Or.inl fun hc => Or.inr (Or.inl hc)), fun _ => hi⟩
    · obtain ⟨hkey, hcache⟩ := not_or.mp hreject
      have hcache : entry.cacheable w.cache.maxBody = true := by simpa using hcache
      simp only [Cache.exec, Session.recorded, if_neg hreject]
      refine ⟨(Session.set_fresh_iff h hfresh hnow hkey hcache).trans ?_,
        fun _ => (Session.set_inv h hnow hkey hcache).1⟩
      exact ⟨fun hc => Or.inr (Or.inr hc), fun hc =>
        (hc.resolve_left hkey).resolve_left (by rw [hcache]; decide)⟩

/-- In a run from a cache nothing was set in, every `Get` that hits gives the entry last set exactly
    if no call meets one of the two exceptions. -/
theorem fresh_iff_meets {clean : Bytes → Bytes} {defaultDir : Bytes} {c : Cache} (now : Int)
    (hitems : c.items.Sorted) (hfiles : c.FilesSorted) (ops : List Op) :
    Runs.Always (Session.step clean defaultDir) Session.Fresh ⟨c, now, []⟩ ops ↔
      Runs.Meets (Session.step clean defaultDir) (Current clean defaultDir) ⟨c, now, []⟩ ops := by
  have hinv : Session.Inv ⟨c, now, []⟩ :=
    ⟨hitems, hfiles, List.Pairwise.nil, by simp, Or.inr (by simp)⟩
  have hstart : Session.Fresh ⟨c, now, []⟩ := hinv.fresh_iff.mpr fun kv hkv => by cases hkv
  rw [← Runs.always_iff_meets (P := fun w => w.Fresh ∧ w.Inv) ?_ ops _ ⟨hstart, hinv⟩]
  · refine ⟨fun hf => hf.with_inv (fun w op v hw hi hv => ?_) hinv, fun hf => hf.mono fun _ => And.left⟩
    exact (Session.step_fresh_iff hw hi hv).2
  · intro w op v hw hv
    obtain ⟨hiff, hkeep⟩ := Session.step_fresh_iff hw.1 hw.2 hv
    exact ⟨fun hf => hiff.mp hf.1, fun hc => ⟨hiff.mpr hc, hkeep (hiff.mpr hc)⟩⟩

/-! A cache whose memory takes ten bytes. -/

def smallOptions (dir : String) : Options := ⟨lit dir, 0, 0, 0, 10, 0⟩

def smallCache : Cache := Cache.applyOptions id [] ⟨[], 0, 0, 0, 0, 0, 0, [], [], 0, fun _ => []⟩ (smallOptions "a")

def sampleKey : Bytes := List.replicate 64 0x30

def setAt (seconds : Int) (body : String) : Op :=
  .set sampleKey [] ⟨200, [], lit body, zeroTime⟩ { now := seconds * second }

def getAt (seconds : Int) : Op := .get sampleKey { now := seconds * second }

theorem fresh_over_option_change :
    Runs.Always (Session.step id []) Session.Fresh ⟨smallCache, 0, []⟩
      [setAt 1 "one", getAt 2, .applyOptions (smallOptions "a") (3 * second), getAt 4,
       setAt 5 "two", getAt 6] :=
  (@fresh_iff_meets id [] smallCache 0 List.Pairwise.nil (fun _ => List.Pairwise.nil) _).mpr
    (by decide +kernel)

/-- What a lookup at the end of a run gives. -/
def bodyAfter (ops : List Op) (seconds : Int) : Option Bytes :=
  (Runs.run (Session.step id []) ⟨smallCache, 0, []⟩ ops).bind (fun w =>
    (w.cache.get sampleKey { now := seconds * second }).2.map Entry.body)

/-- An entry that memory does not take leaves the older one in front of the disk, and a directory
    that is used again brings its older file back. -/
theorem older_entry_read :
    bodyAfter [setAt 1 "old", setAt 2 "more than ten"] 3 = some (lit "old") ∧
    bodyAfter [setAt 1 "old", .applyOptions (smallOptions "b") (2 * second), setAt 3 "new",
      .applyOptions (smallOptions "a") (4 * second)] 5 = some (lit "old") ∧
    ¬ Runs.Always (Session.step id []) Session.Fresh ⟨smallCache, 0, []⟩
      [setAt 1 "old", setAt 2 "more than ten"] := by
  refine ⟨by decide +kernel, by decide +kernel, fun h => ?_⟩
  have hrun : (Runs.run (Session.step id []) ⟨smallCache, 0, []⟩
      [setAt 1 "old", setAt 2 "more than ten"]).any (fun w =>
        (w.latest.get (normalizeKey sampleKey)).any (fun e =>
          (w.cache.get sampleKey { now := 3 * second }).2.any (fun entry =>
            decide (w.now ≤ 3 * second) && !decide (entry.IsCopyOf e)))) = true := by decide +kernel
  obtain ⟨w, hw, hstale⟩ := (Option.any_eq_true _ _).mp hrun
  obtain ⟨e, he, hstale⟩ := (Option.any_eq_true _ _).mp hstale
  obtain ⟨entry, hentry, hstale⟩ := (Option.any_eq_true _ _).mp hstale
  simp only [Bool.and_eq_true, decide_eq_true_eq, Bool.not_eq_true', decide_eq_false_iff_not] at hstale
  exact hstale.2 (h.final hw sampleKey e _ entry he hstale.1 hentry)

end DeepSeekWebToApi.ResponseCache
