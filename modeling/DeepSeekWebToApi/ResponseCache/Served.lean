import DeepSeekWebToApi.ResponseCache.Accounting
import DeepSeekWebToApi.ResponseCache.ReadYourWrites

/- What a hit serves. Memory, the files of every directory the options ever named, and the
   fill of memory from a file all pass entries on by key. `Cache.Traces` follows them: an
   entry under a key was set under that key in this run, or was in a file of that key when
   the process started; and memory holds what may be cached under the body limit in force,
   which is why `ApplyOptions` empties it. The clock may go back. -/
namespace DeepSeekWebToApi.ResponseCache
open GoStrings

/-- The operation stores the entry under the key. -/
def MemoryOp.Stores (key : Bytes) (e : Entry) : MemoryOp → Prop
  | .set k _ entry _ | .setUnwritten k _ entry _ => normalizeKey k = key ∧ entry = e
  | _ => False

/-- Where an entry is from: a `Set` of its key, up to the expiry, or a file of its key. -/
def Origin (disk : Bytes → KeyMap DiskFile) (ops : List MemoryOp) (key : Bytes) (entry : Entry) : Prop :=
  (∃ op ∈ ops, ∃ e t, op.Stores key e ∧ entry.IsCopyOf { e with diskExpiresAt := t }) ∨
    ∃ dir file, (disk dir).get key = some file ∧ file.record.key = key ∧ file.record.entry = entry

/-- Every entry the cache can reach has the property for its key. -/
structure Cache.Traces (c : Cache) (P : Bytes → Entry → Prop) : Prop where
  memory : c.Holds fun key e => e.cacheable c.maxBody = true ∧ P key e
  sorted : c.FilesSorted
  files : ∀ dir key file, (c.disk dir).get key = some file → file.record.key = key →
    P key file.record.entry

/-- The files of the other directories are the same. -/
def Cache.SameElsewhere (c c' : Cache) : Prop := ∀ dir, dir ≠ c.dir → c'.disk dir = c.disk dir

theorem Cache.sameElsewhere_setFiles (c : Cache) (fs : KeyMap DiskFile) :
    c.SameElsewhere (c.setFiles fs) := fun _ hdir => if_neg hdir

theorem Cache.sameElsewhere_getDisk (c : Cache) (key : Bytes) (now : Int) :
    c.SameElsewhere (c.getDisk key now).1 := by
  rw [Cache.getDisk]
  split_ifs
  · exact fun _ _ => rfl
  · split
    · exact fun _ _ => rfl
    · split_ifs
      · exact fun _ _ => rfl
      · exact c.sameElsewhere_setFiles _

theorem Cache.sameElsewhere_maybeSweepDisk (c : Cache) (now : Int) :
    c.SameElsewhere (c.maybeSweepDisk now) := by
  rw [Cache.maybeSweepDisk]
  split_ifs
  · exact fun _ _ => rfl
  · dsimp only
    split_ifs
    · exact fun _ _ => rfl
    · exact fun _ hdir => if_neg hdir

theorem Cache.sameElsewhere_enforceDiskLimit (c : Cache) (call : Call) :
    c.SameElsewhere (c.enforceDiskLimit call) := by
  rw [Cache.enforceDiskLimit]
  by_cases hoff : c.dir = [] ∨ c.diskMaxBytes ≤ 0
  · rw [if_pos hoff]
    exact fun _ _ => rfl
  · rw [if_neg hoff]
    exact c.sameElsewhere_setFiles _

theorem Cache.stamped_eq (c : Cache) (e : Entry) (now : Int) :
    ∃ t, c.stamped e now = { e with diskExpiresAt := t } := by
  rw [Cache.stamped]
  split_ifs
  · exact ⟨_, rfl⟩
  · exact ⟨e.diskExpiresAt, rfl⟩

namespace Cache.Traces

variable {c c' : Cache} {P : Bytes → Entry → Prop}

/-- Nothing in memory, and the files that were there. -/
theorem of_empty (hitems : c'.items = []) (hdisk : c'.disk = c.disk) (hsorted : c.FilesSorted)
    (hfiles : ∀ dir key file, (c.disk dir).get key = some file → file.record.key = key →
      P key file.record.entry) : c'.Traces P where
  memory := by
    refine ⟨hitems ▸ List.Pairwise.nil, fun key item hget => ?_⟩
    rw [hitems] at hget
    exact absurd hget (Option.some_ne_none item).symm
  sorted := fun dir => hdisk ▸ hsorted dir
  files := fun dir key file => hdisk ▸ hfiles dir key file

theorem keeps (h : c.Traces P) (hk : c.Keeps c') : c'.Traces P where
  memory := by
    rw [hk.maxBody]
    exact hk.holds _ h.memory
  sorted := fun dir => hk.disk ▸ h.sorted dir
  files := fun dir key file => hk.disk ▸ h.files dir key file

theorem prunes (h : c.Traces P) (hp : c.Prunes c') (helse : c.SameElsewhere c') : c'.Traces P where
  memory := by
    rw [hp.maxBody]
    refine ⟨hp.items ▸ h.memory.sorted, fun key item hget => ?_⟩
    rw [hp.items] at hget
    exact h.memory.entries key item hget
  sorted := hp.sorted h.sorted
  files := by
    intro dir key file hget hkey
    by_cases hdir : dir = c.dir
    · -- in its own directory files may be gone, elsewhere nothing changed
      have hown : c'.files.get key = some file := by rwa [Cache.files, hp.dir, ← hdir]
      exact h.files c.dir key file (hp.files h.sorted key file hown) hkey
    · rw [helse dir hdir] at hget
      exact h.files dir key file hget hkey

variable {key : Bytes} {entry : Entry}

theorem put (h : c.Traces P) (hc : entry.cacheable c.maxBody = true) (hP : P key entry) (sessionKey : Bytes)
    (call : Call) : (c.putMemoryWithPolicySession key sessionKey entry call).Traces P := by
  obtain ⟨-, hmax, hdisk⟩ := c.put_frame key sessionKey entry call
  refine ⟨?_, fun dir => hdisk ▸ h.sorted dir, fun dir k file => hdisk ▸ h.files dir k file⟩
  rw [hmax]
  exact Cache.holds_put h.memory.sorted (fun k item _ hget _ => h.memory.entries k item hget)
    (fun item hget _ _ => h.memory.entries key item hget) (fun _ => ⟨hc, hP⟩) sessionKey

/-- What is written to disk comes back as `restored`. -/
theorem putDisk (h : c.Traces P) (hP : P key entry.restored) (call : Call) :
    (c.putDisk key entry call).Traces P := by
  rw [Cache.putDisk]
  split_ifs with hdir
  · exact h
  · refine ⟨⟨h.memory.sorted, h.memory.entries⟩, h.sorted.setFiles (h.sorted c.dir).insert, ?_⟩
    intro dir k file hget hkey
    by_cases hd : dir = c.dir
    · subst hd
      change (c.setFiles _).files.get k = some file at hget
      rw [Cache.files_setFiles, KeyMap.get_insert] at hget
      split_ifs at hget with hk
      · obtain rfl := Option.some.inj hget
        exact hk ▸ hP
      · exact h.files c.dir k file hget hkey
    · rw [c.sameElsewhere_setFiles _ dir hd] at hget
      exact h.files dir k file hget hkey

theorem lookupDisk (h : c.Traces P) (key : Bytes) (call : Call) : (c.lookupDisk key call).1.Traces P := by
  have hread := h.prunes (.getDisk c key call.now) (c.sameElsewhere_getDisk key call.now)
  have hmax := (Cache.Prunes.getDisk c key call.now).maxBody
  rw [Cache.lookupDisk]
  split
  · next c' hget =>
    rw [hget] at hread
    exact hread
  · next c' entry hget =>
    rw [hget] at hread hmax
    obtain ⟨-, file, hfile, husable, rfl⟩ := Cache.getDisk_eq_some_iff.mp (congrArg Prod.snd hget)
    simp only [DiskRecord.usable, Bool.and_eq_true, beq_iff_eq] at husable
    exact hread.put (hmax ▸ husable.2) (h.files c.dir key file hfile husable.1.1.2) [] call

theorem get (h : c.Traces P) (key : Bytes) (call : Call) : (c.get key call).1.Traces P := by
  have hswept := h.keeps (.sweep c call.now)
  rw [Cache.get]
  dsimp only
  split_ifs with hkey
  · exact h
  · split
    · split_ifs
      · exact hswept.keeps (.bump _ _ _)
      · exact (hswept.keeps (.drop _ _ _)).lookupDisk _ call
    · exact hswept.lookupDisk _ call

/-- What a `Set` that is not refused puts into memory and may write to disk. -/
theorem accept (h : c.Traces P) {call : Call}
    (haccepted : ¬ (normalizeKey key = [] ∨ entry.cacheable c.maxBody = false))
    (hset : ∀ t copy, copy.IsCopyOf { entry with diskExpiresAt := t } → P (normalizeKey key) copy)
    (sessionKey : Bytes) :
    (c.putMemoryWithPolicySession (normalizeKey key) sessionKey (c.stamped entry call.now) call).Traces P ∧
      P (normalizeKey key) (c.stamped entry call.now).restored := by
  obtain ⟨t, ht⟩ := c.stamped_eq entry call.now
  rw [ht]
  refine ⟨h.put ?_ (hset t _ (Or.inl rfl)) sessionKey call, hset t _ (Or.inr rfl)⟩
  exact Bool.eq_true_of_not_eq_false (not_or.mp haccepted).2

theorem perform (h : c.Traces P) {op : MemoryOp}
    (hop : ∀ key e t copy, op.Stores key e → copy.IsCopyOf { e with diskExpiresAt := t } → P key copy)
    (clean : Bytes → Bytes) (defaultDir : Bytes) : (c.perform clean defaultDir op).Traces P := by
  cases op with
  | get key call => exact h.get key call
  | set key sessionKey entry call =>
    show (c.set key sessionKey entry call).Traces P
    rw [Cache.set]
    dsimp only
    split_ifs with hrefused
    · exact h
    · obtain ⟨hput, hP⟩ := h.accept hrefused (fun t copy => hop _ entry t copy ⟨rfl, rfl⟩) sessionKey
      have hpruned := (hput.putDisk hP call).prunes (.enforceDiskLimit _ call)
        (Cache.sameElsewhere_enforceDiskLimit _ call)
      exact hpruned.prunes (.maybeSweepDisk _ call.now) (Cache.sameElsewhere_maybeSweepDisk _ call.now)
  | setUnwritten key sessionKey entry call =>
    show (c.setUnwritten key sessionKey entry call).Traces P
    rw [Cache.setUnwritten]
    dsimp only
    split_ifs with hrefused
    · exact h
    · obtain ⟨hput, -⟩ := h.accept hrefused (fun t copy => hop _ entry t copy ⟨rfl, rfl⟩) sessionKey
      exact hput.prunes (.maybeSweepDisk _ call.now) (Cache.sameElsewhere_maybeSweepDisk _ call.now)
  | sweep now => exact h.keeps (.sweep c now)
  | evict tie => exact h.keeps (.enforce c tie)
  | applyOptions opts => exact of_empty rfl rfl h.sorted h.files

theorem foldl_perform (clean : Bytes → Bytes) (defaultDir : Bytes) : ∀ (ops : List MemoryOp) {c : Cache},
    c.Traces P →
    (∀ op ∈ ops, ∀ key e t copy, op.Stores key e → copy.IsCopyOf { e with diskExpiresAt := t } →
      P key copy) → (ops.foldl (Cache.perform clean defaultDir) c).Traces P
  | [], _, h, _ => h
  | op :: ops, _, h, hops => by
    have hfirst := h.perform (hops op List.mem_cons_self) clean defaultDir
    exact foldl_perform clean defaultDir ops hfirst fun o ho => hops o (List.mem_cons_of_mem op ho)

/-- A hit is live, may be cached, and has the property for its key. -/
theorem hit (h : c.Traces P) {call : Call} (hget : (c.get key call).2 = some entry) :
    call.now < entry.diskExpiresAt ∧ entry.cacheable c.maxBody = true ∧ P (normalizeKey key) entry := by
  by_cases hkey : normalizeKey key = []
  · rw [Cache.get, if_pos hkey] at hget
    cases hget
  rw [Cache.get_result h.memory.sorted hkey] at hget
  split at hget
  · next item hitem =>
    cases hget
    obtain ⟨hitem, hlive⟩ := Option.filter_eq_some_iff.mp hitem
    simp only [MemoryEntry.live, Bool.and_eq_true, decide_eq_true_eq] at hlive
    exact ⟨hlive.2, h.memory.entries _ item hitem⟩
  · obtain ⟨-, file, hfile, husable, rfl⟩ := Cache.getDisk_eq_some_iff.mp hget
    simp only [DiskRecord.usable, Bool.and_eq_true, beq_iff_eq, decide_eq_true_eq] at husable
    exact ⟨husable.1.2, husable.2, h.files c.dir _ file hfile husable.1.1.2⟩

end Cache.Traces

/-- After every sequence of operations a hit has not expired, may be cached under the limit in force,
    and was set under its key or was in a file of its key. -/
theorem hit_traced (clean : Bytes → Bytes) (defaultDir : Bytes) (opts : Options)
    (disk : Bytes → KeyMap DiskFile) (hdisk : ∀ dir, (disk dir).Sorted) (ops : List MemoryOp)
    (key : Bytes) (call : Call) (entry : Entry)
    (hget : ((ops.foldl (Cache.perform clean defaultDir)
      (newCache clean defaultDir opts disk)).get key call).2 = some entry) :
    call.now < entry.diskExpiresAt ∧
      entry.cacheable (ops.foldl (Cache.perform clean defaultDir)
        (newCache clean defaultDir opts disk)).maxBody = true ∧
      Origin disk ops (normalizeKey key) entry := by
  have hstart : (newCache clean defaultDir opts disk).Traces (Origin disk ops) :=
    .of_empty rfl rfl hdisk fun dir k file hfile hk => Or.inr ⟨dir, file, hfile, hk, rfl⟩
  have hend := hstart.foldl_perform clean defaultDir ops fun op hmem k e t copy hstores hcopy =>
    Or.inl ⟨op, hmem, e, t, hstores, hcopy⟩
  exact hend.hit hget

/-- A hit over the disk, in a directory that was left and named again. -/
theorem hit_traced_over_disk :
    Origin (fun _ => []) [.set sampleKey [] ⟨200, [], lit "old", zeroTime⟩ { now := second },
      .applyOptions (smallOptions "b"), .applyOptions (smallOptions "a")] (normalizeKey sampleKey)
      ⟨200, [], lit "old", 172801 * second⟩ :=
  (hit_traced id [] (smallOptions "a") (fun _ => []) (fun _ => List.Pairwise.nil)
    [.set sampleKey [] ⟨200, [], lit "old", zeroTime⟩ { now := second },
      .applyOptions (smallOptions "b"), .applyOptions (smallOptions "a")] sampleKey { now := 2 * second }
    ⟨200, [], lit "old", 172801 * second⟩ (by decide +kernel)).2.2

end DeepSeekWebToApi.ResponseCache
