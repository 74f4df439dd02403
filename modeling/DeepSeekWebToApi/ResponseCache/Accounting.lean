import Mathlib.Algebra.Order.BigOperators.Group.List
import DeepSeekWebToApi.ResponseCache.Store

/- The books of the memory layer. Beside the items the cache keeps a byte counter and,
   for every session, the set of its keys; six functions insert, replace, extend and
   delete items and keep the two in step by hand. `Cache.Accounted` is the invariant of
   every locked section, `Cache.Consistent` what holds between the operations: there the
   counter is below the limit as well. The byte counts are not bounded by 2^63. -/
namespace DeepSeekWebToApi.ResponseCache
open GoStrings

/-- The keys of a session. -/
def bucket (sessions : KeyMap (List Bytes)) (s : Bytes) : List Bytes := (sessions.get s).getD []

/-- What an item says about itself. -/
structure MemoryEntry.Sound (item : MemoryEntry) : Prop where
  size : item.size = item.entry.memorySize
  lease : item.memoryExpiresAt ≤ item.entry.diskExpiresAt

/-- The state of the memory layer between two operations. -/
structure Cache.Consistent (c : Cache) : Prop where
  bytes : c.memoryBytes = (c.items.map (fun kv => kv.2.entry.memorySize)).sum
  bounded : 0 < c.memoryMaxBytes → c.memoryBytes ≤ c.memoryMaxBytes
  sessions : ∀ s key, key ∈ bucket c.sessionEntries s ↔
    s ≠ [] ∧ ∃ item, c.items.get key = some item ∧ item.sessionKey = s
  noEmptyBucket : ∀ s, c.sessionEntries.get s ≠ some []
  leases : ∀ key item, c.items.get key = some item → item.memoryExpiresAt ≤ item.entry.diskExpiresAt

/-! The session index. -/

structure Tidy (sessions : KeyMap (List Bytes)) : Prop where
  sorted : sessions.Sorted
  filled : ∀ s, sessions.get s ≠ some []
  unnamed : sessions.get [] = none

section
variable {sessions : KeyMap (List Bytes)} {sessionKey cacheKey : Bytes}

theorem Tidy.add (h : Tidy sessions) : Tidy (addToSession sessions sessionKey cacheKey) := by
  rw [addToSession]
  split_ifs with hnil
  · exact h
  · obtain ⟨hs, -⟩ := not_or.mp hnil
    refine ⟨h.sorted.insert, fun s => ?_, ?_⟩
    · rw [KeyMap.get_insert]
      split_ifs
      · simp
      · exact h.filled s
    · rw [KeyMap.get_insert, if_neg hs]
      exact h.unnamed

theorem mem_bucket_add (hkey : cacheKey ≠ []) (s key : Bytes) :
    key ∈ bucket (addToSession sessions sessionKey cacheKey) s ↔
      (s ≠ [] ∧ s = sessionKey ∧ key = cacheKey) ∨ key ∈ bucket sessions s := by
  rw [addToSession]
  split_ifs with hnil
  · have hs : sessionKey = [] := hnil.resolve_right hkey
    rw [hs]
    exact ⟨Or.inr, fun h => h.elim (fun h => absurd h.2.1 h.1) id⟩
  · obtain ⟨hs, -⟩ := not_or.mp hnil
    rw [bucket, bucket, KeyMap.get_insert]
    by_cases heq : sessionKey = s
    · subst heq
      by_cases hk : key = cacheKey <;> simp [hk, hs]
    · simp [heq, Ne.symm heq]

theorem Tidy.remove (h : Tidy sessions) : Tidy (removeFromSession sessions sessionKey cacheKey) := by
  rw [removeFromSession]
  split_ifs with hnil
  · exact h
  · obtain ⟨hs, -⟩ := not_or.mp hnil
    cases hget : sessions.get sessionKey with
    | none => exact h
    | some keys =>
      simp only
      split_ifs with hempty
      · refine ⟨h.sorted.filter _, fun s => ?_, ?_⟩
        · rw [KeyMap.get_erase]
          split_ifs
          · simp
          · exact h.filled s
        · rw [KeyMap.get_erase, if_neg hs]
          exact h.unnamed
      · refine ⟨h.sorted.insert, fun s => ?_, ?_⟩
        · rw [KeyMap.get_insert]
          split_ifs
          · exact fun heq => hempty (Option.some.inj heq)
          · exact h.filled s
        · rw [KeyMap.get_insert, if_neg hs]
          exact h.unnamed

/-- What is left of a bucket whose last key went is no bucket: either way the key is out. -/
theorem bucket_remove (h : Tidy sessions) (hkey : cacheKey ≠ []) (s : Bytes) :
    bucket (removeFromSession sessions sessionKey cacheKey) s =
      if sessionKey = s then (bucket sessions s).filter (· ≠ cacheKey) else bucket sessions s := by
  rw [removeFromSession]
  split_ifs with hnil heq heq
  · have hs : s = [] := heq.symm.trans (hnil.resolve_right hkey)
    rw [hs, bucket, h.unnamed]
    rfl
  · rfl
  · subst heq
    cases hget : sessions.get sessionKey with
    | none => simp [bucket, hget]
    | some keys =>
      simp only
      split_ifs with hempty
      · rw [bucket, bucket, KeyMap.get_erase, if_pos rfl, hget]
        exact hempty.symm
      · rw [bucket, bucket, KeyMap.get_insert, if_pos rfl, hget]
        rfl
  · cases hget : sessions.get sessionKey with
    | none => rfl
    | some keys =>
      simp only
      split_ifs
      · rw [bucket, KeyMap.get_erase, if_neg heq]
        rfl
      · rw [bucket, KeyMap.get_insert, if_neg heq]
        rfl

theorem mem_bucket_remove (h : Tidy sessions) (hkey : cacheKey ≠ []) (s key : Bytes) :
    key ∈ bucket (removeFromSession sessions sessionKey cacheKey) s ↔
      key ∈ bucket sessions s ∧ ¬ (s = sessionKey ∧ key = cacheKey) := by
  rw [bucket_remove h hkey]
  by_cases heq : sessionKey = s
  · simp [heq]
  · simp [heq, Ne.symm heq]

/-- Taking out the keys of a whole list of items. -/
theorem bucket_removeAll : ∀ (dead : KeyMap MemoryEntry) {sessions : KeyMap (List Bytes)},
    Tidy sessions → (∀ kv ∈ dead, kv.1 ≠ []) →
    Tidy (dead.foldl (fun s kv => removeFromSession s kv.2.sessionKey kv.1) sessions) ∧
    ∀ s key, key ∈ bucket (dead.foldl (fun s kv => removeFromSession s kv.2.sessionKey kv.1) sessions) s ↔
      key ∈ bucket sessions s ∧ ∀ kv ∈ dead, ¬ (s = kv.2.sessionKey ∧ key = kv.1)
  | [], sessions, h, _ => ⟨h, fun s key => by simp⟩
  | kv :: dead, sessions, h, hkeys => by
    obtain ⟨hkv, hdead⟩ := List.forall_mem_cons.mp hkeys
    have hfirst : Tidy (removeFromSession sessions kv.2.sessionKey kv.1) := h.remove
    obtain ⟨htidy, hmem⟩ := bucket_removeAll dead hfirst hdead
    refine ⟨htidy, fun s key => ?_⟩
    rw [List.foldl_cons, hmem, mem_bucket_remove h hkv, List.forall_mem_cons, and_assoc]

end

/-! The invariant of the locked sections. -/

structure Cache.Accounted (c : Cache) : Prop where
  sorted : c.items.Sorted
  named : ∀ kv ∈ c.items, kv.1 ≠ []
  bytes : c.memoryBytes = KeyMap.total MemoryEntry.size c.items
  sound : ∀ kv ∈ c.items, kv.2.Sound
  tidy : Tidy c.sessionEntries
  linked : ∀ s key, key ∈ bucket c.sessionEntries s ↔
    s ≠ [] ∧ ∃ item, c.items.get key = some item ∧ item.sessionKey = s

theorem Entry.memorySize_nonneg (e : Entry) : 0 ≤ e.memorySize := by
  have hbody : (0 : Int) ≤ e.body.length := Int.natCast_nonneg _
  have hheader : 0 ≤ (e.header.map (fun kv => (kv.1.length : Int) +
      (kv.2.map (fun v => (v.length : Int))).sum)).sum := by
    refine List.sum_nonneg fun n hn => ?_
    obtain ⟨kv, -, rfl⟩ := List.mem_map.mp hn
    have hvalues : 0 ≤ (kv.2.map (fun v => (v.length : Int))).sum := by
      refine List.sum_nonneg fun n hn => ?_
      obtain ⟨v, -, rfl⟩ := List.mem_map.mp hn
      exact Int.natCast_nonneg _
    have hkey : (0 : Int) ≤ kv.1.length := Int.natCast_nonneg _
    omega
  show 0 ≤ (e.body.length : Int) + _
  omega

/-- The session index as `inserted` finds it for the new key: a replaced item of another session is
    out of it. -/
def Cache.unlinked (c : Cache) (key sessionKey : Bytes) : KeyMap (List Bytes) :=
  match c.items.get key with
  | some item => if item.sessionKey = sessionKey then c.sessionEntries
      else removeFromSession c.sessionEntries item.sessionKey key
  | none => c.sessionEntries

namespace Cache.Accounted

variable {c : Cache}

theorem nonneg (h : c.Accounted) : 0 ≤ c.memoryBytes := by
  rw [h.bytes]
  refine KeyMap.total_nonneg fun kv hkv => ?_
  rw [(h.sound kv hkv).size]
  exact kv.2.entry.memorySize_nonneg

/-- The limit is all that is missing. -/
theorem consistent (h : c.Accounted) (hb : 0 < c.memoryMaxBytes → c.memoryBytes ≤ c.memoryMaxBytes) :
    c.Consistent where
  bytes := by
    rw [h.bytes, KeyMap.total]
    congr 1
    exact List.map_congr_left fun kv hkv => (h.sound kv hkv).size
  bounded := hb
  sessions := h.linked
  noEmptyBucket := h.tidy.filled
  leases := fun key item hget => (h.sound (key, item) (KeyMap.mem_of_get hget)).lease

theorem drop (h : c.Accounted) {key : Bytes} {item : MemoryEntry}
    (hget : c.items.get key = some item) : (c.drop key item).Accounted where
  sorted := h.sorted.filter _
  named := fun kv hkv => h.named kv (List.mem_filter.mp hkv).1
  bytes := by
    show c.memoryBytes - item.size = KeyMap.total MemoryEntry.size (c.items.erase key)
    rw [KeyMap.total_erase _ h.sorted hget, h.bytes]
  sound := fun kv hkv => h.sound kv (List.mem_filter.mp hkv).1
  tidy := h.tidy.remove
  linked := by
    intro s k
    show k ∈ bucket (removeFromSession c.sessionEntries item.sessionKey key) s ↔
      s ≠ [] ∧ ∃ it, (c.items.erase key).get k = some it ∧ it.sessionKey = s
    have hkey : key ≠ [] := h.named (key, item) (KeyMap.mem_of_get hget)
    rw [mem_bucket_remove h.tidy hkey, h.linked, KeyMap.get_erase]
    by_cases hk : key = k
    · -- the item that goes was the only one under its key
      subst hk
      simp only [hget, if_true]
      constructor
      · rintro ⟨⟨-, it, hit, hsess⟩, hne⟩
        cases hit
        exact absurd ⟨hsess.symm, trivial⟩ hne
      · rintro ⟨-, it, hit, -⟩
        cases hit
    · rw [if_neg hk]
      exact ⟨And.left, fun h => ⟨h, fun heq => hk heq.2.symm⟩⟩

theorem sweepMemoryLocked (h : c.Accounted) (now : Int) : (c.sweepMemoryLocked now).Accounted := by
  have hdead : ∀ kv ∈ c.items.filter (fun kv => !kv.2.live now), kv.1 ≠ [] :=
    fun kv hkv => h.named kv (List.mem_filter.mp hkv).1
  obtain ⟨htidy, hmem⟩ := bucket_removeAll _ h.tidy hdead
  refine ⟨h.sorted.filter _, fun kv hkv => h.named kv (List.mem_filter.mp hkv).1, ?_,
    fun kv hkv => h.sound kv (List.mem_filter.mp hkv).1, htidy, fun s key => ?_⟩
  · -- the counter does not fall below zero, so the clamp changes nothing
    have hsum := KeyMap.total_filter_add MemoryEntry.size (fun kv => kv.2.live now) c.items
    have hlive : 0 ≤ KeyMap.total MemoryEntry.size (c.items.filter (fun kv => kv.2.live now)) := by
      refine KeyMap.total_nonneg fun kv hkv => ?_
      rw [(h.sound kv (List.mem_filter.mp hkv).1).size]
      exact kv.2.entry.memorySize_nonneg
    show max 0 (c.memoryBytes - KeyMap.total MemoryEntry.size _) = KeyMap.total MemoryEntry.size _
    rw [h.bytes, ← hsum, Int.add_sub_cancel]
    exact Int.max_eq_right hlive
  · show key ∈ bucket (List.foldl _ c.sessionEntries _) s ↔
      s ≠ [] ∧ ∃ item, KeyMap.get (c.items.filter (fun kv => kv.2.live now)) key = some item ∧
        item.sessionKey = s
    rw [hmem, h.linked, KeyMap.get_filter h.sorted]
    constructor
    · rintro ⟨⟨hs, item, hget, rfl⟩, hnot⟩
      refine ⟨hs, item, Option.filter_eq_some_iff.mpr ⟨hget, ?_⟩, rfl⟩
      by_contra hdead
      refine hnot (key, item) (List.mem_filter.mpr ⟨KeyMap.mem_of_get hget, ?_⟩) ⟨rfl, rfl⟩
      rw [Bool.eq_false_iff.mpr hdead]
      rfl
    · rintro ⟨hs, item, hget, rfl⟩
      obtain ⟨hget, hlive⟩ := Option.filter_eq_some_iff.mp hget
      refine ⟨⟨hs, item, hget, rfl⟩, fun kv hkv heq => ?_⟩
      obtain ⟨hmem, hdead⟩ := List.mem_filter.mp hkv
      have hitem : c.items.get key = some kv.2 := heq.2 ▸ KeyMap.get_of_mem h.sorted hmem
      rw [← Option.some.inj (hget.symm.trans hitem), hlive] at hdead
      cases hdead

/-- A new lease, within the life of the entry. -/
theorem extend (h : c.Accounted) {key : Bytes} {item : MemoryEntry}
    (hget : c.items.get key = some item) {t : Int} (ht : t ≤ item.entry.diskExpiresAt) :
    Accounted { c with items := c.items.insert key { item with memoryExpiresAt := t } } := by
  have hmem := KeyMap.mem_of_get hget
  refine ⟨h.sorted.insert, fun kv hkv => ?_, ?_, fun kv hkv => ?_, h.tidy, fun s k => ?_⟩
  · rcases KeyMap.mem_insert hkv with rfl | hkv
    · exact h.named (key, item) hmem
    · exact h.named kv hkv
  · rw [KeyMap.total_insert _ _ _ h.sorted, hget, h.bytes]
    show _ = _ - item.size + item.size
    omega
  · rcases KeyMap.mem_insert hkv with rfl | hkv
    · exact ⟨(h.sound (key, item) hmem).size, ht⟩
    · exact h.sound kv hkv
  · rw [h.linked, KeyMap.get_insert]
    by_cases hk : key = k
    · subst hk
      simp [hget]
    · rw [if_neg hk]

theorem bumpSingle (h : c.Accounted) (key : Bytes) (now : Int) :
    (c.bumpSingleEntryExpiryLocked key now).Accounted := by
  rw [Cache.bumpSingleEntryExpiryLocked]
  cases hget : c.items.get key with
  | none => exact h
  | some item =>
    simp only
    split_ifs
    · exact h.extend hget (Int.min_le_left _ _)
    · exact h

theorem bumpSiblings (key : Bytes) (now : Int) : ∀ (siblings : List Bytes) {c : Cache},
    c.Accounted → (c.bumpSiblings siblings key now).Accounted
  | [], _, h => h
  | sibling :: siblings, c, h => by
    rw [Cache.bumpSiblings, List.foldl_cons]
    split_ifs
    · exact bumpSiblings key now siblings h
    · exact bumpSiblings key now siblings (h.bumpSingle sibling now)

theorem bumpMemoryExpiryLocked (h : c.Accounted) (key : Bytes) (now : Int) :
    (c.bumpMemoryExpiryLocked key now).Accounted := by
  have hbumped := h.bumpSingle key now
  rw [Cache.bumpMemoryExpiryLocked]
  cases c.items.get key with
  | none => exact h
  | some item =>
    simp only
    split_ifs
    · exact h
    · exact hbumped
    · cases c.sessionEntries.get item.sessionKey with
      | none => exact hbumped
      | some siblings =>
        simp only
        split_ifs
        · exact hbumped
        · exact Accounted.bumpSiblings key now siblings hbumped

theorem tidy_unlinked (h : c.Accounted) (key sessionKey : Bytes) : Tidy (c.unlinked key sessionKey) := by
  rw [Cache.unlinked]
  cases c.items.get key with
  | none => exact h.tidy
  | some item =>
    simp only
    split_ifs
    · exact h.tidy
    · exact h.tidy.remove

/-- Without the replaced item and with the new key, the other keys stay where they are. -/
theorem mem_unlinked (h : c.Accounted) {key : Bytes} (hkey : key ≠ []) (sessionKey s k : Bytes) :
    (s ≠ [] ∧ s = sessionKey ∧ k = key) ∨ k ∈ bucket (c.unlinked key sessionKey) s ↔
      (s ≠ [] ∧ s = sessionKey ∧ k = key) ∨ (k ≠ key ∧ k ∈ bucket c.sessionEntries s) := by
  rw [Cache.unlinked]
  cases hget : c.items.get key with
  | none =>
    refine or_congr_right ⟨fun hk => ⟨?_, hk⟩, And.right⟩
    rintro rfl
    obtain ⟨-, item, hitem, -⟩ := (h.linked s k).mp hk
    exact absurd (hget.symm.trans hitem) (Option.some_ne_none item).symm
  | some item =>
    have honly : key ∈ bucket c.sessionEntries s → s ≠ [] ∧ s = item.sessionKey := by
      intro hk
      obtain ⟨hs, it, hit, hsess⟩ := (h.linked s key).mp hk
      rw [Option.some.inj (hget.symm.trans hit)]
      exact ⟨hs, hsess.symm⟩
    simp only
    split_ifs with hsame
    · by_cases hk : k = key
      · subst hk
        simp only [ne_eq, not_true_eq_false, false_and, or_false, and_true]
        exact ⟨fun hor => hor.elim id fun hk => hsame ▸ honly hk, Or.inl⟩
      · simp [hk]
    · rw [mem_bucket_remove h.tidy hkey]
      refine or_congr_right ⟨?_, fun hk => ⟨hk.2, fun heq => hk.1 heq.2⟩⟩
      rintro ⟨hk, hne⟩
      refine ⟨?_, hk⟩
      rintro rfl
      exact hne ⟨(honly hk).2, rfl⟩

theorem inserted (h : c.Accounted) {key : Bytes} (hkey : key ≠ []) (sessionKey : Bytes) {entry : Entry}
    {t : Int} (ht : t ≤ entry.diskExpiresAt) : (c.inserted key sessionKey entry t).Accounted := by
  refine ⟨h.sorted.insert, fun kv hkv => ?_, ?_, fun kv hkv => ?_,
    (h.tidy_unlinked key sessionKey).add, fun s k => ?_⟩
  · rcases KeyMap.mem_insert hkv with rfl | hkv
    · exact hkey
    · exact h.named kv hkv
  · show c.memoryBytes - (c.items.get key).elim 0 MemoryEntry.size + entry.memorySize =
      KeyMap.total MemoryEntry.size (c.items.insert key ⟨entry, t, entry.memorySize, sessionKey⟩)
    rw [KeyMap.total_insert _ _ _ h.sorted, h.bytes]
  · rcases KeyMap.mem_insert hkv with rfl | hkv
    · exact ⟨rfl, ht⟩
    · exact h.sound kv hkv
  · show k ∈ bucket (addToSession (c.unlinked key sessionKey) sessionKey key) s ↔
      s ≠ [] ∧ ∃ item, (c.items.insert key ⟨entry, t, entry.memorySize, sessionKey⟩).get k = some item ∧
        item.sessionKey = s
    rw [mem_bucket_add hkey, h.mem_unlinked hkey, KeyMap.get_insert, h.linked]
    by_cases hk : key = k
    · subst hk
      simp [eq_comm]
    · simp [hk, Ne.symm hk]

/-- The candidates go one after the other, as long as the counter is above the limit. The ones that
    are left are items still, and while the counter is above the limit they are all there is. -/
theorem evict : ∀ (candidates : KeyMap MemoryEntry) {c : Cache}, c.Accounted → 0 < c.memoryMaxBytes →
    (candidates.map Prod.fst).Nodup → (∀ kv ∈ candidates, c.items.get kv.1 = some kv.2) →
    (c.memoryBytes ≤ c.memoryMaxBytes ∨ ∀ kv ∈ c.items, kv ∈ candidates) →
    let c' := candidates.foldl (fun c cand =>
      if c.memoryBytes ≤ c.memoryMaxBytes then c else c.drop cand.1 cand.2) c
    c'.Accounted ∧ c'.memoryBytes ≤ c'.memoryMaxBytes
  | [], c, h, hmax, _, _, hrest => by
    refine ⟨h, hrest.elim id fun hall => ?_⟩
    have hitems : c.items = [] := List.eq_nil_iff_forall_not_mem.mpr fun kv hkv =>
      absurd (hall kv hkv) List.not_mem_nil
    show c.memoryBytes ≤ c.memoryMaxBytes
    rw [h.bytes, hitems, KeyMap.total_nil]
    omega
  | cand :: candidates, c, h, hmax, hnodup, hmem, hrest => by
    obtain ⟨hcand, hmem⟩ := List.forall_mem_cons.mp hmem
    rw [List.map_cons, List.nodup_cons] at hnodup
    simp only [List.foldl_cons]
    split_ifs with hle
    · exact evict candidates h hmax hnodup.2 hmem (Or.inl hle)
    · refine evict candidates (h.drop hcand) hmax hnodup.2 (fun kv hkv => ?_) (Or.inr fun kv hkv => ?_)
      · show (c.items.erase cand.1).get kv.1 = some kv.2
        have hne : cand.1 ≠ kv.1 := fun heq => hnodup.1 (heq ▸ List.mem_map_of_mem hkv)
        rw [KeyMap.get_erase, if_neg hne]
        exact hmem kv hkv
      · obtain ⟨hkv, hne⟩ := List.mem_filter.mp hkv
        rcases List.mem_cons.mp (hrest.resolve_left hle kv hkv) with heq | hin
        · exact absurd (congrArg Prod.fst heq) (bne_iff_ne.mp hne)
        · exact hin

theorem enforce (h : c.Accounted) (tie : Bytes → Nat) :
    (c.enforceMemoryLimitLocked tie).Accounted ∧
      (0 < (c.enforceMemoryLimitLocked tie).memoryMaxBytes →
        (c.enforceMemoryLimitLocked tie).memoryBytes ≤ (c.enforceMemoryLimitLocked tie).memoryMaxBytes) := by
  rw [Cache.enforceMemoryLimitLocked]
  split_ifs with hwithin
  · exact ⟨h, fun hmax => hwithin.resolve_left (Int.not_le.mpr hmax)⟩
  · obtain ⟨hmax, -⟩ := not_or.mp hwithin
    have hperm : (c.candidates tie).Perm c.items := List.perm_insertionSort _ _
    have hnodup : ((c.candidates tie).map Prod.fst).Nodup := by
      refine (hperm.map Prod.fst).nodup_iff.mpr (List.pairwise_map.mpr (h.sorted.imp ?_))
      exact fun hlt heq => List.lt_irrefl _ (heq ▸ hlt)
    have hmem : ∀ kv ∈ c.candidates tie, c.items.get kv.1 = some kv.2 :=
      fun kv hkv => KeyMap.get_of_mem h.sorted (hperm.mem_iff.mp hkv)
    obtain ⟨hacc, hle⟩ := evict (c.candidates tie) h (Int.not_le.mp hmax) hnodup hmem
      (Or.inr fun kv hkv => hperm.mem_iff.mpr hkv)
    have hclamp := Int.max_eq_right hacc.nonneg
    refine ⟨⟨hacc.sorted, hacc.named, hclamp.trans hacc.bytes, hacc.sound, hacc.tidy, hacc.linked⟩, ?_⟩
    exact fun _ => hclamp.trans_le hle

end Cache.Accounted

/-! Between the operations the limit holds as well. -/

structure Cache.Balanced (c : Cache) : Prop extends c.Accounted where
  bounded : 0 < c.memoryMaxBytes → c.memoryBytes ≤ c.memoryMaxBytes

/-- No byte came in. -/
structure Cache.Lighter (c c' : Cache) : Prop where
  bytes : c'.memoryBytes ≤ c.memoryBytes
  limit : c'.memoryMaxBytes = c.memoryMaxBytes

/-- Nothing of the memory layer changed. -/
structure Cache.SameMemory (c c' : Cache) : Prop where
  items : c'.items = c.items
  bytes : c'.memoryBytes = c.memoryBytes
  sessions : c'.sessionEntries = c.sessionEntries
  limit : c'.memoryMaxBytes = c.memoryMaxBytes

theorem Cache.Lighter.trans {a b c : Cache} (h : a.Lighter b) (g : b.Lighter c) : a.Lighter c :=
  ⟨g.bytes.trans h.bytes, g.limit.trans h.limit⟩

theorem Cache.lighter_bumpSingle (c : Cache) (key : Bytes) (now : Int) :
    c.Lighter (c.bumpSingleEntryExpiryLocked key now) := by
  rw [Cache.bumpSingleEntryExpiryLocked]
  cases c.items.get key with
  | none => exact ⟨Int.le_refl _, rfl⟩
  | some item =>
    simp only
    split_ifs <;> exact ⟨Int.le_refl _, rfl⟩

theorem Cache.lighter_bumpSiblings (key : Bytes) (now : Int) : ∀ (siblings : List Bytes) (c : Cache),
    c.Lighter (c.bumpSiblings siblings key now)
  | [], c => ⟨Int.le_refl _, rfl⟩
  | sibling :: siblings, c => by
    rw [Cache.bumpSiblings, List.foldl_cons]
    split_ifs
    · exact Cache.lighter_bumpSiblings key now siblings c
    · exact (c.lighter_bumpSingle sibling now).trans (Cache.lighter_bumpSiblings key now siblings _)

theorem Cache.lighter_bump (c : Cache) (key : Bytes) (now : Int) :
    c.Lighter (c.bumpMemoryExpiryLocked key now) := by
  have hbumped := c.lighter_bumpSingle key now
  rw [Cache.bumpMemoryExpiryLocked]
  cases c.items.get key with
  | none => exact ⟨Int.le_refl _, rfl⟩
  | some item =>
    simp only
    split_ifs
    · exact ⟨Int.le_refl _, rfl⟩
    · exact hbumped
    · cases c.sessionEntries.get item.sessionKey with
      | none => exact hbumped
      | some siblings =>
        simp only
        split_ifs
        · exact hbumped
        · exact hbumped.trans (Cache.lighter_bumpSiblings key now siblings _)

namespace Cache.Balanced

variable {c c' : Cache}

theorem of_lighter (h : c.Balanced) (hacc : c'.Accounted) (hl : c.Lighter c') : c'.Balanced :=
  ⟨hacc, fun hmax => hl.limit ▸ hl.bytes.trans (h.bounded (hl.limit ▸ hmax))⟩

theorem of_same (h : c.Balanced) (hs : c.SameMemory c') : c'.Balanced := by
  obtain ⟨hitems, hbytes, hsessions, hlimit⟩ := hs
  refine ⟨⟨?_, ?_, ?_, ?_, ?_, ?_⟩, ?_⟩
  · exact hitems ▸ h.sorted
  · exact hitems ▸ h.named
  · exact hbytes.trans (hitems ▸ h.bytes)
  · exact hitems ▸ h.sound
  · exact hsessions ▸ h.tidy
  · rw [hsessions, hitems]
    exact h.linked
  · rw [hbytes, hlimit]
    exact h.bounded

theorem sweep (h : c.Balanced) (now : Int) : (c.sweepMemoryLocked now).Balanced := by
  refine h.of_lighter (h.toAccounted.sweepMemoryLocked now) ⟨?_, rfl⟩
  show max 0 (c.memoryBytes - KeyMap.total MemoryEntry.size _) ≤ c.memoryBytes
  refine Int.max_le.mpr ⟨h.nonneg, Int.sub_le_self _ (KeyMap.total_nonneg fun kv hkv => ?_)⟩
  rw [(h.sound kv (List.mem_filter.mp hkv).1).size]
  exact kv.2.entry.memorySize_nonneg

theorem drop (h : c.Balanced) {key : Bytes} {item : MemoryEntry}
    (hget : c.items.get key = some item) : (c.drop key item).Balanced := by
  refine h.of_lighter (h.toAccounted.drop hget) ⟨Int.sub_le_self _ ?_, rfl⟩
  rw [(h.sound (key, item) (KeyMap.mem_of_get hget)).size]
  exact item.entry.memorySize_nonneg

theorem bump (h : c.Balanced) (key : Bytes) (now : Int) : (c.bumpMemoryExpiryLocked key now).Balanced :=
  h.of_lighter (h.toAccounted.bumpMemoryExpiryLocked key now) (c.lighter_bump key now)

theorem of_enforce (h : c.Accounted) (tie : Bytes → Nat) : (c.enforceMemoryLimitLocked tie).Balanced :=
  ⟨(h.enforce tie).1, (h.enforce tie).2⟩

/-- The limit is enforced at the end, so the counter may pass it in between. -/
theorem put (h : c.Balanced) {key : Bytes} (hkey : key ≠ []) (sessionKey : Bytes) (entry : Entry)
    (call : Call) : (c.putMemoryWithPolicySession key sessionKey entry call).Balanced := by
  have hswept := h.sweep call.now
  rw [Cache.putMemoryWithPolicySession]
  simp only
  split_ifs
  · exact hswept
  · rw [Cache.store]
    have hin := hswept.toAccounted.inserted hkey sessionKey (Int.min_le_left entry.diskExpiresAt
      (call.now + (c.sweepMemoryLocked call.now).memoryTTL))
    split_ifs
    · exact of_enforce hin call.tie
    · exact of_enforce (Accounted.bumpSiblings key call.now _ hin) call.tie
  · exact hswept

end Cache.Balanced

/-! Operations. -/

theorem Cache.SameMemory.refl (c : Cache) : c.SameMemory c := ⟨rfl, rfl, rfl, rfl⟩

theorem Cache.SameMemory.setFiles (c : Cache) (files : KeyMap DiskFile) : c.SameMemory (c.setFiles files) :=
  ⟨rfl, rfl, rfl, rfl⟩

theorem Cache.sameMemory_putDisk (c : Cache) (key : Bytes) (entry : Entry) (call : Call) :
    c.SameMemory (c.putDisk key entry call) := by
  rw [Cache.putDisk]
  split_ifs
  · exact .refl c
  · exact .setFiles c _

theorem Cache.sameMemory_enforceDiskLimit (c : Cache) (call : Call) :
    c.SameMemory (c.enforceDiskLimit call) := by
  rw [Cache.enforceDiskLimit]
  split_ifs
  · exact .refl c
  · exact .setFiles c _
  · exact .setFiles c _

theorem Cache.sameMemory_maybeSweepDisk (c : Cache) (now : Int) : c.SameMemory (c.maybeSweepDisk now) := by
  rw [Cache.maybeSweepDisk]
  simp only
  split_ifs
  · exact .refl c
  · exact ⟨rfl, rfl, rfl, rfl⟩
  · exact ⟨rfl, rfl, rfl, rfl⟩

theorem Cache.sameMemory_getDisk (c : Cache) (key : Bytes) (now : Int) :
    c.SameMemory (c.getDisk key now).1 := by
  rw [Cache.getDisk]
  split_ifs
  · exact .refl c
  · cases c.files.get key with
    | none => exact .refl c
    | some file =>
      simp only
      split_ifs
      · exact .refl c
      · exact .setFiles c _

/-- `setWithPolicySession` for a disk write that fails. -/
def Cache.setUnwritten (c : Cache) (key sessionKey : Bytes) (entry : Entry) (call : Call) : Cache :=
  let key := normalizeKey key
  if key = [] ∨ entry.cacheable c.maxBody = false then c
  else
    let entry := c.stamped entry call.now
    (c.putMemoryWithPolicySession key sessionKey entry call).maybeSweepDisk call.now

/-- What changes the memory layer: the calls of the package and the locked sections of a sweep and an
    eviction on their own. -/
inductive MemoryOp where
  | get (key : Bytes) (call : Call)
  | set (key sessionKey : Bytes) (entry : Entry) (call : Call)
  | setUnwritten (key sessionKey : Bytes) (entry : Entry) (call : Call)
  | sweep (now : Int)
  | evict (tie : Bytes → Nat)
  | applyOptions (opts : Options)

section
variable (clean : Bytes → Bytes) (defaultDir : Bytes)

/-- `New`: a cache with files from earlier processes. -/
def newCache (opts : Options) (disk : Bytes → KeyMap DiskFile) : Cache :=
  let opts := normalizeOptions clean defaultDir opts
  { dir := opts.dir, memoryTTL := opts.memoryTTL, diskTTL := opts.diskTTL, maxBody := opts.maxBody,
    memoryMaxBytes := opts.memoryMaxBytes, diskMaxBytes := opts.diskMaxBytes, disk := disk }

def Cache.perform (c : Cache) : MemoryOp → Cache
  | .get key call => (c.get key call).1
  | .set key sessionKey entry call => c.set key sessionKey entry call
  | .setUnwritten key sessionKey entry call => c.setUnwritten key sessionKey entry call
  | .sweep now => c.sweepMemoryLocked now
  | .evict tie => c.enforceMemoryLimitLocked tie
  | .applyOptions opts => c.applyOptions clean defaultDir opts

end

/-- A memory layer that starts anew. -/
theorem Cache.Balanced.of_empty {c : Cache} (hitems : c.items = []) (hbytes : c.memoryBytes = 0)
    (hsessions : c.sessionEntries = []) : c.Balanced where
  sorted := hitems ▸ List.Pairwise.nil
  named := hitems ▸ List.forall_mem_nil _
  bytes := by rw [hbytes, hitems, KeyMap.total_nil]
  sound := hitems ▸ List.forall_mem_nil _
  tidy := by
    rw [hsessions]
    exact ⟨List.Pairwise.nil, fun s => (Option.some_ne_none []).symm, rfl⟩
  linked := by
    intro s key
    rw [hsessions, hitems]
    simp [bucket, KeyMap.get]
  bounded := fun hmax => hbytes.trans_le (Int.le_of_lt hmax)

namespace Cache.Balanced

variable {c : Cache}

theorem lookupDisk (h : c.Balanced) {key : Bytes} (hkey : key ≠ []) (call : Call) :
    (c.lookupDisk key call).1.Balanced := by
  have hread := h.of_same (c.sameMemory_getDisk key call.now)
  rw [Cache.lookupDisk]
  generalize c.getDisk key call.now = found at hread
  obtain ⟨c', _ | entry⟩ := found
  · exact hread
  · exact hread.put hkey [] entry call

theorem get (h : c.Balanced) (key : Bytes) (call : Call) : (c.get key call).1.Balanced := by
  rw [Cache.get]
  simp only
  split_ifs with hkey
  · exact h
  · have hswept := h.sweep call.now
    cases hget : (c.sweepMemoryLocked call.now).items.get (normalizeKey key) with
    | none => exact hswept.lookupDisk hkey call
    | some item =>
      simp only
      split_ifs
      · exact hswept.bump _ _
      · exact (hswept.drop hget).lookupDisk hkey call

theorem set (h : c.Balanced) (key sessionKey : Bytes) (entry : Entry) (call : Call) :
    (c.set key sessionKey entry call).Balanced := by
  rw [Cache.set]
  simp only
  split_ifs with hrefused
  · exact h
  · have hput := h.put (not_or.mp hrefused).1 sessionKey (c.stamped entry call.now) call
    have hwritten := hput.of_same (Cache.sameMemory_putDisk _ (normalizeKey key)
      (c.stamped entry call.now) call)
    have hpruned := hwritten.of_same (Cache.sameMemory_enforceDiskLimit _ call)
    exact hpruned.of_same (Cache.sameMemory_maybeSweepDisk _ call.now)

theorem setUnwritten (h : c.Balanced) (key sessionKey : Bytes) (entry : Entry) (call : Call) :
    (c.setUnwritten key sessionKey entry call).Balanced := by
  rw [Cache.setUnwritten]
  simp only
  split_ifs with hrefused
  · exact h
  · have hput := h.put (not_or.mp hrefused).1 sessionKey (c.stamped entry call.now) call
    exact hput.of_same (Cache.sameMemory_maybeSweepDisk _ call.now)

theorem perform (h : c.Balanced) (clean : Bytes → Bytes) (defaultDir : Bytes) (op : MemoryOp) :
    (c.perform clean defaultDir op).Balanced := by
  cases op with
  | get key call => exact h.get key call
  | set key sessionKey entry call => exact h.set key sessionKey entry call
  | setUnwritten key sessionKey entry call => exact h.setUnwritten key sessionKey entry call
  | sweep now => exact h.sweep now
  | evict tie => exact of_enforce h.toAccounted tie
  | applyOptions opts => exact of_empty rfl rfl rfl

theorem foldl_perform (clean : Bytes → Bytes) (defaultDir : Bytes) : ∀ (ops : List MemoryOp) {c : Cache},
    c.Balanced → (ops.foldl (Cache.perform clean defaultDir) c).Balanced
  | [], _, h => h
  | op :: ops, _, h => foldl_perform clean defaultDir ops (h.perform clean defaultDir op)

end Cache.Balanced

/-- After every sequence of operations the books of the memory layer are right. -/
theorem memory_consistent (clean : Bytes → Bytes) (defaultDir : Bytes) (opts : Options)
    (disk : Bytes → KeyMap DiskFile) (ops : List MemoryOp) :
    (ops.foldl (Cache.perform clean defaultDir) (newCache clean defaultDir opts disk)).Consistent := by
  have hstart : (newCache clean defaultDir opts disk).Balanced := .of_empty rfl rfl rfl
  have hend := Cache.Balanced.foldl_perform clean defaultDir ops hstart
  exact hend.toAccounted.consistent hend.bounded

end DeepSeekWebToApi.ResponseCache
