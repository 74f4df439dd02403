import DeepSeekWebToApi.Lib.Runs
import DeepSeekWebToApi.Upstreamsession.Selection

/- Whole runs of the session store. A run is a sequence of calls of any callers; a lease is
   live from the `Prepare` that gave it to the one call that ends it. A leased branch is to
   stay in the store until its lease ends (`leased_stays_iff`). `Record` breaks that when
   it evicts the oldest branch of a full bucket although the branch is leased. -/
namespace DeepSeekWebToApi.Upstreamsession
open GoStrings GoJson

/-- The arguments of `Record` and `Complete`. -/
structure Finished (F : Type) where
  scope : Scope
  requestMessages : List (Any F)
  responseMessages : List (Any F)
  sessionID : Bytes
  parentMessageID : Int
  now : Int

structure Sessions (F : Type) where
  store : Store
  leases : List (Lease F) := []
  /-- What the last call completed: a stored entry, with valid arguments. -/
  completed : Option (Finished F) := none

/-- A live lease is named by its place in the list. -/
inductive Action (F : Type) where
  | prepare (scope : Scope) (messages : List (Any F)) (maxTurns now : Int)
  | record (args : Finished F)
  | complete (lease : Nat) (args : Finished F)
  | invalidate (lease : Nat)
  | release (lease : Nat)
  | prune (now : Int)

variable {F : Type} (φ : FloatFormat F)

def Finished.check (args : Finished F) : Option Branch :=
  checkBranch φ args.scope args.requestMessages args.responseMessages args.sessionID args.parentMessageID

def Store.recordArgs (s : Store) (args : Finished F) : Store :=
  s.record φ args.scope args.requestMessages args.responseMessages args.sessionID args.parentMessageID args.now

def Store.completeArgs (s : Store) (key : Bytes) (entryID : Nat) (args : Finished F) : Store :=
  s.complete φ key entryID args.scope args.requestMessages args.responseMessages args.sessionID
    args.parentMessageID args.now

def Store.has (s : Store) (key : Bytes) (entryID : Nat) : Bool := (s.entries key).any (fun e => e.id = entryID)

/-- A call with the lease in the place `i`, which ends it. -/
def Sessions.ended (s : Sessions F) (i : Nat) (store : Store) : Sessions F :=
  { store := store, leases := s.leases.eraseIdx i }

def Sessions.step (s : Sessions F) : Action F → Option (Sessions F)
  | .prepare scope messages maxTurns now =>
    let found := s.store.prepareWithMaxTurns φ scope messages maxTurns now
    some { store := found.1, leases := s.leases ++ found.2.toList }
  | .record args => some { store := s.store.recordArgs φ args, leases := s.leases }
  | .complete i args =>
    match s.leases[i]? with
    | none => none
    | some l =>
      some { s.ended i (s.store.completeArgs φ l.key l.entryID args) with
             completed := if s.store.has l.key l.entryID && (args.check φ).isSome then some args else none }
  | .invalidate i =>
    match s.leases[i]? with
    | none => none
    | some l => some (s.ended i (s.store.invalidate l.key l.entryID))
  | .release i =>
    match s.leases[i]? with
    | none => none
    | some l => some (s.ended i (s.store.release l.key l.entryID))
  | .prune now => some { store := s.store.pruneLocked now, leases := s.leases }

/-- Every live lease has its entry, and to complete it leaves the completed conversation there. -/
structure Sessions.Kept (s : Sessions F) : Prop where
  stored : ∀ l ∈ s.leases, s.store.has l.key l.entryID = true
  single : (s.leases.map Lease.entryID).Nodup
  completes : ∀ l ∈ s.leases, ∀ (args : Finished F) (branch : Branch), args.check φ = some branch →
    ∃ e ∈ (s.store.completeArgs φ l.key l.entryID args).entries l.key, e.toBranch = branch

/-- The bucket of a scope with a new branch of it. -/
def Store.extended (s : Store) (scope : Scope) (branch : Branch) (now : Int) : List Entry :=
  (s.pruneLocked now).entries (scopeKey scope) ++ [⟨branch, s.nextID + 1, 1, now, false⟩]

/-- A branch is recorded into a bucket with room for it, or the oldest entry there has no live lease. -/
def EvictsFree (s : Sessions F) : Action F → Prop
  | .record args => ∀ branch, args.check φ = some branch →
      s.store.maxBranches < (s.store.extended args.scope branch args.now).length →
      ∀ oldest ∈ (s.store.extended args.scope branch args.now)[oldestEntry
        (s.store.extended args.scope branch args.now)]?, ∀ l ∈ s.leases, l.entryID ≠ oldest.id
  | _ => True

/-! Entries are known by their ids. -/

def Store.ids (s : Store) (key : Bytes) : List Nat := (s.entries key).map Entry.id

variable {s : Store} {key : Bytes} {id : Nat}

theorem Store.has_iff : s.has key id = true ↔ id ∈ s.ids key := by
  rw [Store.has, Store.ids, List.any_eq_true, List.mem_map]
  simp only [decide_eq_true_eq]

variable {f : Entry → Entry}

theorem ids_updateEntry (hf : ∀ e, (f e).id = e.id) : ∀ items : List Entry,
    (updateEntry id f items).map Entry.id = items.map Entry.id
  | [] => rfl
  | e :: items => by
    rw [updateEntry]
    split_ifs
    · rw [List.map_cons, List.map_cons, hf]
    · rw [List.map_cons, List.map_cons, ids_updateEntry hf items]

theorem mem_updateEntry {e' : Entry} : ∀ {items : List Entry},
    (items.map Entry.id).Nodup → e' ∈ updateEntry id f items →
    (e' ∈ items ∧ e'.id ≠ id) ∨ ∃ e ∈ items, e.id = id ∧ e' = f e
  | e :: items, hnodup, h => by
    rw [List.map_cons, List.nodup_cons] at hnodup
    rw [updateEntry] at h
    split_ifs at h with hid
    · rcases List.mem_cons.mp h with rfl | h
      · exact Or.inr ⟨e, List.mem_cons_self, hid, rfl⟩
      · refine Or.inl ⟨List.mem_cons_of_mem _ h, fun heq => hnodup.1 ?_⟩
        rw [hid, ← heq]
        exact List.mem_map_of_mem h
    · rcases List.mem_cons.mp h with rfl | h
      · exact Or.inl ⟨List.mem_cons_self, hid⟩
      · refine (mem_updateEntry hnodup.2 h).imp ?_ ?_
        · exact fun h => ⟨List.mem_cons_of_mem _ h.1, h.2⟩
        · rintro ⟨e₀, he₀, h⟩
          exact ⟨e₀, List.mem_cons_of_mem _ he₀, h⟩

theorem updateEntry_mem : ∀ {items : List Entry}, id ∈ items.map Entry.id →
    ∃ e ∈ items, e.id = id ∧ f e ∈ updateEntry id f items
  | e :: items, h => by
    rw [updateEntry]
    split_ifs with hid
    · exact ⟨e, List.mem_cons_self, hid, List.mem_cons_self⟩
    · rw [List.map_cons, List.mem_cons] at h
      obtain ⟨e₀, he₀, hid₀, hmem⟩ := updateEntry_mem (h.resolve_left (Ne.symm hid))
      exact ⟨e₀, List.mem_cons_of_mem _ he₀, hid₀, List.mem_cons_of_mem _ hmem⟩

/-- Ids are given once, live leases are of different busy entries. -/
structure Books (s : Store) (leases : List (Lease F)) : Prop where
  nodup : ∀ key, (s.ids key).Nodup
  unique : ∀ key key' id, id ∈ s.ids key → id ∈ s.ids key' → key = key'
  old : ∀ key, ∀ id ∈ s.ids key, id ≤ s.nextID
  leaseOld : ∀ l ∈ leases, l.entryID ≤ s.nextID
  leased : ∀ l ∈ leases, ∀ key, ∀ e ∈ s.entries key, e.id = l.entryID → e.busy = true
  single : (leases.map Lease.entryID).Nodup

def Stored (s : Store) (leases : List (Lease F)) : Prop := ∀ l ∈ leases, l.entryID ∈ s.ids l.key

theorem Stored.kept {s : Sessions F} (h : Stored s.store s.leases) (hb : Books s.store s.leases) :
    s.Kept φ where
  stored := fun l hl => Store.has_iff.mpr (h l hl)
  single := hb.single
  completes := by
    intro l hl args branch hcheck
    obtain ⟨e, -, -, hmem⟩ := updateEntry_mem (f := fun e => ⟨branch, e.id, e.turns + 1, args.now, false⟩)
      (h l hl)
    refine ⟨⟨branch, e.id, e.turns + 1, args.now, false⟩, ?_, rfl⟩
    rw [Finished.check] at hcheck
    rw [Store.completeArgs, Store.complete, hcheck]
    simp only [Store.setEntries, Function.update_self]
    exact hmem

variable {φ}

/-! Calls that bring no new id. -/

theorem ids_setEntries (s : Store) (key : Bytes) (items : List Entry) (key' : Bytes) :
    (s.setEntries key items).ids key' = if key' = key then items.map Entry.id else s.ids key' := by
  rw [Store.ids, Store.setEntries]
  simp only [Function.update_apply]
  split_ifs <;> rfl

theorem mem_setEntries {key key' : Bytes} {items : List Entry} {e : Entry}
    (h : e ∈ (s.setEntries key items).entries key') : key' = key ∧ e ∈ items ∨ e ∈ s.entries key' := by
  simp only [Store.setEntries, Function.update_apply] at h
  split_ifs at h with heq
  · exact Or.inl ⟨heq, h⟩
  · exact Or.inr h

/-- The buckets of `t` have ids of `s` only. -/
structure Store.Within (t s : Store) : Prop where
  ids : ∀ key, (t.ids key).Sublist (s.ids key)
  nextID : t.nextID = s.nextID

theorem Books.within {s t : Store} {leases rest : List (Lease F)} (h : Books s leases) (ht : t.Within s)
    (hrest : rest.Sublist leases)
    (hleased : ∀ l ∈ rest, ∀ key, ∀ e ∈ t.entries key, e.id = l.entryID → e.busy = true) : Books t rest where
  nodup := fun key => (h.nodup key).sublist (ht.ids key)
  unique := fun key key' id hid hid' => h.unique key key' id ((ht.ids key).subset hid) ((ht.ids key').subset hid')
  old := fun key id hid => ht.nextID ▸ h.old key id ((ht.ids key).subset hid)
  leaseOld := fun l hl => ht.nextID ▸ h.leaseOld l (hrest.subset hl)
  leased := hleased
  single := h.single.sublist (hrest.map _)

theorem within_setEntries {items : List Entry} (h : (items.map Entry.id).Sublist (s.ids key)) :
    (s.setEntries key items).Within s := by
  refine ⟨fun key' => ?_, rfl⟩
  rw [ids_setEntries]
  split_ifs with heq
  · exact heq ▸ h
  · exact List.Sublist.refl _

theorem within_prune (s : Store) (now : Int) : (s.pruneLocked now).Within s :=
  ⟨fun _ => List.filter_sublist.map _, rfl⟩

variable {leases : List (Lease F)}

theorem Books.prune (h : Books s leases) (now : Int) : Books (s.pruneLocked now) leases :=
  h.within (within_prune s now) (List.Sublist.refl _) fun l hl key e he => h.leased l hl key e (List.mem_filter.mp he).1

/-- A busy entry does not expire. -/
theorem Books.stored_prune (h : Books s leases) (now : Int) (hs : Stored s leases) :
    Stored (s.pruneLocked now) leases := by
  intro l hl
  obtain ⟨e, he, hid⟩ := List.mem_map.mp (hs l hl)
  refine List.mem_map.mpr ⟨e, List.mem_filter.mpr ⟨he, ?_⟩, hid⟩
  rw [Store.keeps, h.leased l hl l.key e he hid, Bool.true_or]

/-- Places with the same value are the same place. -/
theorem index_unique {α : Type} {l : List α} {f : α → Nat} (h : (l.map f).Nodup) {i j : Nat} {a b : α}
    (ha : l[i]? = some a) (hb : l[j]? = some b) (hab : f a = f b) : i = j := by
  have hboth : (l.map f)[i]? = (l.map f)[j]? := by
    rw [List.getElem?_map, List.getElem?_map, ha, hb, Option.map_some, Option.map_some, hab]
  have hi := (List.getElem?_eq_some_iff.mp ha).1
  have hj := (List.getElem?_eq_some_iff.mp hb).1
  rcases Nat.lt_trichotomy i j with hlt | heq | hgt
  · exact absurd hboth (List.nodup_iff_getElem?_ne_getElem?.mp h i j hlt (by rwa [List.length_map]))
  · exact heq
  · exact absurd hboth.symm (List.nodup_iff_getElem?_ne_getElem?.mp h j i hgt (by rwa [List.length_map]))

theorem mem_map_eraseIdx {α : Type} {l : List α} {f : α → Nat} (h : (l.map f).Nodup) {k x : Nat} :
    x ∈ (l.eraseIdx k).map f ↔ x ∈ l.map f ∧ ∀ a ∈ l[k]?, x ≠ f a := by
  constructor
  · intro hx
    obtain ⟨b, hb, rfl⟩ := List.mem_map.mp hx
    obtain ⟨i, hne, hi⟩ := List.mem_eraseIdx_iff_getElem?.mp hb
    exact ⟨List.mem_map_of_mem ((List.eraseIdx_sublist l k).subset hb),
      fun a ha heq => hne (index_unique h hi ha heq)⟩
  · rintro ⟨hx, hne⟩
    obtain ⟨b, hb, rfl⟩ := List.mem_map.mp hx
    obtain ⟨i, hi⟩ := List.mem_iff_getElem?.mp hb
    refine List.mem_map_of_mem (List.mem_eraseIdx_iff_getElem?.mpr ⟨i, ?_, hi⟩)
    rintro rfl
    exact hne b hi rfl

variable {i : Nat}

/-- The other live leases are of other entries. -/
theorem Books.other (h : Books s leases) {l l' : Lease F} (hl : leases[i]? = some l)
    (hl' : l' ∈ leases.eraseIdx i) : l'.entryID ≠ l.entryID :=
  ((mem_map_eraseIdx h.single).mp (List.mem_map_of_mem hl')).2 l hl

/-- A call with a lease that updates its entry. -/
theorem Books.updated (h : Books s leases) {l : Lease F} (hl : leases[i]? = some l) (hf : ∀ e, (f e).id = e.id) :
    Books (s.setEntries l.key (updateEntry l.entryID f (s.entries l.key))) (leases.eraseIdx i) := by
  refine h.within (within_setEntries ?_) (List.eraseIdx_sublist _ _) fun l' hl' key e he hid => ?_
  · rw [ids_updateEntry hf]
    exact List.Sublist.refl _
  · have hmem : l' ∈ leases := (List.eraseIdx_sublist leases i).subset hl'
    rcases mem_setEntries he with ⟨-, he⟩ | he
    · rcases mem_updateEntry (h.nodup l.key) he with ⟨he, -⟩ | ⟨e₀, -, hid₀, rfl⟩
      · exact h.leased l' hmem _ e he hid
      · rw [hf, hid₀] at hid
        exact absurd hid.symm (h.other hl hl')
    · exact h.leased l' hmem key e he hid

theorem stored_updated (hs : Stored s leases) (hf : ∀ e, (f e).id = e.id) :
    Stored (s.setEntries key (updateEntry id f (s.entries key))) (leases.eraseIdx i) := by
  intro l' hl'
  have hmem := hs l' ((List.eraseIdx_sublist leases i).subset hl')
  rw [ids_setEntries]
  split_ifs with heq
  · rw [ids_updateEntry hf, ← heq]
    exact hmem
  · exact hmem

theorem Books.invalidated (h : Books s leases) (i : Nat) (key : Bytes) (id : Nat) :
    Books (s.invalidate key id) (leases.eraseIdx i) := by
  refine h.within (within_setEntries (List.eraseP_sublist.map _)) (List.eraseIdx_sublist _ _)
    fun l' hl' key' e he hid => ?_
  have hmem : l' ∈ leases := (List.eraseIdx_sublist leases i).subset hl'
  rcases mem_setEntries he with ⟨-, he⟩ | he
  · exact h.leased l' hmem _ e (List.eraseP_sublist.subset he) hid
  · exact h.leased l' hmem key' e he hid

theorem Books.stored_invalidated (h : Books s leases) (hs : Stored s leases) {l : Lease F}
    (hl : leases[i]? = some l) : Stored (s.invalidate l.key l.entryID) (leases.eraseIdx i) := by
  intro l' hl'
  have hmem := hs l' ((List.eraseIdx_sublist leases i).subset hl')
  rw [Store.invalidate, ids_setEntries]
  split_ifs with heq
  · obtain ⟨e, he, hid⟩ := List.mem_map.mp hmem
    refine List.mem_map.mpr ⟨e, (List.mem_eraseP_of_neg ?_).mpr (heq ▸ he), hid⟩
    rw [hid, decide_eq_true_eq]
    exact h.other hl hl'
  · exact hmem

/-! Recording. -/

variable {args : Finished F} {branch : Branch}

/-- The store behind `Record`, before the limit is looked at. -/
theorem recordArgs_eq (h : args.check φ = some branch) :
    s.recordArgs φ args = ({ s.pruneLocked args.now with nextID := s.nextID + 1 } : Store).setEntries
      (scopeKey args.scope)
      (if s.maxBranches < (s.extended args.scope branch args.now).length then
        (s.extended args.scope branch args.now).eraseIdx (oldestEntry (s.extended args.scope branch args.now))
      else s.extended args.scope branch args.now) := by
  rw [Finished.check] at h
  rw [Store.recordArgs, Store.record, h]
  rfl

theorem ids_extended (s : Store) (scope : Scope) (branch : Branch) (now : Int) :
    (s.extended scope branch now).map Entry.id = (s.pruneLocked now).ids (scopeKey scope) ++ [s.nextID + 1] := by
  rw [Store.extended, List.map_append]
  rfl

theorem Books.nodup_extended (h : Books s leases) (scope : Scope) (branch : Branch) (now : Int) :
    ((s.extended scope branch now).map Entry.id).Nodup := by
  have hb := h.prune now
  rw [ids_extended, List.nodup_append]
  refine ⟨hb.nodup _, List.pairwise_singleton _ _, fun a ha b hnew => ?_⟩
  rw [List.mem_singleton.mp hnew]
  have hle : a ≤ s.nextID := hb.old _ a ha
  omega

theorem Books.recorded (h : Books s leases) {scope : Scope} {now : Int} {items : List Entry}
    (hitems : items.Sublist (s.extended scope branch now)) :
    Books (({ s.pruneLocked now with nextID := s.nextID + 1 } : Store).setEntries (scopeKey scope) items)
      leases := by
  have hb := h.prune now
  have hnew : ∀ {id}, id ∈ items.map Entry.id → id ∈ (s.pruneLocked now).ids (scopeKey scope) ∨
      id = s.nextID + 1 := by
    intro id hid
    have hmem := (hitems.map Entry.id).subset hid
    rw [ids_extended, List.mem_append, List.mem_singleton] at hmem
    exact hmem
  -- an id of a bucket is an old one there, or the new one in the bucket of the scope
  have hids : ∀ {key id}, id ∈ (({ s.pruneLocked now with nextID := s.nextID + 1 } : Store).setEntries
      (scopeKey scope) items).ids key →
      id ∈ (s.pruneLocked now).ids key ∨ id = s.nextID + 1 ∧ key = scopeKey scope := by
    intro key id hid
    rw [ids_setEntries] at hid
    split_ifs at hid with heq
    · subst heq
      exact (hnew hid).imp_right fun hid => ⟨hid, rfl⟩
    · exact Or.inl hid
  have hfresh : ∀ {key id}, id ∈ (s.pruneLocked now).ids key → id ≠ s.nextID + 1 := by
    intro key id hid
    have hle : id ≤ s.nextID := hb.old key id hid
    omega
  refine ⟨fun key => ?_, fun key key' id hid hid' => ?_, fun key id hid => ?_, fun l hl => ?_,
    fun l hl key e he hid => ?_, h.single⟩
  · rw [ids_setEntries]
    split_ifs
    · exact (h.nodup_extended scope branch now).sublist (hitems.map _)
    · exact hb.nodup key
  · rcases hids hid with hid | ⟨rfl, rfl⟩ <;> rcases hids hid' with hid' | ⟨heq, rfl⟩
    · exact hb.unique key key' id hid hid'
    · exact absurd heq (hfresh hid)
    · exact absurd rfl (hfresh hid')
    · rfl
  · show id ≤ s.nextID + 1
    rcases hids hid with hid | ⟨rfl, -⟩
    · exact Nat.le_succ_of_le (hb.old key id hid)
    · exact Nat.le_refl _
  · exact Nat.le_succ_of_le (h.leaseOld l hl)
  · rcases mem_setEntries he with ⟨-, hin⟩ | hin
    · rcases List.mem_append.mp (hitems.subset hin) with hin | hin
      · exact hb.leased l hl _ e hin hid
      · -- the new entry has no lease
        cases List.mem_singleton.mp hin
        have hle := h.leaseOld l hl
        have hsame : s.nextID + 1 = l.entryID := hid
        omega
    · exact hb.leased l hl key e hin hid

/-- A record keeps the leased entries exactly when the one it evicts is not among them. -/
theorem Books.stored_record_iff (h : Books s leases) (hs : Stored s leases)
    (hcheck : args.check φ = some branch) : Stored (s.recordArgs φ args) leases ↔
      (s.maxBranches < (s.extended args.scope branch args.now).length →
        ∀ oldest ∈ (s.extended args.scope branch args.now)[oldestEntry (s.extended args.scope branch args.now)]?,
          ∀ l ∈ leases, l.entryID ≠ oldest.id) := by
  have hnodup := h.nodup_extended args.scope branch args.now
  have hpruned := h.stored_prune args.now hs
  have hold : ∀ l ∈ leases, l.key = scopeKey args.scope →
      l.entryID ∈ (s.extended args.scope branch args.now).map Entry.id := by
    intro l hl hkey
    rw [ids_extended]
    exact List.mem_append_left _ (hkey ▸ hpruned l hl)
  rw [recordArgs_eq hcheck]
  split_ifs with hfull
  · constructor
    · intro ht _ oldest holdest l hl heq
      have hmem := ht l hl
      rw [ids_setEntries] at hmem
      split_ifs at hmem with hkey
      · exact ((mem_map_eraseIdx hnodup).mp hmem).2 oldest holdest heq
      · -- the entry of a lease is in the bucket of its key, so it is not evicted from another one
        have hin : oldest.id ∈ (s.extended args.scope branch args.now).map Entry.id :=
          List.mem_map_of_mem (List.mem_of_getElem? holdest)
        rw [ids_extended, List.mem_append, List.mem_singleton] at hin
        rcases hin with hin | hin
        · exact hkey ((h.prune args.now).unique _ _ l.entryID (hpruned l hl) (heq ▸ hin))
        · have hle := h.leaseOld l hl
          omega
    · intro hfree l hl
      rw [ids_setEntries]
      split_ifs with hkey
      · exact (mem_map_eraseIdx hnodup).mpr ⟨hold l hl hkey, fun a ha => hfree hfull a ha l hl⟩
      · exact hpruned l hl
  · refine ⟨fun _ hroom => absurd hroom hfull, fun _ l hl => ?_⟩
    rw [ids_setEntries]
    split_ifs with hkey
    · exact hold l hl hkey
    · exact hpruned l hl

/-! Leasing. -/

theorem Books.lease (h : Books s leases) {e : Entry} (he : e ∈ s.entries key) (hfree : e.busy = false)
    {lease : Lease F} (hid : lease.entryID = e.id) :
    Books (s.setEntries key (updateEntry e.id (fun e => { e with busy := true }) (s.entries key)))
      (leases ++ [lease]) := by
  have hin : e.id ∈ s.ids key := List.mem_map_of_mem he
  have hsame : ∀ key', (s.setEntries key (updateEntry e.id (fun e => { e with busy := true })
      (s.entries key))).ids key' = s.ids key' := by
    intro key'
    rw [ids_setEntries, ids_updateEntry (by intro e; rfl)]
    split_ifs with heq
    · rw [heq, Store.ids]
    · rfl
  -- a live lease is of a busy entry
  have hother : ∀ l ∈ leases, l.entryID ≠ e.id := by
    intro l hl heq
    rw [h.leased l hl key e he heq.symm] at hfree
    cases hfree
  refine ⟨fun key' => ?_, fun key₁ key₂ id => ?_, fun key' => ?_, fun l hl => ?_, fun l hl key' e' he' hid' => ?_,
    ?_⟩
  · rw [hsame]
    exact h.nodup key'
  · rw [hsame, hsame]
    exact h.unique key₁ key₂ id
  · rw [hsame]
    exact h.old key'
  · rcases List.mem_append.mp hl with hl | hl
    · exact h.leaseOld l hl
    · rw [List.mem_singleton.mp hl, hid]
      exact h.old key e.id hin
  · rcases List.mem_append.mp hl with hl | hl
    · rcases mem_setEntries he' with ⟨-, hmem⟩ | hmem
      · rcases mem_updateEntry (h.nodup key) hmem with ⟨hmem, -⟩ | ⟨e₀, -, -, rfl⟩
        · exact h.leased l hl key e' hmem hid'
        · rfl
      · exact h.leased l hl key' e' hmem hid'
    · rw [List.mem_singleton.mp hl, hid] at hid'
      simp only [Store.setEntries, Function.update_apply] at he'
      split_ifs at he' with hkey
      · rcases mem_updateEntry (h.nodup key) he' with ⟨-, hne⟩ | ⟨e₀, -, -, rfl⟩
        · exact absurd hid' hne
        · rfl
      · -- the id is in one bucket only
        have hthere : e.id ∈ s.ids key' := hid' ▸ List.mem_map_of_mem he'
        exact absurd (h.unique key' key e.id hthere hin) hkey
  · rw [List.map_append, List.map_singleton, List.nodup_append]
    refine ⟨h.single, List.pairwise_singleton _ _, fun a ha b hb => ?_⟩
    obtain ⟨l, hl, rfl⟩ := List.mem_map.mp ha
    rw [List.mem_singleton.mp hb, hid]
    exact hother l hl

theorem stored_lease (hs : Stored s leases) {e : Entry} (he : e ∈ s.entries key) {lease : Lease F}
    (hkey : lease.key = key) (hid : lease.entryID = e.id) :
    Stored (s.setEntries key (updateEntry e.id (fun e => { e with busy := true }) (s.entries key)))
      (leases ++ [lease]) := by
  have hin : e.id ∈ s.ids key := List.mem_map_of_mem he
  intro l hl
  have hmem : l.entryID ∈ s.ids l.key := by
    rcases List.mem_append.mp hl with hl | hl
    · exact hs l hl
    · rw [List.mem_singleton.mp hl, hkey, hid]
      exact hin
  rw [ids_setEntries, ids_updateEntry (by intro e; rfl)]
  split_ifs with heq
  · exact heq ▸ hmem
  · exact hmem

/-! Runs. -/

theorem complete_updates (h : args.check φ = some branch) : s.completeArgs φ key id args =
      s.setEntries key (updateEntry id (fun e => ⟨branch, e.id, e.turns + 1, args.now, false⟩) (s.entries key)) := by
  rw [Finished.check] at h
  rw [Store.completeArgs, Store.complete, h]

theorem complete_fails (h : args.check φ = none) : s.completeArgs φ key id args = s.invalidate key id := by
  rw [Finished.check] at h
  rw [Store.completeArgs, Store.complete, h]

theorem record_fails (h : args.check φ = none) : s.recordArgs φ args = s := by
  rw [Finished.check] at h
  rw [Store.recordArgs, Store.record, h]

/-- One call keeps the books, also one that evicts a leased branch. -/
theorem Books.call {s t : Sessions F} {a : Action F} (h : Books s.store s.leases)
    (ht : s.step φ a = some t) : Books t.store t.leases := by
  cases a with
  | prepare scope messages maxTurns now =>
    cases ht
    rcases prepare_cases φ s.store scope messages maxTurns now with
      hp | hp | ⟨e, lease, he, hfree, -, hid, hp⟩
    · simpa only [hp, Option.toList_none, List.append_nil] using h
    · simpa only [hp, Option.toList_none, List.append_nil] using h.prune now
    · simpa only [hp, Option.toList_some] using (h.prune now).lease he hfree.1 hid
  | record args =>
    cases ht
    show Books (s.store.recordArgs φ args) s.leases
    cases hcheck : args.check φ with
    | none => exact record_fails hcheck ▸ h
    | some branch =>
      rw [recordArgs_eq hcheck]
      split_ifs
      · exact h.recorded (List.eraseIdx_sublist _ _)
      · exact h.recorded (List.Sublist.refl (s.store.extended args.scope branch args.now))
  | prune now =>
    cases ht
    exact h.prune now
  | complete i args =>
    simp only [Sessions.step] at ht
    split at ht <;> cases ht
    next l hl =>
      simp only [Sessions.ended]
      cases hcheck : args.check φ with
      | none => exact complete_fails hcheck ▸ h.invalidated i _ _
      | some branch => exact complete_updates hcheck ▸ h.updated hl (fun _ => rfl)
  | invalidate i =>
    simp only [Sessions.step] at ht
    split at ht <;> cases ht
    exact h.invalidated i _ _
  | release i =>
    simp only [Sessions.step] at ht
    split at ht <;> cases ht
    next l hl => exact h.updated hl (fun _ => rfl)

/-- One call: no leased entry is lost unless it is evicted. -/
theorem Books.stored_step_iff {s t : Sessions F} {a : Action F} (h : Books s.store s.leases)
    (hs : Stored s.store s.leases) (ht : s.step φ a = some t) : Stored t.store t.leases ↔ EvictsFree φ s a := by
  cases a with
  | prepare scope messages maxTurns now =>
    cases ht
    refine ⟨fun _ => trivial, fun _ => ?_⟩
    have hstored := h.stored_prune now hs
    rcases prepare_cases φ s.store scope messages maxTurns now with
      hp | hp | ⟨e, lease, he, -, hkey, hid, hp⟩
    · simpa only [hp, Option.toList_none, List.append_nil] using hs
    · simpa only [hp, Option.toList_none, List.append_nil] using hstored
    · simpa only [hp, Option.toList_some] using stored_lease hstored he hkey hid
  | record args =>
    cases ht
    cases hcheck : args.check φ with
    | none =>
      simp only [record_fails hcheck]
      refine ⟨fun _ branch hsome => ?_, fun _ => hs⟩
      exact absurd (hcheck.symm.trans hsome) (Option.some_ne_none _).symm
    | some branch =>
      refine (h.stored_record_iff hs hcheck).trans ⟨fun hfree branch' hsome => ?_, fun hfree => hfree branch hcheck⟩
      cases hcheck.symm.trans hsome
      exact hfree
  | complete i args =>
    simp only [Sessions.step] at ht
    split at ht <;> cases ht
    next l hl =>
      refine ⟨fun _ => trivial, fun _ => ?_⟩
      simp only [Sessions.ended]
      cases hcheck : args.check φ with
      | none => exact complete_fails hcheck ▸ h.stored_invalidated hs hl
      | some branch => exact complete_updates hcheck ▸ stored_updated hs (fun _ => rfl)
  | invalidate i =>
    simp only [Sessions.step] at ht
    split at ht <;> cases ht
    next l hl => exact ⟨fun _ => trivial, fun _ => h.stored_invalidated hs hl⟩
  | release i =>
    simp only [Sessions.step] at ht
    split at ht <;> cases ht
    exact ⟨fun _ => trivial, fun _ => stored_updated hs (fun _ => rfl)⟩
  | prune now =>
    cases ht
    exact ⟨fun _ => trivial, fun _ => h.stored_prune now hs⟩

theorem books_start (ttl : Int) (maxBranches : Nat) : Books (newStore ttl maxBranches) ([] : List (Lease F)) where
  nodup := fun _ => List.nodup_nil
  unique := fun _ _ _ h => absurd h List.not_mem_nil
  old := fun _ _ h => absurd h List.not_mem_nil
  leaseOld := List.forall_mem_nil _
  leased := List.forall_mem_nil _
  single := List.nodup_nil

/-- The leased entries are stored, and the books are right. -/
def Sessions.Sound (s : Sessions F) : Prop := Stored s.store s.leases ∧ Books s.store s.leases

/-- In every run the leased branches stay in the store exactly when no `Record` evicts one of them. -/
theorem leased_stays_iff (φ : FloatFormat F) (ttl : Int) (maxBranches : Nat) (actions : List (Action F)) :
    Runs.Always (Sessions.step φ) (Sessions.Kept φ) { store := newStore ttl maxBranches } actions ↔
      Runs.Meets (Sessions.step φ) (EvictsFree φ) { store := newStore ttl maxBranches } actions := by
  have hbooks : Books (newStore ttl maxBranches) ([] : List (Lease F)) := books_start ttl maxBranches
  have hstart : Sessions.Sound ({ store := newStore ttl maxBranches } : Sessions F) :=
    ⟨List.forall_mem_nil _, hbooks⟩
  have hexact : Runs.Always (Sessions.step φ) Sessions.Sound { store := newStore ttl maxBranches } actions ↔
      Runs.Meets (Sessions.step φ) (EvictsFree φ) { store := newStore ttl maxBranches } actions := by
    refine Runs.always_iff_meets (fun s a t hs ht => ?_) actions _ hstart
    have hiff := hs.2.stored_step_iff hs.1 ht
    exact ⟨fun h => hiff.mp h.1, fun h => ⟨hiff.mpr h, hs.2.call ht⟩⟩
  rw [← hexact]
  constructor
  · intro h
    have hinv := h.with_inv (fun s a t _ hb ht _ => Books.call hb ht) hbooks
    exact hinv.mono fun s hs => ⟨fun l hl => Store.has_iff.mp (hs.1.stored l hl), hs.2⟩
  · exact fun h => h.mono fun s hs => hs.1.kept φ hs.2

/-- In every run, evictions of leased branches included, no two live leases are of one entry, what is
    leased is busy, and no two entries of the store have one id. -/
theorem leases_exclusive (φ : FloatFormat F) (ttl : Int) (maxBranches : Nat) (actions : List (Action F)) :
    Runs.Always (Sessions.step φ) (fun s => (s.leases.map Lease.entryID).Nodup ∧
      (∀ l ∈ s.leases, ∀ key, ∀ e ∈ s.store.entries key, e.id = l.entryID → e.busy = true) ∧
      (∀ key, (s.store.ids key).Nodup) ∧
      ∀ key key' id, id ∈ s.store.ids key → id ∈ s.store.ids key' → key = key')
      { store := newStore ttl maxBranches } actions := by
  have hbooks : Runs.Always (Sessions.step φ) (fun s => Books s.store s.leases)
      { store := newStore ttl maxBranches } actions :=
    Runs.always_inv (fun _ _ _ hs ht => hs.call ht) actions _ (books_start ttl maxBranches)
  exact hbooks.mono fun s hs => ⟨hs.single, hs.leased, hs.nodup, hs.unique⟩

def exchangeAt (account question answer : String) (now : Int) : Finished Int :=
  ⟨sampleScope account, talk [question], [say "assistant" answer], lit "S", 1, now⟩

/-- A branch is leased for a long answer while eight more are recorded. -/
def longAnswer : List (Action Int) :=
  [.record (exchangeAt "a" "1" "one" 0), .prepare (sampleScope "a") (talk ["1", "one", "2"]) 0 1] ++
    (List.range 8).map (fun n => .record (exchangeAt "a" "3" "three" (n + 2)))

theorem leased_branch_evicted :
    ¬ Runs.Always (Sessions.step wholeNumbers) (Sessions.Kept wholeNumbers) { store := newStore 0 0 }
      longAnswer := by
  intro h
  have hlost : (Runs.run (Sessions.step wholeNumbers) { store := newStore 0 0 } longAnswer).any (fun s =>
      s.leases.any (fun l => !s.store.has l.key l.entryID)) = true := by decide +kernel
  obtain ⟨s, hs, hany⟩ := (Option.any_eq_true _ _).mp hlost
  obtain ⟨l, hl, hgone⟩ := List.any_eq_true.mp hany
  rw [(h.final hs).stored l hl] at hgone
  cases hgone

end DeepSeekWebToApi.Upstreamsession
