import DeepSeekWebToApi.Upstreamsession.Leases

/- Whether a stored branch is found again. The store looks for a branch in the bucket of
   the scope it is asked for, so an entry has to lie in the bucket of its own scope. Only
   `Complete` can break that: it takes the scope of the request that ends, which may have
   been served by another account than the lease was taken for. -/
namespace DeepSeekWebToApi.Upstreamsession
open GoStrings GoJson

variable {F : Type} (φ : FloatFormat F)

/-- Every entry lies in the bucket of its scope, and a branch that was just completed is leased to the
    next request that goes on with it before it expires. -/
structure Sessions.Reachable (s : Sessions F) : Prop where
  placed : ∀ key, ∀ e ∈ s.store.entries key, scopeKey e.scope = key
  found : ∀ args, s.completed = some args → ∀ delta deltaTexts, canonicalMessages φ delta = some deltaTexts →
    delta ≠ [] → ∀ maxTurns now, now - args.now ≤ s.store.ttl →
    (s.store.prepareWithMaxTurns φ args.scope (args.requestMessages ++ args.responseMessages ++ delta)
      maxTurns now).2.isSome = true

/-- An entry is completed with a scope of its bucket. -/
def KeepsScope (s : Sessions F) : Action F → Prop
  | .complete i args => ∀ l, s.leases[i]? = some l → s.store.has l.key l.entryID = true →
      (args.check φ).isSome = true → scopeKey args.scope = l.key
  | _ => True

variable {φ}

def Placed (s : Store) : Prop := ∀ key, ∀ e ∈ s.entries key, scopeKey e.scope = key

variable {s : Store}

theorem Placed.prune (h : Placed s) (now : Int) : Placed (s.pruneLocked now) :=
  fun key e he => h key e (List.mem_filter.mp he).1

theorem Placed.setEntries (h : Placed s) {key : Bytes} {items : List Entry}
    (hitems : ∀ e ∈ items, scopeKey e.scope = key) : Placed (s.setEntries key items) := by
  intro key' e he
  rcases mem_setEntries he with ⟨rfl, hin⟩ | hin
  · exact hitems e hin
  · exact h key' e hin

theorem of_mem_updateEntry {id : Nat} {f : Entry → Entry} {e' : Entry} : ∀ {items : List Entry},
    e' ∈ updateEntry id f items → e' ∈ items ∨ ∃ e ∈ items, e.id = id ∧ e' = f e
  | e :: items, h => by
    rw [updateEntry] at h
    split_ifs at h with hid
    · rcases List.mem_cons.mp h with rfl | h
      · exact Or.inr ⟨e, List.mem_cons_self, hid, rfl⟩
      · exact Or.inl (List.mem_cons_of_mem _ h)
    · rcases List.mem_cons.mp h with rfl | h
      · exact Or.inl List.mem_cons_self
      · refine (of_mem_updateEntry h).imp (List.mem_cons_of_mem _) ?_
        rintro ⟨e₀, he₀, h⟩
        exact ⟨e₀, List.mem_cons_of_mem _ he₀, h⟩

theorem Placed.update (h : Placed s) {key : Bytes} {id : Nat} {f : Entry → Entry}
    (hf : ∀ e ∈ s.entries key, e.id = id → scopeKey (f e).scope = key) :
    Placed (s.setEntries key (updateEntry id f (s.entries key))) := by
  refine h.setEntries fun e he => ?_
  rcases of_mem_updateEntry he with he | ⟨e₀, he₀, hid, rfl⟩
  · exact h key e he
  · exact hf e₀ he₀ hid

theorem Placed.invalidate (h : Placed s) (key : Bytes) (id : Nat) : Placed (s.invalidate key id) :=
  h.setEntries fun e he => h key e (List.eraseP_sublist.subset he)

theorem Placed.record (h : Placed s) (args : Finished F) : Placed (s.recordArgs φ args) := by
  cases hcheck : args.check φ with
  | none => exact record_fails hcheck ▸ h
  | some branch =>
    obtain ⟨-, hscope, -⟩ := checkBranch_eq_some hcheck
    have hextended : ∀ e ∈ s.extended args.scope branch args.now, scopeKey e.scope = scopeKey args.scope := by
      intro e he
      rcases List.mem_append.mp he with he | he
      · exact h.prune args.now _ e he
      · cases List.mem_singleton.mp he
        rw [← hscope]
    have hpruned : Placed ({ s.pruneLocked args.now with nextID := s.nextID + 1 } : Store) := h.prune args.now
    rw [recordArgs_eq hcheck]
    split_ifs
    · exact hpruned.setEntries fun e he => hextended e ((List.eraseIdx_sublist _ _).subset he)
    · exact hpruned.setEntries hextended

/-- A completed entry in the bucket of its scope is found. -/
theorem completed_found {args : Finished F} {branch : Branch} {id : Nat} (hcheck : args.check φ = some branch)
    (hin : id ∈ s.ids (scopeKey args.scope)) {delta : List (Any F)} {deltaTexts : List Bytes}
    (hdelta : canonicalMessages φ delta = some deltaTexts) (hne : delta ≠ []) {maxTurns now : Int}
    (hnow : now - args.now ≤ s.ttl) :
    ((s.completeArgs φ (scopeKey args.scope) id args).prepareWithMaxTurns φ args.scope
      (args.requestMessages ++ args.responseMessages ++ delta) maxTurns now).2.isSome = true := by
  obtain ⟨hvalid, hscope, hrequest, hresponse⟩ := checkBranch_eq_some hcheck
  obtain ⟨e, -, -, hmem⟩ := updateEntry_mem (f := fun e => ⟨branch, e.id, e.turns + 1, args.now, false⟩) hin
  have hcurrent := canonicalMessages_append (canonicalMessages_append hrequest hresponse) hdelta
  have htexts : deltaTexts ≠ [] := by
    rintro rfl
    exact hne (List.length_eq_zero_iff.mp (length_canonicalMessages hdelta).symm)
  have hmessages : args.requestMessages ++ args.responseMessages ++ delta ≠ [] := by simp [hne]
  let done : Entry := ⟨branch, e.id, e.turns + 1, args.now, false⟩
  have hfree : done.Free args.scope := ⟨rfl, hscope⟩
  have hext : Extends φ done (branch.requestMessages ++ branch.responseMessages ++ deltaTexts)
      (branch.requestMessages ++ branch.responseMessages) .strictPrefix := ⟨deltaTexts, rfl, htexts, rfl⟩
  have hkept : s.keeps now done = true := by
    simp only [Store.keeps, done, Bool.false_or, decide_eq_true_eq]
    exact hnow
  rw [complete_updates hcheck]
  refine prepare_finds hvalid hmessages hcurrent (List.mem_filter.mpr ⟨?_, hkept⟩) hfree hext
  simp only [Store.setEntries, Function.update_self]
  exact hmem

theorem Placed.reachable {s : Sessions F} (h : Placed s.store) (hc : s.completed = none) : s.Reachable φ :=
  ⟨h, fun args hargs => absurd (hc.symm.trans hargs) (Option.some_ne_none args).symm⟩

/-- A completion with valid arguments: the entry, if it is there, gets the scope of the arguments. -/
theorem Placed.completed_iff {s : Sessions F} (h : Placed s.store) {i : Nat} {l : Lease F} {args : Finished F}
    {branch : Branch} (hcheck : args.check φ = some branch) :
    Sessions.Reachable φ
      { s.ended i (s.store.completeArgs φ l.key l.entryID args) with
        completed := if s.store.has l.key l.entryID && (args.check φ).isSome then some args else none } ↔
      (s.store.has l.key l.entryID = true → scopeKey args.scope = l.key) := by
  obtain ⟨-, hscope, -⟩ := checkBranch_eq_some hcheck
  rw [complete_updates hcheck]
  constructor
  · intro hreach hhas
    obtain ⟨e, -, -, hmem⟩ := updateEntry_mem
      (f := fun e => ⟨branch, e.id, e.turns + 1, args.now, false⟩) (Store.has_iff.mp hhas)
    have hplace := hreach.placed l.key ⟨branch, e.id, e.turns + 1, args.now, false⟩ (by
      simp only [Sessions.ended, Store.setEntries, Function.update_self]
      exact hmem)
    rw [← hscope]
    exact hplace
  · intro hkeep
    have hplaced : Placed (s.store.setEntries l.key (updateEntry l.entryID
        (fun e => ⟨branch, e.id, e.turns + 1, args.now, false⟩) (s.store.entries l.key))) := by
      refine h.update fun e he hid => ?_
      show scopeKey branch.scope = l.key
      rw [hscope]
      exact hkeep (Store.has_iff.mpr (hid ▸ List.mem_map_of_mem he))
    by_cases hhas : s.store.has l.key l.entryID = true
    · refine ⟨hplaced, fun args' hargs delta deltaTexts hdelta hne maxTurns now hnow => ?_⟩
      simp only [hhas, hcheck, Option.isSome_some, Bool.and_true, if_true] at hargs
      cases hargs
      have hin : l.entryID ∈ s.store.ids (scopeKey args.scope) := hkeep hhas ▸ Store.has_iff.mp hhas
      have hfound : ((s.store.completeArgs φ (scopeKey args.scope) l.entryID args).prepareWithMaxTurns φ
          args.scope (args.requestMessages ++ args.responseMessages ++ delta) maxTurns now).2.isSome = true :=
        completed_found hcheck hin hdelta hne hnow
      rw [hkeep hhas, complete_updates hcheck] at hfound
      exact hfound
    · refine hplaced.reachable ?_
      simp [hhas]

/-- One call: the entries stay in their buckets and are found, unless one gets the scope of another
    bucket. -/
theorem Placed.step {s t : Sessions F} {a : Action F} (h : Placed s.store) (ht : s.step φ a = some t) :
    t.Reachable φ ↔ KeepsScope φ s a := by
  cases a with
  | prepare scope messages maxTurns now =>
    cases ht
    refine ⟨fun _ => trivial, fun _ => reachable ?_ rfl⟩
    rcases prepare_cases φ s.store scope messages maxTurns now with hp | hp | ⟨e, lease, he, hfree, hkey, hid, hp⟩
    · simp only [hp]
      exact h
    · simp only [hp]
      exact h.prune now
    · simp only [hp]
      exact (h.prune now).update fun e he _ => h.prune now _ e he
  | record args =>
    cases ht
    exact ⟨fun _ => trivial, fun _ => reachable (h.record args) rfl⟩
  | complete i args =>
    simp only [Sessions.step] at ht
    split at ht <;> cases ht
    next l hl =>
      cases hcheck : args.check φ with
      | none =>
        refine ⟨fun _ l' _ _ hsome => ?_, fun _ => reachable ?_ ?_⟩
        · rw [hcheck] at hsome
          cases hsome
        · simp only [Sessions.ended, complete_fails hcheck]
          exact h.invalidate _ _
        · simp only [Option.isSome_none, Bool.and_false, Bool.false_eq_true, if_false]
      | some branch =>
        rw [← hcheck, h.completed_iff hcheck]
        constructor
        · intro hkeep l' hl' hhas _
          cases hl.symm.trans hl'
          exact hkeep hhas
        · exact fun hkeep hhas => hkeep l hl hhas (by rw [hcheck]; rfl)
  | invalidate i =>
    simp only [Sessions.step] at ht
    split at ht <;> cases ht
    exact ⟨fun _ => trivial, fun _ => reachable (h.invalidate _ _) rfl⟩
  | release i =>
    simp only [Sessions.step] at ht
    split at ht <;> cases ht
    exact ⟨fun _ => trivial, fun _ => reachable (h.update fun e he _ => h _ e he) rfl⟩
  | prune now =>
    cases ht
    exact ⟨fun _ => trivial, fun _ => reachable (h.prune now) rfl⟩

/-- In every run each stored branch is in the bucket of its scope, and a completed one is found, exactly
    when no stored entry is completed with a scope of another bucket. -/
theorem stored_reachable_iff (φ : FloatFormat F) (ttl : Int) (maxBranches : Nat) (actions : List (Action F)) :
    Runs.Always (Sessions.step φ) (Sessions.Reachable φ) { store := newStore ttl maxBranches } actions ↔
      Runs.Meets (Sessions.step φ) (KeepsScope φ) { store := newStore ttl maxBranches } actions := by
  have hstart : Placed (newStore ttl maxBranches) := fun _ => List.forall_mem_nil _
  refine Runs.always_iff_meets (fun s a t hs ht => ?_) actions _ (hstart.reachable rfl)
  exact Placed.step hs.placed ht

/-- A branch is leased under one account and completed under another one. -/
def failover : List (Action Int) :=
  [.record (exchangeAt "a" "1" "one" 0), .prepare (sampleScope "a") (talk ["1", "one", "2"]) 0 0,
    .complete 0 ⟨sampleScope "b", talk ["1", "one", "2"], [say "assistant" "two"], lit "S", 3, 0⟩]

theorem completed_branch_unreachable :
    ¬ Runs.Always (Sessions.step wholeNumbers) (Sessions.Reachable wholeNumbers) { store := newStore 0 0 }
      failover := by
  intro h
  have hmissed : (Runs.run (Sessions.step wholeNumbers) { store := newStore 0 0 } failover).any (fun s =>
      s.completed.any (fun args => decide (0 - args.now ≤ s.store.ttl) &&
        (s.store.prepareWithMaxTurns wholeNumbers args.scope
          (args.requestMessages ++ args.responseMessages ++ talk ["3"]) 0 0).2.isNone)) = true := by
    decide +kernel
  obtain ⟨s, hs, hany⟩ := (Option.any_eq_true _ _).mp hmissed
  obtain ⟨args, hargs, hnone⟩ := (Option.any_eq_true _ _).mp hany
  rw [Bool.and_eq_true, decide_eq_true_eq, Option.isNone_iff_eq_none] at hnone
  have hsome : (canonicalMessages wholeNumbers (talk ["3"])).isSome = true := by decide +kernel
  obtain ⟨texts, htexts⟩ := Option.isSome_iff_exists.mp hsome
  have hfound := (h.final hs).found args hargs (talk ["3"]) texts htexts (List.cons_ne_nil _ _) 0 0 hnone.1
  rw [hnone.2] at hfound
  cases hfound

end DeepSeekWebToApi.Upstreamsession
