import DeepSeekWebToApi.Upstreamsession.Store

/- Which branch a request gets. `Consumes` says what part of a branch a conversation may
   start with: all of it, or its system messages and a suffix of the rest that has the
   whole response and a message of the user. `matchBranchExtension` finds the longest such
   part (`match_sound`, `match_longest`), the loop over the candidates the best entry of
   the bucket (`Best.select`). Entries of the scope that lie in another bucket are not
   looked at; `lease_maximal_iff` says when that makes no difference. -/
namespace DeepSeekWebToApi.Upstreamsession
open GoStrings GoJson

variable {F : Type} {φ : FloatFormat F}

def systemMessages (φ : FloatFormat F) (messages : List Bytes) : List Bytes :=
  messages.takeWhile (fun raw => canonicalMessageRole φ raw == lit "system")

/-- The part of the branch before `delta`, for either way to match. -/
def Consumes (φ : FloatFormat F) (e : Entry) (consumed delta : List Bytes) : MatchMode → Prop
  | .strictPrefix => consumed = e.requestMessages ++ e.responseMessages
  | .slidingSuffix => ∃ dropped kept,
      e.requestMessages = systemMessages φ e.requestMessages ++ dropped ++ kept ∧
      (∃ message ∈ kept, canonicalMessageRole φ message = lit "user") ∧
      consumed = systemMessages φ e.requestMessages ++ kept ++ e.responseMessages ∧
      systemMessages φ (consumed ++ delta) = systemMessages φ e.requestMessages

/-- The conversation extends the branch. -/
def Extends (φ : FloatFormat F) (e : Entry) (current consumed : List Bytes) (mode : MatchMode) : Prop :=
  ∃ delta, current = consumed ++ delta ∧ delta ≠ [] ∧ Consumes φ e consumed delta mode

/-- At most as long, and no strict match beside a sliding one of its length. -/
def Covers (n : Nat) (mode : MatchMode) (m : Nat) (mode' : MatchMode) : Prop :=
  m < n ∨ m = n ∧ (mode' = .strictPrefix → mode = .strictPrefix)

theorem Covers.trans {a b c : Nat} {x y z : MatchMode} (h : Covers a x b y) (g : Covers b y c z) :
    Covers a x c z := by
  rcases h with h | ⟨rfl, h⟩
  · rcases g with g | ⟨rfl, -⟩
    · exact Or.inl (g.trans h)
    · exact Or.inl h
  · exact g.imp id fun g => ⟨g.1, fun hz => h (g.2 hz)⟩

/-! The descending search. -/

theorem searchDown_sound {fits : Nat → Bool} {least m : Nat} : ∀ {n : Nat},
    searchDown fits least n = some m → least ≤ m ∧ m ≤ n ∧ fits m = true
  | 0, h => by
    rw [searchDown] at h
    split_ifs at h with hlt hfits
    cases h
    exact ⟨Nat.not_lt.mp hlt, Nat.le_refl _, hfits⟩
  | n + 1, h => by
    rw [searchDown] at h
    split_ifs at h with hlt hfits
    · cases h
      exact ⟨Nat.not_lt.mp hlt, Nat.le_refl _, hfits⟩
    · obtain ⟨hl, hm, hf⟩ := searchDown_sound h
      exact ⟨hl, Nat.le_succ_of_le hm, hf⟩

theorem searchDown_longest {fits : Nat → Bool} {least k : Nat} (hleast : least ≤ k) (hk : fits k = true) :
    ∀ {n : Nat}, k ≤ n → ∃ m, searchDown fits least n = some m ∧ k ≤ m
  | 0, hn => by
    have hzero : k = 0 := Nat.le_zero.mp hn
    subst hzero
    rw [searchDown, if_neg (by omega), if_pos hk]
    exact ⟨0, rfl, Nat.le_refl _⟩
  | n + 1, hn => by
    rw [searchDown, if_neg (by omega)]
    split_ifs with hfits
    · exact ⟨n + 1, rfl, hn⟩
    · have hne : k ≠ n + 1 := fun heq => hfits (heq ▸ hk)
      exact searchDown_longest hleast hk (by omega)

/-! Matching. -/

theorem messagePrefixEqual_iff {current expected : List Bytes} {offset : Nat} :
    messagePrefixEqual current expected offset = true ↔
      ∃ rest, current = current.take offset ++ expected ++ rest ∧ offset ≤ current.length := by
  rw [messagePrefixEqual, Bool.and_eq_true, decide_eq_true_eq, decide_eq_true_eq]
  constructor
  · rintro ⟨hlen, heq⟩
    refine ⟨(current.drop offset).drop expected.length, ?_, by omega⟩
    conv_lhs => rw [← List.take_append_drop offset current,
      ← List.take_append_drop expected.length (current.drop offset), heq, ← List.append_assoc]
  · rintro ⟨rest, heq, hle⟩
    have hlen := congrArg List.length heq
    simp only [List.length_append, List.length_take, Nat.min_eq_left hle] at hlen
    refine ⟨by omega, ?_⟩
    have hdrop : current.drop offset = expected ++ rest := by
      conv_lhs => rw [heq, List.append_assoc]
      exact List.drop_left' (by rw [List.length_take, Nat.min_eq_left hle])
    rw [hdrop, List.take_left]

theorem take_leadingSystemCount (messages : List Bytes) :
    messages.take (leadingSystemCount φ messages) = systemMessages φ messages := by
  rw [leadingSystemCount]
  exact (List.prefix_iff_eq_take.mp (List.takeWhile_prefix _)).symm

theorem length_systemMessages (messages : List Bytes) :
    (systemMessages φ messages).length = leadingSystemCount φ messages := rfl

theorem request_split (φ : FloatFormat F) (e : Entry) : e.requestMessages = systemMessages φ e.requestMessages ++
    e.requestMessages.drop (leadingSystemCount φ e.requestMessages) := by
  conv_lhs => rw [← List.take_append_drop (leadingSystemCount φ e.requestMessages) e.requestMessages,
    take_leadingSystemCount]

variable {current : List Bytes} {e : Entry}

/-- The whole branch comes first. -/
theorem strict_iff : (e.requestMessages.length + e.responseMessages.length < current.length ∧
      messagePrefixEqual current e.requestMessages 0 = true ∧
      messagePrefixEqual current e.responseMessages e.requestMessages.length = true) ↔
    ∃ delta, current = e.requestMessages ++ e.responseMessages ++ delta ∧ delta ≠ [] := by
  rw [messagePrefixEqual_iff, messagePrefixEqual_iff]
  constructor
  · rintro ⟨hlen, ⟨rest, hreq, -⟩, rest', hresp, -⟩
    have htake : current.take e.requestMessages.length = e.requestMessages := by
      rw [hreq, List.take_zero, List.nil_append, List.take_left]
    rw [htake] at hresp
    refine ⟨rest', hresp, ?_⟩
    rintro rfl
    rw [hresp, List.append_nil, List.length_append] at hlen
    omega
  · rintro ⟨delta, rfl, hdelta⟩
    have hpos := List.length_pos_of_ne_nil hdelta
    refine ⟨?_, ⟨e.responseMessages ++ delta, ?_, Nat.zero_le _⟩, delta, ?_, ?_⟩
    · simp only [List.length_append]
      omega
    · rw [List.take_zero, List.nil_append, List.append_assoc]
    · rw [List.append_assoc, List.append_assoc, List.take_left]
    · simp only [List.length_append]
      omega

/-- The messages behind the system messages of both sides, when those are the same. -/
structure SameSystem (φ : FloatFormat F) (e : Entry) (current : List Bytes) : Prop where
  split : current = systemMessages φ e.requestMessages ++ current.drop (leadingSystemCount φ current)
  system : systemMessages φ current = systemMessages φ e.requestMessages

theorem sameSystem_iff : ¬ (leadingSystemCount φ e.requestMessages ≠ leadingSystemCount φ current ∨
      messagePrefixEqual current (e.requestMessages.take (leadingSystemCount φ e.requestMessages)) 0 = false) ↔
    SameSystem φ e current := by
  rw [not_or, not_not, Bool.not_eq_false, messagePrefixEqual_iff, take_leadingSystemCount, List.take_zero,
    List.nil_append]
  constructor
  · rintro ⟨hcount, rest, hcurrent, -⟩
    have hsame : systemMessages φ current = systemMessages φ e.requestMessages := by
      have htake : current.take (leadingSystemCount φ current) = systemMessages φ e.requestMessages := by
        rw [← hcount, ← length_systemMessages]
        conv_lhs => rw [hcurrent]
        exact List.take_left
      rw [← take_leadingSystemCount current, htake]
    refine ⟨?_, hsame⟩
    conv_lhs => rw [← List.take_append_drop (leadingSystemCount φ current) current, take_leadingSystemCount, hsame]
  · rintro ⟨hcurrent, hsame⟩
    refine ⟨?_, _, hcurrent, Nat.zero_le _⟩
    rw [← length_systemMessages, ← length_systemMessages, hsame]

theorem overlapFits_iff {remaining responses current : List Bytes} {overlap : Nat}
    (hleast : responses.length + 1 ≤ overlap) (hmost : overlap ≤ (remaining ++ responses).length) :
    overlapFits φ (remaining ++ responses) current responses.length overlap = true ↔
      ∃ dropped kept, remaining = dropped ++ kept ∧ kept.length + responses.length = overlap ∧
        (∃ message ∈ kept, canonicalMessageRole φ message = lit "user") ∧
        current.take overlap = kept ++ responses := by
  rw [List.length_append] at hmost
  have hstart : (remaining ++ responses).length - overlap ≤ remaining.length := by
    rw [List.length_append]
    omega
  have hrequests : (remaining ++ responses).take ((remaining ++ responses).length - responses.length) =
      remaining := by
    rw [List.length_append, Nat.add_sub_cancel, List.take_left]
  rw [overlapFits, Bool.and_eq_true, decide_eq_true_eq, hrequests, rawMessagesContainRole, List.any_eq_true,
    List.drop_append_of_le_length hstart]
  simp only [beq_iff_eq]
  generalize hstartEq : (remaining ++ responses).length - overlap = start at *
  rw [List.length_append] at hstartEq
  constructor
  · rintro ⟨htake, huser⟩
    refine ⟨remaining.take start, remaining.drop start, (List.take_append_drop _ _).symm, ?_, huser, htake⟩
    rw [List.length_drop]
    omega
  · rintro ⟨dropped, kept, rfl, hlen, huser, htake⟩
    have hdropped : start = dropped.length := by
      rw [List.length_append] at hstartEq
      omega
    subst hdropped
    rw [List.drop_left]
    exact ⟨htake, huser⟩

variable {mode : MatchMode}

theorem match_sound {n : Nat} (h : matchBranchExtension φ current e = some (n, mode)) :
    n ≤ current.length ∧ Extends φ e current (current.take n) mode := by
  rw [matchBranchExtension] at h
  simp only at h
  split at h
  · next hstrict =>
    cases h
    obtain ⟨delta, hcurrent, hdelta⟩ := strict_iff.mp hstrict
    have htake : current.take (e.requestMessages.length + e.responseMessages.length) =
        e.requestMessages ++ e.responseMessages := by
      rw [hcurrent, ← List.length_append, List.take_left]
    rw [htake]
    exact ⟨Nat.le_of_lt hstrict.1, delta, hcurrent, hdelta, rfl⟩
  · split_ifs at h with hsystem
    obtain ⟨hsplit, hsame⟩ := sameSystem_iff.mp hsystem
    obtain ⟨overlap, hsearch, hpair⟩ := Option.map_eq_some_iff.mp h
    cases hpair
    obtain ⟨hleast, hmost, hfits⟩ := searchDown_sound hsearch
    obtain ⟨hstored, hfree⟩ := Nat.le_min.mp hmost
    obtain ⟨dropped, kept, hremaining, hlen, huser, htake⟩ := (overlapFits_iff hleast hstored).mp hfits
    have hcount : leadingSystemCount φ current = (systemMessages φ e.requestMessages).length := by
      rw [← hsame, length_systemMessages]
    have hpart : current.take (leadingSystemCount φ current + overlap) =
        systemMessages φ e.requestMessages ++ kept ++ e.responseMessages := by
      rw [List.take_add, take_leadingSystemCount, hsame, htake, List.append_assoc]
    rw [List.length_drop] at hfree
    refine ⟨by omega, current.drop (leadingSystemCount φ current + overlap),
      (List.take_append_drop _ _).symm, ?_, dropped, kept, ?_, huser, hpart, ?_⟩
    · rw [ne_eq, List.drop_eq_nil_iff]
      omega
    · rw [List.append_assoc, ← hremaining]
      exact request_split φ e
    · rw [List.take_append_drop, hsame]

/-- Whatever part of the branch the conversation starts with, the match is at least as good. -/
theorem match_longest {current consumed : List Bytes} (h : Extends φ e current consumed mode) :
    ∃ n mode', matchBranchExtension φ current e = some (n, mode') ∧ Covers n mode' consumed.length mode := by
  rw [matchBranchExtension]
  simp only
  split
  · next hstrict =>
    refine ⟨_, _, rfl, ?_⟩
    obtain ⟨delta, hcurrent, hdelta, hconsumes⟩ := h
    cases mode with
    | strictPrefix =>
      rw [Consumes] at hconsumes
      rw [hconsumes, List.length_append]
      exact Or.inr ⟨rfl, id⟩
    | slidingSuffix =>
      obtain ⟨dropped, kept, hsplit, -, hpart, -⟩ := hconsumes
      have hlen := congrArg List.length hsplit
      rw [hpart]
      simp only [List.length_append] at hlen ⊢
      rcases Nat.eq_zero_or_pos dropped.length with hzero | hpos
      · exact Or.inr ⟨by omega, fun hmode => by cases hmode⟩
      · exact Or.inl (by omega)
  · next hstrict =>
    cases mode with
    | strictPrefix =>
      obtain ⟨delta, hcurrent, hdelta, hconsumes⟩ := h
      rw [Consumes] at hconsumes
      exact absurd (strict_iff.mpr ⟨delta, hconsumes ▸ hcurrent, hdelta⟩) hstrict
    | slidingSuffix =>
      obtain ⟨delta, hcurrent, hdelta, dropped, kept, hsplit, huser, hpart, hsame⟩ := h
      rw [← hcurrent] at hsame
      have hpos := List.length_pos_of_ne_nil hdelta
      have hkept : kept ≠ [] := by
        obtain ⟨message, hmem, -⟩ := huser
        exact List.ne_nil_of_mem hmem
      have hkeptPos := List.length_pos_of_ne_nil hkept
      have hcount : leadingSystemCount φ current = (systemMessages φ e.requestMessages).length := by
        rw [← hsame, length_systemMessages]
      have hrest : current.drop (leadingSystemCount φ current) = kept ++ e.responseMessages ++ delta := by
        rw [hcount]
        conv_lhs => rw [hcurrent, hpart, List.append_assoc, List.append_assoc]
        rw [List.drop_left, List.append_assoc]
      have hsystem : SameSystem φ e current := by
        refine ⟨?_, hsame⟩
        rw [hrest]
        conv_lhs => rw [hcurrent, hpart]
        simp only [List.append_assoc]
      have hremaining : e.requestMessages.drop (leadingSystemCount φ e.requestMessages) = dropped ++ kept := by
        have hboth := (request_split φ e).symm.trans (hsplit.trans (List.append_assoc _ _ _))
        exact List.append_cancel_left hboth
      rw [if_neg (sameSystem_iff.mpr hsystem), hremaining, hrest]
      have hleast : e.responseMessages.length + 1 ≤ kept.length + e.responseMessages.length := by omega
      have hstored : kept.length + e.responseMessages.length ≤ (dropped ++ kept ++ e.responseMessages).length := by
        simp only [List.length_append]
        omega
      have hfits : overlapFits φ (dropped ++ kept ++ e.responseMessages) (kept ++ e.responseMessages ++ delta)
          e.responseMessages.length (kept.length + e.responseMessages.length) = true := by
        refine (overlapFits_iff hleast hstored).mpr ⟨dropped, kept, rfl, rfl, huser, ?_⟩
        rw [← List.length_append, List.take_left]
      have hmost : kept.length + e.responseMessages.length ≤
          min (dropped ++ kept ++ e.responseMessages).length ((kept ++ e.responseMessages ++ delta).length - 1) := by
        refine Nat.le_min.mpr ⟨hstored, ?_⟩
        simp only [List.length_append]
        omega
      obtain ⟨m, hsearch, hm⟩ := searchDown_longest hleast hfits hmost
      rw [hsearch]
      refine ⟨_, _, rfl, ?_⟩
      rw [hpart, hcount]
      simp only [List.length_append]
      rcases Nat.eq_or_lt_of_le hm with heq | hlt
      · exact Or.inr ⟨by omega, fun hmode => by cases hmode⟩
      · exact Or.inl (by omega)

/-! The loop over the candidates. -/

def Entry.Free (e : Entry) (scope : Scope) : Prop := e.busy = false ∧ e.scope = scope

/-- The selection is the best of the candidates seen. -/
def Best (φ : FloatFormat F) (scope : Scope) (current : List Bytes) (seen : List Entry) : Selected → Prop
  | none => ∀ e ∈ seen, e.Free scope → matchBranchExtension φ current e = none
  | some (e, n, mode) => e ∈ seen ∧ e.Free scope ∧ matchBranchExtension φ current e = some (n, mode) ∧
      ∀ e' ∈ seen, e'.Free scope → ∀ n' mode', matchBranchExtension φ current e' = some (n', mode') →
        Covers n mode n' mode'

variable {scope : Scope}

theorem Best.skip {seen : List Entry} {selected : Selected} {c : Entry} (h : Best φ scope current seen selected)
    (hc : c.Free scope → ∀ n mode, matchBranchExtension φ current c = some (n, mode) →
      ∃ e m mode', selected = some (e, m, mode') ∧ Covers m mode' n mode) :
    Best φ scope current (seen ++ [c]) selected := by
  cases selected with
  | none =>
    intro e he hfree
    rcases List.mem_append.mp he with he | he
    · exact h e he hfree
    · cases List.mem_singleton.mp he
      refine Option.eq_none_iff_forall_ne_some.mpr fun found hfound => ?_
      obtain ⟨_, _, _, hnone, -⟩ := hc hfree found.1 found.2 hfound
      cases hnone
  | some found =>
    obtain ⟨e, n, mode⟩ := found
    obtain ⟨he, hfree, hmatch, hbest⟩ := h
    refine ⟨List.mem_append_left _ he, hfree, hmatch, fun e' he' hfree' n' mode' hmatch' => ?_⟩
    rcases List.mem_append.mp he' with he' | he'
    · exact hbest e' he' hfree' n' mode' hmatch'
    · cases List.mem_singleton.mp he'
      obtain ⟨_, _, _, hsome, hcovers⟩ := hc hfree' n' mode' hmatch'
      cases hsome
      exact hcovers

theorem Best.take {seen : List Entry} {selected : Selected} {c : Entry} {n : Nat}
    (h : Best φ scope current seen selected) (hfree : c.Free scope)
    (hmatch : matchBranchExtension φ current c = some (n, mode))
    (hcovers : ∀ e m mode', selected = some (e, m, mode') → Covers n mode m mode') :
    Best φ scope current (seen ++ [c]) (some (c, n, mode)) := by
  refine ⟨List.mem_append_right _ (List.mem_singleton.mpr rfl), hfree, hmatch,
    fun e' he' hfree' n' mode' hmatch' => ?_⟩
  rcases List.mem_append.mp he' with he' | he'
  · cases selected with
    | none => exact absurd (hmatch'.symm.trans (h e' he' hfree')) (Option.some_ne_none _)
    | some found =>
      obtain ⟨e, m, mode''⟩ := found
      exact (hcovers e m mode'' rfl).trans (h.2.2.2 e' he' hfree' n' mode' hmatch')
  · cases List.mem_singleton.mp he'
    cases hmatch.symm.trans hmatch'
    exact Or.inr ⟨rfl, id⟩

theorem Best.select {seen : List Entry} {selected : Selected} (h : Best φ scope current seen selected)
    (c : Entry) : Best φ scope current (seen ++ [c]) (selectCandidate φ scope current selected c) := by
  rw [selectCandidate]
  split_ifs with hskip
  · refine h.skip fun hfree n mode _ => ?_
    rcases hskip with hbusy | hscope | hparent | hnamed
    · exact absurd (hfree.1.symm.trans hbusy) Bool.false_ne_true
    · exact absurd hfree.2 hscope
    · exact absurd c.parent (Int.not_lt.mpr hparent)
    · exact absurd hnamed c.named
  · obtain ⟨hbusy, hscope, -⟩ := not_or.mp hskip |>.imp id not_or.mp
    have hfree : c.Free scope := ⟨Bool.not_eq_true _ ▸ hbusy, not_not.mp hscope⟩
    cases hmatch : matchBranchExtension φ current c with
    | none => exact h.skip fun _ n mode hsome => absurd (hmatch.symm.trans hsome) (Option.some_ne_none _).symm
    | some found =>
      obtain ⟨n, mode⟩ := found
      cases selected with
      | none => exact h.take hfree hmatch fun e m mode' hsome => by cases hsome
      | some best =>
        obtain ⟨e, m, mode'⟩ := best
        simp only
        split_ifs with hkeep
        · refine h.skip fun _ n' mode'' hsome => ⟨e, m, mode', rfl, ?_⟩
          cases hmatch.symm.trans hsome
          exact hkeep.imp id fun hk => ⟨hk.1, fun _ => hk.2⟩
        · refine h.take hfree hmatch fun e' m' mode'' hsome => ?_
          cases hsome
          obtain ⟨hlt, heq⟩ := not_or.mp hkeep
          rcases Nat.lt_or_ge m n with hmn | hmn
          · exact Or.inl hmn
          · have hsame : n = m := by omega
            exact Or.inr ⟨hsame.symm, fun hstrict => absurd ⟨hsame, hstrict⟩ heq⟩

theorem Best.foldl : ∀ (items : List Entry) {seen : List Entry}
    {selected : Selected}, Best φ scope current seen selected →
    Best φ scope current (seen ++ items) (items.foldl (selectCandidate φ scope current) selected)
  | [], seen, selected, h => by
    rw [List.append_nil]
    exact h
  | c :: items, seen, selected, h => by
    have hstep := Best.foldl items (h.select c)
    rw [List.append_assoc, List.singleton_append] at hstep
    exact hstep

theorem best_of (φ : FloatFormat F) (scope : Scope) (current : List Bytes) (items : List Entry) :
    Best φ scope current items (items.foldl (selectCandidate φ scope current) none) :=
  have hnone : Best φ scope current [] none := List.forall_mem_nil _
  hnone.foldl items

/-! The messages that are sent. -/

theorem canonicalMessages_drop : ∀ {messages : List (Any F)} {current : List Bytes} (n : Nat),
    canonicalMessages φ messages = some current →
    canonicalMessages φ (messages.drop n) = some (current.drop n)
  | messages, current, 0, h => h
  | [], current, n + 1, h => by
    rw [canonicalMessages] at h
    cases h
    rfl
  | message :: messages, current, n + 1, h => by
    rw [canonicalMessages] at h
    obtain ⟨b, -, h⟩ := Option.bind_eq_some_iff.mp h
    obtain ⟨out, hout, rfl⟩ := Option.map_eq_some_iff.mp h
    exact canonicalMessages_drop n hout

/-- Messages with a canonical form have copies, and the copies have the same canonical form. -/
theorem copies_canonical : ∀ {messages : List (Any F)} {current : List Bytes},
    canonicalMessages φ messages = some current →
    ∃ out, List.Forall₂ (fun a b => (a.marshal φ).bind (Any.unmarshal φ) = some b) messages out ∧
      canonicalMessages φ out = some current
  | [], current, h => ⟨[], .nil, h⟩
  | message :: messages, current, h => by
    rw [canonicalMessages] at h
    obtain ⟨text, htext, h⟩ := Option.bind_eq_some_iff.mp h
    obtain ⟨texts, htexts, rfl⟩ := Option.map_eq_some_iff.mp h
    obtain ⟨out, hcopies, hout⟩ := copies_canonical htexts
    obtain ⟨s, hmarshal, hrest⟩ := Option.bind_eq_some_iff.mp htext
    obtain ⟨copy, hread, hvisible⟩ := Option.bind_eq_some_iff.mp hrest
    have hcopy : (message.marshal φ).bind (Any.unmarshal φ) = some copy := by
      rw [hmarshal, Option.bind_some, hread]
    have hcanonical : canonicalMessage φ copy = some text := by
      obtain ⟨s', hmarshal', hread'⟩ := Option.bind_eq_some_iff.mp (Any.copy_copy hcopy)
      rw [canonicalMessage, hmarshal', Option.bind_some, hread', Option.bind_some, hvisible]
    refine ⟨copy :: out, .cons hcopy hcopies, ?_⟩
    rw [canonicalMessages, hcanonical, hout]
    rfl

theorem canonicalMessages_clone {messages : List (Any F)} (hshallow : ∀ message ∈ messages, message.Shallow φ)
    (h : canonicalMessages φ messages = some current) :
    canonicalMessages φ (cloneAnyMessages φ messages) = some current := by
  rw [cloneAnyMessages]
  split_ifs with hnil
  · rw [hnil] at h
    exact h
  · obtain ⟨out, hcopies, hout⟩ := copies_canonical h
    rw [copy_slice hshallow hcopies]
    exact hout

theorem canonicalMessages_append : ∀ {messages rest : List (Any F)} {current out : List Bytes},
    canonicalMessages φ messages = some current → canonicalMessages φ rest = some out →
    canonicalMessages φ (messages ++ rest) = some (current ++ out)
  | [], rest, current, out, h, hrest => by
    rw [canonicalMessages] at h
    cases h
    exact hrest
  | message :: messages, rest, current, out, h, hrest => by
    rw [canonicalMessages] at h
    obtain ⟨b, hb, h⟩ := Option.bind_eq_some_iff.mp h
    obtain ⟨texts, htexts, rfl⟩ := Option.map_eq_some_iff.mp h
    rw [List.cons_append, canonicalMessages, hb, canonicalMessages_append htexts hrest]
    rfl

theorem length_canonicalMessages : ∀ {messages : List (Any F)} {current : List Bytes},
    canonicalMessages φ messages = some current → current.length = messages.length
  | [], current, h => by
    rw [canonicalMessages] at h
    cases h
    rfl
  | message :: messages, current, h => by
    rw [canonicalMessages] at h
    obtain ⟨b, -, h⟩ := Option.bind_eq_some_iff.mp h
    obtain ⟨out, hout, rfl⟩ := Option.map_eq_some_iff.mp h
    rw [List.length_cons, List.length_cons, length_canonicalMessages hout]

/-! Leases. -/

/-- The lease of the entry `e` for the messages, which are `consumed` and then `delta`. -/
structure Lease.Right (φ : FloatFormat F) (lease : Lease F) (s : Store) (scope : Scope)
    (messages : List (Any F)) (e : Entry) (consumed delta : List Bytes) : Prop where
  stored : e ∈ s.entries lease.key ∧ e.id = lease.entryID
  free : e.Free scope
  split : canonicalMessages φ messages = some (consumed ++ delta)
  goesOn : delta ≠ []
  sent : canonicalMessages φ lease.deltaMessages = some delta
  consumes : Consumes φ e consumed delta lease.matchMode
  maximal : ∀ key, ∀ e' ∈ s.entries key, e'.Free scope → ∀ consumed' mode',
    Extends φ e' (consumed ++ delta) consumed' mode' →
      Covers consumed.length lease.matchMode consumed'.length mode'

/-- A free entry of the scope that lies in another bucket matches no better than one of the scope's own
    bucket. -/
def NoneBetterElsewhere (φ : FloatFormat F) (s : Store) (scope : Scope) (messages : List (Any F)) : Prop :=
  ∀ current, canonicalMessages φ messages = some current →
    ∀ key, key ≠ scopeKey scope → ∀ e' ∈ s.entries key, e'.Free scope → ∀ consumed' mode',
      Extends φ e' current consumed' mode' →
      ∃ e ∈ s.entries (scopeKey scope), e.Free scope ∧ ∃ consumed mode, Extends φ e current consumed mode ∧
        Covers consumed.length mode consumed'.length mode'

/-- What `PrepareWithMaxTurns` does: nothing but the pruning, or the lease of a free entry. -/
theorem prepare_cases (φ : FloatFormat F) (s : Store) (scope : Scope) (messages : List (Any F))
    (maxTurns now : Int) :
    s.prepareWithMaxTurns φ scope messages maxTurns now = (s, none) ∨
    s.prepareWithMaxTurns φ scope messages maxTurns now = (s.pruneLocked now, none) ∨
    ∃ e lease, e ∈ (s.pruneLocked now).entries (scopeKey scope) ∧ e.Free scope ∧
      lease.key = scopeKey scope ∧ lease.entryID = e.id ∧
      s.prepareWithMaxTurns φ scope messages maxTurns now =
        ((s.pruneLocked now).setEntries (scopeKey scope) (updateEntry e.id (fun e => { e with busy := true })
          ((s.pruneLocked now).entries (scopeKey scope))), some lease) := by
  rw [Store.prepareWithMaxTurns]
  split_ifs
  · exact Or.inl rfl
  · cases canonicalMessages φ messages with
    | none => exact Or.inl rfl
    | some current =>
      have hbest := best_of φ scope current ((s.pruneLocked now).entries (scopeKey scope))
      simp only
      generalize List.foldl (selectCandidate φ scope current) none _ = selected at hbest
      cases selected with
      | none => exact Or.inr (Or.inl rfl)
      | some found =>
        obtain ⟨e, n, mode⟩ := found
        exact Or.inr (Or.inr ⟨e, _, hbest.1, hbest.2.1, rfl, rfl, rfl⟩)

/-- Where a free entry of the bucket matches, some entry is leased. -/
theorem prepare_finds {s : Store} {messages : List (Any F)} {current consumed : List Bytes} {maxTurns now : Int}
    (hscope : validScope scope = true) (hmessages : messages ≠ [])
    (hcurrent : canonicalMessages φ messages = some current)
    (he : e ∈ (s.pruneLocked now).entries (scopeKey scope)) (hfree : e.Free scope)
    (hext : Extends φ e current consumed mode) :
    (s.prepareWithMaxTurns φ scope messages maxTurns now).2.isSome = true := by
  rw [Store.prepareWithMaxTurns, if_neg (by simp [hscope, hmessages]), hcurrent]
  have hbest := best_of φ scope current ((s.pruneLocked now).entries (scopeKey scope))
  simp only
  generalize List.foldl (selectCandidate φ scope current) none _ = selected at hbest
  cases selected with
  | none =>
    obtain ⟨n, mode', hmatch, -⟩ := match_longest hext
    exact absurd (hmatch.symm.trans (hbest e he hfree)) (Option.some_ne_none _)
  | some found => rfl

/-- What `PrepareWithMaxTurns` gives: the best entry of the bucket. -/
theorem prepare_best {s s' : Store} {messages : List (Any F)} {maxTurns now : Int} {lease : Lease F}
    (h : s.prepareWithMaxTurns φ scope messages maxTurns now = (s', some lease)) :
    ∃ current e n, canonicalMessages φ messages = some current ∧ lease.key = scopeKey scope ∧
      lease.entryID = e.id ∧ lease.deltaMessages = cloneAnyMessages φ (messages.drop n) ∧
      Best φ scope current ((s.pruneLocked now).entries (scopeKey scope)) (some (e, n, lease.matchMode)) := by
  rw [Store.prepareWithMaxTurns] at h
  split_ifs at h with hrefused
  · cases h
  · cases hcurrent : canonicalMessages φ messages with
    | none =>
      rw [hcurrent] at h
      cases h
    | some current =>
      rw [hcurrent] at h
      simp only at h
      have hbest := best_of φ scope current ((s.pruneLocked now).entries (scopeKey scope))
      generalize List.foldl (selectCandidate φ scope current) none _ = selected at h hbest
      cases selected with
      | none => cases h
      | some found =>
        obtain ⟨e, n, mode⟩ := found
        cases h
        exact ⟨current, e, n, rfl, rfl, rfl, rfl, hbest⟩

/-- A lease is sound, and it is the best one exactly when no better branch of the scope lies in
    another bucket. -/
theorem lease_maximal_iff {s s' : Store} {scope : Scope} {messages : List (Any F)} {maxTurns now : Int}
    {lease : Lease F} (h : s.prepareWithMaxTurns φ scope messages maxTurns now = (s', some lease))
    (hshallow : ∀ message ∈ messages, message.Shallow φ) :
    (∃ e consumed delta, lease.Right φ (s.pruneLocked now) scope messages e consumed delta) ↔
      NoneBetterElsewhere φ (s.pruneLocked now) scope messages := by
  obtain ⟨current, e, n, hcurrent, hkey, hid, hdelta, hmem, hfree, hmatch, hbest⟩ := prepare_best h
  obtain ⟨hle, delta, hsplit, hgoesOn, hconsumes⟩ := match_sound hmatch
  constructor
  · rintro ⟨e₀, consumed₀, delta₀, hright⟩ current' hcurrent' key hne e' he' hfree' consumed' mode' hext
    cases hright.split.symm.trans hcurrent'
    refine ⟨e₀, hkey ▸ hright.stored.1, hright.free, consumed₀, lease.matchMode, ?_,
      hright.maximal key e' he' hfree' consumed' mode' hext⟩
    exact ⟨delta₀, rfl, hright.goesOn, hright.consumes⟩
  · intro hnone
    have hbucket : ∀ e' ∈ (s.pruneLocked now).entries (scopeKey scope), e'.Free scope → ∀ consumed' mode',
        Extends φ e' current consumed' mode' → Covers n lease.matchMode consumed'.length mode' := by
      intro e' he' hfree' consumed' mode' hext
      obtain ⟨n', mode'', hmatch', hcovers⟩ := match_longest hext
      exact (hbest e' he' hfree' n' mode'' hmatch').trans hcovers
    have hlen : (current.take n).length = n := by
      rw [List.length_take, Nat.min_eq_left hle]
    refine ⟨e, current.take n, delta, ⟨hkey ▸ hmem, hid.symm⟩, hfree, hcurrent.trans (congrArg some hsplit),
      hgoesOn, ?_, hconsumes, ?_⟩
    · have hrest : delta = current.drop n := by
        have hboth := (List.take_append_drop n current).trans hsplit
        exact (List.append_cancel_left hboth).symm
      rw [hdelta, hrest]
      exact canonicalMessages_clone (fun message hmessage => hshallow message (List.mem_of_mem_drop hmessage))
        (canonicalMessages_drop n hcurrent)
    · intro key e' he' hfree' consumed' mode' hext
      rw [← hsplit] at hext
      rw [hlen]
      by_cases hbucketKey : key = scopeKey scope
      · subst hbucketKey
        exact hbucket e' he' hfree' consumed' mode' hext
      · obtain ⟨e₁, he₁, hfree₁, consumed₁, mode₁, hext₁, hcovers⟩ :=
          hnone current hcurrent key hbucketKey e' he' hfree' consumed' mode' hext
        exact (hbucket e₁ he₁ hfree₁ consumed₁ mode₁ hext₁).trans hcovers

/-! A branch that changes its account. -/

def sampleScope (account : String) : Scope :=
  ⟨lit "caller", lit "session", lit account, lit "chat", lit "default"⟩

def say (role content : String) : Any Int :=
  .map [(lit "content", .text (lit content)), (lit "role", .text (lit role))]

/-- A conversation of questions and answers. -/
def talk : List String → List (Any Int)
  | [] => []
  | [q] => [say "user" q]
  | q :: a :: rest => say "user" q :: say "assistant" a :: talk rest

/-- A first branch of one exchange under the account `a`. -/
def oneExchange : Store :=
  (newStore 0 0).record wholeNumbers (sampleScope "a") (talk ["1"]) [say "assistant" "one"] (lit "S") 1 0

/-- And the next one, recorded as a branch of its own. -/
def twoExchanges : Store :=
  oneExchange.record wholeNumbers (sampleScope "a") (talk ["1", "one", "2"]) [say "assistant" "two"] (lit "S") 3 0

/-- Both branches match; the lease is of the longer one and sends the last message only. -/
theorem longer_branch_leased :
    let messages := talk ["1", "one", "2", "two", "3"]
    ∃ s' lease, twoExchanges.prepareWithMaxTurns wholeNumbers (sampleScope "a") messages 0 0 = (s', some lease) ∧
      lease.deltaMessages.length = 1 ∧
      ∃ e consumed delta, lease.Right wholeNumbers (twoExchanges.pruneLocked 0) (sampleScope "a")
        messages e consumed delta := by
  intro messages
  have hsome : (twoExchanges.prepareWithMaxTurns wholeNumbers (sampleScope "a") messages 0 0).2.map
      (fun lease => lease.deltaMessages.length) = some 1 := by decide +kernel
  obtain ⟨lease, hlease, hlength⟩ := Option.map_eq_some_iff.mp hsome
  have hshallow : ∀ message ∈ messages, message.Shallow wholeNumbers := by
    intro message hmem
    simp only [messages, talk, List.mem_cons, List.not_mem_nil, or_false] at hmem
    rcases hmem with rfl | rfl | rfl | rfl | rfl <;> exact (show _ = true by decide +kernel)
  refine ⟨_, lease, Prod.ext rfl hlease, hlength, (lease_maximal_iff (Prod.ext rfl hlease) hshallow).mpr ?_⟩
  intro current _ key hkey e' he'
  have hstored : e' ∈ twoExchanges.entries key := (List.mem_filter.mp he').1
  have hfirst := Store.record_elsewhere hkey (Store.record_elsewhere hkey hstored)
  exact absurd hfirst List.not_mem_nil

/-- The account changed while the branch was leased; the branch of the new account's scope stays in the
    bucket of the old one, and a second branch of the new scope is recorded. -/
def movedBranch : Store :=
  match oneExchange.prepareWithMaxTurns wholeNumbers (sampleScope "a") (talk ["1", "one", "2"]) 0 0 with
  | (s, none) => s
  | (s, some lease) =>
    (s.complete wholeNumbers lease.key lease.entryID (sampleScope "b") (talk ["1", "one", "2"])
      [say "assistant" "two"] (lit "S") 3 0).record wholeNumbers (sampleScope "b") (talk ["1"])
        [say "assistant" "one"] (lit "T") 5 0

/-- The whole conversation is in a free branch of the scope, and the lease sends three messages of it. -/
theorem moved_branch_overlooked : ∃ s' lease,
    movedBranch.prepareWithMaxTurns wholeNumbers (sampleScope "b") (talk ["1", "one", "2", "two", "3"]) 0 0 =
      (s', some lease) ∧
    ¬ ∃ e consumed delta, lease.Right wholeNumbers (movedBranch.pruneLocked 0) (sampleScope "b")
      (talk ["1", "one", "2", "two", "3"]) e consumed delta := by
  have hsent : (movedBranch.prepareWithMaxTurns wholeNumbers (sampleScope "b")
      (talk ["1", "one", "2", "two", "3"]) 0 0).2.map (fun lease => lease.deltaMessages.length) = some 3 := by
    decide +kernel
  have hmatch : ((movedBranch.pruneLocked 0).entries (scopeKey (sampleScope "a"))).map (fun e =>
      (e.busy, e.scope, (canonicalMessages wholeNumbers (talk ["1", "one", "2", "two", "3"])).bind
        (fun current => matchBranchExtension wholeNumbers current e))) =
      [(false, sampleScope "b", some (4, .strictPrefix))] := by decide +kernel
  obtain ⟨lease, hlease, hthree⟩ := Option.map_eq_some_iff.mp hsent
  refine ⟨_, lease, Prod.ext rfl hlease, ?_⟩
  rintro ⟨e, consumed, delta, hright⟩
  obtain ⟨e', he'⟩ := List.length_eq_one_iff.mp ((List.length_map _).symm.trans (congrArg List.length hmatch))
  rw [he', List.map_singleton, hright.split, Option.bind_some] at hmatch
  have htriple := (List.cons.inj hmatch).1
  obtain ⟨hbusy, hpair⟩ := Prod.mk.inj htriple
  obtain ⟨hscope, hfound⟩ := Prod.mk.inj hpair
  obtain ⟨hle, hext⟩ := match_sound hfound
  have hcovers := hright.maximal _ e' (he' ▸ List.mem_singleton.mpr rfl) ⟨hbusy, hscope⟩ _ _ hext
  have hfive := length_canonicalMessages hright.split
  have hdelta := length_canonicalMessages hright.sent
  have hall : (talk ["1", "one", "2", "two", "3"]).length = 5 := rfl
  rw [List.length_append] at hfive
  rw [List.length_take, List.length_append, Nat.min_eq_left (by omega)] at hcovers
  rcases hcovers with hlt | ⟨heq, -⟩ <;> omega

end DeepSeekWebToApi.Upstreamsession
