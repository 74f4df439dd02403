import DeepSeekWebToApi.Config.Store

/- One identifier, one account. The three look-ups of the store are compared on a
   normalised account list (one the normalisation leaves as it is).

   `FindAccount` tries the identifier itself before the mobile key of its digits; the
   scan and the SQL clause take either at once, and the SQL clause compares the
   mobile column with the key even where the key is empty. So an edit by identifier
   reaches the account `FindAccount` names, and only that account, exactly when no
   other account is named by the identifier (`identifier_edits_one_account_iff`). An
   e-mail whose digits are somebody's mobile number fails this, and so does an
   e-mail without digits beside any account without a mobile number. -/
namespace DeepSeekWebToApi.Config
open GoStrings

/-- A list the normalisation at time `now` leaves as it is. -/
def Normalized (now : Int) (accounts : List Account) : Prop :=
  normalizeAndDedupeAccountConfig now accounts = accounts

instance (now : Int) (accounts : List Account) : Decidable (Normalized now accounts) :=
  inferInstanceAs (Decidable (normalizeAndDedupeAccountConfig now accounts = accounts))

/-- The edit changed the account at `i` as wanted, kept its identity, and left every other
    account as it was. -/
def ChangesOnly (accounts : List Account) (i : Nat) (wanted : Account → Prop)
    (result : Option (List Account)) : Prop :=
  ∃ acc acc', accounts[i]? = some acc ∧ result = some (accounts.set i acc') ∧
    acc'.email = acc.email ∧ acc'.mobile = acc.mobile ∧ wanted acc'

/-- Every edit by `id`, in memory and in SQLite, changes exactly the account at `i`. -/
structure OneAccount (now : Int) (accounts : List Account) (id : Bytes) (i : Nat) : Prop where
  disable : ∀ db disabled reason, ChangesOnly accounts i (fun a => a.disabled = disabled)
    (setAccountDisabled now db accounts id disabled reason)
  cooldown : ∀ db state untilUnix, ChangesOnly accounts i
    (fun a => (a.cooldownState, a.cooldownUntilUnix) = normalizeAccountCooldown now state untilUnix)
    (setAccountCooldown now db accounts id state untilUnix)
  token : ∀ written token nowMilli, updateToken (accounts.map (accountRow written)) id token nowMilli =
    some ((accounts.map (accountRow written)).modify i (AccountRow.setToken token nowMilli))

/-- `key` names the account: as identifier, as e-mail, or by the digits of a mobile number
    (the empty key of a text without digits names every account without a mobile number). -/
def Account.NamedBy (key : Bytes) (acc : Account) : Prop :=
  acc.identifier = key ∨ acc.email = key ∨ acc.mobile = canonicalMobileKey key

instance (key : Bytes) (acc : Account) : Decidable (acc.NamedBy key) :=
  inferInstanceAs (Decidable (_ ∨ _))

/-- The account at `i` is the only one `id` names. -/
def SoleMatch (accounts : List Account) (id : Bytes) (i : Nat) : Prop :=
  ∀ j acc, accounts[j]? = some acc → (acc.NamedBy (trimSpace id) ↔ j = i)

/-! Normalised accounts. -/

theorem normalizeMobileForStorage_trim (m : Bytes) :
    normalizeMobileForStorage (trimSpace m) = normalizeMobileForStorage m := by
  have h : extractMobileDigits (trimSpace m) = extractMobileDigits m := by
    simp only [extractMobileDigits, trimSpace_idem]
  rw [normalizeMobileForStorage, h, normalizeMobileForStorage]

/-- What the normalisation of one account asks of it, field by field. -/
structure Account.Normal (now : Int) (acc : Account) : Prop where
  email : trimSpace acc.email = acc.email
  mobile : canonicalMobileKey acc.mobile = acc.mobile
  identity : ¬ (trimSpace acc.email = [] ∧ looksLikeEmailIdentifier (trimSpace acc.mobile) = true)
  name : trimSpace acc.name = acc.name
  remark : trimSpace acc.remark = acc.remark
  password : trimSpace acc.password = acc.password
  token : trimSpace acc.token = acc.token
  proxyID : trimSpace acc.proxyID = acc.proxyID
  disabledReason : (if acc.disabled then trimSpace acc.disabledReason else []) = acc.disabledReason
  disabledAtUnix : (if acc.disabled then acc.disabledAtUnix else 0) = acc.disabledAtUnix
  cooldown : normalizeAccountCooldown now acc.cooldownState acc.cooldownUntilUnix =
    (acc.cooldownState, acc.cooldownUntilUnix)

section Normal
variable {now : Int} {acc : Account}

theorem Account.Normal.identity_fixed (h : acc.Normal now) : normalizeAccountIdentity acc = acc := by
  have hm : normalizeMobileForStorage (trimSpace acc.mobile) = acc.mobile := by
    rw [normalizeMobileForStorage_trim]
    exact h.mobile
  simp only [normalizeAccountIdentity, if_neg h.identity]
  rw [h.email, hm]

theorem Account.Normal.config_fixed (h : acc.Normal now) : normalizeAccountConfig now acc = acc := by
  simp only [normalizeAccountConfig, h.identity_fixed, h.name, h.remark, h.password, h.token,
    h.proxyID, h.disabledReason, h.disabledAtUnix, h.cooldown]

theorem Account.Normal.credentials_fixed (h : acc.Normal now) :
    normalizeCredentials now acc = acc := by
  simp only [normalizeCredentials, h.identity_fixed, h.name, h.remark, h.cooldown]

/-- An account the normalisation leaves as it is has every field in its normal form. -/
theorem normal_of_config_fixed (h : normalizeAccountConfig now acc = acc) : acc.Normal now := by
  have hne : ¬ (trimSpace acc.email = [] ∧
      looksLikeEmailIdentifier (trimSpace acc.mobile) = true) := by
    -- otherwise the mobile number would be an e-mail and empty at once
    intro hc
    have hm := congrArg Account.mobile h
    simp only [normalizeAccountConfig, normalizeAccountIdentity, if_pos hc] at hm
    rw [← hm] at hc
    exact absurd hc.2 (by decide)
  cases acc
  simp only [normalizeAccountConfig, normalizeAccountIdentity, if_neg hne, Account.mk.injEq] at h
  obtain ⟨hname, hremark, hemail, hmobile, hpass, htoken, hproxy, -, -, hreason, hat, hstate, huntil⟩ := h
  refine ⟨hemail, ?_, hne, hname, hremark, hpass, htoken, hproxy, hreason, hat,
    Prod.ext hstate huntil⟩
  rw [canonicalMobileKey, ← normalizeMobileForStorage_trim]
  exact hmobile

theorem normalizeAccountCooldown_nil (now : Int) :
    normalizeAccountCooldown now [] 0 = ([], 0) := by
  have h : toLower (trimSpace []) ≠ accountCooldownRateLimited ∧
      toLower (trimSpace []) ≠ accountCooldownTemporarilyMuted := by decide
  simp only [normalizeAccountCooldown, if_pos h]

theorem normalizeAccountCooldown_idem (now : Int) (state : Bytes) (untilUnix : Int) :
    normalizeAccountCooldown now (normalizeAccountCooldown now state untilUnix).1
        (normalizeAccountCooldown now state untilUnix).2 =
      normalizeAccountCooldown now state untilUnix := by
  have hrate : toLower (trimSpace accountCooldownRateLimited) = accountCooldownRateLimited := by
    decide
  have hmuted : toLower (trimSpace accountCooldownTemporarilyMuted) =
      accountCooldownTemporarilyMuted := by decide
  by_cases hs : toLower (trimSpace state) ≠ accountCooldownRateLimited ∧
      toLower (trimSpace state) ≠ accountCooldownTemporarilyMuted
  · simp only [normalizeAccountCooldown, if_pos hs]
    exact normalizeAccountCooldown_nil now
  by_cases hu : untilUnix ≤ now
  · simp only [normalizeAccountCooldown, if_neg hs, if_pos hu]
    exact normalizeAccountCooldown_nil now
  have hknown : toLower (trimSpace (toLower (trimSpace state))) = toLower (trimSpace state) := by
    rcases not_and_or.mp hs with h | h
    · rw [not_not.mp h, hrate]
    · rw [not_not.mp h, hmuted]
  simp only [normalizeAccountCooldown, if_neg hs, if_neg hu, hknown]

/-- The scan matches only accounts the identifier names. -/
theorem namedBy_of_match (h : acc.Normal now) {key : Bytes}
    (hm : accountIdentifiersMatch acc key = true) : acc.NamedBy key := by
  unfold accountIdentifiersMatch at hm
  split at hm
  · cases hm
  · split at hm
    · next hk =>
      rw [h.email] at hk
      exact hk.elim (fun he => Or.inr (Or.inl he)) Or.inl
    · rw [h.mobile] at hm
      simp only [decide_eq_true_eq] at hm
      exact Or.inr (Or.inr hm.2.symm)

/-- The scan matches an account the identifier names, the empty mobile key apart. -/
theorem match_of_namedBy (h : acc.Normal now) {key : Bytes} (hkey : key ≠ [])
    (hcand : acc.identifier ∈ lookupCandidates key) (hn : acc.NamedBy key) :
    accountIdentifiersMatch acc key = true := by
  unfold accountIdentifiersMatch
  rw [if_neg hkey, h.email, h.mobile]
  split
  · rfl
  · next hno =>
    rw [not_or] at hno
    simp only [lookupCandidates] at hcand
    split at hcand
    · next hmob =>
      rcases hn with hid | hid | hid
      · exact absurd hid hno.2
      · exact absurd hid hno.1
      · simp [hmob.1, hid]
    · simp only [List.mem_singleton] at hcand
      exact absurd hcand hno.2

end Normal

/-! Normalised lists. -/

theorem set_eq_self {α : Type} {l : List α} {i : Nat} {a : α} (h : l[i]? = some a) :
    l.set i a = l := by
  obtain ⟨hlt, rfl⟩ := List.getElem?_eq_some_iff.mp h
  exact List.set_getElem_self hlt

theorem dedupeFrom_length (now : Int) :
    ∀ (seen : List Bytes) (l : List Account), (dedupeFrom now seen l).length ≤ l.length
  | _, [] => Nat.le_refl 0
  | seen, acc :: rest => by
    rw [dedupeFrom]
    split
    · exact Nat.le_succ_of_le (dedupeFrom_length now seen rest)
    · split
      · exact Nat.le_succ_of_le (dedupeFrom_length now seen rest)
      · exact Nat.succ_le_succ (dedupeFrom_length now _ rest)

/-- The lists the normalisation keeps: normal accounts under distinct keys. -/
theorem dedupeFrom_fixed_iff (now : Int) : ∀ (seen : List Bytes) (l : List Account),
    dedupeFrom now seen l = l ↔
      (∀ acc ∈ l, acc.Normal now ∧ accountConfigDedupeKey acc ≠ [] ∧
        accountConfigDedupeKey acc ∉ seen) ∧ (l.map accountConfigDedupeKey).Nodup
  | _, [] => by simp [dedupeFrom]
  | seen, acc :: rest => by
    have hshort : ∀ seen', dedupeFrom now seen' rest ≠ acc :: rest := by
      intro seen' h
      have := dedupeFrom_length now seen' rest
      rw [h, List.length_cons] at this
      omega
    have ih := dedupeFrom_fixed_iff now (accountConfigDedupeKey acc :: seen) rest
    rw [List.forall_mem_cons, List.map_cons, List.nodup_cons]
    constructor
    · intro h
      rw [dedupeFrom] at h
      split at h
      · exact absurd h (hshort _)
      split at h
      · exact absurd h (hshort _)
      next hkey hseen =>
      obtain ⟨hacc, hrest⟩ := List.cons.inj h
      rw [hacc] at hkey hseen hrest
      obtain ⟨hmem, hnodup⟩ := ih.mp hrest
      refine ⟨⟨⟨normal_of_config_fixed hacc, hkey, hseen⟩, fun a ha => ?_⟩, ?_, hnodup⟩
      · obtain ⟨hnormal, hne, hnot⟩ := hmem a ha
        exact ⟨hnormal, hne, fun hs => hnot (List.mem_cons_of_mem _ hs)⟩
      · intro hk
        obtain ⟨a, ha, heq⟩ := List.mem_map.mp hk
        exact (hmem a ha).2.2 (heq ▸ List.mem_cons_self)
    · rintro ⟨⟨⟨hnormal, hkey, hseen⟩, hmem⟩, hnot, hnodup⟩
      rw [dedupeFrom]
      simp only [hnormal.config_fixed, if_neg hkey, if_neg hseen]
      congr 1
      refine ih.mpr ⟨fun a ha => ⟨(hmem a ha).1, (hmem a ha).2.1, ?_⟩, hnodup⟩
      rw [List.mem_cons, not_or]
      exact ⟨fun heq => hnot (heq ▸ List.mem_map_of_mem ha), (hmem a ha).2.2⟩

section Lists
variable {now : Int} {accounts : List Account} {i : Nat} {acc : Account}

theorem Normalized.normal (hn : Normalized now accounts) (ha : acc ∈ accounts) : acc.Normal now :=
  (((dedupeFrom_fixed_iff now [] accounts).mp hn).1 acc ha).1

/-- Replacing an account by a normal one of the same identity keeps the list normalised. -/
theorem Normalized.set (hn : Normalized now accounts) (hi : accounts[i]? = some acc)
    {acc' : Account} (hacc' : acc'.Normal now) (hemail : acc'.email = acc.email)
    (hmobile : acc'.mobile = acc.mobile) : Normalized now (accounts.set i acc') := by
  obtain ⟨hmem, hnodup⟩ := (dedupeFrom_fixed_iff now [] accounts).mp hn
  have hkey : accountConfigDedupeKey acc' = accountConfigDedupeKey acc := by
    simp only [accountConfigDedupeKey, hemail, hmobile]
  refine (dedupeFrom_fixed_iff now [] _).mpr ⟨fun a ha => ?_, ?_⟩
  · rcases List.mem_or_eq_of_mem_set ha with ha | rfl
    · exact hmem a ha
    · exact ⟨hacc', hkey ▸ (hmem acc (List.mem_of_getElem? hi)).2⟩
  · have hsame : (accounts.map accountConfigDedupeKey).set i (accountConfigDedupeKey acc') =
        accounts.map accountConfigDedupeKey := by
      refine set_eq_self ?_
      rw [List.getElem?_map, hi, hkey, Option.map_some]
    rw [List.map_set, hsame]
    exact hnodup

/-- The edits of a normalised list: the first match is replaced, nothing is renormalised. -/
theorem updateAccounts_editFirstMatch (hn : Normalized now accounts) {key : Bytes}
    (hfind : accounts.findIdx? (accountIdentifiersMatch · key) = some i)
    (hi : accounts[i]? = some acc) {edit : Account → Account} (hedit : (edit acc).Normal now)
    (hemail : (edit acc).email = acc.email) (hmobile : (edit acc).mobile = acc.mobile)
    (db : Bool) :
    updateAccounts now db (editFirstMatch key edit) accounts = some (accounts.set i (edit acc)) := by
  have hset := hn.set hi hedit hemail hmobile
  have hmodify : accounts.modify i edit = accounts.set i (edit acc) := by
    rw [List.modify_eq_set_getElem?, hi]
    rfl
  have hmap : (accounts.set i (edit acc)).map (normalizeCredentials now) =
      accounts.set i (edit acc) :=
    (List.map_congr_left (fun a ha => (hset.normal ha).credentials_fixed)).trans (List.map_id' _)
  rw [updateAccounts, editFirstMatch, hfind, Option.map_some, Option.map_some, hmodify, hmap,
    persistAccounts]
  split
  · exact congrArg some hset
  · rfl

/-- A normalised account has a name. -/
theorem Normalized.identifier_ne_nil (hn : Normalized now accounts) (ha : acc ∈ accounts) :
    acc.identifier ≠ [] := by
  obtain ⟨hnormal, hkey, -⟩ := ((dedupeFrom_fixed_iff now [] accounts).mp hn).1 acc ha
  have hmobile : trimSpace acc.mobile = [] → acc.mobile = [] := by
    intro h
    rw [← hnormal.mobile, canonicalMobileKey, ← normalizeMobileForStorage_trim, h]
    decide
  intro hid
  apply hkey
  simp only [Account.identifier, hnormal.identity_fixed] at hid
  split at hid
  · next he => exact absurd hid he
  next he =>
  split at hid
  · next hm => exact absurd hid hm
  next hm =>
  rw [accountConfigDedupeKey, if_neg he, hnormal.mobile, hmobile (not_not.mp hm)]
  rfl

/-! The look-up. -/

theorem indexAccounts_hit : ∀ (n : Nat) (l : List Account) (m : Bytes → Option Nat) {k : Bytes},
    indexAccounts n l m k = some i →
      m k = some i ∨ ∃ a, n ≤ i ∧ l[i - n]? = some a ∧ a.identifier = k
  | _, [], _, _, h => Or.inl h
  | n, a :: rest, m, k, h => by
    rcases indexAccounts_hit (n + 1) rest _ h with hm | ⟨b, hle, hb, hk⟩
    · split at hm
      · by_cases hak : k = a.identifier
        · -- the entry written for the head of the list
          rw [hak, Function.update_self] at hm
          obtain rfl := Option.some.inj hm
          exact Or.inr ⟨a, Nat.le_refl _, by simp, hak.symm⟩
        · rw [Function.update_of_ne hak] at hm
          exact Or.inl hm
      · exact Or.inl hm
    · refine Or.inr ⟨b, by omega, ?_, hk⟩
      have hsub : i - n = (i - (n + 1)) + 1 := by omega
      rw [hsub, List.getElem?_cons_succ]
      exact hb

/-- The account a look-up finds is named by one of the keys it was looked up with. -/
theorem findAccountIndexLocked_hit {key : Bytes}
    (h : (rebuildIndexes accounts).findAccountIndexLocked key = some i) :
    ∃ acc, accounts[i]? = some acc ∧ acc.identifier ∈ lookupCandidates key := by
  unfold Store.findAccountIndexLocked at h
  simp only at h
  split at h
  · next idx hidx =>
    obtain rfl := Option.some.inj h
    obtain ⟨k, hk, hmap⟩ := List.exists_of_findSome?_eq_some hidx
    have hmap := (Option.filter_eq_some_iff.mp hmap).1
    rcases indexAccounts_hit 0 accounts _ hmap with hnone | ⟨acc, -, hacc, hid⟩
    · cases hnone
    · exact ⟨acc, by simpa using hacc, hid ▸ hk⟩
  · obtain ⟨hlt, hmem, -⟩ := List.findIdx?_eq_some_iff_getElem.mp h
    exact ⟨_, List.getElem?_eq_getElem hlt, List.contains_iff_mem.mp hmem⟩

/-! The three edits of the account the identifier alone names. -/

/-- The scan stops at the account the identifier alone names. -/
theorem SoleMatch.scan {id : Bytes} (hs : SoleMatch accounts id i) (hn : Normalized now accounts)
    (hkey : trimSpace id ≠ []) (hi : accounts[i]? = some acc)
    (hcand : acc.identifier ∈ lookupCandidates (trimSpace id)) :
    accounts.findIdx? (accountIdentifiersMatch · (trimSpace id)) = some i := by
  have hmem := List.mem_of_getElem? hi
  obtain ⟨hlt, hget⟩ := List.getElem?_eq_some_iff.mp hi
  refine List.findIdx?_eq_some_iff_getElem.mpr ⟨hlt, ?_, fun j hj hmatch => ?_⟩
  · rw [hget]
    exact match_of_namedBy (hn.normal hmem) hkey hcand ((hs i acc hi).mpr rfl)
  · -- an earlier match would be a second account of that name
    have hj' := List.getElem?_eq_getElem (Nat.lt_trans hj hlt)
    have hnamed := namedBy_of_match (hn.normal (List.mem_of_getElem? hj')) hmatch
    exact absurd ((hs j _ hj').mp hnamed) (Nat.ne_of_lt hj)

section Edits
variable {id : Bytes} (hn : Normalized now accounts)
  (hfind : accounts.findIdx? (accountIdentifiersMatch · (trimSpace id)) = some i)
  (hi : accounts[i]? = some acc)
include hn hfind hi

theorem setAccountDisabled_changesOnly (db disabled : Bool) (reason : Bytes) :
    ChangesOnly accounts i (fun a => a.disabled = disabled)
      (setAccountDisabled now db accounts id disabled reason) := by
  have hnormal := hn.normal (List.mem_of_getElem? hi)
  refine ⟨acc, _, hi, updateAccounts_editFirstMatch hn hfind hi ?_ rfl rfl db, rfl, rfl, rfl⟩
  refine { hnormal with
    disabledReason := ?_
    disabledAtUnix := ?_
    cooldown := normalizeAccountCooldown_nil now }
  · cases disabled
    · rfl
    · exact trimSpace_idem reason
  · cases disabled <;> rfl

theorem setAccountCooldown_changesOnly (hkey : trimSpace id ≠ [])
    (hloc : (rebuildIndexes accounts).findAccountIndexLocked (trimSpace id) = some i)
    (db : Bool) (state : Bytes) (untilUnix : Int) :
    ChangesOnly accounts i (fun a => (a.cooldownState, a.cooldownUntilUnix) =
        normalizeAccountCooldown now state untilUnix)
      (setAccountCooldown now db accounts id state untilUnix) := by
  have hnormal := hn.normal (List.mem_of_getElem? hi)
  have hcur : (rebuildIndexes accounts).findAccount (trimSpace id) = some acc := by
    simp only [Store.findAccount, trimSpace_idem, hloc]
    exact hi
  simp only [setAccountCooldown, if_neg hkey, hcur, Option.any_some, decide_eq_true_eq]
  split
  · -- the cooldown is set already and nothing is written
    next hsame =>
    exact ⟨acc, acc, hi, by rw [set_eq_self hi], rfl, rfl, Prod.ext hsame.1 hsame.2⟩
  · refine ⟨acc, _, hi, updateAccounts_editFirstMatch hn hfind hi ?_ rfl rfl db, rfl, rfl, rfl⟩
    exact { hnormal with cooldown := normalizeAccountCooldown_idem now state untilUnix }

end Edits

/-- The SQL clause selects the rows of the accounts the identifier names. -/
theorem rowMatches_accountRow (key : Bytes) (written : Int) (a : Account) :
    rowMatches key (accountRow written a) = true ↔ a.NamedBy key := by
  simp only [rowMatches, accountRow, Account.NamedBy, Bool.or_eq_true, beq_iff_eq, or_assoc]

/-- The token update reaches exactly the row at `i` when the identifier names only its account. -/
theorem SoleMatch.updateToken {id : Bytes} (hs : SoleMatch accounts id i) (hkey : trimSpace id ≠ [])
    (hi : accounts[i]? = some acc) (written : Int) (token : Bytes) (nowMilli : Int) :
    updateToken (accounts.map (accountRow written)) id token nowMilli =
      some ((accounts.map (accountRow written)).modify i (AccountRow.setToken token nowMilli)) := by
  have hany : (accounts.map (accountRow written)).any (rowMatches (trimSpace id)) = true := by
    refine List.any_eq_true.mpr ⟨_, List.mem_map_of_mem (List.mem_of_getElem? hi), ?_⟩
    exact (rowMatches_accountRow _ _ _).mpr ((hs i acc hi).mpr rfl)
  simp only [Config.updateToken, if_neg hkey, if_pos hany]
  congr 1
  refine List.ext_getElem? (fun j => ?_)
  rw [List.getElem?_map, List.getElem?_modify, List.getElem?_map]
  cases hj : accounts[j]? with
  | none => rfl
  | some a =>
    have hrow := (rowMatches_accountRow (trimSpace id) written a).trans (hs j a hj)
    simp only [Option.map_some, hrow, eq_comm (a := i)]
    split <;> rfl

/-- Conversely the rows a token update stamps are those the identifier names. -/
theorem soleMatch_of_updateToken {id : Bytes} {written nowMilli : Int} (hne : written ≠ nowMilli)
    (h : updateToken (accounts.map (accountRow written)) id [] nowMilli =
      some ((accounts.map (accountRow written)).modify i (AccountRow.setToken [] nowMilli))) :
    SoleMatch accounts id i := by
  intro j a hj
  simp only [Config.updateToken] at h
  split at h
  · cases h
  split at h
  swap
  · cases h
  have hrows := congrArg (·[j]?) (Option.some.inj h)
  simp only [List.getElem?_map, List.getElem?_modify, hj, Option.map_some] at hrows
  have hstamp := congrArg AccountRow.updatedAt (Option.some.inj hrows)
  rw [← rowMatches_accountRow (trimSpace id) written, eq_comm (a := j)]
  by_cases hrow : rowMatches (trimSpace id) (accountRow written a) = true
  · by_cases hij : i = j
    · exact iff_of_true hrow hij
    · simp only [if_pos hrow, if_neg hij] at hstamp
      exact absurd hstamp.symm hne
  · by_cases hij : i = j
    · simp only [if_neg hrow, if_pos hij] at hstamp
      exact absurd hstamp hne
    · exact iff_of_false hrow hij

end Lists

/-- On a normalised list every edit by an identifier the store resolves, in memory and in
    SQLite, changes the account `FindAccount` returns and no other exactly when the identifier
    names no second account. -/
theorem identifier_edits_one_account_iff {now : Int} {accounts : List Account} {id : Bytes} {i : Nat}
    (hn : Normalized now accounts)
    (hf : (rebuildIndexes accounts).findAccountIndexLocked (trimSpace id) = some i) :
    OneAccount now accounts id i ↔ SoleMatch accounts id i := by
  obtain ⟨acc, hi, hcand⟩ := findAccountIndexLocked_hit hf
  have hkey : trimSpace id ≠ [] := by
    intro h
    have hnil : lookupCandidates [] = [[]] := by decide
    rw [h, hnil, List.mem_singleton] at hcand
    exact hn.identifier_ne_nil (List.mem_of_getElem? hi) hcand
  constructor
  · intro h
    exact soleMatch_of_updateToken (by decide : (0 : Int) ≠ 1) (h.token 0 [] 1)
  · intro hs
    have hscan := hs.scan hn hkey hi hcand
    exact
      { disable := setAccountDisabled_changesOnly hn hscan hi
        cooldown := setAccountCooldown_changesOnly hn hscan hi hkey hf
        token := hs.updateToken hkey hi }

def phoneAccount : Account := { mobile := lit "+8613800138000" }
def phoneEmailAccount : Account := { email := lit "13800138000@qq.com" }
def otherAccount : Account := { email := lit "b@qq.com", mobile := lit "+8613900139000" }

theorem identifier_edits_one_account_example :
    OneAccount 0 [phoneAccount, otherAccount] (lit " b@qq.com") 1 := by
  refine (identifier_edits_one_account_iff (by decide) (by decide)).mpr ?_
  intro j acc hj
  match j with
  | 0 =>
    obtain rfl := Option.some.inj hj
    decide
  | 1 =>
    obtain rfl := Option.some.inj hj
    decide
  | n + 2 => cases hj

/-- Disabling the account with the e-mail `13800138000@qq.com` disables the account with that
    mobile number. -/
theorem phone_email_disables_phone_account :
    Normalized 0 [phoneAccount, phoneEmailAccount] ∧
      (rebuildIndexes [phoneAccount, phoneEmailAccount]).findAccount (lit "13800138000@qq.com") =
        some phoneEmailAccount ∧
      (rebuildIndexes [phoneAccount, phoneEmailAccount]).findAccountIndexLocked
        (trimSpace (lit "13800138000@qq.com")) = some 1 ∧
      ¬ OneAccount 0 [phoneAccount, phoneEmailAccount] (lit "13800138000@qq.com") 1 := by
  refine ⟨by decide, by decide, by decide, fun h => ?_⟩
  have hres : setAccountDisabled 0 false [phoneAccount, phoneEmailAccount]
      (lit "13800138000@qq.com") true [] =
        some [{ phoneAccount with disabled := true }, phoneEmailAccount] := by decide
  obtain ⟨acc, acc', -, hset, -⟩ := h.disable false true []
  rw [hres] at hset
  have hhead := congrArg (fun l => l.map (fun a : Account => a.disabled)) (Option.some.inj hset)
  simp [phoneAccount] at hhead

end DeepSeekWebToApi.Config
