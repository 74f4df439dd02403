import DeepSeekWebToApi.Config.Identity
import DeepSeekWebToApi.Lib.RuneText

/- The accounts table (`accountSQLiteStore.replace`). Its key is the identifier, and two
   partial indexes keep the non-empty e-mails and the non-empty mobile numbers unique.
   `replace` clears the table and inserts what `normalizeAndDedupeAccountConfig` keeps.

   An account is kept if it is the first with its dedupe key, and the key is that of the
   e-mail alone where there is one. So nothing keeps the mobile numbers of two accounts
   with different e-mails apart, nor that of an account with an e-mail from that of an
   account without; and an account whose e-mail field holds a mobile number shares the
   identifier of the account that has only the number. `replace_fits_iff`: apart from these
   the rows are unique and every insert succeeds. -/
namespace DeepSeekWebToApi.Config
open GoStrings

/-- Two rows that cannot be in the table together. -/
def AccountRow.Clashes (r r' : AccountRow) : Prop :=
  r.identifier = r'.identifier ∨ r.account.email ≠ [] ∧ r.account.email = r'.account.email ∨
    r.account.mobile ≠ [] ∧ r.account.mobile = r'.account.mobile

instance (r r' : AccountRow) : Decidable (r.Clashes r') := inferInstanceAs (Decidable (_ ∨ _))

/-- `INSERT INTO accounts`; `none` where a uniqueness constraint fails. -/
def insertAccountRow (rows : List AccountRow) (r : AccountRow) : Option (List AccountRow) :=
  if ∃ r' ∈ rows, r'.Clashes r then none else some (rows ++ [r])

/-- `accountSQLiteStore.replace`: the rows of the table and the accounts it returns. A failed insert
    rolls the transaction back. -/
def replaceAccounts (now nowMilli : Int) (accounts : List Account) : Option (List AccountRow × List Account) :=
  let accounts := normalizeAndDedupeAccountConfig now accounts
  ((accounts.map (accountRow nowMilli)).foldlM insertAccountRow []).map fun rows => (rows, accounts)

/-- The constraints of the table, column by column. -/
structure UniqueColumns (rows : List AccountRow) : Prop where
  identifier : (rows.map fun r => r.identifier).Nodup
  email : ((rows.map fun r => r.account.email).filter (· ≠ [])).Nodup
  mobile : ((rows.map fun r => r.account.mobile).filter (· ≠ [])).Nodup

/-! ## The table -/

theorem pairwise_filter_ne_nil {f : AccountRow → Bytes} {rows : List AccountRow} :
    ((rows.map f).filter (· ≠ [])).Nodup ↔ rows.Pairwise (fun r r' => f r ≠ [] → f r ≠ f r') := by
  rw [List.Nodup, List.pairwise_filter, List.pairwise_map]
  refine ⟨fun h => h.imp ?_, fun h => h.imp ?_⟩
  · intro r r' hne hr heq
    exact hne (by simpa using hr) (by simpa [heq] using hr) heq
  · intro r r' hne hr _
    exact hne (by simpa using hr)

theorem uniqueColumns_iff {rows : List AccountRow} :
    UniqueColumns rows ↔ rows.Pairwise (fun r r' => ¬ r.Clashes r') := by
  have hsplit : rows.Pairwise (fun r r' => ¬ r.Clashes r') ↔
      rows.Pairwise (fun r r' => r.identifier ≠ r'.identifier ∧
        (r.account.email ≠ [] → r.account.email ≠ r'.account.email) ∧
        (r.account.mobile ≠ [] → r.account.mobile ≠ r'.account.mobile)) := by
    refine List.Pairwise.iff fun r r' => ?_
    simp only [AccountRow.Clashes, not_or, not_and, ne_eq]
  rw [hsplit, List.pairwise_and_iff, List.pairwise_and_iff]
  constructor
  · rintro ⟨hid, hemail, hmobile⟩
    exact ⟨List.pairwise_map.mp hid, pairwise_filter_ne_nil.mp hemail, pairwise_filter_ne_nil.mp hmobile⟩
  · rintro ⟨hid, hemail, hmobile⟩
    exact ⟨List.pairwise_map.mpr hid, pairwise_filter_ne_nil.mpr hemail, pairwise_filter_ne_nil.mpr hmobile⟩

/-- The inserts succeed exactly when no two of the rows clash. -/
theorem foldlM_insertAccountRow : ∀ (new rows : List AccountRow),
    rows.Pairwise (fun r r' => ¬ r.Clashes r') →
    ((new.foldlM insertAccountRow rows).isSome = true ↔
      (rows ++ new).Pairwise (fun r r' => ¬ r.Clashes r'))
  | [], rows, h => by simpa using h
  | r :: new, rows, h => by
    have hconcat : (rows ++ [r]).Pairwise (fun r r' => ¬ r.Clashes r') ↔ ∀ r' ∈ rows, ¬ r'.Clashes r := by
      rw [List.pairwise_append]
      simp [h]
    rw [List.foldlM_cons, insertAccountRow]
    split
    · next hclash =>
      obtain ⟨r', hr', hc⟩ := hclash
      refine iff_of_false Bool.false_ne_true fun hall => ?_
      rw [List.append_cons] at hall
      exact hconcat.mp (List.pairwise_append.mp hall).1 r' hr' hc
    · next hfree =>
      have hrows := hconcat.mpr fun r' hr' hc => hfree ⟨r', hr', hc⟩
      have happ : rows ++ r :: new = rows ++ [r] ++ new := List.append_cons ..
      rw [happ]
      exact foldlM_insertAccountRow new (rows ++ [r]) hrows

theorem replaceAccounts_isSome (now nowMilli : Int) (accounts : List Account) :
    (replaceAccounts now nowMilli accounts).isSome = true ↔
      UniqueColumns ((normalizeAndDedupeAccountConfig now accounts).map (accountRow nowMilli)) := by
  rw [replaceAccounts, Option.isSome_map, foldlM_insertAccountRow _ [] List.Pairwise.nil, uniqueColumns_iff,
    List.nil_append]

/-! ## Normalised identities -/

theorem mobile_shape (raw : Bytes) : normalizeMobileForStorage raw = [] ∨
    ∃ digits : Bytes, digits ≠ [] ∧ (∀ d ∈ digits, isDigit d = true) ∧
      normalizeMobileForStorage raw = '+'.toUInt8 :: digits := by
  have hdigits : ∀ d ∈ (extractMobileDigits raw).1, isDigit d = true := by
    intro d hd
    rw [extractMobileDigits] at hd
    split at hd
    · cases hd
    · exact (List.mem_filter.mp hd).2
  have hcode : ∀ d ∈ lit "86", isDigit d = true := by decide +kernel
  rcases hext : extractMobileDigits raw with ⟨digits, plus⟩
  rw [hext] at hdigits
  have hcoded : ∀ rest : Bytes, (∀ d ∈ rest, d ∈ digits) → ∀ d ∈ lit "86" ++ rest, isDigit d = true := by
    intro rest hrest d hd
    rcases List.mem_append.mp hd with hd | hd
    · exact hcode d hd
    · exact hdigits d (hrest d hd)
  have hlong : ∀ rest : Bytes, lit "86" ++ rest ≠ [] :=
    fun rest => List.append_ne_nil_of_left_ne_nil (by decide) rest
  simp only [normalizeMobileForStorage, hext]
  split
  · exact Or.inl rfl
  next hne =>
  split
  · exact Or.inr ⟨digits, hne, hdigits, rfl⟩
  split
  · exact Or.inr ⟨lit "86" ++ digits.drop 2, hlong _, hcoded _ fun d hd => List.mem_of_mem_drop hd, rfl⟩
  split
  · exact Or.inr ⟨lit "86" ++ digits, hlong _, hcoded _ fun d hd => hd, rfl⟩
  · exact Or.inr ⟨digits, hne, hdigits, rfl⟩

theorem digit_solid : ∀ d : UInt8, isDigit d = true →
    d.toNat < 0x80 ∧ isSpace d.toNat = false ∧ d ≠ '@'.toUInt8 := by
  have hall : ∀ n : Fin 256, isDigit (UInt8.ofNat n) = true →
      (UInt8.ofNat n).toNat < 0x80 ∧ isSpace (UInt8.ofNat n).toNat = false ∧ UInt8.ofNat n ≠ '@'.toUInt8 := by
    decide +kernel
  intro d hd
  have hn := hall ⟨d.toNat, UInt8.toNat_lt d⟩
  rw [UInt8.ofNat_toNat] at hn
  exact hn hd

/-- A stored mobile number has no white space around it. -/
theorem trimSpace_mobile (raw : Bytes) :
    trimSpace (normalizeMobileForStorage raw) = normalizeMobileForStorage raw := by
  rcases mobile_shape raw with h | ⟨digits, -, hdigits, h⟩
  · rw [h]
    rfl
  · rw [h]
    refine trimSpace_of_solid fun b hb => ?_
    rcases List.mem_cons.mp hb with rfl | hb
    · decide
    · obtain ⟨hascii, hsolid, -⟩ := digit_solid b (hdigits b hb)
      exact ⟨hascii, hsolid⟩

theorem normalizeMobileForStorage_idem (raw : Bytes) :
    normalizeMobileForStorage (normalizeMobileForStorage raw) = normalizeMobileForStorage raw := by
  have htrim := trimSpace_mobile raw
  rcases mobile_shape raw with h | ⟨digits, hne, hdigits, h⟩
  · rw [h]
    rfl
  · rw [h] at htrim ⊢
    have hplus : isDigit '+'.toUInt8 = false := by decide
    have hext : extractMobileDigits ('+'.toUInt8 :: digits) = (digits, true) := by
      rw [extractMobileDigits, htrim, if_neg (List.cons_ne_nil _ _), List.filter_cons_of_neg (by simp [hplus]),
        List.filter_eq_self.mpr hdigits]
      rfl
    simp only [normalizeMobileForStorage, hext, if_neg hne, if_true]
    rfl

theorem mobile_not_email (raw : Bytes) : looksLikeEmailIdentifier (normalizeMobileForStorage raw) = false := by
  rw [looksLikeEmailIdentifier, trimSpace_mobile]
  rcases mobile_shape raw with h | ⟨digits, -, hdigits, h⟩
  · rw [h]
    rfl
  · rw [h]
    refine Bool.eq_false_iff.mpr fun hc => ?_
    have hat : '@'.toUInt8 ∈ '+'.toUInt8 :: digits :=
      (contains_iff_within.mp hc).subset (by decide)
    rcases List.mem_cons.mp hat with hat | hat
    · exact absurd hat (by decide)
    · exact (digit_solid _ (hdigits _ hat)).2.2 rfl

/-- Normalising an identity twice is normalising it once. -/
theorem normalizeAccountIdentity_idem (acc : Account) :
    normalizeAccountIdentity (normalizeAccountIdentity acc) = normalizeAccountIdentity acc := by
  by_cases hswap : trimSpace acc.email = [] ∧ looksLikeEmailIdentifier (trimSpace acc.mobile) = true
  · have hne : trimSpace acc.mobile ≠ [] := by
      intro h
      rw [h] at hswap
      exact absurd hswap.2 (by decide)
    have hmobile : normalizeMobileForStorage (trimSpace []) = [] := by decide
    simp only [normalizeAccountIdentity, if_pos hswap, trimSpace_idem, hne, false_and, if_false, hmobile]
  · simp only [normalizeAccountIdentity, if_neg hswap, trimSpace_idem, trimSpace_mobile, mobile_not_email,
      Bool.false_eq_true, and_false, if_false, normalizeMobileForStorage_idem]

/-- What is stored of the identity of an account: it is trimmed, the number is in storage form. -/
theorem identity_columns (acc : Account) :
    trimSpace (normalizeAccountIdentity acc).email = (normalizeAccountIdentity acc).email ∧
      canonicalMobileKey (normalizeAccountIdentity acc).mobile = (normalizeAccountIdentity acc).mobile ∧
      trimSpace (normalizeAccountIdentity acc).mobile = (normalizeAccountIdentity acc).mobile := by
  by_cases hswap : trimSpace acc.email = [] ∧ looksLikeEmailIdentifier (trimSpace acc.mobile) = true
  · simp only [normalizeAccountIdentity, if_pos hswap, trimSpace_idem, true_and]
    decide
  · simp only [normalizeAccountIdentity, if_neg hswap, trimSpace_idem, canonicalMobileKey,
      normalizeMobileForStorage_idem, trimSpace_mobile, and_self]

/-- The key an account of the configuration is deduplicated by. -/
def Account.dedupeKey (acc : Account) : Bytes := accountConfigDedupeKey (normalizeAccountIdentity acc)

theorem config_email (now : Int) (acc : Account) :
    (normalizeAccountConfig now acc).email = (normalizeAccountIdentity acc).email := by
  simp only [normalizeAccountConfig]

theorem config_mobile (now : Int) (acc : Account) :
    (normalizeAccountConfig now acc).mobile = (normalizeAccountIdentity acc).mobile := by
  simp only [normalizeAccountConfig]

theorem dedupeKey_config (now : Int) (acc : Account) :
    accountConfigDedupeKey (normalizeAccountConfig now acc) = acc.dedupeKey := by
  rw [Account.dedupeKey, accountConfigDedupeKey, config_email, config_mobile, accountConfigDedupeKey]

theorem dedupeKey_eq (acc : Account) : acc.dedupeKey =
    if (normalizeAccountIdentity acc).email ≠ [] then lit "email:" ++ (normalizeAccountIdentity acc).email
    else if (normalizeAccountIdentity acc).mobile ≠ [] then lit "mobile:" ++ (normalizeAccountIdentity acc).mobile
    else [] := by
  obtain ⟨hemail, hmobile, -⟩ := identity_columns acc
  rw [Account.dedupeKey, accountConfigDedupeKey, hemail, hmobile]

/-- The identifier is made of the e-mail and the mobile number alone. -/
theorem identifier_congr {a b : Account} (hemail : a.email = b.email) (hmobile : a.mobile = b.mobile) :
    a.identifier = b.identifier := by
  by_cases hswap : trimSpace b.email = [] ∧ looksLikeEmailIdentifier (trimSpace b.mobile) = true
  · simp only [Account.identifier, normalizeAccountIdentity, hemail, hmobile, if_pos hswap]
  · simp only [Account.identifier, normalizeAccountIdentity, hemail, hmobile, if_neg hswap]

/-- The identifier written into the row of a normalised account. -/
theorem identifier_config (now : Int) (acc : Account) : (normalizeAccountConfig now acc).identifier =
    if (normalizeAccountIdentity acc).email ≠ [] then (normalizeAccountIdentity acc).email
    else (normalizeAccountIdentity acc).mobile := by
  obtain ⟨hemail, -, hmobile⟩ := identity_columns acc
  have hfix := normalizeAccountIdentity_idem acc
  have hsame : (normalizeAccountConfig now acc).identifier = (normalizeAccountIdentity acc).identifier :=
    identifier_congr (config_email now acc) (config_mobile now acc)
  rw [hsame, Account.identifier, hfix]
  simp only [hemail, hmobile]
  split
  · rfl
  · split
    · rfl
    · next h => exact (not_not.mp h).symm

/-! ## Two kept accounts -/

/-- The columns the dedupe key does not look at: the mobile numbers, and the e-mail of one account
    beside the mobile number that names the other. -/
def SeparateNumbers (a b : Account) : Prop :=
  (a.mobile ≠ [] → a.mobile ≠ b.mobile) ∧ (a.email = [] → b.email ≠ a.mobile) ∧
    (b.email = [] → a.email ≠ b.mobile)

theorem clashes_iff (now nowMilli : Int) {a b : Account} (ha : a.dedupeKey ≠ []) (hb : b.dedupeKey ≠ [])
    (hab : a.dedupeKey ≠ b.dedupeKey) :
    ¬ (accountRow nowMilli (normalizeAccountConfig now a)).Clashes
        (accountRow nowMilli (normalizeAccountConfig now b)) ↔
      SeparateNumbers (normalizeAccountIdentity a) (normalizeAccountIdentity b) := by
  simp only [AccountRow.Clashes, accountRow, identifier_config, config_email, config_mobile, SeparateNumbers]
  rw [dedupeKey_eq] at ha hb
  rw [dedupeKey_eq, dedupeKey_eq] at hab
  generalize (normalizeAccountIdentity a).email = ea at *
  generalize (normalizeAccountIdentity b).email = eb at *
  generalize (normalizeAccountIdentity a).mobile = ma at *
  generalize (normalizeAccountIdentity b).mobile = mb at *
  by_cases hea : ea = [] <;> by_cases heb : eb = []
  · -- two numbers: their keys keep them apart
    have hne : ma ≠ mb := by
      rintro rfl
      exact hab (by simp [hea, heb])
    simp_all
  · -- a number and an e-mail: the rows can share the number, or the e-mail is the number
    simp only [hea, heb, ne_eq, not_true_eq_false, not_false_eq_true, if_true, if_false]
    grind
  · simp only [hea, heb, ne_eq, not_true_eq_false, not_false_eq_true, if_true, if_false]
    grind
  · -- two e-mails, which their keys keep apart
    have hne : ea ≠ eb := by
      rintro rfl
      exact hab (by simp [hea])
    simp_all

/-! ## The kept accounts of a list -/

/-- The account has a key that is none of those seen and no key of the accounts before it. -/
def Account.FirstAfter (seen : List Bytes) (before : List Account) (acc : Account) : Prop :=
  acc.dedupeKey ≠ [] ∧ acc.dedupeKey ∉ seen ∧ ∀ c ∈ before, c.dedupeKey ≠ acc.dedupeKey

variable {seen : List Bytes}

theorem firstAfter_cons {c acc : Account} {before : List Account} :
    acc.FirstAfter seen (c :: before) ↔ acc.FirstAfter (c.dedupeKey :: seen) before := by
  simp only [Account.FirstAfter, List.forall_mem_cons]
  rw [List.mem_cons, not_or]
  constructor
  · rintro ⟨hkey, hseen, hc, hbefore⟩
    exact ⟨hkey, ⟨fun h => hc h.symm, hseen⟩, hbefore⟩
  · rintro ⟨hkey, ⟨hc, hseen⟩, hbefore⟩
    exact ⟨hkey, hseen, fun h => hc h.symm, hbefore⟩

/-- An account that is dropped itself keeps no other out. -/
theorem firstAfter_cons_dropped {c acc : Account} {before : List Account}
    (hdrop : c.dedupeKey = [] ∨ c.dedupeKey ∈ seen) :
    acc.FirstAfter seen (c :: before) ↔ acc.FirstAfter seen before := by
  simp only [Account.FirstAfter, List.forall_mem_cons]
  refine ⟨fun h => ⟨h.1, h.2.1, h.2.2.2⟩, fun h => ⟨h.1, h.2.1, ?_, h.2.2⟩⟩
  intro heq
  rcases hdrop with hnil | hseen
  · exact h.1 (heq ▸ hnil)
  · exact h.2.1 (heq ▸ hseen)

/-- Splitting a list at an element: the head, or an element behind it. -/
theorem exists_split_cons {α : Type} {c : α} {rest : List α} {P : List α → α → List α → Prop} :
    (∃ before a after, c :: rest = before ++ a :: after ∧ P before a after) ↔
      P [] c rest ∨ ∃ before a after, rest = before ++ a :: after ∧ P (c :: before) a after := by
  constructor
  · rintro ⟨before, a, after, heq, hP⟩
    cases before with
    | nil =>
      obtain ⟨rfl, rfl⟩ := List.cons.inj heq
      exact Or.inl hP
    | cons d before =>
      obtain ⟨rfl, hrest⟩ := List.cons.inj heq
      exact Or.inr ⟨before, a, after, hrest, hP⟩
  · rintro (hP | ⟨before, a, after, rfl, hP⟩)
    · exact ⟨[], c, rest, rfl, hP⟩
    · exact ⟨c :: before, a, after, rfl, hP⟩

section
variable {now : Int} {seen : List Bytes} {c : Account} (rest : List Account)

theorem dedupeFrom_dropped (hdrop : c.dedupeKey = [] ∨ c.dedupeKey ∈ seen) :
    dedupeFrom now seen (c :: rest) = dedupeFrom now seen rest := by
  rw [dedupeFrom]
  simp only [dedupeKey_config]
  rcases hdrop with h | h
  · rw [if_pos h]
  · rw [if_pos h, ite_self]

theorem dedupeFrom_kept (hkey : c.dedupeKey ≠ []) (hseen : c.dedupeKey ∉ seen) :
    dedupeFrom now seen (c :: rest) =
      normalizeAccountConfig now c :: dedupeFrom now (c.dedupeKey :: seen) rest := by
  rw [dedupeFrom]
  simp only [dedupeKey_config, if_neg hkey, if_neg hseen]

end

theorem mem_dedupeFrom (now : Int) {kept : Account} : ∀ (seen : List Bytes) (accounts : List Account),
    kept ∈ dedupeFrom now seen accounts ↔ ∃ before acc after, accounts = before ++ acc :: after ∧
      acc.FirstAfter seen before ∧ kept = normalizeAccountConfig now acc
  | seen, [] => by simp [dedupeFrom]
  | seen, c :: rest => by
    rw [exists_split_cons]
    by_cases hdrop : c.dedupeKey = [] ∨ c.dedupeKey ∈ seen
    · have hnot : ¬ c.FirstAfter seen [] := fun h => hdrop.elim h.1 h.2.1
      simp only [dedupeFrom_dropped rest hdrop, mem_dedupeFrom now seen rest, firstAfter_cons_dropped hdrop, hnot,
        false_and, false_or]
    · obtain ⟨hkey, hseen⟩ := not_or.mp hdrop
      have hfirst : c.FirstAfter seen [] := ⟨hkey, hseen, List.forall_mem_nil _⟩
      simp only [dedupeFrom_kept rest hkey hseen, List.mem_cons, mem_dedupeFrom now (c.dedupeKey :: seen) rest,
        firstAfter_cons, hfirst, true_and]

/-- `b` is behind `a` in the list, and each is the first account with its key. -/
def Leads (seen : List Bytes) (accounts : List Account) (a b : Account) : Prop :=
  ∃ before between after, accounts = before ++ a :: (between ++ b :: after) ∧
    a.FirstAfter seen before ∧ b.FirstAfter seen (before ++ a :: between)

/-- The pairs of a list: those its head leads and those behind it. -/
theorem leads_cons {c a b : Account} {rest : List Account} : Leads seen (c :: rest) a b ↔
      (a = c ∧ c.FirstAfter seen [] ∧
        ∃ between after, rest = between ++ b :: after ∧ b.FirstAfter seen (c :: between)) ∨
      ∃ before between after, rest = before ++ a :: (between ++ b :: after) ∧
        a.FirstAfter seen (c :: before) ∧ b.FirstAfter seen (c :: (before ++ a :: between)) := by
  constructor
  · rintro ⟨before, between, after, heq, ha, hb⟩
    cases before with
    | nil =>
      obtain ⟨rfl, rfl⟩ := List.cons.inj heq
      exact Or.inl ⟨rfl, ha, between, after, rfl, hb⟩
    | cons d before =>
      obtain ⟨rfl, hrest⟩ := List.cons.inj heq
      exact Or.inr ⟨before, between, after, hrest, ha, hb⟩
  · rintro (⟨rfl, ha, between, after, rfl, hb⟩ | ⟨before, between, after, rfl, ha, hb⟩)
    · exact ⟨[], between, after, rfl, ha, hb⟩
    · exact ⟨c :: before, between, after, rfl, ha, hb⟩

/-- What holds of any two kept accounts, in the order of the list. -/
theorem pairwise_dedupeFrom (now : Int) (R : Account → Account → Prop) :
    ∀ (seen : List Bytes) (accounts : List Account), (dedupeFrom now seen accounts).Pairwise R ↔
      ∀ a b, Leads seen accounts a b → R (normalizeAccountConfig now a) (normalizeAccountConfig now b)
  | seen, [] => by simp [dedupeFrom, Leads]
  | seen, c :: rest => by
    by_cases hdrop : c.dedupeKey = [] ∨ c.dedupeKey ∈ seen
    · have hnot : ¬ c.FirstAfter seen [] := fun h => hdrop.elim h.1 h.2.1
      have hleads : ∀ a b, Leads seen (c :: rest) a b ↔ Leads seen rest a b := by
        intro a b
        rw [leads_cons]
        simp only [firstAfter_cons_dropped hdrop, hnot, false_and, and_false, false_or, Leads]
      simp only [dedupeFrom_dropped rest hdrop, pairwise_dedupeFrom now R seen rest, hleads]
    · obtain ⟨hkey, hseen⟩ := not_or.mp hdrop
      have hfirst : c.FirstAfter seen [] := ⟨hkey, hseen, List.forall_mem_nil _⟩
      rw [dedupeFrom_kept rest hkey hseen, List.pairwise_cons, pairwise_dedupeFrom now R _ rest]
      constructor
      · rintro ⟨hhead, hrest⟩ a b hab
        rcases leads_cons.mp hab with ⟨rfl, -, between, after, hsplit, hb⟩ | ⟨before, between, after, hsplit, ha, hb⟩
        · exact hhead _ ((mem_dedupeFrom now _ rest).mpr ⟨between, b, after, hsplit, firstAfter_cons.mp hb, rfl⟩)
        · exact hrest a b ⟨before, between, after, hsplit, firstAfter_cons.mp ha, firstAfter_cons.mp hb⟩
      · intro hall
        refine ⟨fun kept hkept => ?_, fun a b hab => ?_⟩
        · obtain ⟨between, b, after, hsplit, hb, rfl⟩ := (mem_dedupeFrom now _ rest).mp hkept
          exact hall c b (leads_cons.mpr (Or.inl ⟨rfl, hfirst, between, after, hsplit, firstAfter_cons.mpr hb⟩))
        · obtain ⟨before, between, after, hsplit, ha, hb⟩ := hab
          exact hall a b (leads_cons.mpr
            (Or.inr ⟨before, between, after, hsplit, firstAfter_cons.mpr ha, firstAfter_cons.mpr hb⟩))

theorem Leads.keys {accounts : List Account} {a b : Account} (h : Leads seen accounts a b) :
    a.dedupeKey ≠ [] ∧ b.dedupeKey ≠ [] ∧ a.dedupeKey ≠ b.dedupeKey := by
  obtain ⟨before, between, after, -, ha, hb⟩ := h
  exact ⟨ha.1, hb.1, hb.2.2 a (List.mem_append_right _ List.mem_cons_self)⟩

/-- The rows of every list are unique in all three columns, and `replace` inserts them all, exactly
    when any two accounts that are the first of their keys have separate numbers. -/
theorem replace_fits_iff (now nowMilli : Int) (accounts : List Account) :
    UniqueColumns ((normalizeAndDedupeAccountConfig now accounts).map (accountRow nowMilli)) ∧
        (replaceAccounts now nowMilli accounts).isSome = true ↔
      ∀ a b, Leads [] accounts a b →
        SeparateNumbers (normalizeAccountIdentity a) (normalizeAccountIdentity b) := by
  rw [replaceAccounts_isSome, and_self, uniqueColumns_iff, List.pairwise_map, normalizeAndDedupeAccountConfig,
    pairwise_dedupeFrom]
  refine forall_congr' fun a => forall_congr' fun b => imp_congr_right fun hab => ?_
  obtain ⟨ha, hb, hne⟩ := hab.keys
  exact clashes_iff now nowMilli ha hb hne

/-- Two e-mails with one mobile number, in two spellings: both accounts are kept, and the second insert
    fails. -/
theorem shared_mobile_not_inserted :
    let accounts : List Account :=
      [{ email := lit "a@qq.com", mobile := lit "138-0013-8000" },
        { email := lit "b@qq.com", mobile := lit "+86 13800138000" }]
    (normalizeAndDedupeAccountConfig 0 accounts).length = 2 ∧ replaceAccounts 0 0 accounts = none ∧
      ¬ UniqueColumns ((normalizeAndDedupeAccountConfig 0 accounts).map (accountRow 0)) := by
  refine ⟨by decide +kernel, by decide +kernel, fun h => ?_⟩
  exact absurd h.mobile (by decide +kernel)

/-- An e-mail field that holds the number of another account: both have one identifier. -/
example : replaceAccounts 0 0 [{ email := lit "+8613800138000" }, { mobile := lit "13800138000" }] = none := by
  decide +kernel

end DeepSeekWebToApi.Config
