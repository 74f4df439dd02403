import DeepSeekWebToApi.Config.Codec

/- What `UnmarshalJSON` makes of what `MarshalJSON` wrote.

   Each section is read back as it was written or, where its test passed it over, as the zero
   section; the additional fields are those the switch does not know. From this follows which
   configurations come back. -/
set_option linter.dupNamespace false

namespace DeepSeekWebToApi.Config
open GoStrings GoJson

section roundTrip
variable {F : Type} [DecidableEq F] (φ : FloatFormat F)

/-! The sections. -/

theorem configFields_names : ((configFields φ).map StructField.name).Nodup := of_decide_eq_true rfl

theorem configFields_ascii : ∀ f ∈ configFields φ, f.name.all (· < 0x80) = true := of_decide_eq_true rfl

theorem configFields_depth : ∀ f ∈ configFields φ, f.codec.depth ≤ maxDepth - 1 := of_decide_eq_true rfl

theorem get_setAll (value : (f : StructField (Config F)) → f.α) (c : Config F) :
    ∀ f ∈ configFields φ, f.get (setAll (configFields φ) value c) = value f := by
  simp only [configFields, List.forall_mem_cons]
  and_intros
  all_goals first | rfl | nofun

variable {φ}

/-- Where a section is left out that is not at its zero value, the normalisation keeps a zero
    section as it is. -/
theorem keeps_or_zero (tools : ProxyTools) (now : Int) : ∀ f ∈ configFields φ, f.Keeps ∨
    ∀ c : Config F, f.get c = f.codec.zero → f.get (c.normalizeCredentials tools now) = f.codec.zero := by
  have hcore : ∀ c : Config F, c.proxyCore = {} → (c.normalizeCredentials tools now).proxyCore = {} :=
    fun c h => by
      rw [Config.normalizeCredentials, h]
      rfl
  have hpolicy : ∀ c : Config F, c.proxyPolicy = {} →
      (c.normalizeCredentials tools now).proxyPolicy = {} := fun c h => by
    rw [Config.normalizeCredentials, h]
    rfl
  simp only [configFields, List.forall_mem_cons, StructField.omitEmptyList_keeps,
    StructField.omitEmpty_keeps, StructField.always_keeps, true_or, true_and]
  refine ⟨Or.inr fun _ h => h, Or.inr hcore, Or.inr hpolicy, ?_⟩
  and_intros
  all_goals first | exact Or.inr fun _ h => h | exact List.forall_mem_nil _

/-! The additional fields. -/

/-- Additional fields that come back: their keys ascend and are none the switch knows, their
    values are such that the decoder gives. -/
structure AdditionalOk (φ : FloatFormat F) (entries : KeyMap (Any F)) : Prop where
  sorted : entries.Sorted
  unknown : ∀ kv ∈ entries, isKnownKey φ kv.1 = false
  plain : ∀ kv ∈ entries, IsUtf8 kv.1 ∧ kv.2.Plain φ (maxDepth - 1)

theorem additionalOf_ok {m : Fields} (hsorted : m.Sorted) (hwf : FieldsWf (maxDepth - 1) m) :
    AdditionalOk φ (additionalOf φ m) := by
  have hmem : ∀ kv ∈ additionalOf φ m, isKnownKey φ kv.1 = false ∧
      ∃ t, (kv.1, t) ∈ m ∧ Any.read φ t = some kv.2 := by
    intro kv hkv
    obtain ⟨field, hfield, hread⟩ := List.mem_filterMap.mp hkv
    split_ifs at hread with hknown
    obtain ⟨a, ha, rfl⟩ := Option.map_eq_some_iff.mp hread
    exact ⟨Bool.eq_false_iff.mpr hknown, field.2, hfield, ha⟩
  refine ⟨?_, fun kv hkv => (hmem kv hkv).1, fun kv hkv => ?_⟩
  · refine List.Pairwise.filterMap _ (fun a b hab a' ha b' hb => ?_) hsorted
    split_ifs at ha hb
    obtain ⟨_, _, rfl⟩ := Option.map_eq_some_iff.mp ha
    obtain ⟨_, _, rfl⟩ := Option.map_eq_some_iff.mp hb
    exact hab
  · obtain ⟨_, t, ht, hread⟩ := hmem kv hkv
    obtain ⟨hkey, hvalue⟩ := fieldsWf_iff.mp hwf _ ht
    exact ⟨hkey, hvalue.plain hread⟩

theorem additionalOf_filter (m : Fields) :
    additionalOf φ (m.filter (fun kv => !isKnownKey φ kv.1)) = additionalOf φ m := by
  rw [additionalOf, List.filterMap_filter]
  refine List.filterMap_congr fun kv _ => ?_
  by_cases h : isKnownKey φ kv.1 = true
  · rw [if_pos h, h]
    rfl
  · rw [if_neg h, Bool.eq_false_iff.mpr h]
    rfl

theorem additionalOf_eq : ∀ {m : Fields} {entries : KeyMap (Any F)}, readEntries φ m = some entries →
    (∀ kv ∈ m, isKnownKey φ kv.1 = false) → additionalOf φ m = entries
  | [], entries, h, _ => by
    rw [readEntries, Option.some.injEq] at h
    exact h
  | (k, t) :: m, entries, h, hunknown => by
    obtain ⟨hk, hm⟩ := List.forall_mem_cons.mp hunknown
    rw [readEntries] at h
    obtain ⟨a, ha, h⟩ := Option.bind_eq_some_iff.mp h
    obtain ⟨as, has, rfl⟩ := Option.map_eq_some_iff.mp h
    have hhead : (if isKnownKey φ k then none else (Any.read φ t).map (fun a => (k, a))) = some (k, a) := by
      rw [if_neg (Bool.eq_false_iff.mp hk), ha]
      rfl
    rw [additionalOf, List.filterMap_cons]
    simp only [hhead]
    exact congrArg _ (additionalOf_eq has hm)

variable {c : Config F}

/-- What is written where no additional field has a key the switch knows. -/
theorem marshalJSON_eq {m : Fields} (hunknown : ∀ kv ∈ c.additionalFields, isKnownKey φ kv.1 = false)
    (hm : writeEntries φ c.additionalFields = some m)
    (hfits : (configFields φ).all (fun f => f.omits (f.get c) || f.codec.fits (f.get c)) = true) :
    c.marshalJSON φ = some (marshal (.obj (writeFields (configFields φ) c m))) := by
  have hkept : c.additionalFields.filter (fun kv => !isWritten φ c kv.1) = c.additionalFields := by
    refine List.filter_eq_self.mpr fun kv hkv => ?_
    rw [Bool.not_eq_true', Bool.eq_false_iff]
    intro hwritten
    obtain ⟨f, hf, hname⟩ := List.any_eq_true.mp hwritten
    rw [Bool.and_eq_true, beq_iff_eq] at hname
    have hknown : isKnownKey φ kv.1 = true := by
      rw [isKnownKey, ← hname.1, List.contains_iff_mem.mpr (List.mem_map_of_mem hf), Bool.true_or]
    rw [hunknown kv hkv] at hknown
    cases hknown
  rw [Config.marshalJSON, hkept, hm]
  exact if_pos hfits

/-- What is read back, up to the normalisation. -/
def readBack (φ : FloatFormat F) (c : Config F) : Config F :=
  setAll (configFields φ) (fun f => f.readsBack c) c

theorem unmarshalJSON_marshalJSON (tools : ProxyTools) (now : Int)
    (hfits : (configFields φ).all (fun f => f.omits (f.get c) || f.codec.fits (f.get c)) = true)
    (hadd : AdditionalOk φ c.additionalFields) : ∃ b, c.marshalJSON φ = some b ∧
      unmarshalJSON φ tools now b = some ((readBack φ c).normalizeCredentials tools now) := by
  obtain ⟨m, hm, hwf, hread⟩ := plainEntries_writes (plainEntries_iff.mpr hadd.plain)
  have hkeys := map_fst_writeEntries hm
  have hunknown : ∀ kv ∈ m, isKnownKey φ kv.1 = false := by
    intro kv hkv
    have hkey : kv.1 ∈ c.additionalFields.map Prod.fst := hkeys ▸ List.mem_map_of_mem hkv
    obtain ⟨entry, hentry, heq⟩ := List.mem_map.mp hkey
    exact heq ▸ hadd.unknown entry hentry
  have hnames : ∀ f ∈ configFields φ, isKnownKey φ f.name = true := fun f hf => by
    rw [isKnownKey, List.contains_iff_mem.mpr (List.mem_map_of_mem hf), Bool.true_or]
  have hok : FieldsOk (configFields φ) (maxDepth - 1) c := by
    refine ⟨configFields_names φ, configFields_ascii φ, fun f hf homit => ?_, configFields_depth φ⟩
    have hf := List.all_eq_true.mp hfits f hf
    rwa [homit, Bool.false_or] at hf
  obtain ⟨m', hback, hfields, hrest⟩ := hok.reads (hadd.sorted.of_keys hkeys) (fields_readBack_of_wf hwf)
    (fun f hf => by
      refine Option.map_eq_none_iff.mpr (List.find?_eq_none.mpr fun kv hkv heq => ?_)
      have hname := hnames f hf
      rw [← beq_iff_eq.mp heq, hunknown kv hkv] at hname
      cases hname)
  have hdecode : decode (marshal (.obj (writeFields (configFields φ) c m))) = some (.obj m') := by
    refine decode_marshal ?_
    rw [Json.readBack, if_neg (by decide), hback]
    rfl
  have hadditional : additionalOf φ m' = c.additionalFields := by
    rw [← additionalOf_filter m', hrest (fun k => !isKnownKey φ k) (fun f hf => by rw [hnames f hf]; rfl),
      additionalOf_filter m, additionalOf_eq hread hunknown]
  refine ⟨_, marshalJSON_eq hadd.unknown hm hfits, ?_⟩
  have hobject : readObject (marshal (.obj (writeFields (configFields φ) c m))) = some m' := by
    rw [readObject, hdecode]
  rw [unmarshalJSON, hobject, Option.bind_some, readStruct_eq hfields, Option.map_some, hadditional]
  rfl

/-! The configurations that come back. -/

/-- A configuration with U+FFFD for the bytes of its texts that are no UTF-8. -/
def Config.clean (φ : FloatFormat F) (c : Config F) : Config F :=
  setAll (configFields φ) (fun f => f.codec.clean (f.get c)) c

theorem Config.clean_plain (h : ∀ f ∈ configFields φ, f.codec.Plain (f.get c)) : c.clean φ = c := by
  have hclean : c.clean φ = setAll (configFields φ) (fun f => f.get c) c :=
    setAll_congr fun f hf => f.codec.clean_plain (h f hf)
  rw [hclean]
  cases c
  rfl

/-- No section with a setting in it is left out, every number is one that can be written, the
    additional fields come back, and bytes that are no UTF-8 do not matter to the normal form. -/
structure Faithful (φ : FloatFormat F) (tools : ProxyTools) (now : Int) (c : Config F) : Prop where
  sections : ∀ f ∈ configFields φ, f.omits (f.get c) = true → f.get c = f.codec.zero
  fits : (configFields φ).all (fun f => f.omits (f.get c) || f.codec.fits (f.get c)) = true
  additional : AdditionalOk φ c.additionalFields
  texts : (c.clean φ).normalizeCredentials tools now = c.normalizeCredentials tools now

/-- Where the texts are UTF-8 there are no such bytes. -/
theorem texts_of_plain (tools : ProxyTools) (now : Int) (h : ∀ f ∈ configFields φ, f.codec.Plain (f.get c)) :
    (c.clean φ).normalizeCredentials tools now = c.normalizeCredentials tools now := by
  rw [Config.clean_plain h]

theorem readBack_eq_clean (h : ∀ f ∈ configFields φ, f.omits (f.get c) = true → f.get c = f.codec.zero) :
    readBack φ c = c.clean φ := by
  refine setAll_congr fun f hf => ?_
  rw [StructField.readsBack]
  split_ifs with homit
  · rw [h f hf homit, f.codec.clean_zero]
  · rfl

/-- The sections that are left out come back as zero. -/
theorem sections_of_readBack {tools : ProxyTools} {now : Int}
    (h : (readBack φ c).normalizeCredentials tools now = c) :
    ∀ f ∈ configFields φ, f.omits (f.get c) = true → f.get c = f.codec.zero := by
  intro f hf homit
  rcases keeps_or_zero tools now f hf with hkeeps | hzero
  · exact hkeeps _ homit
  · have hread : f.get (readBack φ c) = f.codec.zero := by
      rw [readBack, get_setAll φ _ c f hf, StructField.readsBack, if_pos homit]
    have hnormal := hzero _ hread
    rwa [h] at hnormal

theorem additionalOk_of_unmarshalJSON {tools : ProxyTools} {now : Int} {b : Bytes}
    (h : unmarshalJSON φ tools now b = some c) : AdditionalOk φ c.additionalFields := by
  obtain ⟨m, hm, h⟩ := Option.bind_eq_some_iff.mp h
  obtain ⟨c', _, rfl⟩ := Option.map_eq_some_iff.mp h
  refine (?_ : AdditionalOk φ (additionalOf φ m))
  unfold readObject at hm
  split at hm
  · next m' hdecode =>
    obtain rfl := Option.some.inj hm
    have hwf := decode_wf hdecode
    rw [Json.Wf] at hwf
    exact additionalOf_ok hwf.2.1 hwf.2.2
  · obtain rfl := Option.some.inj hm
    exact ⟨List.Pairwise.nil, nofun, nofun⟩
  · cases hm

/-- A normalised configuration is read back as it was written exactly where it is faithful. -/
theorem round_trip_iff_faithful (tools : ProxyTools) (now : Int) {c : Config F}
    (hnormal : c.normalizeCredentials tools now = c) :
    (∃ b, c.marshalJSON φ = some b ∧ unmarshalJSON φ tools now b = some c) ↔ Faithful φ tools now c := by
  constructor
  · rintro ⟨b, hmarshal, hunmarshal⟩
    have hadd := additionalOk_of_unmarshalJSON hunmarshal
    have hfits : (configFields φ).all (fun f => f.omits (f.get c) || f.codec.fits (f.get c)) = true := by
      obtain ⟨m, _, h⟩ := Option.bind_eq_some_iff.mp hmarshal
      split_ifs at h with hfits
      exact hfits
    obtain ⟨b', hmarshal', hback⟩ := unmarshalJSON_marshalJSON tools now hfits hadd
    obtain rfl : b = b' := Option.some.inj (hmarshal.symm.trans hmarshal')
    have hc := Option.some.inj (hback.symm.trans hunmarshal)
    have hsections := sections_of_readBack hc
    refine ⟨hsections, hfits, hadd, ?_⟩
    rw [← readBack_eq_clean hsections, hc, hnormal]
  · rintro ⟨hsections, hfits, hadd, htexts⟩
    obtain ⟨b, hmarshal, hback⟩ := unmarshalJSON_marshalJSON tools now hfits hadd
    refine ⟨b, hmarshal, ?_⟩
    rw [hback, readBack_eq_clean hsections, htexts, hnormal]

end roundTrip

/-! Configurations with whole numbers for floats, and proxies that are left as they are. -/

def plainTools : ProxyTools where
  parse _ _ := none
  toUpper := id
  sha1 := id
  sha256 := id

def sampleConfig : Config Int :=
  { keys := [lit "sk-1"]
    apiKeys := [{ key := lit "sk-1", name := lit "main" }]
    server := { port := lit "5001" }
    runtime := { accountMaxInflight := 2, accountHealthCheckIntervalMinutes := 5 }
    promptLimit := .empty wholeNumbers
    additionalFields := [(lit "note", .text (lit "kept"))] }

theorem sampleConfig_faithful : Faithful wholeNumbers plainTools 0 sampleConfig := by
  refine ⟨?_, by decide +kernel, ⟨List.pairwise_singleton _ _, ?_, ?_⟩, rfl⟩
  · simp only [configFields, List.forall_mem_cons]
    and_intros
    all_goals first | exact fun _ => rfl | exact fun h => absurd h (by decide) | nofun
  · exact List.forall_mem_singleton.mpr (by decide)
  · refine List.forall_mem_singleton.mpr ⟨isUtf8_ascii (by decide), ?_⟩
    rw [Any.Plain]
    exact isUtf8_ascii (by decide)

theorem sampleConfig_round_trip :
    ∃ b, sampleConfig.marshalJSON wholeNumbers = some b ∧
      unmarshalJSON wholeNumbers plainTools 0 b = some sampleConfig :=
  (round_trip_iff_faithful plainTools 0 rfl).mpr sampleConfig_faithful

/-- Only the interval of the account checks is set. -/
def healthCheckOnly : Config Int :=
  { runtime := { accountHealthCheckIntervalMinutes := 5 }, promptLimit := .empty wholeNumbers }

/-- Only the review by a model is set. -/
def llmCheckOnly : Config Int :=
  { safety := { llmCheck := { enabled := some true } }, promptLimit := .empty wholeNumbers }

/-- Both are written without the section they are set in. -/
theorem single_setting_lost :
    (healthCheckOnly.normalizeCredentials plainTools 0 = healthCheckOnly ∧
      ¬∃ b, healthCheckOnly.marshalJSON wholeNumbers = some b ∧
        unmarshalJSON wholeNumbers plainTools 0 b = some healthCheckOnly) ∧
    llmCheckOnly.normalizeCredentials plainTools 0 = llmCheckOnly ∧
      ¬∃ b, llmCheckOnly.marshalJSON wholeNumbers = some b ∧
        unmarshalJSON wholeNumbers plainTools 0 b = some llmCheckOnly := by
  have hread : (unmarshalJSON wholeNumbers plainTools 0 (lit "\x7b\"auto_delete\":\x7b\x7d\x7d")).map
      (fun c => (c.runtime.accountHealthCheckIntervalMinutes, c.safety.llmCheck.enabled)) =
      some (0, none) := by decide +kernel
  have hlost : ∀ c : Config Int,
      c.marshalJSON wholeNumbers = some (lit "\x7b\"auto_delete\":\x7b\x7d\x7d") →
      (c.runtime.accountHealthCheckIntervalMinutes, c.safety.llmCheck.enabled) ≠ (0, none) →
      ¬∃ b, c.marshalJSON wholeNumbers = some b ∧ unmarshalJSON wholeNumbers plainTools 0 b = some c := by
    rintro c hwritten hset ⟨b, hmarshal, hunmarshal⟩
    obtain rfl := Option.some.inj (hwritten.symm.trans hmarshal)
    rw [hunmarshal, Option.map_some] at hread
    exact hset (Option.some.inj hread)
  refine ⟨⟨rfl, hlost healthCheckOnly ?_ ?_⟩, rfl, hlost llmCheckOnly ?_ ?_⟩
  all_goals decide +kernel

end DeepSeekWebToApi.Config
