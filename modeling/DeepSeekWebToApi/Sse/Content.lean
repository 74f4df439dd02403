import DeepSeekWebToApi.Sse.Parser

/- Which texts of a chunk reach the parts of its result. `chunkTexts` are the texts a chunk
   carries on the paths that are neither skipped nor a status: those of its value, of the
   patches in it at any depth, of fragments and of objects. The decoder reads them where a
   chunk has one of its usual shapes. What it does not read it drops, and it drops all of
   them when a status patch of the chunk says that the response is finished. -/
namespace DeepSeekWebToApi.Sse
open GoStrings GoJson GoRegexp

variable {F : Type}

def contentPath (path : Bytes) : Bool := !shouldSkipPath path && !isStatusPath path

def textOf (s : Bytes) : List Bytes := if s = [] then [] else [s]

def fragmentText : Any F → List Bytes
  | .map m => textOf (stringAt m "content")
  | _ => []

/-- The texts an object has under names of its own. -/
def ownTexts (m : KeyMap (Any F)) : List Bytes :=
  textOf (stringAt m "text") ++ textOf (stringAt m "content") ++ textOf (stringAt m "thinking_content")

def responseTexts : Option (Any F) → List Bytes
  | some (.map resp) => ownTexts resp ++ (fragmentsOf resp).flatMap fragmentText
  | _ => []

def objectTexts (m : KeyMap (Any F)) : List Bytes :=
  ownTexts m ++ (fragmentsOf m).flatMap fragmentText ++ responseTexts (field m "response")

mutual
/-- The texts of a value on a content path. -/
def valueTexts : Any F → List Bytes
  | .text s => textOf s
  | .slice items => itemsTexts items
  | .map m => objectTexts m
  | _ => []
def itemsTexts : List (Any F) → List Bytes
  | [] => []
  | it :: items => itemTexts it ++ itemsTexts items
/-- An element of a list is a text, a fragment or a patch. -/
def itemTexts : Any F → List Bytes
  | .text s => textOf s
  | .map m => textOf (stringAt m "content") ++ (if contentPath (stringAt m "p") then patchTexts m else [])
  | _ => []
/-- The texts of the value `v` of a patch. -/
def patchTexts : List (Bytes × Any F) → List Bytes
  | [] => []
  | (key, value) :: entries => if key = lit "v" then valueTexts value else patchTexts entries
end

/-- A patch of the chunk itself carries nothing where its path is skipped or a status. -/
def batchTexts : Any F → List Bytes
  | .map m => if (field m "v").isSome ∧ contentPath (stringAt m "p") = false then [] else itemTexts (.map m)
  | it => itemTexts it

def carried (chunk : KeyMap (Any F)) (path : Bytes) : Any F → List Bytes
  | .slice items =>
    if appendsFragments path chunk then items.flatMap fragmentText else items.flatMap batchTexts
  | v => valueTexts v

/-- The texts a chunk carries on content paths, in order. -/
def chunkTexts (chunk : KeyMap (Any F)) : List Bytes :=
  if contentPath (stringAt chunk "p") then ((field chunk "v").map (carried chunk (stringAt chunk "p"))).getD []
  else []

/-! When they are kept. -/

/-- A status patch that finishes the response. -/
def finishes : Any F → Bool
  | .map m =>
    match field m "v" with
    | some (.text s) => isStatusPath (stringAt m "p") && isFinished s
    | _ => false
  | _ => false

/-- What is read from an element of a patch's list. -/
def elementTexts : Any F → List Bytes
  | .text s => textOf s
  | x => fragmentText x

/-- An element of a patch's list is not itself a patch with text in its value. -/
def ElementRead : Any F → Prop
  | .map m => contentPath (stringAt m "p") = true → ∀ v ∈ field m "v", valueTexts v = []
  | _ => True

/-- The value of a patch in a batch is a text other than the marker, or a list without further
    patches that carry text, and no object that carries text. -/
def ValueRead : Any F → Prop
  | .text s => s ≠ lit "FINISHED"
  | .slice items => ∀ x ∈ items, ElementRead x
  | .map m => objectTexts m = []
  | _ => True

/-- A batch has patches only; one with a fragment's content has no text besides it. -/
def PatchRead : Any F → Prop
  | .map m =>
    match field m "v" with
    | none => stringAt m "content" = []
    | some v => contentPath (stringAt m "p") = true →
        if stringAt m "content" = [] then ValueRead v else valueTexts v = []
  | .text s => s = []
  | _ => True

/-- An object has its text in the one place that is read, the other places are empty: on a text path its
    own text, under one of the two names, else the fragments of its response or, without one, its own. -/
def ObjectRead (path : Bytes) (m : KeyMap (Any F)) : Prop :=
  if isTextPath path ∧ leadText m ≠ [] then
    (((stringAt m "text" = [] ∨ stringAt m "content" = []) ∧ stringAt m "thinking_content" = []) ∧
      (fragmentsOf m).flatMap fragmentText = []) ∧ responseTexts (field m "response") = []
  else
    match field m "response" with
    | some (.map resp) => (ownTexts m = [] ∧ (fragmentsOf m).flatMap fragmentText = []) ∧ ownTexts resp = []
    | _ => ownTexts m = []

/-- The value of a chunk: a text on no path is not the marker, a batch that finishes the response carries
    no text, and else everything is in a place that is read. -/
def ValueKept (chunk : KeyMap (Any F)) (path : Bytes) : Any F → Prop
  | .text s => ¬ (s = lit "FINISHED" ∧ path = [])
  | .slice items =>
    if items.any finishes then carried chunk path (.slice items) = []
    else appendsFragments path chunk = true ∨ ∀ it ∈ items, PatchRead it
  | .map m => ObjectRead path m
  | _ => True

def Kept (chunk : KeyMap (Any F)) : Prop :=
  contentPath (stringAt chunk "p") = true → ∀ v ∈ field chunk "v", ValueKept chunk (stringAt chunk "p") v

/-! The texts of the parts. -/

theorem texts_partOf (s : Bytes) (kind : FragmentType) : (partOf s kind).map ContentPart.text = textOf s := by
  rw [partOf, textOf]
  split_ifs <;> rfl

theorem texts_appendFragment (kind : FragmentType) (acc : FragmentType × List ContentPart) (frag : Any F) :
    (appendFragment kind acc frag).2.map ContentPart.text =
      acc.2.map ContentPart.text ++ fragmentText frag := by
  cases frag with
  | map m => simp only [appendFragment, List.map_append, texts_partOf, fragmentText]
  | _ => exact (List.append_nil _).symm

theorem texts_foldl (kind : FragmentType) : ∀ (frags : List (Any F)) (acc : FragmentType × List ContentPart),
    (frags.foldl (appendFragment kind) acc).2.map ContentPart.text =
      acc.2.map ContentPart.text ++ frags.flatMap fragmentText
  | [], acc => (List.append_nil _).symm
  | frag :: frags, acc => by
    rw [List.foldl_cons, texts_foldl kind frags, texts_appendFragment, List.flatMap_cons, List.append_assoc]

theorem texts_innerParts (kind : FragmentType) (x : Any F) :
    (innerParts kind x).map ContentPart.text = elementTexts x := by
  cases x with
  | map m => exact texts_partOf _ _
  | text s => exact texts_partOf _ _
  | _ => rfl

theorem patchTexts_eq : ∀ m : KeyMap (Any F), patchTexts m = ((field m "v").map valueTexts).getD []
  | [] => by
    rw [patchTexts]
    rfl
  | (key, value) :: m => by
    rw [patchTexts, field, KeyMap.get_cons]
    by_cases h : key = lit "v"
    · rw [if_pos h]
      simp [h]
    · rw [if_neg h, patchTexts_eq m, field]
      simp [h]

theorem itemsTexts_eq : ∀ items : List (Any F), itemsTexts items = items.flatMap itemTexts
  | [] => by
    rw [itemsTexts]
    rfl
  | it :: items => by rw [itemsTexts, itemsTexts_eq items, List.flatMap_cons]

/-! What is read is a part of what is carried, all of it under a condition. -/

structure Reads (read all : List Bytes) (C : Prop) : Prop where
  sub : read.Sublist all
  exact : read = all ↔ C

theorem Reads.rfl {all : List Bytes} : Reads all all True := ⟨List.Sublist.refl _, iff_of_true (Eq.refl _) trivial⟩

theorem Reads.nothing (all : List Bytes) : Reads [] all (all = []) := ⟨List.nil_sublist _, eq_comm⟩

theorem Reads.iff {read all : List Bytes} {C C' : Prop} (h : Reads read all C) (hC : C ↔ C') :
    Reads read all C' := ⟨h.sub, h.exact.trans hC⟩

/-- All of it is read where it is found in what is read. -/
theorem Reads.sublist_iff {read all : List Bytes} {C : Prop} (h : Reads read all C) : all.Sublist read ↔ C := by
  rw [← h.exact]
  constructor
  · exact fun hall => h.sub.antisymm hall
  · rintro hall
    rw [hall]

theorem Reads.append {read all read' all' : List Bytes} {C C' : Prop} (h : Reads read all C)
    (h' : Reads read' all' C') : Reads (read ++ read') (all ++ all') (C ∧ C') := by
  refine ⟨h.sub.append h'.sub, ?_⟩
  rw [← h.exact, ← h'.exact]
  constructor
  · intro heq
    -- neither side is longer, so the seam is in the same place
    have hlen := congrArg List.length heq
    rw [List.length_append, List.length_append] at hlen
    have hle := h.sub.length_le
    have hle' := h'.sub.length_le
    exact List.append_inj heq (by omega)
  · rintro ⟨hread, hread'⟩
    rw [hread, hread']

theorem Reads.ahead {read all : List Bytes} {C : Prop} (h : Reads read all C) (rest : List Bytes) :
    Reads read (all ++ rest) (C ∧ rest = []) := by
  have happend := h.append (Reads.nothing rest)
  rwa [List.append_nil] at happend

theorem Reads.flatMap {α : Type} {f g : α → List Bytes} {C : α → Prop} : ∀ {items : List α},
    (∀ x ∈ items, Reads (f x) (g x) (C x)) → Reads (items.flatMap f) (items.flatMap g) (∀ x ∈ items, C x)
  | [], _ => Reads.rfl.iff (iff_of_true trivial (List.forall_mem_nil _))
  | x :: items, h => by
    rw [List.flatMap_cons, List.flatMap_cons]
    have hrest := Reads.flatMap fun y hy => h y (List.mem_cons_of_mem x hy)
    exact ((h x List.mem_cons_self).append hrest).iff List.forall_mem_cons.symm

/-! Batches. -/

theorem element_reads (x : Any F) : Reads (elementTexts x) (itemTexts x) (ElementRead x) := by
  cases x with
  | map m =>
    rw [itemTexts, elementTexts, fragmentText]
    · refine (Reads.rfl.ahead _).iff ?_
      rw [ElementRead, patchTexts_eq]
      cases field m "v" <;> simp
    · exact fun _ h => by cases h
  | text s =>
    rw [itemTexts, elementTexts]
    exact Reads.rfl
  | _ => exact Reads.rfl

theorem patchValue_reads (kind : FragmentType) (v : Any F) :
    Reads ((patchValueParts kind v).map ContentPart.text) (valueTexts v) (ValueRead v) := by
  cases v with
  | text s =>
    rw [patchValueParts, valueTexts, ValueRead]
    split_ifs with hs
    · refine (Reads.nothing _).iff ?_
      subst hs
      decide
    · rw [texts_partOf]
      exact Reads.rfl.iff (iff_of_true trivial hs)
  | slice items =>
    rw [patchValueParts, valueTexts, ValueRead, List.map_flatMap, itemsTexts_eq]
    refine Reads.flatMap fun x _ => ?_
    rw [texts_innerParts]
    exact element_reads x
  | map m =>
    rw [patchValueParts, valueTexts, ValueRead]
    · exact Reads.nothing _
    all_goals exact fun _ h => by cases h
  | _ => exact Reads.rfl

/-- One patch, if it does not finish the response. -/
theorem extractItem_reads {kind : FragmentType} {it : Any F} {parts : List ContentPart}
    (h : extractItem kind it = some parts) :
    Reads (parts.map ContentPart.text) (batchTexts it) (PatchRead it) := by
  cases it with
  | map m =>
    rw [extractItem] at h
    rw [batchTexts, PatchRead, itemTexts, patchTexts_eq]
    cases hv : field m "v" with
    | none =>
      rw [hv] at h
      cases h
      refine (Reads.nothing _).iff ?_
      simp [textOf]
    | some v =>
      rw [hv] at h
      simp only [extractPatch] at h
      by_cases hpath : contentPath (stringAt m "p") = true
      · obtain ⟨hskip, hstatus⟩ : shouldSkipPath (stringAt m "p") = false ∧ isStatusPath (stringAt m "p") = false := by
          simpa [contentPath] using hpath
        simp only [hskip, hstatus, Bool.false_eq_true, if_false] at h
        by_cases hcontent : stringAt m "content" = []
        · simp only [hcontent, ne_eq, not_true_eq_false, if_false] at h
          cases h
          simpa [hpath, hcontent, textOf] using patchValue_reads (patchType (stringAt m "p") kind) v
        · simp only [hcontent, ne_eq, not_false_eq_true, if_true] at h
          cases h
          have hread : Reads [stringAt m "content"] ([stringAt m "content"] ++ valueTexts v)
              (True ∧ valueTexts v = []) := Reads.rfl.ahead _
          simpa [hpath, hcontent, textOf] using hread
      · have hnone : parts = [] := by
          rw [contentPath] at hpath
          split_ifs at h with hstatus hskip
          · cases v with
            | text s =>
              simp only at h
              split_ifs at h
              cases h
              rfl
            | _ =>
              cases h
              rfl
          · cases h
            rfl
          all_goals simp [hstatus, hskip] at hpath
        subst hnone
        refine (Reads.nothing _).iff ?_
        simp [hpath]
  | text s =>
    cases h
    refine (Reads.nothing _).iff ?_
    rw [batchTexts, itemTexts, PatchRead, textOf]
    · split_ifs with hs <;> simp [hs]
    · exact fun _ h => by cases h
  | _ =>
    cases h
    exact Reads.rfl

theorem extractItem_none_iff (kind : FragmentType) (it : Any F) :
    extractItem kind it = none ↔ finishes it = true := by
  cases it with
  | map m =>
    rw [extractItem, finishes]
    cases hv : field m "v" with
    | none => simp
    | some v =>
      cases v with
      | text s =>
        simp only [extractPatch]
        split_ifs <;> simp_all
      | _ =>
        simp only [extractPatch]
        split_ifs <;> simp
  | _ => simp [extractItem, finishes]

theorem extract_none_iff (kind : FragmentType) : ∀ items : List (Any F),
    extractContentRecursive kind items = none ↔ items.any finishes = true
  | [] => by simp [extractContentRecursive]
  | it :: items => by
    rw [extractContentRecursive, List.any_cons, Bool.or_eq_true, ← extractItem_none_iff kind,
      ← extract_none_iff kind]
    cases extractItem kind it <;> simp

theorem extract_reads {kind : FragmentType} : ∀ {items : List (Any F)} {parts : List ContentPart},
    extractContentRecursive kind items = some parts →
    Reads (parts.map ContentPart.text) (items.flatMap batchTexts) (∀ it ∈ items, PatchRead it)
  | [], parts, h => by
    cases h
    exact Reads.rfl.iff (iff_of_true trivial (List.forall_mem_nil _))
  | it :: items, parts, h => by
    rw [extractContentRecursive] at h
    obtain ⟨first, hfirst, h⟩ := Option.bind_eq_some_iff.mp h
    obtain ⟨rest, hrest, rfl⟩ := Option.map_eq_some_iff.mp h
    rw [List.map_append, List.flatMap_cons]
    exact ((extractItem_reads hfirst).append (extract_reads hrest)).iff List.forall_mem_cons.symm

/-! Objects. -/

variable {m : KeyMap (Any F)}

theorem lead_reads (h : leadText m ≠ []) : Reads [leadText m] (ownTexts m)
    ((stringAt m "text" = [] ∨ stringAt m "content" = []) ∧ stringAt m "thinking_content" = []) := by
  rw [leadText] at *
  rw [ownTexts]
  split_ifs at h ⊢ with htext
  · rw [textOf, if_pos htext, List.nil_append, textOf, if_neg h]
    refine (Reads.rfl.ahead _).iff ?_
    simp [htext, textOf]
  · rw [textOf, if_neg htext]
    refine ((Reads.rfl.ahead _).ahead _).iff ?_
    simp [htext, textOf]

theorem wrapped_reads (m : KeyMap (Any F)) :
    Reads ((fragmentsOf (wrapped m)).flatMap fragmentText) (objectTexts m)
      (match field m "response" with
        | some (.map resp) => (ownTexts m = [] ∧ (fragmentsOf m).flatMap fragmentText = []) ∧ ownTexts resp = []
        | _ => ownTexts m = []) := by
  have hown : Reads ((fragmentsOf m).flatMap fragmentText)
      (ownTexts m ++ (fragmentsOf m).flatMap fragmentText ++ []) (ownTexts m = []) := by
    rw [List.append_nil]
    exact ((Reads.nothing _).append Reads.rfl).iff (and_iff_left trivial)
  rw [wrapped, objectTexts]
  cases field m "response" with
  | none => exact hown
  | some v =>
    cases v with
    | map resp =>
      rw [responseTexts, ← List.append_assoc]
      exact ((((Reads.nothing _).ahead _).ahead _).append Reads.rfl).iff (and_iff_left trivial)
    | _ => exact hown

variable {path : Bytes}

theorem object_reads {kind type : FragmentType} {acc : FragmentType × List ContentPart}
    (h : appendChunkValueContent (.map m) kind (type, []) path = some acc) :
    Reads (acc.2.map ContentPart.text) (objectTexts m) (ObjectRead path m) := by
  rw [appendChunkValueContent] at h
  rw [ObjectRead]
  split_ifs at h ⊢ with hlead
  · cases h
    simp only [List.nil_append, texts_partOf, textOf, if_neg hlead.2]
    exact ((lead_reads hlead.2).ahead _).ahead _
  · cases h
    simp only [appendWrappedFragments, texts_foldl, List.map_nil, List.nil_append]
    exact wrapped_reads m

/-! Think tags. -/

/-- A text in which neither pattern finds a tag. -/
def Tagless (s : Bytes) : Prop := thinkClosePattern.find s = none ∧ thinkOpenPattern.find s = none

instance (s : Bytes) : Decidable (Tagless s) := inferInstanceAs (Decidable (_ ∧ _))

variable {s : Bytes}

theorem stripThinkTags_tagless (h : Tagless s) : stripThinkTags s = s := by
  rw [stripThinkTags, Re.replaceAll_of_find_none h.1, Re.replaceAll_of_find_none h.2]

/-- One part: a text without tags stays as it is. -/
theorem split_cons (thinkingDone : Bool) (p : ContentPart) (parts : List ContentPart) :
    ∃ (first : List ContentPart) (next : Bool), (splitThinkingParts thinkingDone (p :: parts)).1 =
      first ++ (splitThinkingParts next parts).1 ∧
      (p.text ≠ [] → Tagless p.text → first.map ContentPart.text = [p.text]) := by
  rw [splitThinkingParts]
  by_cases hplain : p.type ≠ .thinking ∨ thinkingDone = true
  · rw [if_pos hplain]
    refine ⟨_, thinkingDone, rfl, fun hne htag => ?_⟩
    rw [texts_partOf, stripThinkTags_tagless htag, textOf, if_neg hne]
  · rw [if_neg hplain]
    cases hfind : thinkClosePattern.find p.text with
    | none => exact ⟨[p], false, rfl, fun _ _ => rfl⟩
    | some loc =>
      refine ⟨_, true, rfl, fun _ htag => ?_⟩
      rw [htag.1] at hfind
      cases hfind

/-- The texts without tags pass, whatever the parts around them are. -/
theorem split_keeps : ∀ {texts : List Bytes} {parts : List ContentPart} (thinkingDone : Bool),
    (∀ s ∈ texts, s ≠ [] ∧ Tagless s) → texts.Sublist (parts.map ContentPart.text) →
    texts.Sublist ((splitThinkingParts thinkingDone parts).1.map ContentPart.text)
  | texts, [], _, _, h => h
  | texts, p :: parts, done, htexts, h => by
    obtain ⟨first, next, heq, hfirst⟩ := split_cons done p parts
    rw [heq, List.map_append]
    rw [List.map_cons] at h
    cases h with
    | cons _ h => exact (split_keeps next htexts h).trans (List.sublist_append_right _ _)
    | cons_cons _ h =>
      obtain ⟨⟨hne, htag⟩, hrest⟩ := List.forall_mem_cons.mp htexts
      rw [hfirst hne htag]
      exact (split_keeps next hrest h).cons_cons _

theorem split_exact : ∀ {parts : List ContentPart} (thinkingDone : Bool),
    (∀ s ∈ parts.map ContentPart.text, s ≠ [] ∧ Tagless s) →
    (splitThinkingParts thinkingDone parts).1.map ContentPart.text = parts.map ContentPart.text
  | [], _, _ => rfl
  | p :: parts, done, h => by
    obtain ⟨first, next, heq, hfirst⟩ := split_cons done p parts
    obtain ⟨⟨hne, htag⟩, hrest⟩ := List.forall_mem_cons.mp h
    rw [heq, List.map_append, hfirst hne htag, split_exact next hrest]
    rfl

/-! No text is empty. -/

theorem ne_nil_of_textOf {s t : Bytes} (h : s ∈ textOf t) : s ≠ [] := by
  rw [textOf] at h
  split_ifs at h with ht
  · cases h
  · rw [List.mem_singleton.mp h]
    exact ht

theorem ne_nil_of_fragmentText {frag : Any F} (h : s ∈ fragmentText frag) : s ≠ [] := by
  cases frag with
  | map m => exact ne_nil_of_textOf h
  | _ => cases h

theorem ne_nil_of_fragments {frags : List (Any F)} (h : s ∈ frags.flatMap fragmentText) : s ≠ [] := by
  obtain ⟨frag, -, h⟩ := List.mem_flatMap.mp h
  exact ne_nil_of_fragmentText h

theorem ne_nil_of_ownTexts (h : s ∈ ownTexts m) : s ≠ [] := by
  rw [ownTexts, List.mem_append, List.mem_append] at h
  rcases h with (h | h) | h <;> exact ne_nil_of_textOf h

theorem ne_nil_of_objectTexts (h : s ∈ objectTexts m) : s ≠ [] := by
  rw [objectTexts, List.mem_append, List.mem_append] at h
  rcases h with (h | h) | h
  · exact ne_nil_of_ownTexts h
  · exact ne_nil_of_fragments h
  · unfold responseTexts at h
    split at h
    · rcases List.mem_append.mp h with h | h
      · exact ne_nil_of_ownTexts h
      · exact ne_nil_of_fragments h
    · cases h

mutual
theorem ne_nil_of_valueTexts {s : Bytes} : ∀ {v : Any F}, s ∈ valueTexts v → s ≠ []
  | .text t, h => ne_nil_of_textOf (by rwa [valueTexts] at h)
  | .slice items, h => ne_nil_of_itemsTexts (by rwa [valueTexts] at h)
  | .map m, h => ne_nil_of_objectTexts (by rwa [valueTexts] at h)
  | .nil, h => by simp [valueTexts] at h
  | .bool _, h => by simp [valueTexts] at h
  | .float _, h => by simp [valueTexts] at h
  | .other _, h => by simp [valueTexts] at h
theorem ne_nil_of_itemsTexts {s : Bytes} : ∀ {items : List (Any F)}, s ∈ itemsTexts items → s ≠ []
  | [], h => by simp [itemsTexts] at h
  | it :: items, h => by
    rw [itemsTexts, List.mem_append] at h
    rcases h with h | h
    · exact ne_nil_of_itemTexts h
    · exact ne_nil_of_itemsTexts h
theorem ne_nil_of_itemTexts {s : Bytes} : ∀ {it : Any F}, s ∈ itemTexts it → s ≠ []
  | .text t, h => ne_nil_of_textOf (by rwa [itemTexts] at h)
  | .map m, h => by
    rw [itemTexts, List.mem_append] at h
    rcases h with h | h
    · exact ne_nil_of_textOf h
    · split_ifs at h
      · exact ne_nil_of_patchTexts h
      · cases h
  | .slice _, h => by simp [itemTexts] at h
  | .nil, h => by simp [itemTexts] at h
  | .bool _, h => by simp [itemTexts] at h
  | .float _, h => by simp [itemTexts] at h
  | .other _, h => by simp [itemTexts] at h
theorem ne_nil_of_patchTexts {s : Bytes} : ∀ {entries : List (Bytes × Any F)}, s ∈ patchTexts entries → s ≠ []
  | [], h => by simp [patchTexts] at h
  | (key, value) :: entries, h => by
    rw [patchTexts] at h
    split_ifs at h
    · exact ne_nil_of_valueTexts h
    · exact ne_nil_of_patchTexts h
end

theorem ne_nil_of_batchTexts {it : Any F} (h : s ∈ batchTexts it) : s ≠ [] := by
  unfold batchTexts at h
  split at h
  · split_ifs at h
    · cases h
    · exact ne_nil_of_itemTexts h
  · exact ne_nil_of_itemTexts h

variable {chunk : KeyMap (Any F)}

theorem ne_nil_of_carried {v : Any F} (h : s ∈ carried chunk path v) : s ≠ [] := by
  unfold carried at h
  split at h
  · split_ifs at h
    · exact ne_nil_of_fragments h
    · obtain ⟨it, -, h⟩ := List.mem_flatMap.mp h
      exact ne_nil_of_batchTexts h
  · exact ne_nil_of_valueTexts h

/-! Chunks. -/

/-- The texts of the parts a chunk gives for what was collected from its value. -/
def shown : Option (FragmentType × List ContentPart) → List Bytes
  | some acc => (splitThinkingParts false acc.2).1.map ContentPart.text
  | none => []

theorem parse_texts {v : Any F} (hv : field chunk "v" = some v)
    (hpath : contentPath (stringAt chunk "p") = true) (type : FragmentType) :
    (parseSSEChunkForContentDetailed chunk true type).parts.map ContentPart.text =
      shown (collected chunk (stringAt chunk "p") v true type).2 := by
  obtain ⟨hskip, hstatus⟩ :
      shouldSkipPath (stringAt chunk "p") = false ∧ isStatusPath (stringAt chunk "p") = false := by
    simpa [contentPath] using hpath
  have hnone : statusText (stringAt chunk "p") v = none := by
    cases v with
    | text s => rw [statusText, hstatus, if_neg Bool.false_ne_true]
    | _ => rfl
  simp only [parseSSEChunkForContentDetailed, hv, hskip, hnone, Bool.false_eq_true, if_false]
  rcases collected chunk (stringAt chunk "p") v true type with ⟨newType, _ | acc⟩ <;> rfl

theorem Reads.passes {acc : FragmentType × List ContentPart} {all : List Bytes} {C : Prop}
    (h : Reads (acc.2.map ContentPart.text) all C) (hall : ∀ s ∈ all, s ≠ [] ∧ Tagless s) :
    all.Sublist (shown (some acc)) ↔ C := by
  rw [shown, split_exact false fun s hs => hall s (h.sub.subset hs)]
  exact h.sublist_iff

theorem text_kept_iff (F : Type) {path s : Bytes} (hstatus : isStatusPath path = false)
    (hall : ∀ t ∈ textOf s, t ≠ [] ∧ Tagless t) (kind type : FragmentType) :
    (textOf s).Sublist (shown (appendChunkValueContent (.text s : Any F) kind (type, []) path)) ↔
      ¬ (s = lit "FINISHED" ∧ path = []) := by
  rw [appendChunkValueContent, hstatus]
  by_cases hmarker : s = lit "FINISHED" ∧ (path = [] ∨ path = lit "status")
  · rw [if_pos hmarker]
    have hempty : path = [] := hmarker.2.resolve_right fun h => by
      rw [h] at hstatus
      exact absurd hstatus (by decide)
    rw [hmarker.1, hempty]
    decide
  · rw [if_neg hmarker, if_neg Bool.false_ne_true]
    have hread : Reads (((type, [] ++ partOf s kind) : FragmentType × List ContentPart).2.map ContentPart.text)
        (textOf s) True := by
      rw [List.nil_append, texts_partOf]
      exact Reads.rfl
    refine (hread.passes hall).trans (iff_of_true trivial ?_)
    exact fun h => hmarker ⟨h.1, Or.inl h.2⟩

/-- A batch of patches, after the fragments it appends if it does. -/
theorem batch_kept_iff {items : List (Any F)}
    (hall : ∀ s ∈ carried chunk path (.slice items), s ≠ [] ∧ Tagless s) (kind newType type : FragmentType) :
    (carried chunk path (.slice items)).Sublist (shown (appendChunkValueContent (.slice items) kind
      (newType, (collectDirectFragments path chunk (.slice items) type).2) path)) ↔
      ValueKept chunk path (.slice items) := by
  rw [appendChunkValueContent, ValueKept]
  cases hextract : extractContentRecursive kind items with
  | none =>
    rw [if_pos ((extract_none_iff kind items).mp hextract)]
    exact List.sublist_nil
  | some parts =>
    have hgoes : ¬ items.any finishes = true := by
      rw [← extract_none_iff kind, hextract]
      exact Option.some_ne_none parts
    rw [if_neg hgoes, Option.map_some]
    rw [carried] at hall ⊢
    rw [collectDirectFragments]
    by_cases happend : appendsFragments path chunk = true
    · rw [if_pos happend] at hall ⊢
      rw [if_pos happend]
      refine iff_of_true (split_keeps false hall ?_) (Or.inl happend)
      rw [List.map_append, texts_foldl]
      exact List.sublist_append_left _ _
    · rw [if_neg happend] at hall ⊢
      rw [if_neg happend]
      refine (Reads.passes (extract_reads hextract) hall).trans ?_
      simp [happend]

theorem value_kept_iff {v : Any F} (hpath : contentPath path = true)
    (hall : ∀ s ∈ carried chunk path v, s ≠ [] ∧ Tagless s) (type : FragmentType) :
    (carried chunk path v).Sublist (shown (collected chunk path v true type).2) ↔ ValueKept chunk path v := by
  cases v with
  | text s =>
    have hstatus : isStatusPath path = false := by
      rw [contentPath, Bool.and_eq_true, Bool.not_eq_true', Bool.not_eq_true'] at hpath
      exact hpath.2
    rw [carried, valueTexts] at *
    · exact text_kept_iff F hstatus hall _ _
    all_goals exact fun _ h => by cases h
  | slice items => exact batch_kept_iff hall _ _ _
  | map m =>
    rw [carried, valueTexts] at *
    · obtain ⟨acc, hacc⟩ : ∃ acc, (collected chunk path (.map m) true type).2 = some acc := by
        simp only [collected, appendChunkValueContent]
        split_ifs <;> exact ⟨_, rfl⟩
      rw [hacc]
      exact (object_reads hacc).passes hall
    all_goals exact fun _ h => by cases h
  | _ => exact iff_of_true (List.nil_sublist _) trivial

/-- With the thinking shown, the texts a chunk carries are in its parts, in order, exactly when the chunk
    is kept. -/
theorem content_kept_iff (chunk : KeyMap (Any F)) (currentFragmentType : FragmentType)
    (htags : ∀ s ∈ chunkTexts chunk, Tagless s) :
    (chunkTexts chunk).Sublist
        ((parseSSEChunkForContentDetailed chunk true currentFragmentType).parts.map ContentPart.text) ↔
      Kept chunk := by
  rw [Kept]
  by_cases hpath : contentPath (stringAt chunk "p") = true
  · cases hv : field chunk "v" with
    | none =>
      have hnone : chunkTexts chunk = [] := by
        rw [chunkTexts, if_pos hpath, hv]
        rfl
      rw [hnone]
      exact iff_of_true (List.nil_sublist _) fun _ v hmem => by cases hmem
    | some v =>
      have hsome : chunkTexts chunk = carried chunk (stringAt chunk "p") v := by
        rw [chunkTexts, if_pos hpath, hv]
        rfl
      rw [hsome] at htags ⊢
      rw [parse_texts hv hpath, value_kept_iff hpath fun s hs => ⟨ne_nil_of_carried hs, htags s hs⟩]
      simp [hpath]
  · have hnone : chunkTexts chunk = [] := by rw [chunkTexts, if_neg hpath]
    rw [hnone]
    exact iff_of_true (List.nil_sublist _) fun h => absurd h hpath

def patch (path value : String) : Any Int := .map [(lit "p", .text (lit path)), (lit "v", .text (lit value))]

/-- A batch on the response: a last piece of text, and the status. -/
def lastBatch (status : String) : KeyMap (Any Int) :=
  [(lit "o", .text (lit "BATCH")), (lit "p", .text (lit "response")),
    (lit "v", .slice [patch "fragments/-1/content" "bye", patch "status" status])]

theorem lastBatch_tagless (status : String) (h : batchTexts (patch "status" status) = []) :
    ∀ s ∈ chunkTexts (lastBatch status), Tagless s := by
  have htexts : chunkTexts (lastBatch status) = [lit "bye"] ++ batchTexts (patch "status" status) ++ [] := rfl
  rw [htexts, h]
  decide +kernel

theorem content_of_unfinished_batch : (chunkTexts (lastBatch "WIP")).Sublist
    ((parseSSEChunkForContentDetailed (lastBatch "WIP") true .text).parts.map ContentPart.text) ∧
    Kept (lastBatch "WIP") := by
  have hiff := content_kept_iff (lastBatch "WIP") .text (lastBatch_tagless "WIP" (by decide +kernel))
  have hkept : (chunkTexts (lastBatch "WIP")).Sublist
      ((parseSSEChunkForContentDetailed (lastBatch "WIP") true .text).parts.map ContentPart.text) := by
    decide +kernel
  exact ⟨hkept, hiff.mp hkept⟩

theorem finished_batch_loses_text : (∀ s ∈ chunkTexts (lastBatch "FINISHED"), Tagless s) ∧
    ¬ (chunkTexts (lastBatch "FINISHED")).Sublist
      ((parseSSEChunkForContentDetailed (lastBatch "FINISHED") true .text).parts.map ContentPart.text) :=
  ⟨lastBatch_tagless "FINISHED" (by decide +kernel), by decide +kernel⟩

end DeepSeekWebToApi.Sse
