import DeepSeekWebToApi.Toolcall.Parse

/- Fitting the inputs of calls to the schemas of their tools
   (`toolcalls_schema_normalize.go`). Values where a schema wants a string become
   their JSON text; everything else keeps its shape, and a second run finds nothing left to do
   (`schema_normalisation_stable`). -/
namespace DeepSeekWebToApi.Toolcall
open GoStrings

def asStringValue : Option Value → Bytes
  | some (.str s) => s
  | _ => []

/-- A field that is there and not null. -/
def Obj.nonNil (m : Obj) (key : Bytes) : Option Value :=
  match m.get key with
  | some .null => none
  | v => v

/-- The schema under the first of the names that are in use. -/
def schemaField (m : Obj) : Option Value :=
  [lit "parameters", lit "input_schema", lit "inputSchema", lit "schema"].findSome? m.nonNil

/-- `ExtractToolMeta` without the description: the name and the schema of a tool. -/
def extractToolMeta (tool : Obj) : Bytes × Option Value :=
  let name := trimSpace (asStringValue (tool.get (lit "name")))
  match tool.get (lit "function") with
  | some (.obj fn) =>
    (if name = [] then trimSpace (asStringValue (Obj.get fn (lit "name"))) else name,
      (schemaField tool).or (schemaField fn))
  | _ => (name, schemaField tool)

def addToolSchema (out : Obj) : Value → Obj
  | .obj tool =>
    match extractToolMeta tool with
    | (name, some schema) => if name = [] then out else out.set (toLower name) schema
    | (_, none) => out
  | _ => out

def buildToolSchemaIndex : Value → Obj
  | .arr tools => tools.foldl addToolSchema []
  | _ => []

/-! What a schema asks for. -/

def isStr : Value → Bool
  | .str _ => true
  | _ => false

/-- The lower-case name of a type. -/
def typeName : Value → Option Bytes
  | .str typ => some (toLower (trimSpace typ))
  | _ => none

def isOnlyStringLikeTypes (values : List Value) : Bool :=
  values.all (fun v => typeName v == some (lit "string") || typeName v == some (lit "null")) &&
    values.any (fun v => typeName v == some (lit "string"))

def shouldCoerceSchemaToString (schema : Obj) : Bool :=
  (schema.get (lit "const")).any isStr ||
    (match schema.get (lit "enum") with
      | some (.arr values) => !values.isEmpty && values.all isStr
      | _ => false) ||
    (match schema.get (lit "type") with
      | some (.str typ) => equalFold (trimSpace typ) (lit "string")
      | some (.arr types) => isOnlyStringLikeTypes types
      | _ => false)

/-- Whether the field `type` names the given type. -/
def hasType (schema : Obj) (name : Bytes) : Bool :=
  match schema.get (lit "type") with
  | some (.str typ) => equalFold (trimSpace typ) name
  | _ => false

def isObj : Value → Bool
  | .obj _ => true
  | _ => false

def looksLikeObjectSchema (schema : Obj) : Bool :=
  hasType schema (lit "object") || (schema.get (lit "properties")).any isObj ||
    (schema.get (lit "additionalProperties")).isSome

def looksLikeArraySchema (schema : Obj) : Bool :=
  hasType schema (lit "array") || (schema.get (lit "items")).isSome

/-- What `normalizeToolValueWithSchema` does for a schema: nothing, a string, the fields with
    their schemas, or the items, all with one schema or each with its own. -/
inductive SchemaKind where
  | other
  | string
  | object (properties : Obj) (additional : Option Value)
  | array (schema : Value)
  | tuple (schemas : List Value)

def schemaKind : Value → SchemaKind
  | .obj [] => .other
  | .obj schema =>
    if shouldCoerceSchemaToString schema then .string
    else if looksLikeObjectSchema schema then
      .object (objectField schema (lit "properties")) (Obj.nonNil schema (lit "additionalProperties"))
    else if looksLikeArraySchema schema then
      match Obj.nonNil schema (lit "items") with
      | none => .other
      | some (.arr schemas) => .tuple schemas
      | some items => .array items
    else .other
  | _ => .other

/-! Normalising. The flag says whether anything changed. -/

def stringifySchemaValue (std : GoStd) : Value → Value × Bool
  | .null => (.null, false)
  | .str s => (.str s, false)
  | value => (.str (std.marshal value), true)

/-- A changed value, or the one before. -/
def keepUnless (before : Value) (after : Value × Bool) : Value × Bool :=
  if after.2 then after else (before, false)

mutual
def normalizeToolValueWithSchema (std : GoStd) (schema : Value) : Value → Value × Bool
  | .null => (.null, false)
  | .obj fields =>
    match schemaKind schema with
    | .string => stringifySchemaValue std (.obj fields)
    | .object properties additional =>
      let out := normalizeFields std properties additional fields
      keepUnless (.obj fields) (.obj out.1, out.2)
    | _ => (.obj fields, false)
  | .arr items =>
    match schemaKind schema with
    | .string => stringifySchemaValue std (.arr items)
    | .array itemSchema =>
      let out := normalizeItems std itemSchema items
      keepUnless (.arr items) (.arr out.1, out.2)
    | .tuple schemas =>
      let out := normalizeTuple std schemas items
      keepUnless (.arr items) (.arr out.1, out.2)
    | _ => (.arr items, false)
  | value =>
    match schemaKind schema with
    | .string => stringifySchemaValue std value
    | _ => (value, false)

def normalizeFields (std : GoStd) (properties : Obj) (additional : Option Value) :
    List (Bytes × Value) → List (Bytes × Value) × Bool
  | [] => ([], false)
  | (key, current) :: fields =>
    let next :=
      match properties.get key, additional with
      | some propSchema, _ => normalizeToolValueWithSchema std propSchema current
      | none, some schema => normalizeToolValueWithSchema std schema current
      | none, none => (current, false)
    let rest := normalizeFields std properties additional fields
    ((key, next.1) :: rest.1, next.2 || rest.2)

def normalizeItems (std : GoStd) (schema : Value) : List Value → List Value × Bool
  | [] => ([], false)
  | item :: items =>
    let next := normalizeToolValueWithSchema std schema item
    let rest := normalizeItems std schema items
    (next.1 :: rest.1, next.2 || rest.2)

def normalizeTuple (std : GoStd) (schemas : List Value) : List Value → List Value × Bool
  | [] => ([], false)
  | item :: items =>
    let next :=
      match schemas.head? with
      | some schema => normalizeToolValueWithSchema std schema item
      | none => (item, false)
    let rest := normalizeTuple std schemas.tail items
    (next.1 :: rest.1, next.2 || rest.2)
end

/-! The shape of a normalised value. -/

mutual
/-- The second value has the keys of every object and the length of every array of the first, but
    for what became its JSON text. -/
inductive KeepsShape (std : GoStd) : Value → Value → Prop
  | same (value : Value) : KeepsShape std value value
  | text (value : Value) (h : value ≠ .null ∧ isStr value = false) : KeepsShape std value (.str (std.marshal value))
  | obj {fields fields' : List (Bytes × Value)} (h : KeepsFields std fields fields') :
      KeepsShape std (.obj fields) (.obj fields')
  | arr {items items' : List Value} (h : KeepsItems std items items') : KeepsShape std (.arr items) (.arr items')

inductive KeepsFields (std : GoStd) : List (Bytes × Value) → List (Bytes × Value) → Prop
  | nil : KeepsFields std [] []
  | cons (key : Bytes) {value value' : Value} {fields fields' : List (Bytes × Value)} (h : KeepsShape std value value')
      (hs : KeepsFields std fields fields') : KeepsFields std ((key, value) :: fields) ((key, value') :: fields')

inductive KeepsItems (std : GoStd) : List Value → List Value → Prop
  | nil : KeepsItems std [] []
  | cons {item item' : Value} {items items' : List Value} (h : KeepsShape std item item')
      (hs : KeepsItems std items items') : KeepsItems std (item :: items) (item' :: items')
end

theorem stringifySchemaValue_keeps (std : GoStd) (value : Value) :
    KeepsShape std value (stringifySchemaValue std value).1 := by
  cases value with
  | null => exact .same _
  | str s => exact .same _
  | bool b => exact .text _ ⟨by simp, rfl⟩
  | num text => exact .text _ ⟨by simp, rfl⟩
  | arr items => exact .text _ ⟨by simp, rfl⟩
  | obj fields => exact .text _ ⟨by simp, rfl⟩

theorem KeepsShape.keepUnless {std : GoStd} {before : Value} {after : Value × Bool} (h : KeepsShape std before after.1) :
    KeepsShape std before (keepUnless before after).1 := by
  unfold Toolcall.keepUnless
  split
  · exact h
  · exact .same before

/-- A value under the schema for it, if there is one. -/
def normalizeUnder (std : GoStd) (schema : Option Value) (value : Value) : Value × Bool :=
  match schema with
  | some schema => normalizeToolValueWithSchema std schema value
  | none => (value, false)

/-- A field goes by the schema of its property, or else by that of additional ones. -/
theorem normalizeFields_cons (std : GoStd) (properties : Obj) (additional : Option Value) (key : Bytes)
    (current : Value) (fields : List (Bytes × Value)) :
    normalizeFields std properties additional ((key, current) :: fields) =
      ((key, (normalizeUnder std ((properties.get key).or additional) current).1) ::
          (normalizeFields std properties additional fields).1,
        (normalizeUnder std ((properties.get key).or additional) current).2 ||
          (normalizeFields std properties additional fields).2) := by
  conv_lhs => unfold normalizeFields
  cases properties.get key with
  | some propSchema => rfl
  | none => cases additional <;> rfl

theorem normalizeTuple_cons (std : GoStd) (schemas : List Value) (item : Value) (items : List Value) :
    normalizeTuple std schemas (item :: items) =
      ((normalizeUnder std schemas.head? item).1 :: (normalizeTuple std schemas.tail items).1,
        (normalizeUnder std schemas.head? item).2 || (normalizeTuple std schemas.tail items).2) := by
  conv_lhs => unfold normalizeTuple
  cases schemas.head? <;> rfl

mutual
theorem normalizeToolValueWithSchema_keeps (std : GoStd) (schema : Value) : ∀ value,
    KeepsShape std value (normalizeToolValueWithSchema std schema value).1
  | .null => by
    unfold normalizeToolValueWithSchema
    exact .same _
  | .obj fields => by
    unfold normalizeToolValueWithSchema
    split
    · exact stringifySchemaValue_keeps std _
    · next properties additional _ =>
      exact KeepsShape.keepUnless (.obj (normalizeFields_keeps std properties additional fields))
    · exact .same _
  | .arr items => by
    unfold normalizeToolValueWithSchema
    split
    · exact stringifySchemaValue_keeps std _
    · next itemSchema _ => exact KeepsShape.keepUnless (.arr (normalizeItems_keeps std itemSchema items))
    · next schemas _ => exact KeepsShape.keepUnless (.arr (normalizeTuple_keeps std schemas items))
    · exact .same _
  | .bool b => by
    unfold normalizeToolValueWithSchema
    split
    · exact stringifySchemaValue_keeps std _
    · exact .same _
  | .num text => by
    unfold normalizeToolValueWithSchema
    split
    · exact stringifySchemaValue_keeps std _
    · exact .same _
  | .str s => by
    unfold normalizeToolValueWithSchema
    split
    · exact stringifySchemaValue_keeps std _
    · exact .same _

theorem normalizeFields_keeps (std : GoStd) (properties : Obj) (additional : Option Value) : ∀ fields,
    KeepsFields std fields (normalizeFields std properties additional fields).1
  | [] => by
    unfold normalizeFields
    exact .nil
  | (key, current) :: fields => by
    rw [normalizeFields_cons]
    refine .cons key ?_ (normalizeFields_keeps std properties additional fields)
    cases (properties.get key).or additional with
    | some schema => exact normalizeToolValueWithSchema_keeps std schema current
    | none => exact .same _

theorem normalizeItems_keeps (std : GoStd) (schema : Value) : ∀ items,
    KeepsItems std items (normalizeItems std schema items).1
  | [] => by
    unfold normalizeItems
    exact .nil
  | item :: items => by
    unfold normalizeItems
    exact .cons (normalizeToolValueWithSchema_keeps std schema item) (normalizeItems_keeps std schema items)

theorem normalizeTuple_keeps (std : GoStd) (schemas : List Value) : ∀ items,
    KeepsItems std items (normalizeTuple std schemas items).1
  | [] => by
    unfold normalizeTuple
    exact .nil
  | item :: items => by
    rw [normalizeTuple_cons]
    refine .cons ?_ (normalizeTuple_keeps std schemas.tail items)
    cases schemas.head? with
    | some schema => exact normalizeToolValueWithSchema_keeps std schema item
    | none => exact .same _
end

/-! Normalising again. -/

/-- A string is left alone, whatever the schema asks for. -/
theorem normalizeToolValueWithSchema_str (std : GoStd) (schema : Value) (s : Bytes) :
    normalizeToolValueWithSchema std schema (.str s) = (.str s, false) := by
  unfold normalizeToolValueWithSchema
  split
  · rfl
  · rfl

/-- Where the schema asks for a string, the value is turned into one. -/
theorem normalizeToolValueWithSchema_string (std : GoStd) {schema : Value} (h : schemaKind schema = .string)
    (value : Value) : normalizeToolValueWithSchema std schema value = stringifySchemaValue std value := by
  cases value with
  | null =>
    unfold normalizeToolValueWithSchema
    rfl
  | _ => simp only [normalizeToolValueWithSchema, h]

theorem stringifySchemaValue_settled (std : GoStd) (value : Value) :
    stringifySchemaValue std (stringifySchemaValue std value).1 = ((stringifySchemaValue std value).1, false) := by
  cases value <;> rfl

theorem string_settled (std : GoStd) {schema : Value} (h : schemaKind schema = .string) (value : Value) :
    normalizeToolValueWithSchema std schema (normalizeToolValueWithSchema std schema value).1 =
      ((normalizeToolValueWithSchema std schema value).1, false) := by
  rw [normalizeToolValueWithSchema_string std h, normalizeToolValueWithSchema_string std h]
  exact stringifySchemaValue_settled std value

/-- A container that is normalised again: both runs agree if nothing changed in the first, and the
    second changes nothing if the contents are settled. -/
theorem keepUnless_settled {before : Value} {after again : Value × Bool} {f : Value → Value × Bool}
    (hbefore : f before = keepUnless before after) (hafter : f after.1 = keepUnless after.1 again)
    (hsettled : again.2 = false) : f (keepUnless before after).1 = ((keepUnless before after).1, false) := by
  unfold keepUnless at hbefore hafter ⊢
  rw [if_neg (by rw [hsettled]; exact Bool.false_ne_true)] at hafter
  split at hbefore
  · next hchanged => rw [if_pos hchanged, hafter]
  · next hsame => rw [if_neg hsame, hbefore]

mutual
theorem normalizeToolValueWithSchema_settled (std : GoStd) (schema : Value) : ∀ value,
    normalizeToolValueWithSchema std schema (normalizeToolValueWithSchema std schema value).1 =
      ((normalizeToolValueWithSchema std schema value).1, false)
  | .null => by simp only [normalizeToolValueWithSchema]
  | .obj fields => by
    cases hkind : schemaKind schema with
    | string => exact string_settled std hkind _
    | object properties additional =>
      have h : ∀ fields, normalizeToolValueWithSchema std schema (.obj fields) = keepUnless (.obj fields)
          (.obj (normalizeFields std properties additional fields).1, (normalizeFields std properties additional fields).2) := by
        intro fields
        simp only [normalizeToolValueWithSchema, hkind]
      have hfields := normalizeFields_settled std properties additional fields
      rw [h fields]
      exact keepUnless_settled (h fields) (h _) (congrArg Prod.snd hfields)
    | other => simp only [normalizeToolValueWithSchema, hkind]
    | array itemSchema => simp only [normalizeToolValueWithSchema, hkind]
    | tuple schemas => simp only [normalizeToolValueWithSchema, hkind]
  | .arr items => by
    cases hkind : schemaKind schema with
    | string => exact string_settled std hkind _
    | array itemSchema =>
      have h : ∀ items, normalizeToolValueWithSchema std schema (.arr items) = keepUnless (.arr items)
          (.arr (normalizeItems std itemSchema items).1, (normalizeItems std itemSchema items).2) := by
        intro items
        simp only [normalizeToolValueWithSchema, hkind]
      have hitems := normalizeItems_settled std itemSchema items
      rw [h items]
      exact keepUnless_settled (h items) (h _) (congrArg Prod.snd hitems)
    | tuple schemas =>
      have h : ∀ items, normalizeToolValueWithSchema std schema (.arr items) = keepUnless (.arr items)
          (.arr (normalizeTuple std schemas items).1, (normalizeTuple std schemas items).2) := by
        intro items
        simp only [normalizeToolValueWithSchema, hkind]
      have hitems := normalizeTuple_settled std schemas items
      rw [h items]
      exact keepUnless_settled (h items) (h _) (congrArg Prod.snd hitems)
    | other => simp only [normalizeToolValueWithSchema, hkind]
    | object properties additional => simp only [normalizeToolValueWithSchema, hkind]
  | .bool b => by
    cases hkind : schemaKind schema with
    | string => exact string_settled std hkind _
    | _ => simp only [normalizeToolValueWithSchema, hkind]
  | .num text => by
    cases hkind : schemaKind schema with
    | string => exact string_settled std hkind _
    | _ => simp only [normalizeToolValueWithSchema, hkind]
  | .str s => by rw [normalizeToolValueWithSchema_str, normalizeToolValueWithSchema_str]

theorem normalizeFields_settled (std : GoStd) (properties : Obj) (additional : Option Value) : ∀ fields,
    normalizeFields std properties additional (normalizeFields std properties additional fields).1 =
      ((normalizeFields std properties additional fields).1, false)
  | [] => by simp only [normalizeFields]
  | (key, current) :: fields => by
    have hrest := normalizeFields_settled std properties additional fields
    have hcurrent : normalizeUnder std ((properties.get key).or additional)
        (normalizeUnder std ((properties.get key).or additional) current).1 =
          ((normalizeUnder std ((properties.get key).or additional) current).1, false) := by
      cases (properties.get key).or additional with
      | some schema => exact normalizeToolValueWithSchema_settled std schema current
      | none => rfl
    rw [normalizeFields_cons, normalizeFields_cons, hcurrent, hrest]
    rfl

theorem normalizeItems_settled (std : GoStd) (schema : Value) : ∀ items,
    normalizeItems std schema (normalizeItems std schema items).1 = ((normalizeItems std schema items).1, false)
  | [] => by simp only [normalizeItems]
  | item :: items => by
    have hitem := normalizeToolValueWithSchema_settled std schema item
    have hrest := normalizeItems_settled std schema items
    simp only [normalizeItems, hitem, hrest, Bool.or_false]

theorem normalizeTuple_settled (std : GoStd) (schemas : List Value) : ∀ items,
    normalizeTuple std schemas (normalizeTuple std schemas items).1 = ((normalizeTuple std schemas items).1, false)
  | [] => by simp only [normalizeTuple]
  | item :: items => by
    have hrest := normalizeTuple_settled std schemas.tail items
    have hitem : normalizeUnder std schemas.head? (normalizeUnder std schemas.head? item).1 =
        ((normalizeUnder std schemas.head? item).1, false) := by
      cases schemas.head? with
      | some schema => exact normalizeToolValueWithSchema_settled std schema item
      | none => rfl
    rw [normalizeTuple_cons, normalizeTuple_cons, hitem, hrest]
    rfl
end

/-- Normalising keeps the keys of every object and the length of every array but for what becomes a
    string, and normalising with the same schema again changes nothing. -/
theorem schema_normalisation_stable (std : GoStd) (schema value : Value) :
    KeepsShape std value (normalizeToolValueWithSchema std schema value).1 ∧
    normalizeToolValueWithSchema std schema (normalizeToolValueWithSchema std schema value).1 =
      ((normalizeToolValueWithSchema std schema value).1, false) :=
  ⟨normalizeToolValueWithSchema_keeps std schema value, normalizeToolValueWithSchema_settled std schema value⟩

end DeepSeekWebToApi.Toolcall
