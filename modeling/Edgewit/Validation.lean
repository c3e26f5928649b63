import Edgewit.Schema

/-!
# Document validation

`validate_and_process_document`: the schema mode decides what becomes of unmapped
keys, then every declared field is checked and missing ones get their default.

`Conforms` says in its own terms when a document passes unchanged:
`validate_eq_self_iff`.
-/

namespace Edgewit

inductive IngestionValidationError where
  | notAnObject
  | unknownField (name : String)
  | missingRequiredField (name : String)
  | typeMismatch (field : String) (expectedType : FieldType)
  deriving DecidableEq, Repr

def IngestionValidationError.text : IngestionValidationError → String
  | .notAnObject => "document must be a json object"
  | .unknownField name => "unknown field '" ++ name ++ "' is not allowed in strict mode"
  | .missingRequiredField name => "missing required field '" ++ name ++ "'"
  | .typeMismatch field expectedType =>
    "type mismatch for field '" ++ field ++ "': expected " ++ expectedType.debug

/-- The JSON values a field type takes. -/
def FieldType.accepts (fieldType : FieldType) (val : Json) : Bool :=
  match fieldType with
  | .text | .keyword => val.isString
  | .integer => val.isI64 || val.isU64
  | .float => val.isNumber
  | .boolean => val.isBoolean
  | .datetime => val.isString || val.isNumber
  | .bytes => val.isString || val.isArray

open IngestionValidationError

namespace IndexDefinition

/-- A key the schema mode has a say about. -/
def Unmapped (definition : IndexDefinition) (key : String) : Prop :=
  key ∉ definition.fields ∧ key ≠ "_source"

instance (definition : IndexDefinition) (key : String) : Decidable (definition.Unmapped key) :=
  inferInstanceAs (Decidable (_ ∧ _))

/-- The loop over the keys of the document: the first unmapped key ends it in strict
mode, the others are collected for removal in drop mode. -/
def keysToRemove (definition : IndexDefinition) :
    List String → Except IngestionValidationError (List String)
  | [] => .ok []
  | key :: keys =>
    if definition.Unmapped key then
      match definition.mode with
      | .strict => .error (unknownField key)
      | .dropUnmapped => (definition.keysToRemove keys).map (key :: ·)
      | .dynamic => definition.keysToRemove keys
    else definition.keysToRemove keys

end IndexDefinition

/-- One turn of the loop over the declared fields. -/
def processField (obj : JsonMap) (name : String) (field : FieldDefinition) :
    Except IngestionValidationError JsonMap :=
  match obj.get? name with
  | some val =>
    if val.isNull then
      if field.optional then .ok obj else .error (missingRequiredField name)
    else if field.fieldType.accepts val then .ok obj
    else .error (typeMismatch name field.fieldType)
  | none =>
    match field.default with
    | some val => .ok (obj.insert name val)
    | none => if field.optional then .ok obj else .error (missingRequiredField name)

def processFields : JsonMap → List ((_ : String) × FieldDefinition) →
    Except IngestionValidationError JsonMap
  | obj, [] => .ok obj
  | obj, ⟨name, field⟩ :: rest =>
    match processField obj name field with
    | .error e => .error e
    | .ok obj => processFields obj rest

def validateAndProcessDocument (definition : IndexDefinition) (document : Json) :
    Except IngestionValidationError Json :=
  match document with
  | .object obj =>
    match definition.keysToRemove (obj.map Prod.fst) with
    | .error e => .error e
    | .ok keys =>
      match processFields (keys.foldl JsonMap.remove obj) definition.fields.entries with
      | .error e => .error e
      | .ok obj => .ok (.object obj)
  | _ => .error notAnObject

/-! ## Conforming documents -/

/-- What a document holds under the key of a field, if it needs no repair. -/
def FieldDefinition.Fits (field : FieldDefinition) : Option Json → Prop
  | none => field.default.isNone ∧ field.optional
  | some val => if val.isNull then field.optional else field.fieldType.accepts val

instance (field : FieldDefinition) (val : Option Json) : Decidable (field.Fits val) := by
  unfold FieldDefinition.Fits
  split <;> infer_instance

/-- A document that its definition leaves as it is: outside dynamic mode every key is
mapped, and every declared field has a value of its type, or is optional and null or
left out with no default to put in. -/
structure Conforms (definition : IndexDefinition) (obj : JsonMap) : Prop where
  mapped : definition.mode ≠ .dynamic → ∀ m ∈ obj, ¬ definition.Unmapped m.1
  fields : ∀ e ∈ definition.fields.entries, e.2.Fits (obj.get? e.1)

instance (definition : IndexDefinition) (obj : JsonMap) : Decidable (Conforms definition obj) :=
  decidable_of_iff ((definition.mode ≠ .dynamic → ∀ m ∈ obj, ¬ definition.Unmapped m.1) ∧
    ∀ e ∈ definition.fields.entries, e.2.Fits (obj.get? e.1))
    ⟨fun h => ⟨h.1, h.2⟩, fun h => ⟨h.mapped, h.fields⟩⟩

/-- A field is left alone, refused, or filled in. -/
theorem processField_cases (obj : JsonMap) (name : String) (field : FieldDefinition) :
    (field.Fits (obj.get? name) ∧ processField obj name field = .ok obj) ∨
    (¬ field.Fits (obj.get? name) ∧ ∃ e, processField obj name field = .error e) ∨
    (¬ field.Fits (obj.get? name) ∧ obj.get? name = none ∧
      ∃ val, processField obj name field = .ok (obj.insert name val)) := by
  unfold processField FieldDefinition.Fits
  cases obj.get? name with
  | none =>
    cases field.default with
    | none =>
      by_cases hopt : field.optional
      · simp [hopt]
      · simp [hopt]
    | some val =>
      right
      right
      exact ⟨by simp, rfl, val, rfl⟩
  | some val =>
    by_cases hnull : val.isNull
    · by_cases hopt : field.optional <;> simp [hnull, hopt]
    · by_cases hacc : field.fieldType.accepts val <;> simp [hnull, hacc]

/-- No member is lost or changed by the checks. -/
theorem processFields_get? {obj obj' : JsonMap} {es : List ((_ : String) × FieldDefinition)}
    (h : processFields obj es = .ok obj') {key : String} {val : Json}
    (hkey : obj.get? key = some val) : obj'.get? key = some val := by
  induction es generalizing obj with
  | nil => cases h; exact hkey
  | cons e rest ih =>
    simp only [processFields] at h
    rcases processField_cases obj e.1 e.2 with ⟨-, heq⟩ | ⟨-, err, heq⟩ | ⟨-, hnone, v, heq⟩
    · rw [heq] at h
      exact ih h hkey
    · rw [heq] at h
      cases h
    · rw [heq] at h
      apply ih h
      rw [JsonMap.get?_insert, if_neg, hkey]
      rintro rfl
      rw [hkey] at hnone
      cases hnone

theorem processFields_eq_self_iff (obj : JsonMap) (es : List ((_ : String) × FieldDefinition)) :
    processFields obj es = .ok obj ↔ ∀ e ∈ es, e.2.Fits (obj.get? e.1) := by
  induction es with
  | nil => simp [processFields]
  | cons e rest ih =>
    simp only [List.forall_mem_cons, processFields]
    rcases processField_cases obj e.1 e.2 with ⟨hfits, heq⟩ | ⟨hbad, err, heq⟩ | ⟨hbad, hnone, val, heq⟩
    · rw [heq]
      simp only [hfits, true_and]
      exact ih
    · rw [heq]
      simp [hbad]
    · rw [heq]
      simp only [hbad, false_and, iff_false]
      intro h
      -- The filled-in field would have to be in the document already.
      have hval := processFields_get? h (by rw [JsonMap.get?_insert, if_pos rfl])
      rw [hnone] at hval
      cases hval

theorem keysToRemove_dynamic {definition : IndexDefinition} (h : definition.mode = .dynamic)
    (keys : List String) : definition.keysToRemove keys = .ok [] := by
  induction keys with
  | nil => rfl
  | cons key keys ih =>
    simp only [IndexDefinition.keysToRemove, h, ih]
    split <;> rfl

theorem keysToRemove_mapped {definition : IndexDefinition} {keys : List String}
    (h : ∀ key ∈ keys, ¬ definition.Unmapped key) : definition.keysToRemove keys = .ok [] := by
  induction keys with
  | nil => rfl
  | cons key keys ih =>
    rw [List.forall_mem_cons] at h
    rw [IndexDefinition.keysToRemove, if_neg h.1]
    exact ih h.2

/-- Outside dynamic mode every unmapped key is found. -/
theorem mem_keysToRemove {definition : IndexDefinition} (hmode : definition.mode ≠ .dynamic)
    {keys drop : List String} (h : definition.keysToRemove keys = .ok drop) {key : String}
    (hkey : key ∈ keys) (hun : definition.Unmapped key) : key ∈ drop := by
  induction keys generalizing drop with
  | nil => cases hkey
  | cons k keys ih =>
    rw [IndexDefinition.keysToRemove] at h
    rw [List.mem_cons] at hkey
    by_cases hk : definition.Unmapped k
    · rw [if_pos hk] at h
      cases hm : definition.mode with
      | strict => rw [hm] at h; cases h
      | dynamic => exact absurd hm hmode
      | dropUnmapped =>
        rw [hm] at h
        cases hrest : definition.keysToRemove keys with
        | error e => rw [hrest] at h; cases h
        | ok rest =>
          rw [hrest] at h
          cases h
          rcases hkey with rfl | hkey
          · exact List.mem_cons_self
          · exact List.mem_cons_of_mem _ (ih hrest hkey)
    · rw [if_neg hk] at h
      rcases hkey with rfl | hkey
      · exact absurd hun hk
      · exact ih h hkey

theorem mem_removeAll {keys : List String} {obj : JsonMap} {m : String × Json} :
    m ∈ keys.foldl JsonMap.remove obj ↔ m ∈ obj ∧ m.1 ∉ keys := by
  induction keys generalizing obj with
  | nil => simp
  | cons key keys ih =>
    simp only [List.foldl_cons, ih, JsonMap.remove, List.mem_filter, decide_eq_true_eq,
      List.mem_cons, not_or]
    tauto

/-- Filling in a default adds a member, so a document with a removed key does not
come back. -/
theorem processFields_keys {obj obj' : JsonMap} {es : List ((_ : String) × FieldDefinition)}
    (h : processFields obj es = .ok obj') {key : String} (hkey : obj.get? key = none)
    (hfresh : ∀ e ∈ es, e.1 ≠ key) : obj'.get? key = none := by
  induction es generalizing obj with
  | nil => cases h; exact hkey
  | cons e rest ih =>
    rw [List.forall_mem_cons] at hfresh
    simp only [processFields] at h
    rcases processField_cases obj e.1 e.2 with ⟨-, heq⟩ | ⟨-, err, heq⟩ | ⟨-, -, v, heq⟩
    · rw [heq] at h
      exact ih h hkey hfresh.2
    · rw [heq] at h
      cases h
    · rw [heq] at h
      apply ih h _ hfresh.2
      rw [JsonMap.get?_insert, if_neg (Ne.symm hfresh.1), hkey]

theorem get?_eq_none_iff {obj : JsonMap} {key : String} :
    obj.get? key = none ↔ ∀ m ∈ obj, m.1 ≠ key := by
  induction obj with
  | nil => simp
  | cons m rest ih =>
    obtain ⟨k, v⟩ := m
    rw [JsonMap.get?_cons, List.forall_mem_cons, ← ih]
    by_cases h : key = k
    · simp [h]
    · simp [h, Ne.symm h]

/-- **A document passes unchanged exactly when it conforms.** -/
theorem validate_eq_self_iff (definition : IndexDefinition) (obj : JsonMap) :
    validateAndProcessDocument definition (.object obj) = .ok (.object obj) ↔
      Conforms definition obj := by
  constructor
  · intro h
    simp only [validateAndProcessDocument] at h
    cases hkeys : definition.keysToRemove (obj.map Prod.fst) with
    | error e => rw [hkeys] at h; cases h
    | ok keys =>
      rw [hkeys] at h
      simp only at h
      cases hfields : processFields (keys.foldl JsonMap.remove obj) definition.fields.entries with
      | error e => rw [hfields] at h; cases h
      | ok obj' =>
        rw [hfields] at h
        obtain rfl : obj' = obj := by simpa using h
        have hmapped : definition.mode ≠ .dynamic → ∀ m ∈ obj', ¬ definition.Unmapped m.1 := by
          intro hmode m hm hun
          have hdrop := mem_keysToRemove hmode hkeys (List.mem_map.mpr ⟨m, hm, rfl⟩) hun
          have hgone : JsonMap.get? (keys.foldl JsonMap.remove obj') m.1 = none := by
            rw [get?_eq_none_iff]
            intro x hx heq
            exact (mem_removeAll.mp hx).2 (heq ▸ hdrop)
          have hstill := processFields_keys hfields hgone fun e he heq =>
            hun.1 (AList.mem_keys.mpr (List.mem_map.mpr ⟨e, he, heq⟩))
          exact get?_eq_none_iff.mp hstill m hm rfl
        have hkept : keys.foldl JsonMap.remove obj' = obj' := by
          by_cases hmode : definition.mode = .dynamic
          · rw [keysToRemove_dynamic hmode] at hkeys
            cases hkeys
            rfl
          · rw [keysToRemove_mapped (by simpa using hmapped hmode)] at hkeys
            cases hkeys
            rfl
        rw [hkept] at hfields
        exact ⟨hmapped, (processFields_eq_self_iff _ _).mp hfields⟩
  · intro h
    have hkeys : definition.keysToRemove (obj.map Prod.fst) = .ok [] := by
      by_cases hmode : definition.mode = .dynamic
      · exact keysToRemove_dynamic hmode _
      · exact keysToRemove_mapped (by simpa using h.mapped hmode)
    simp [validateAndProcessDocument, hkeys, (processFields_eq_self_iff _ _).mpr h.fields]

end Edgewit
