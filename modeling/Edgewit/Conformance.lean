import Edgewit.SchemaValidation
import Edgewit.Validation

/-!
# What validation means

`validate_ok_iff`: which documents are accepted, and what becomes of them, said key by
key and so without any order of the fields. `validate_conforming_iff`: when the document
that comes out has the types its definition declares.
-/

namespace Edgewit

/-! ## The two loops -/

/-- The loop over the keys fails at an unmapped key in strict mode, and otherwise finds the
unmapped keys in drop mode. -/
theorem keysToRemove_eq_ok (definition : IndexDefinition) (keys drop : List String) :
    definition.keysToRemove keys = .ok drop ↔
      (definition.mode = .strict → ∀ key ∈ keys, ¬ definition.Unmapped key) ∧
        drop = if definition.mode = .dropUnmapped then
          keys.filter fun key => definition.Unmapped key else [] := by
  induction keys generalizing drop with
  | nil => simp [IndexDefinition.keysToRemove, eq_comm]
  | cons key keys ih =>
    rw [IndexDefinition.keysToRemove, List.forall_mem_cons, List.filter_cons]
    by_cases hun : definition.Unmapped key
    · cases hmode : definition.mode with
      | strict => simp [hun]
      | dynamic => simpa [hun, hmode] using ih drop
      | dropUnmapped =>
        simp only [hun, if_true, hmode, reduceCtorEq, false_implies, true_and, decide_true] at ih ⊢
        cases hrest : definition.keysToRemove keys with
        | error e =>
          have hnone := ih (keys.filter fun key => definition.Unmapped key)
          simp [hrest] at hnone
        | ok rest =>
          obtain rfl := (ih rest).mp hrest
          simp [Except.map, eq_comm]
    · simp [hun, ih]

/-- What a field takes, present or not. -/
def FieldDefinition.Takes (field : FieldDefinition) : Option Json → Prop
  | some val => if val.isNull then field.optional else field.fieldType.accepts val
  | none => field.default.isSome ∨ field.optional

/-- A field that is missing is filled in with its default. -/
def FieldDefinition.filled (field : FieldDefinition) (val : Option Json) : Option Json :=
  val.or field.default

/-- A turn of the loop over the fields changes nothing but the key of its field. -/
theorem processField_eq_ok {obj obj' : JsonMap} {name : String} {field : FieldDefinition}
    (h : processField obj name field = .ok obj') :
    field.Takes (obj.get? name) ∧ obj'.get? name = field.filled (obj.get? name) ∧
      (∀ key, key ≠ name → obj'.get? key = obj.get? key) ∧ (obj.Sorted → obj'.Sorted) := by
  unfold processField at h
  unfold FieldDefinition.Takes FieldDefinition.filled
  cases hval : obj.get? name with
  | some val =>
    simp only [hval] at h
    by_cases hnull : val.isNull
    · rw [if_pos hnull] at h
      by_cases hopt : field.optional = true
      · rw [if_pos hopt] at h
        cases h
        simp [hnull, hopt, hval]
      · rw [if_neg hopt] at h
        cases h
    · rw [if_neg hnull] at h
      by_cases hacc : field.fieldType.accepts val = true
      · rw [if_pos hacc] at h
        cases h
        simp [hnull, hacc, hval]
      · rw [if_neg hacc] at h
        cases h
  | none =>
    simp only [hval] at h
    cases hdefault : field.default with
    | some val =>
      simp only [hdefault] at h
      cases h
      simp only [Option.isSome_some, true_or, true_and, JsonMap.get?_insert, if_true,
        Option.none_or]
      exact ⟨fun key hkey => if_neg hkey, fun hsorted => hsorted.insert name val⟩
    | none =>
      simp only [hdefault] at h
      by_cases hopt : field.optional = true
      · rw [if_pos hopt] at h
        cases h
        simp [hopt, hval]
      · rw [if_neg hopt] at h
        cases h

theorem processField_takes {obj : JsonMap} {name : String} {field : FieldDefinition}
    (h : field.Takes (obj.get? name)) : ∃ obj', processField obj name field = .ok obj' := by
  unfold processField
  unfold FieldDefinition.Takes at h
  cases hval : obj.get? name with
  | some val =>
    simp only [hval] at h
    by_cases hnull : val.isNull
    · rw [if_pos hnull] at h
      exact ⟨obj, by simp [hnull, h]⟩
    · rw [if_neg hnull] at h
      exact ⟨obj, by simp [hnull, h]⟩
  | none =>
    simp only [hval] at h
    cases hdefault : field.default with
    | some val => exact ⟨obj.insert name val, rfl⟩
    | none =>
      simp only [hdefault, Option.isSome_none, Bool.false_eq_true, false_or] at h
      exact ⟨obj, by simp [h]⟩

theorem fst_ne_of_mem {es : List ((_ : String) × FieldDefinition)} {name : String}
    (h : name ∉ es.keys) {e : (_ : String) × FieldDefinition} (he : e ∈ es) : e.1 ≠ name := by
  rintro rfl
  exact h (List.mem_map.mpr ⟨e, he, rfl⟩)

/-- The loop over the fields, whatever their order: each field looks at its own key only. -/
theorem processFields_eq_ok {obj obj' : JsonMap} {es : List ((_ : String) × FieldDefinition)}
    (hnodup : es.NodupKeys) (h : processFields obj es = .ok obj') :
    (∀ e ∈ es, e.2.Takes (obj.get? e.1) ∧ obj'.get? e.1 = e.2.filled (obj.get? e.1)) ∧
      (∀ key, key ∉ es.keys → obj'.get? key = obj.get? key) ∧ (obj.Sorted → obj'.Sorted) := by
  induction es generalizing obj with
  | nil =>
    cases h
    simp
  | cons e rest ih =>
    obtain ⟨name, field⟩ := e
    rw [List.nodupKeys_cons] at hnodup
    rw [processFields] at h
    cases hfield : processField obj name field with
    | error e =>
      rw [hfield] at h
      cases h
    | ok mid =>
      rw [hfield] at h
      obtain ⟨htakes, hfilled, hothers, hsorted⟩ := processField_eq_ok hfield
      obtain ⟨hall, hkeep, hsorted'⟩ := ih hnodup.2 h
      refine ⟨?_, ?_, hsorted' ∘ hsorted⟩
      · rw [List.forall_mem_cons]
        refine ⟨⟨htakes, (hkeep name hnodup.1).trans hfilled⟩, ?_⟩
        intro e he
        have hne := fst_ne_of_mem hnodup.1 he
        have hown := hall e he
        rwa [hothers e.1 hne] at hown
      · intro key hkey
        rw [List.keys_cons, List.mem_cons, not_or] at hkey
        rw [hkeep key hkey.2, hothers key hkey.1]

theorem processFields_takes {obj : JsonMap} {es : List ((_ : String) × FieldDefinition)}
    (hnodup : es.NodupKeys) (h : ∀ e ∈ es, e.2.Takes (obj.get? e.1)) :
    ∃ obj', processFields obj es = .ok obj' := by
  induction es generalizing obj with
  | nil => exact ⟨obj, rfl⟩
  | cons e rest ih =>
    obtain ⟨name, field⟩ := e
    rw [List.nodupKeys_cons] at hnodup
    rw [List.forall_mem_cons] at h
    obtain ⟨mid, hmid⟩ := processField_takes h.1
    have hrest : ∀ e ∈ rest, e.2.Takes (mid.get? e.1) := by
      intro e he
      have hne := fst_ne_of_mem hnodup.1 he
      rw [(processField_eq_ok hmid).2.2.1 e.1 hne]
      exact h.2 e he
    obtain ⟨obj', hobj'⟩ := ih hnodup.2 hrest
    exact ⟨obj', by rw [processFields, hmid]; exact hobj'⟩

/-! ## The meaning -/

/-- The documents that are accepted. -/
structure Acceptable (definition : IndexDefinition) (obj : JsonMap) : Prop where
  known : definition.mode = .strict → ∀ m ∈ obj, m.1 ≠ "_source" → m.1 ∈ definition.fields
  fields : ∀ name field, definition.fields.lookup name = some field → field.Takes (obj.get? name)

/-- What comes out under a key. -/
def processedAt (definition : IndexDefinition) (obj : JsonMap) (key : String) : Option Json :=
  match definition.fields.lookup key with
  | some field => field.filled (obj.get? key)
  | none => if definition.mode = .dropUnmapped ∧ key ≠ "_source" then none else obj.get? key

/-- An object has its keys in order. -/
def Json.Sorted (document : Json) : Prop := ∀ obj, document = .object obj → JsonMap.Sorted obj

/-- What validation makes of a document. It says of every key on its own what comes of it. -/
structure Processed (definition : IndexDefinition) (document out : Json) (obj kept : JsonMap) :
    Prop where
  input : document = .object obj
  accepted : Acceptable definition obj
  output : out = .object kept
  sorted : kept.Sorted
  holds : ∀ key, kept.get? key = processedAt definition obj key

theorem unmapped_iff {definition : IndexDefinition} {key : String} :
    definition.Unmapped key ↔ definition.fields.lookup key = none ∧ key ≠ "_source" := by
  rw [IndexDefinition.Unmapped, AList.lookup_eq_none]

theorem acceptable_known_iff {definition : IndexDefinition} {obj : JsonMap} :
    (definition.mode = .strict → ∀ key ∈ obj.map Prod.fst, ¬ definition.Unmapped key) ↔
      (definition.mode = .strict → ∀ m ∈ obj, m.1 ≠ "_source" → m.1 ∈ definition.fields) := by
  simp only [List.forall_mem_map, IndexDefinition.Unmapped, not_and, not_not, ne_eq]
  apply imp_congr_right
  intro _
  apply forall₂_congr
  intro m _
  tauto

/-- A mapped key outlives the removal of the unmapped ones. -/
theorem get?_kept {definition : IndexDefinition} {obj : JsonMap} {drop : List String}
    (hdrop : drop = if definition.mode = .dropUnmapped then
      (obj.map Prod.fst).filter fun key => definition.Unmapped key else []) (key : String) :
    JsonMap.get? (drop.foldl JsonMap.remove obj) key =
      if definition.mode = .dropUnmapped ∧ definition.Unmapped key then none else obj.get? key := by
  rw [JsonMap.get?_removeAll, hdrop]
  by_cases hmode : definition.mode = .dropUnmapped
  · rw [if_pos hmode]
    by_cases hun : definition.Unmapped key
    · rw [if_pos (And.intro hmode hun)]
      by_cases hmem : key ∈ obj.map Prod.fst
      · rw [if_pos (List.mem_filter.mpr ⟨hmem, decide_eq_true hun⟩)]
      · rw [if_neg fun h => hmem (List.mem_filter.mp h).1, get?_eq_none_iff]
        exact fun m hm heq => hmem (List.mem_map.mpr ⟨m, hm, heq⟩)
    · simp [hun]
  · simp [hmode]

theorem get?_kept_mapped {definition : IndexDefinition} {obj : JsonMap} {drop : List String}
    (hdrop : drop = if definition.mode = .dropUnmapped then
      (obj.map Prod.fst).filter fun key => definition.Unmapped key else []) {name : String}
    (hname : name ∈ definition.fields) :
    JsonMap.get? (drop.foldl JsonMap.remove obj) name = obj.get? name := by
  rw [get?_kept hdrop, if_neg]
  exact fun hun => hun.2.1 hname

theorem processed_of_validate {definition : IndexDefinition} {obj : JsonMap} {out : Json}
    (hsorted : obj.Sorted) (h : validateAndProcessDocument definition (.object obj) = .ok out) :
    ∃ kept, Processed definition (.object obj) out obj kept := by
  rw [validateAndProcessDocument] at h
  cases hkeys : definition.keysToRemove (obj.map Prod.fst) with
  | error e =>
    rw [hkeys] at h
    cases h
  | ok drop =>
    rw [hkeys] at h
    dsimp only at h
    obtain ⟨hknown, hdrop⟩ := (keysToRemove_eq_ok _ _ _).mp hkeys
    cases hfields : processFields (drop.foldl JsonMap.remove obj) definition.fields.entries with
    | error e =>
      rw [hfields] at h
      cases h
    | ok kept =>
      rw [hfields] at h
      cases h
      obtain ⟨hall, hothers, hkept⟩ := processFields_eq_ok definition.fields.nodupKeys hfields
      refine ⟨kept, rfl, ⟨acceptable_known_iff.mp hknown, ?_⟩, rfl,
        hkept (hsorted.removeAll drop), ?_⟩
      · intro name field hfield
        have hown := (hall ⟨name, field⟩ (AList.mem_lookup_iff.mp hfield)).1
        rwa [get?_kept_mapped hdrop (AList.lookup_isSome.mp (by rw [hfield]; rfl))] at hown
      · intro key
        unfold processedAt
        cases hfield : definition.fields.lookup key with
        | some field =>
          have hown := (hall ⟨key, field⟩ (AList.mem_lookup_iff.mp hfield)).2
          rwa [get?_kept_mapped hdrop (AList.lookup_isSome.mp (by rw [hfield]; rfl))] at hown
        | none =>
          rw [hothers key fun hmem => AList.lookup_eq_none.mp hfield hmem, get?_kept hdrop]
          simp only [unmapped_iff, hfield, true_and]

theorem validate_of_acceptable {definition : IndexDefinition} {obj : JsonMap}
    (h : Acceptable definition obj) :
    ∃ out, validateAndProcessDocument definition (.object obj) = .ok out := by
  have hkeys := (keysToRemove_eq_ok definition (obj.map Prod.fst) _).mpr
    ⟨acceptable_known_iff.mpr h.known, rfl⟩
  have htakes : ∀ e ∈ definition.fields.entries, e.2.Takes (JsonMap.get?
      ((if definition.mode = .dropUnmapped then
        (obj.map Prod.fst).filter fun key => definition.Unmapped key else []).foldl
          JsonMap.remove obj) e.1) := by
    intro e he
    have hfield := AList.mem_lookup_iff.mpr he
    have hname : e.1 ∈ definition.fields := AList.lookup_isSome.mp (by rw [hfield]; rfl)
    rw [get?_kept_mapped rfl hname]
    exact h.fields e.1 e.2 hfield
  obtain ⟨kept, hkept⟩ := processFields_takes definition.fields.nodupKeys htakes
  exact ⟨.object kept, by rw [validateAndProcessDocument, hkeys]; dsimp only; rw [hkept]⟩

theorem processed_unique {definition : IndexDefinition} {document out out' : Json}
    {obj obj' kept kept' : JsonMap} (h : Processed definition document out obj kept)
    (h' : Processed definition document out' obj' kept') : out = out' := by
  obtain rfl : obj = obj' := by
    have hinput := h.input.symm.trans h'.input
    cases hinput
    rfl
  obtain rfl := h.sorted.ext h'.sorted fun key => (h.holds key).trans (h'.holds key).symm
  exact h.output.trans h'.output.symm

theorem validate_iff_processed {definition : IndexDefinition} {document : Json}
    (hsorted : document.Sorted) (out : Json) :
    validateAndProcessDocument definition document = .ok out ↔
      ∃ obj kept, Processed definition document out obj kept := by
  constructor
  · intro h
    cases document with
    | object obj =>
      obtain ⟨kept, hkept⟩ := processed_of_validate (hsorted obj rfl) h
      exact ⟨obj, kept, hkept⟩
    | _ => cases h
  · rintro ⟨obj, kept, hprocessed⟩
    obtain rfl := hprocessed.input
    obtain ⟨out', hout'⟩ := validate_of_acceptable hprocessed.accepted
    obtain ⟨kept', hkept'⟩ := processed_of_validate (hsorted obj rfl) hout'
    rw [hout', processed_unique hprocessed hkept']

/-- The fields of a definition in another order. -/
structure Reordered (a b : IndexDefinition) : Prop where
  mode : a.mode = b.mode
  fields : a.fields.entries.Perm b.fields.entries

theorem Reordered.lookup {a b : IndexDefinition} (h : Reordered a b) (name : String) :
    a.fields.lookup name = b.fields.lookup name := AList.perm_lookup h.fields

theorem Reordered.processed {a b : IndexDefinition} (h : Reordered a b) {document out : Json}
    {obj kept : JsonMap} (hprocessed : Processed a document out obj kept) :
    Processed b document out obj kept := by
  refine ⟨hprocessed.input, ⟨?_, ?_⟩, hprocessed.output, hprocessed.sorted, ?_⟩
  · intro hmode m hm hsource
    have hknown := hprocessed.accepted.known (h.mode.trans hmode) m hm hsource
    rwa [← AList.lookup_isSome, h.lookup, AList.lookup_isSome] at hknown
  · intro name field hfield
    exact hprocessed.accepted.fields name field ((h.lookup name).trans hfield)
  · intro key
    rw [hprocessed.holds key]
    simp only [processedAt, h.lookup, h.mode]

theorem Reordered.symm {a b : IndexDefinition} (h : Reordered a b) : Reordered b a :=
  ⟨h.mode.symm, h.fields.symm⟩

/-- **Validation accepts exactly the acceptable documents and says of each key on its own
what becomes of it. The order of the fields has no part in it.** -/
theorem validate_ok_iff {definition : IndexDefinition} {document : Json}
    (hsorted : document.Sorted) :
    (∀ out, validateAndProcessDocument definition document = .ok out ↔
      ∃ obj kept, Processed definition document out obj kept) ∧
    ∀ reordered, Reordered definition reordered →
      (validateAndProcessDocument reordered document).toOption =
        (validateAndProcessDocument definition document).toOption := by
  refine ⟨validate_iff_processed hsorted, ?_⟩
  intro reordered hreordered
  apply Option.ext
  intro out
  have hiff : ∀ d : IndexDefinition, (validateAndProcessDocument d document).toOption = some out ↔
      ∃ obj kept, Processed d document out obj kept := by
    intro d
    rw [← validate_iff_processed hsorted]
    cases validateAndProcessDocument d document <;> simp [Except.toOption]
  rw [hiff, hiff]
  constructor
  · rintro ⟨obj, kept, h⟩
    exact ⟨obj, kept, hreordered.symm.processed h⟩
  · rintro ⟨obj, kept, h⟩
    exact ⟨obj, kept, hreordered.processed h⟩

/-- A field that is filled in, and a key that is dropped. -/
theorem validate_ok_iff_example :
    let definition : IndexDefinition :=
      { name := "a", mode := .dropUnmapped, fields := (∅ : Table String FieldDefinition).insert "n"
          { fieldType := .integer, default := some (.number (.posInt 1)) } }
    ∃ obj kept, Processed definition (.object [("b", .bool true)])
      (.object [("n", .number (.posInt 1))]) obj kept := by
  intro definition
  have hsorted : (Json.object [("b", .bool true)]).Sorted := by
    rintro obj ⟨⟩
    decide
  exact ((validate_ok_iff hsorted).1 _).mp rfl

/-! ## Conforming output -/

/-- The values in the range of a column. -/
def FieldOptions.InRange : FieldOptions → Json → Prop
  | .value .i64 _ _ _, val => val.isI64
  | _, _ => True

/-- A value of the type of the field, in the range of the column that is built for it. -/
def FieldDefinition.Holds (name : String) (field : FieldDefinition) (val : Json) : Prop :=
  field.fieldType.accepts val ∧ (field.entry name).options.InRange val

/-- A document that conforms to the schema, and comes out of validation as it went in. -/
structure ConformingOutput (definition : IndexDefinition) (out : Json) : Prop where
  present : ∀ name field, definition.fields.lookup name = some field → field.optional = false →
    ∃ val, out.get name = some val ∧ val.isNull = false
  typed : ∀ name field val, definition.fields.lookup name = some field →
    out.get name = some val → val.isNull = false → field.Holds name val
  again : validateAndProcessDocument definition out = .ok out

/-- A field that the document gives an integer in range, if it is an integer, or leaves out
with a default that may be put in its place. -/
def FieldDefinition.Sound (field : FieldDefinition) : Option Json → Prop
  | some val => val.isNull = false → field.fieldType = .integer → val.isI64
  | none => ∀ val, field.default = some val →
    if val.isNull then field.optional
    else field.fieldType.accepts val ∧ (field.fieldType = .integer → val.isI64)

theorem FieldDefinition.holds_iff {name : String} {field : FieldDefinition} {val : Json} :
    field.Holds name val ↔
      field.fieldType.accepts val ∧ (field.fieldType = .integer → val.isI64) := by
  unfold FieldDefinition.Holds FieldDefinition.entry
  cases field.fieldType <;> simp [FieldOptions.InRange]

/-- What is filled in for a field that is taken is right exactly when the field is sound. -/
theorem FieldDefinition.sound_iff {name : String} {field : FieldDefinition} {val : Option Json}
    (htakes : field.Takes val) :
    field.Sound val ↔
      (field.optional = false → ∃ v, field.filled val = some v ∧ v.isNull = false) ∧
      ∀ v, field.filled val = some v → v.isNull = false → field.Holds name v := by
  cases val with
  | some val =>
    have hfilled : field.filled (some val) = some val := by simp [FieldDefinition.filled]
    simp only [hfilled, Option.some.injEq, FieldDefinition.holds_iff]
    constructor
    · intro hsound
      refine ⟨fun hopt => ⟨val, rfl, ?_⟩, ?_⟩
      · by_contra hnull
        simp [FieldDefinition.Takes, hnull, hopt] at htakes
      · rintro v rfl hnull
        simp only [FieldDefinition.Takes, hnull, Bool.false_eq_true, if_false] at htakes
        exact ⟨htakes, hsound hnull⟩
    · rintro ⟨-, hholds⟩ hnull
      exact (hholds val rfl hnull).2
  | none =>
    have hfilled : field.filled none = field.default := by simp [FieldDefinition.filled]
    simp only [hfilled, FieldDefinition.holds_iff]
    constructor
    · intro hsound
      refine ⟨fun hopt => ?_, ?_⟩
      · simp only [FieldDefinition.Takes, hopt, Bool.false_eq_true, or_false] at htakes
        obtain ⟨v, hdefault⟩ := Option.isSome_iff_exists.mp htakes
        refine ⟨v, hdefault, ?_⟩
        by_contra hnull
        have hbad := hsound v hdefault
        simp [hnull, hopt] at hbad
      · intro v hdefault hnull
        have hval := hsound v hdefault
        simpa only [hnull, Bool.false_eq_true, if_false] using hval
    · rintro ⟨hpresent, hholds⟩ v hdefault
      cases hnull : v.isNull with
      | true =>
        rw [if_pos rfl]
        by_contra hopt
        obtain ⟨v', hdefault', hnull'⟩ := hpresent (by simpa using hopt)
        rw [hdefault] at hdefault'
        obtain rfl := Option.some.inj hdefault'
        rw [hnull] at hnull'
        cases hnull'
      | false =>
        rw [if_neg (by decide)]
        exact hholds v hdefault hnull

/-- What is filled in is taken again. -/
theorem FieldDefinition.Takes.filled {field : FieldDefinition} {val : Option Json}
    (htakes : field.Takes val) (hsound : field.Sound val) : field.Takes (field.filled val) := by
  cases val with
  | some val => exact htakes
  | none =>
    cases hdefault : field.default with
    | none => simpa [FieldDefinition.filled, hdefault] using htakes
    | some val =>
      have hval := hsound val hdefault
      simp only [FieldDefinition.filled, hdefault, Option.none_or, FieldDefinition.Takes]
      by_cases hnull : val.isNull
      · simpa [hnull] using hval
      · simp only [hnull] at hval
        simpa [hnull] using hval.1

theorem processed_get {definition : IndexDefinition} {document out : Json} {obj kept : JsonMap}
    (h : Processed definition document out obj kept) {name : String} {field : FieldDefinition}
    (hfield : definition.fields.lookup name = some field) :
    out.get name = field.filled (document.get name) := by
  rw [h.input, h.output, Json.get, Json.get, h.holds name, processedAt, hfield]

theorem validate_again {definition : IndexDefinition} {document out : Json} {obj kept : JsonMap}
    (h : Processed definition document out obj kept)
    (hsound : ∀ name field, definition.fields.lookup name = some field →
      field.Sound (obj.get? name)) : validateAndProcessDocument definition out = .ok out := by
  have hsorted : out.Sorted := by
    intro o ho
    have heq := h.output.symm.trans ho
    cases heq
    exact h.sorted
  refine (validate_iff_processed hsorted out).mpr
    ⟨kept, kept, h.output, ⟨?_, ?_⟩, h.output, h.sorted, ?_⟩
  · intro hmode m hm hsource
    have hout := h.holds m.1
    rw [JsonMap.get?_of_mem h.sorted.nodup hm, processedAt] at hout
    cases hfield : definition.fields.lookup m.1 with
    | some field => exact AList.lookup_isSome.mp (by rw [hfield]; rfl)
    | none =>
      rw [hfield, if_neg (by simp [hmode])] at hout
      exact h.accepted.known hmode (m.1, m.2) (JsonMap.mem_of_get? hout.symm) hsource
  · intro name field hfield
    rw [h.holds name, processedAt, hfield]
    exact (h.accepted.fields name field hfield).filled (hsound name field hfield)
  · intro key
    have hout := h.holds key
    unfold processedAt at hout ⊢
    cases hfield : definition.fields.lookup key with
    | some field =>
      simp only [hfield] at hout
      simp only [hout, FieldDefinition.filled]
      cases obj.get? key <;> simp
    | none =>
      simp only [hfield] at hout
      by_cases hdrop : definition.mode = .dropUnmapped ∧ key ≠ "_source"
      · rw [if_pos hdrop] at hout ⊢
        exact hout
      · rw [if_neg hdrop]

/-- **The document that comes out conforms to its schema exactly when no integer of the
document is beyond the signed range, and every default that is filled in is of its field.** -/
theorem validate_conforming_iff {definition : IndexDefinition} {document out : Json}
    (hsorted : document.Sorted) (h : validateAndProcessDocument definition document = .ok out) :
    ConformingOutput definition out ↔
      ∀ name field, definition.fields.lookup name = some field →
        field.Sound (document.get name) := by
  obtain ⟨obj, kept, hprocessed⟩ := (validate_iff_processed hsorted out).mp h
  have hget : ∀ name, document.get name = obj.get? name := by
    intro name
    rw [hprocessed.input, Json.get]
  have htakes := hprocessed.accepted.fields
  simp only [← hget] at htakes
  constructor
  · intro hconf name field hfield
    have hout := processed_get hprocessed hfield
    apply (FieldDefinition.sound_iff (htakes name field hfield)).mpr
    rw [← hout]
    exact ⟨hconf.present name field hfield, fun v => hconf.typed name field v hfield⟩
  · intro hsound
    have hright : ∀ name field, definition.fields.lookup name = some field →
        (field.optional = false → ∃ v, out.get name = some v ∧ v.isNull = false) ∧
        ∀ v, out.get name = some v → v.isNull = false → field.Holds name v := by
      intro name field hfield
      rw [processed_get hprocessed hfield]
      exact (FieldDefinition.sound_iff (htakes name field hfield)).mp (hsound name field hfield)
    refine ⟨fun name field hfield => (hright name field hfield).1,
      fun name field v hfield => (hright name field hfield).2 v, ?_⟩
    apply validate_again hprocessed
    intro name field hfield
    rw [← hget name]
    exact hsound name field hfield

/-- A definition with one integer field that has a default. -/
def oneDefault (val : Json) : IndexDefinition :=
  { name := "a", fields := (∅ : Table String FieldDefinition).insert "n"
      { fieldType := .integer, default := some val } }

theorem oneDefault_lookup {val : Json} {name : String} {field : FieldDefinition}
    (h : (oneDefault val).fields.lookup name = some field) :
    name = "n" ∧ field = { fieldType := .integer, default := some val } := by
  simp only [oneDefault, Table.lookup_insert_eq, AList.lookup_empty] at h
  split at h
  · rename_i heq
    exact ⟨heq, (Option.some.inj h).symm⟩
  · cases h

theorem validate_conforming_example :
    ConformingOutput (oneDefault (.number (.posInt 1))) (.object [("n", .number (.posInt 1))]) := by
  have hsorted : (Json.object []).Sorted := by
    rintro obj ⟨⟩
    decide
  refine (validate_conforming_iff hsorted rfl).mpr ?_
  intro name field hfield
  obtain ⟨rfl, rfl⟩ := oneDefault_lookup hfield
  intro val hval
  obtain rfl := Option.some.inj hval
  exact ⟨rfl, fun _ => rfl⟩

/-- A default of another type is filled in unchecked. -/
theorem validate_not_conforming :
    ¬ ∀ definition document out, validateSchema definition = some (.ok ()) → document.Sorted →
      validateAndProcessDocument definition document = .ok out →
      ConformingOutput definition out := by
  intro halways
  have hsorted : (Json.object []).Sorted := by
    rintro obj ⟨⟩
    decide
  have hconf := halways (oneDefault (.string "abc")) (.object []) (.object [("n", .string "abc")])
    rfl hsorted rfl
  have hholds := (hconf.typed "n" _ _ rfl rfl rfl).1
  cases hholds

end Edgewit
