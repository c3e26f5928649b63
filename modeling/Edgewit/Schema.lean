import Edgewit.Json
import Edgewit.Table
import Mathlib.Data.List.Sort

/-!
# Index definitions and their Tantivy schemas

The fields of a definition are a `HashMap` in the source: their order here stands
for the order in which the map happens to be iterated. `buildSchema` sorts them, so
its result does not depend on it.
-/

namespace Edgewit

inductive SchemaMode where
  | strict
  | dropUnmapped
  | dynamic
  deriving DecidableEq, Repr

inductive FieldType where
  | text
  | keyword
  | datetime
  | integer
  | float
  | boolean
  | bytes
  deriving DecidableEq, Repr

/-- The `Debug` text. -/
def FieldType.debug : FieldType → String
  | .text => "Text"
  | .keyword => "Keyword"
  | .datetime => "Datetime"
  | .integer => "Integer"
  | .float => "Float"
  | .boolean => "Boolean"
  | .bytes => "Bytes"

structure FieldDefinition where
  fieldType : FieldType
  indexed : Bool := false
  stored : Bool := false
  fast : Bool := false
  optional : Bool := false
  default : Option Json := none
  deriving Repr

inductive PartitionStrategy where
  | none
  | daily
  | hourly
  | monthly
  deriving DecidableEq, Repr

inductive CompressionOption where
  | none
  | zstd
  | lz4
  deriving DecidableEq, Repr

structure IndexDefinition where
  name : String
  description : Option String := none
  timestampField : String := "timestamp"
  mode : SchemaMode := .dynamic
  partition : PartitionStrategy := .none
  retention : Option String := none
  compression : CompressionOption := .zstd
  fields : Table String FieldDefinition
  settings : Table String Json := ∅

/-! ## The schema builder -/

inductive IndexRecordOption where
  | basic
  | withFreqsAndPositions
  deriving DecidableEq, Repr

structure TextFieldIndexing where
  tokenizer : String
  record : IndexRecordOption
  deriving DecidableEq, Repr

/-- Tantivy's value types other than text and JSON. -/
inductive ValueType where
  | date
  | i64
  | f64
  | bool
  | bytes
  deriving DecidableEq, Repr

inductive FieldOptions where
  | text (indexing : Option TextFieldIndexing) (stored fast : Bool)
  | value (type : ValueType) (indexed stored fast : Bool)
  | json (stored : Bool)
  deriving DecidableEq, Repr

structure FieldEntry where
  name : String
  options : FieldOptions
  deriving DecidableEq, Repr

/-- A Tantivy schema: no two fields have the same name. -/
structure Schema where
  entries : List FieldEntry
  nodup : (entries.map FieldEntry.name).Nodup
  deriving DecidableEq

namespace Schema

def empty : Schema := ⟨[], List.nodup_nil⟩

def names (schema : Schema) : List String := schema.entries.map FieldEntry.name

/-- `Schema::get_field`. -/
def hasField (schema : Schema) (name : String) : Bool := schema.names.contains name

/-- The schema with one more field. -/
def push (schema : Schema) (entry : FieldEntry) (h : entry.name ∉ schema.names) : Schema :=
  ⟨schema.entries ++ [entry], by
    rw [List.map_append, List.map_singleton, List.nodup_append]
    refine ⟨schema.nodup, List.nodup_singleton _, ?_⟩
    intro name hname other hother heq
    rw [List.mem_singleton] at hother
    exact h (by rw [← hother, ← heq]; exact hname)⟩

theorem push_eq_iff {schema schema' : Schema} {entry : FieldEntry} (h : entry.name ∉ schema.names) :
    schema.push entry h = schema' ↔ schema'.entries = schema.entries ++ [entry] := by
  cases schema'
  simp only [push, mk.injEq]
  exact eq_comm

end Schema

/-- What `build_schema` relies on of Tantivy's `SchemaBuilder`: a field is added after the others,
and it is a panic if the name is there already or is not one for a field. -/
structure SchemaBuilder where
  isValidFieldName : String → Bool
  addField : Schema → FieldEntry → Option Schema
  addField_eq_some : ∀ (schema schema' : Schema) (entry : FieldEntry),
    addField schema entry = some schema' ↔ isValidFieldName entry.name = true ∧
      entry.name ∉ schema.names ∧ schema'.entries = schema.entries ++ [entry]
  reserved : isValidFieldName "_source" = true ∧ isValidFieldName "_dynamic" = true

namespace SchemaBuilder

/-- As documented: a name has a character, and does not start with a hyphen. -/
def documented : SchemaBuilder where
  isValidFieldName name := name ≠ "" && name.toList.head? ≠ some '-'
  addField schema entry :=
    if h : entry.name ∈ schema.names then none
    else if entry.name ≠ "" && entry.name.toList.head? ≠ some '-' then some (schema.push entry h)
    else none
  addField_eq_some schema schema' entry := by
    by_cases h : entry.name ∈ schema.names
    · simp [h]
    · rw [dif_neg h, Option.ite_none_right_eq_some, Option.some.injEq, Schema.push_eq_iff]
      simp only [h, not_false_eq_true, true_and]
  reserved := by decide

variable (x : SchemaBuilder)

def addFields : Schema → List FieldEntry → Option Schema
  | schema, [] => some schema
  | schema, entry :: rest => (x.addField schema entry).bind (addFields · rest)

/-- Fields are added in order, and only if all names are valid and none is repeated. -/
theorem addFields_eq_some {schema schema' : Schema} {entries : List FieldEntry} :
    x.addFields schema entries = some schema' ↔
      (∀ entry ∈ entries, x.isValidFieldName entry.name = true) ∧
        ((schema.entries ++ entries).map FieldEntry.name).Nodup ∧
        schema'.entries = schema.entries ++ entries := by
  induction entries generalizing schema with
  | nil =>
    have hnodup := schema.nodup
    cases schema
    cases schema'
    simp_all only [addFields, Option.some.injEq, Schema.mk.injEq, List.append_nil,
      List.not_mem_nil, IsEmpty.forall_iff, implies_true, true_and]
    exact eq_comm
  | cons entry rest ih =>
    simp only [addFields, Option.bind_eq_some_iff, x.addField_eq_some, ih, List.forall_mem_cons]
    constructor
    · rintro ⟨u, ⟨hvalid, -, hu⟩, hrest, hnodup, heq⟩
      rw [hu, List.append_assoc] at hnodup heq
      exact ⟨⟨hvalid, hrest⟩, hnodup, heq⟩
    · rintro ⟨⟨hvalid, hrest⟩, hnodup, heq⟩
      have hfresh : entry.name ∉ schema.names := by
        intro hmem
        rw [List.map_append, List.nodup_append] at hnodup
        exact hnodup.2.2 _ hmem _ (by simp) rfl
      refine ⟨schema.push entry hfresh, ⟨hvalid, hfresh, rfl⟩, hrest, ?_, ?_⟩
      · simpa [Schema.push, List.append_assoc] using hnodup
      · simpa [Schema.push, List.append_assoc] using heq

end SchemaBuilder

/-- What a declared field becomes. -/
def FieldDefinition.entry (name : String) (field : FieldDefinition) : FieldEntry :=
  let indexing (tokenizer : String) (record : IndexRecordOption) :=
    if field.indexed then some (TextFieldIndexing.mk tokenizer record) else none
  let value (type : ValueType) := FieldOptions.value type field.indexed field.stored field.fast
  ⟨name, match field.fieldType with
    | .text => .text (indexing "default" .withFreqsAndPositions) field.stored field.fast
    | .keyword => .text (indexing "raw" .basic) field.stored field.fast
    | .datetime => value .date
    | .integer => value .i64
    | .float => value .f64
    | .boolean => value .bool
    | .bytes => value .bytes⟩

namespace IndexDefinition

/-- The declared fields in the order of their names. -/
def sortedFields (definition : IndexDefinition) : List FieldEntry :=
  (definition.fields.entries.insertionSort fun a b => a.1 ≤ b.1).map fun e => e.2.entry e.1

/-- `_dynamic` behaves like an indexed and stored text field. -/
def dynamicEntry : FieldEntry :=
  ⟨"_dynamic", .text (some ⟨"default", .withFreqsAndPositions⟩) true false⟩

/-- The fields of the schema in the order in which they are added. -/
def schemaFields (definition : IndexDefinition) : List FieldEntry :=
  definition.sortedFields ++ ⟨"_source", .json true⟩ ::
    if definition.mode = .dynamic then [dynamicEntry] else []

theorem sortedFields_names (definition : IndexDefinition) :
    (definition.sortedFields.map FieldEntry.name).Perm definition.fields.keys := by
  have hsort := List.perm_insertionSort
    (fun a b : (_ : String) × FieldDefinition => a.1 ≤ b.1) definition.fields.entries
  have hnames : definition.sortedFields.map FieldEntry.name =
      (definition.fields.entries.insertionSort fun a b => a.1 ≤ b.1).map Sigma.fst := by
    simp only [sortedFields, List.map_map]
    apply List.map_congr_left
    intro e _
    rfl
  rw [hnames]
  exact hsort.map Sigma.fst

end IndexDefinition

namespace SchemaBuilder

/-- `build_schema`; `none` is a panic of the builder. -/
def buildSchema (x : SchemaBuilder) (definition : IndexDefinition) : Option Schema :=
  x.addFields Schema.empty definition.schemaFields

/-- The declared fields have valid names, and none that `build_schema` adds itself. -/
def Buildable (x : SchemaBuilder) (definition : IndexDefinition) : Prop :=
  (∀ name ∈ definition.fields.keys, x.isValidFieldName name = true) ∧
    "_source" ∉ definition.fields ∧ (definition.mode = .dynamic → "_dynamic" ∉ definition.fields)

instance (x : SchemaBuilder) (definition : IndexDefinition) : Decidable (x.Buildable definition) :=
  inferInstanceAs (Decidable (_ ∧ _ ∧ _))

/-- The names that are added to the schema are distinct if no declared field takes a reserved
one. -/
theorem schemaFields_nodup_iff (definition : IndexDefinition) :
    (definition.schemaFields.map FieldEntry.name).Nodup ↔
      "_source" ∉ definition.fields ∧
        (definition.mode = .dynamic → "_dynamic" ∉ definition.fields) := by
  have hperm := definition.sortedFields_names
  have hkeys : (definition.sortedFields.map FieldEntry.name).Nodup :=
    hperm.nodup_iff.mpr definition.fields.keys_nodup
  have hmem : ∀ name, name ∈ definition.sortedFields.map FieldEntry.name ↔
      name ∈ definition.fields := fun name => hperm.mem_iff
  rw [IndexDefinition.schemaFields, List.map_append, List.nodup_append]
  by_cases hmode : definition.mode = .dynamic
  · simp [hmode, hkeys, hmem, IndexDefinition.dynamicEntry]
    constructor
    · intro h
      exact ⟨fun hs => (h _ hs).1 rfl, fun hd => (h _ hd).2 rfl⟩
    · rintro ⟨hs, hd⟩ name hname
      exact ⟨fun heq => hs (heq ▸ hname), fun heq => hd (heq ▸ hname)⟩
  · simp [hmode, hkeys, hmem]
    constructor
    · intro h hs
      exact h _ hs rfl
    · intro hs name hname heq
      exact hs (heq ▸ hname)

/-- The reserved names are valid. -/
theorem schemaFields_valid_iff (x : SchemaBuilder) (definition : IndexDefinition) :
    (∀ entry ∈ definition.schemaFields, x.isValidFieldName entry.name = true) ↔
      ∀ name ∈ definition.fields.keys, x.isValidFieldName name = true := by
  have hperm := definition.sortedFields_names
  constructor
  · intro h name hname
    obtain ⟨entry, hentry, rfl⟩ := List.mem_map.mp (hperm.mem_iff.mpr hname)
    exact h entry (List.mem_append_left _ hentry)
  · intro h entry hentry
    rcases List.mem_append.mp hentry with hdeclared | hreserved
    · exact h _ (hperm.mem_iff.mp (List.mem_map_of_mem hdeclared))
    rcases List.mem_cons.mp hreserved with rfl | hdynamic
    · exact x.reserved.1
    · split at hdynamic
      · rw [List.mem_singleton.mp hdynamic]
        exact x.reserved.2
      · cases hdynamic

/-- A schema can be built when the declared fields have valid names, and none that is
reserved. -/
theorem buildSchema_isSome_iff (x : SchemaBuilder) (definition : IndexDefinition) :
    (x.buildSchema definition).isSome ↔ x.Buildable definition := by
  rw [Buildable, ← schemaFields_nodup_iff, ← schemaFields_valid_iff, Option.isSome_iff_exists]
  simp only [buildSchema, addFields_eq_some, Schema.empty, List.nil_append]
  constructor
  · rintro ⟨_, hvalid, hnodup, -⟩
    exact ⟨hvalid, hnodup⟩
  · rintro ⟨hvalid, hnodup⟩
    exact ⟨⟨definition.schemaFields, hnodup⟩, hvalid, hnodup, rfl⟩

end SchemaBuilder

/-! ## The registry -/

/-- The registered definitions, each under its own name. -/
structure IndexRegistry where
  indexes : Table String IndexDefinition
  named : ∀ name definition, indexes.lookup name = some definition → definition.name = name

namespace IndexRegistry

def new : IndexRegistry := ⟨∅, by simp⟩

/-- `insert` under the name of the definition, as `register` and `upsert` do once they
have checked it. -/
def insert (registry : IndexRegistry) (definition : IndexDefinition) : IndexRegistry :=
  ⟨registry.indexes.insert definition.name definition, by
    intro name d h
    rw [Table.lookup_insert_eq] at h
    split at h
    · rename_i heq
      rw [← Option.some.inj h, heq]
    · exact registry.named name d h⟩

def get (registry : IndexRegistry) (name : String) : Option IndexDefinition :=
  registry.indexes.lookup name

end IndexRegistry
end Edgewit
