import Edgewit.SchemaValidation
import Edgewit.Serde

/-!
# The format of index definitions

`IndexDefinition` as the JSON that `GET /indexes/{index}` answers with and `PUT` takes. The
fields and the settings are `HashMap`s: definitions that differ in their order alone are the
`Same`.
-/

namespace Edgewit
open Serde

/-! ## Enumerations -/

namespace SchemaMode

def name : SchemaMode → String
  | .strict => "strict"
  | .dropUnmapped => "drop_unmapped"
  | .dynamic => "dynamic"

def fromJson : Json → Option SchemaMode := decodeVariant name [.strict, .dropUnmapped, .dynamic]

@[simp] theorem fromJson_name (m : SchemaMode) : fromJson (.string m.name) = some m := by
  cases m <;> rfl

end SchemaMode

namespace PartitionStrategy

def name : PartitionStrategy → String
  | .none => "none"
  | .daily => "daily"
  | .hourly => "hourly"
  | .monthly => "monthly"

def fromJson : Json → Option PartitionStrategy :=
  decodeVariant name [.none, .daily, .hourly, .monthly]

@[simp] theorem fromJson_name (p : PartitionStrategy) : fromJson (.string p.name) = some p := by
  cases p <;> rfl

end PartitionStrategy

namespace CompressionOption

def name : CompressionOption → String
  | .none => "none"
  | .zstd => "zstd"
  | .lz4 => "lz4"

def fromJson : Json → Option CompressionOption := decodeVariant name [.none, .zstd, .lz4]

@[simp] theorem fromJson_name (c : CompressionOption) : fromJson (.string c.name) = some c := by
  cases c <;> rfl

end CompressionOption

namespace FieldType

def name : FieldType → String
  | .text => "text"
  | .keyword => "keyword"
  | .datetime => "datetime"
  | .integer => "integer"
  | .float => "float"
  | .boolean => "boolean"
  | .bytes => "bytes"

def fromJson : Json → Option FieldType :=
  decodeVariant name [.text, .keyword, .datetime, .integer, .float, .boolean, .bytes]

@[simp] theorem fromJson_name (t : FieldType) : fromJson (.string t.name) = some t := by
  cases t <;> rfl

end FieldType

/-! ## Fields -/

namespace FieldDefinition

def names : List String := ["type", "indexed", "stored", "fast", "optional", "default"]

def members (field : FieldDefinition) : JsonMap :=
  [("type", .string field.fieldType.name), ("indexed", .bool field.indexed),
   ("stored", .bool field.stored), ("fast", .bool field.fast), ("optional", .bool field.optional),
   ("default", encodeOption id field.default)]

def toJson (field : FieldDefinition) : Json := encodeStruct field.members

def fromJson (j : Json) : Option FieldDefinition := do
  let f ← fieldsOf names j
  let fieldType ← f.required "type" FieldType.fromJson
  let indexed ← f.withDefault "indexed" decodeBool false
  let stored ← f.withDefault "stored" decodeBool false
  let fast ← f.withDefault "fast" decodeBool false
  let optional ← f.withDefault "optional" decodeBool false
  let default ← f.withDefault "default" (decodeOption some) none
  return { fieldType, indexed, stored, fast, optional, default }

/-- The field as it comes back: `null` is no default. -/
def settle (field : FieldDefinition) : FieldDefinition :=
  { field with default := field.default.filter (!·.isNull) }

/-- A field without the default `null`. -/
def Settled (field : FieldDefinition) : Prop := field.settle = field

theorem fieldsOf_toJson (field : FieldDefinition) :
    fieldsOf names field.toJson = some ⟨field.members.get?, true⟩ :=
  fieldsOf_encodeStruct (by simp [members]) names

theorem decodeOption_default (o : Option Json) :
    decodeOption some (encodeOption id o) = some (o.filter (!·.isNull)) := by
  cases o with
  | none => rfl
  | some j => cases j <;> rfl

theorem fromJson_toJson (field : FieldDefinition) : fromJson field.toJson = some field.settle := by
  simp [fromJson, fieldsOf_toJson, members, Fields.required, Fields.withDefault,
    JsonMap.get?_cons, decodeBool, decodeOption_default, settle]

theorem settled_iff {field : FieldDefinition} : field.Settled ↔ field.default ≠ some .null := by
  cases field with
  | mk fieldType indexed stored fast optional default =>
    cases default with
    | none => simp [Settled, settle]
    | some j => cases j <;> simp [Settled, settle, Json.isNull, Option.filter]

/-- A field that was read has no default `null`. -/
theorem settled_of_fromJson {j : Json} {field : FieldDefinition} (h : fromJson j = some field) :
    field.Settled := by
  rw [settled_iff]
  simp only [fromJson, Option.pure_def, Option.bind_eq_bind, Option.bind_eq_some_iff,
    Option.some.injEq] at h
  obtain ⟨f, -, fieldType, -, indexed, -, stored, -, fast, -, optional, -, default, hdefault, rfl⟩ :=
    h
  intro hnull
  simp only at hnull
  subst hnull
  unfold Fields.withDefault at hdefault
  split at hdefault
  · cases hdefault
  · rename_i val _
    cases val <;> simp [decodeOption] at hdefault

end FieldDefinition

/-! ## Definitions -/

namespace IndexDefinition

def names : List String :=
  ["name", "description", "timestamp_field", "mode", "partition", "retention", "compression",
   "fields", "settings"]

def members (d : IndexDefinition) : JsonMap :=
  [("name", .string d.name), ("description", encodeOption .string d.description),
   ("timestamp_field", .string d.timestampField), ("mode", .string d.mode.name),
   ("partition", .string d.partition.name), ("retention", encodeOption .string d.retention),
   ("compression", .string d.compression.name),
   ("fields", .object (encodeMembers FieldDefinition.toJson d.fields)),
   ("settings", .object (encodeMembers id d.settings))]

def toJson (d : IndexDefinition) : Json := encodeStruct d.members

def fromJson (j : Json) : Option IndexDefinition := do
  let f ← fieldsOf names j
  let name ← f.required "name" Json.asStr
  let description ← f.optional "description" Json.asStr
  let timestampField ← f.withDefault "timestamp_field" Json.asStr "timestamp"
  let mode ← f.withDefault "mode" SchemaMode.fromJson .dynamic
  let partition ← f.withDefault "partition" PartitionStrategy.fromJson .none
  let retention ← f.optional "retention" Json.asStr
  let compression ← f.withDefault "compression" CompressionOption.fromJson .zstd
  let fields ← f.required "fields" (decodeMap FieldDefinition.fromJson)
  let settings ← f.withDefault "settings" (decodeMap some) ∅
  return { name, description, timestampField, mode, partition, retention, compression, fields,
           settings }

/-- Equal but for the order of the fields and of the settings. -/
structure Same (d d' : IndexDefinition) : Prop where
  name : d.name = d'.name
  description : d.description = d'.description
  timestampField : d.timestampField = d'.timestampField
  mode : d.mode = d'.mode
  partition : d.partition = d'.partition
  retention : d.retention = d'.retention
  compression : d.compression = d'.compression
  fields : ∀ key, d.fields.lookup key = d'.fields.lookup key
  settings : ∀ key, d.settings.lookup key = d'.settings.lookup key

/-- No field has the default `null`. -/
def Settled (d : IndexDefinition) : Prop :=
  ∀ key field, d.fields.lookup key = some field → field.Settled

theorem fieldsOf_toJson (d : IndexDefinition) :
    fieldsOf names d.toJson = some ⟨d.members.get?, true⟩ :=
  fieldsOf_encodeStruct (by simp [members]) names

theorem name_eq_of_toJson {d d' : IndexDefinition} (h : d.toJson = d'.toJson) :
    d.name = d'.name := by
  have hfields := (fieldsOf_toJson d).symm.trans (h ▸ fieldsOf_toJson d')
  have hget := congrFun (congrArg Fields.get (Option.some.inj hfields)) "name"
  simpa [members, JsonMap.get?_cons] using hget

@[simp] theorem asStr_text (o : Option String) :
    decodeOption Json.asStr (encodeOption .string o) = some o :=
  decodeOption_encodeOption .string Json.asStr (fun _ => rfl) (by simp) o

/-- A definition comes back with each of its fields as it comes back. -/
theorem fromJson_toJson (d : IndexDefinition) :
    ∃ fields settings, fromJson d.toJson = some { d with fields, settings } ∧
      (∀ key, fields.lookup key = (d.fields.lookup key).map FieldDefinition.settle) ∧
      ∀ key, settings.lookup key = d.settings.lookup key := by
  obtain ⟨fields, hfields, hfield⟩ :=
    decodeMembers_encodeMembers _ _ _ FieldDefinition.fromJson_toJson d.fields
  obtain ⟨settings, hsettings, hsetting⟩ :=
    decodeMembers_encodeMembers id some id (fun _ => rfl) d.settings
  refine ⟨fields, settings, ?_, hfield, fun key => by simp [hsetting]⟩
  simp [fromJson, fieldsOf_toJson, members, Fields.required, Fields.withDefault, Fields.optional,
    JsonMap.get?_cons, Json.asStr, decodeMap, hfields, hsettings]

theorem Same.symm {d d' : IndexDefinition} (h : d.Same d') : d'.Same d :=
  ⟨h.name.symm, h.description.symm, h.timestampField.symm, h.mode.symm, h.partition.symm,
    h.retention.symm, h.compression.symm, fun key => (h.fields key).symm,
    fun key => (h.settings key).symm⟩

theorem Same.trans {a b d : IndexDefinition} (h : a.Same b) (h' : b.Same d) : a.Same d :=
  ⟨h.name.trans h'.name, h.description.trans h'.description,
    h.timestampField.trans h'.timestampField, h.mode.trans h'.mode,
    h.partition.trans h'.partition, h.retention.trans h'.retention,
    h.compression.trans h'.compression, fun key => (h.fields key).trans (h'.fields key),
    fun key => (h.settings key).trans (h'.settings key)⟩

/-- The order in which a map is iterated does not show in the JSON. -/
theorem Same.toJson_eq {d d' : IndexDefinition} (h : d.Same d') : d.toJson = d'.toJson := by
  have hfields := encodeMembers_congr FieldDefinition.toJson h.fields
  have hsettings := encodeMembers_congr id h.settings
  simp only [toJson, members, h.name, h.description, h.timestampField, h.mode, h.partition,
    h.retention, h.compression, hfields, hsettings]

/-- A definition that was read is settled. -/
theorem settled_of_fromJson {j : Json} {d : IndexDefinition} (h : fromJson j = some d) :
    d.Settled := by
  simp only [fromJson, Option.pure_def, Option.bind_eq_bind, Option.bind_eq_some_iff,
    Option.some.injEq] at h
  obtain ⟨f, -, name, -, description, -, timestampField, -, mode, -, partition, -, retention, -,
    compression, -, fields, hfields, settings, -, rfl⟩ := h
  intro key field hfield
  obtain ⟨val, -, hval⟩ := Option.bind_eq_some_iff.mp hfields
  cases val with
  | object members =>
    exact decodeMembers_forall (fun _ _ => FieldDefinition.settled_of_fromJson) (by simp) hval hfield
  | _ => cases hval

/-- A definition comes back from its JSON exactly when it is settled. -/
theorem round_trip_iff (d : IndexDefinition) :
    (∃ d', fromJson d.toJson = some d' ∧ d'.Same d) ↔ d.Settled := by
  obtain ⟨fields, settings, hread, hfields, hsettings⟩ := fromJson_toJson d
  constructor
  · rintro ⟨d', hd', hsame⟩ key field hfield
    obtain rfl : { d with fields, settings } = d' := Option.some.inj (hread.symm.trans hd')
    have hlookup := hsame.fields key
    rw [hfields, hfield] at hlookup
    exact Option.some.inj hlookup
  · intro hsettled
    refine ⟨{ d with fields, settings }, hread, rfl, rfl, rfl, rfl, rfl, rfl, rfl, ?_, hsettings⟩
    intro key
    rw [hfields]
    cases hfield : d.fields.lookup key with
    | none => rfl
    | some field => exact congrArg some (hsettled key field hfield)

theorem Same.validateSchema_eq {d d' : IndexDefinition} (h : d.Same d') :
    validateSchema d = validateSchema d' := by
  have hmem : ∀ key, key ∈ d.fields ↔ key ∈ d'.fields := by
    intro key
    rw [← AList.lookup_isSome, ← AList.lookup_isSome, h.fields]
  simp only [validateSchema, hmem, h.partition, h.retention, h.timestampField]

/-- Settled definitions have one JSON exactly when they agree. -/
theorem toJson_eq_iff {d d' : IndexDefinition} (hd : d.Settled) (hd' : d'.Settled) :
    d.toJson = d'.toJson ↔ d.Same d' := by
  constructor
  · intro heq
    obtain ⟨e, he, hsame⟩ := (round_trip_iff d).mpr hd
    obtain ⟨e', he', hsame'⟩ := (round_trip_iff d').mpr hd'
    rw [heq, he'] at he
    obtain rfl : e' = e := Option.some.inj he
    exact hsame.symm.trans hsame'
  · exact Same.toJson_eq

/-- A field whose name is its default. -/
def named (name : String) : FieldDefinition where
  fieldType := .keyword
  default := some (.string name)

theorem settled_named (name : String) : (named name).Settled :=
  FieldDefinition.settled_iff.mpr (by simp [named])

/-- A definition with two fields and two settings, in the order given. -/
def inOrder (first second : String) : IndexDefinition where
  name := "logs"
  fields := ((∅ : Table String FieldDefinition).insert first (named first)).insert second
    (named second)
  settings := ((∅ : Table String Json).insert first .null).insert second .null

theorem settled_inOrder (first second : String) : (inOrder first second).Settled := by
  intro key field hlookup
  rw [inOrder, Table.lookup_insert_eq, Table.lookup_insert_eq] at hlookup
  split at hlookup
  · exact Option.some.inj hlookup ▸ settled_named second
  · split at hlookup
    · exact Option.some.inj hlookup ▸ settled_named first
    · cases hlookup

theorem toJson_eq_iff_example :
    (inOrder "level" "host").toJson = (inOrder "host" "level").toJson ↔
      (inOrder "level" "host").Same (inOrder "host" "level") :=
  toJson_eq_iff (settled_inOrder "level" "host") (settled_inOrder "host" "level")

end IndexDefinition
end Edgewit
