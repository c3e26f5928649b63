import Edgewit.Lifecycle
import Edgewit.SchemaValidation

/-!
# Documents and their schema

`safeToUse_iff`: a definition can be used when Tantivy takes the names of its fields and
`build_schema` does not add one of them itself; `validate_schema` has no part in it. `rootDocument_lossless`:
under a definition that can be built every value of a payload is kept where it belongs.
-/

namespace Edgewit

/-! ## Definitions that can be used -/

/-- The schema of the definition can be built, and no search and no event on an index that is
registered with it panics. -/
structure SafeToUse (x : Externals) (definition : IndexDefinition) : Prop where
  distinct : (definition.schemaFields.map FieldEntry.name).Nodup
  builds : (x.buildSchema definition).isSome
  searches : ∀ s : IndexService, s.registry.get definition.name = some definition →
    (s.search x definition.name).1 ≠ .error .panic
  ingests : ∀ (s : IndexService) (w : WaitingEvent) (rest : List WaitingEvent),
    s.registry.get definition.name = some definition → s.receiver = w :: rest →
    w.event.index = definition.name → s.process x ≠ none

namespace IndexService

variable {x : Externals}

theorem getOrCreateIndex_safe {s : IndexService} {name : String} {definition : IndexDefinition}
    {schema : Schema} (hget : s.registry.get name = some definition)
    (hbuild : x.buildSchema definition = some schema) :
    (s.getOrCreateIndex x name).1 ≠ .error .panic := by
  unfold getOrCreateIndex
  cases s.indexes.lookup name with
  | some index => simp
  | none =>
    simp only [hget, hbuild]
    split
    · simp
    · split <;> simp

theorem getReader_safe {s : IndexService} {name : String} {definition : IndexDefinition}
    {schema : Schema} (hget : s.registry.get name = some definition)
    (hbuild : x.buildSchema definition = some schema) : (s.getReader x name).1 ≠ .error .panic := by
  have hsafe := getOrCreateIndex_safe hget hbuild
  unfold getReader
  split
  · simp
  · split
    · rename_i e u heq
      rw [heq] at hsafe
      rintro ⟨⟩
      exact hsafe rfl
    · split <;> simp

theorem search_safe {s : IndexService} {name : String} {definition : IndexDefinition}
    {schema : Schema} (hget : s.registry.get name = some definition)
    (hbuild : x.buildSchema definition = some schema) : (s.search x name).1 ≠ .error .panic := by
  have hsafe := getReader_safe hget hbuild
  unfold search
  split
  · rename_i e u heq
    rw [heq] at hsafe
    rintro ⟨⟩
    exact hsafe rfl
  · split <;> simp

theorem ensureWriter_safe {s : IndexService} {name : String} {definition : IndexDefinition}
    {schema : Schema} (hget : s.registry.get name = some definition)
    (hbuild : x.buildSchema definition = some schema) : (s.ensureWriter x name).1 ≠ .error .panic := by
  have hsafe := getOrCreateIndex_safe hget hbuild
  unfold ensureWriter
  split
  · simp
  · split
    · rename_i e u heq
      rw [heq] at hsafe
      rintro ⟨⟩
      exact hsafe rfl
    · split
      · simp
      · split <;> simp

theorem processEvent_safe {s : IndexService} {w : WaitingEvent}
    {definition : IndexDefinition} {schema : Schema}
    (hget : s.registry.get w.event.index = some definition)
    (hbuild : x.buildSchema definition = some schema) :
    (s.processEvent x w).1 ≠ .error .panic := by
  unfold processEvent
  simp only [hget]
  split
  · simp
  · have hwriter := ensureWriter_safe hget hbuild
    have hframe := (ensureWriter_opened x s w.event.index).1.frame
    cases hresult : s.ensureWriter x w.event.index with
    | mk r u =>
      rw [hresult] at hwriter hframe
      cases r with
      | error e =>
        rintro ⟨⟩
        exact hwriter rfl
      | ok writer =>
        have hget' : u.registry.get w.event.index = some definition := by
          rw [hframe.registry]
          exact hget
        have hindex := getOrCreateIndex_safe hget' hbuild
        dsimp only
        split
        · rename_i e v heq
          rw [heq] at hindex
          rintro ⟨⟩
          exact hindex rfl
        · split <;> simp
  · simp

theorem process_safe {s : IndexService} {w : WaitingEvent}
    {rest : List WaitingEvent} {definition : IndexDefinition} {schema : Schema}
    (hget : s.registry.get w.event.index = some definition)
    (hbuild : x.buildSchema definition = some schema) (hnext : s.receiver = w :: rest) :
    s.process x ≠ none := by
  have hsafe := processEvent_safe (s := { s with receiver := rest }) hget hbuild
  simp only [process, hnext, survive_eq_some.mpr ⟨hsafe, rfl⟩]
  exact Option.some_ne_none _

end IndexService

/-- **A definition can be used exactly when Tantivy takes the names of its fields, and none of
them is added to the schema anyway.** -/
theorem safeToUse_iff (x : Externals) (definition : IndexDefinition) :
    SafeToUse x definition ↔ x.Buildable definition := by
  rw [← x.buildSchema_isSome_iff definition]
  constructor
  · exact fun h => h.builds
  · intro hbuilds
    obtain ⟨schema, hbuild⟩ := Option.isSome_iff_exists.mp hbuilds
    have hbuildable := (x.buildSchema_isSome_iff definition).mp hbuilds
    refine ⟨(SchemaBuilder.schemaFields_nodup_iff definition).mpr hbuildable.2, hbuilds, ?_, ?_⟩
    · intro s hget
      exact IndexService.search_safe hget hbuild
    · intro s w rest hget hnext hindex
      rw [← hindex] at hget
      exact IndexService.process_safe hget hbuild hnext

/-- A definition with one field. -/
def declaring (field : String) : IndexDefinition where
  name := "a"
  fields := (∅ : Table String FieldDefinition).insert field { fieldType := .text }

/-- A definition is accepted with a field named `_source`, and with one that has no name or starts
with a hyphen. -/
theorem accepted_not_safeToUse :
    (∀ field ∈ ["_source", "", "-x"], validateSchema (declaring field) = some (.ok ()) ∧
      ¬ SafeToUse .tiny (declaring field)) ∧
    ¬ ∀ x definition, validateSchema definition = some (.ok ()) → SafeToUse x definition := by
  have hrefused : ∀ field ∈ ["_source", "", "-x"],
      validateSchema (declaring field) = some (.ok ()) ∧
        ¬ SafeToUse .tiny (declaring field) := by
    simp only [safeToUse_iff]
    decide +kernel
  refine ⟨hrefused, fun halways => ?_⟩
  obtain ⟨hvalid, hnot⟩ := hrefused "_source" List.mem_cons_self
  exact hnot (halways .tiny _ hvalid)

/-! ## What becomes of a payload -/

/-- The text of a value that is not null: a string as it is, anything else as JSON. -/
def textOf (toText : Json → String) : Json → String
  | .string s => s
  | .bool b => if b then "true" else "false"
  | val => toText val

/-- The texts of the unmapped values, in the order of their keys. -/
def unmappedTexts (definition : IndexDefinition) (toText : Json → String) (map : JsonMap) :
    List String :=
  (map.filter fun m => m.1 ∉ definition.fields ∧ m.2.isNull = false).map fun m =>
    textOf toText m.2

/-- No value of the payload is lost, and the document fits the schema. -/
structure Lossless (definition : IndexDefinition) (schema : Schema) (toText : Json → String)
    (map doc : JsonMap) : Prop where
  declared : ∀ m ∈ doc, schema.hasField m.1 = true
  source : doc.get? "_source" = some (.object map)
  mapped : ∀ key ∈ definition.fields, doc.get? key = (map.get? key).filter fun val => !val.isNull
  dynamic : definition.mode = .dynamic → doc.get? "_dynamic" =
    if unmappedTexts definition toText map = [] then none
    else some (.string (String.intercalate " " (unmappedTexts definition toText map)))
  static : definition.mode ≠ .dynamic → "_dynamic" ∉ definition.fields →
    doc.get? "_dynamic" = none

theorem dynamicPart_eq (toText : Json → String) (val : Json) :
    dynamicPart toText val = if val.isNull then none else some (textOf toText val) := by
  cases val <;> rfl

theorem splitMember_texts (definition : IndexDefinition) (toText : Json → String) (map : JsonMap)
    (acc : JsonMap × List String) :
    (map.foldl (definition.splitMember toText) acc).2 =
      acc.2 ++ unmappedTexts definition toText map := by
  induction map generalizing acc with
  | nil => simp [unmappedTexts]
  | cons m rest ih =>
    rw [List.foldl_cons, ih]
    have htexts : unmappedTexts definition toText (m :: rest) =
        (if m.1 ∉ definition.fields ∧ m.2.isNull = false then [textOf toText m.2] else []) ++
          unmappedTexts definition toText rest := by
      simp only [unmappedTexts, List.filter_cons, decide_eq_true_eq]
      split <;> rfl
    have hone : (definition.splitMember toText acc m).2 = acc.2 ++
        if m.1 ∉ definition.fields ∧ m.2.isNull = false then [textOf toText m.2] else [] := by
      rw [IndexDefinition.splitMember, dynamicPart_eq]
      by_cases hmem : m.1 ∈ definition.fields
      · by_cases hnull : m.2.isNull <;> simp [hmem, hnull]
      · by_cases hnull : m.2.isNull <;> simp [hmem, hnull]
    rw [hone, htexts, List.append_assoc]

theorem rootDocument_texts (definition : IndexDefinition) (toText : Json → String)
    (map : JsonMap) (hmode : definition.mode = .dynamic) (hfree : "_dynamic" ∉ definition.fields) :
    (definition.rootDocument toText map).get? "_dynamic" =
      if unmappedTexts definition toText map = [] then none
      else some (.string (String.intercalate " " (unmappedTexts definition toText map))) := by
  have htexts := splitMember_texts definition toText map ([], [])
  rw [List.nil_append] at htexts
  have hroot : JsonMap.get? (map.foldl (definition.splitMember toText) ([], [])).1 "_dynamic" = none := by
    rw [get?_eq_none_iff]
    intro m hm heq
    rcases IndexDefinition.splitMember_declared toText hm with hdeclared | hnil
    · exact hfree (heq ▸ hdeclared)
    · cases hnil
  unfold IndexDefinition.rootDocument
  dsimp only
  rw [htexts]
  by_cases hnil : unmappedTexts definition toText map = []
  · rw [if_neg (by simp [hnil]), JsonMap.get?_insert, if_neg (by decide), hroot, if_pos hnil]
  · rw [if_pos ⟨hmode, hnil⟩, JsonMap.get?_insert, if_pos rfl, if_neg hnil]

theorem rootDocument_static (definition : IndexDefinition) (toText : Json → String)
    (map : JsonMap) (hmode : definition.mode ≠ .dynamic) (hfree : "_dynamic" ∉ definition.fields) :
    (definition.rootDocument toText map).get? "_dynamic" = none := by
  unfold IndexDefinition.rootDocument
  dsimp only
  rw [if_neg fun h => hmode h.1, JsonMap.get?_insert, if_neg (by decide), get?_eq_none_iff]
  intro m hm heq
  rcases IndexDefinition.splitMember_declared toText hm with hdeclared | hnil
  · exact hfree (heq ▸ hdeclared)
  · cases hnil

/-- The document that is staged, if one is, is that of the payload. -/
theorem processEvent_staged {x : Externals} {s : Indexer} {event : IndexerEvent} {faults : Faults}
    {definition : IndexDefinition} {map : JsonMap} {op : Op}
    (hget : s.registry.get event.event.index = some definition)
    (hparse : x.fromSlice event.event.payload = .ok (.object map))
    (h : (s.processEvent x event faults).1 = .ok op) :
    op = .add (definition.rootDocument x.toText map) event.walOffset := by
  unfold Indexer.processEvent at h
  simp only [hget, hparse] at h
  split at h
  · cases h
  split at h
  · cases h
  split at h
  · cases h
  split at h
  · cases h
  · cases h
    rfl

/-- **The document of a payload keeps every value where it belongs and fits the schema of its
definition.** -/
theorem rootDocument_lossless {x : Externals} {s : Indexer} {event : IndexerEvent}
    {definition : IndexDefinition} {schema : Schema} {map : JsonMap}
    (hget : s.registry.get event.event.index = some definition)
    (hparse : x.fromSlice event.event.payload = .ok (.object map))
    (hbuild : x.buildSchema definition = some schema) :
    Lossless definition schema x.toText map (definition.rootDocument x.toText map) ∧
      ∀ faults op, (s.processEvent x event faults).1 = .ok op →
        op = .add (definition.rootDocument x.toText map) event.walOffset := by
  have hbuildable := (x.buildSchema_isSome_iff definition).mp (by rw [hbuild]; rfl)
  have hnodup : (map.map Prod.fst).Nodup := (x.keysSorted _ _ hparse).imp ne_of_lt
  refine ⟨⟨?_, ?_, ?_, ?_, ?_⟩, fun faults op => processEvent_staged hget hparse⟩
  · exact IndexDefinition.rootDocument_hasField hbuild x.toText map
  · exact IndexDefinition.rootDocument_source definition x.toText map
  · intro key hkey
    exact IndexDefinition.rootDocument_fields hbuildable x.toText hnodup hkey
  · intro hmode
    exact rootDocument_texts definition x.toText map hmode (hbuildable.2.2 hmode)
  · exact rootDocument_static definition x.toText map

/-- A payload with one key that its dynamic index does not know. -/
theorem rootDocument_lossless_example :
    ∃ definition schema doc, IndexRegistry.tiny.get "a" = some definition ∧
      doc.get? "_dynamic" = some (.string "1") ∧
      Lossless definition schema Externals.tiny.toText [("b", .number (.posInt 1))] doc := by
  let event : IndexerEvent := ⟨⟨"a", utf8 "\x7b\"b\":1\x7d"⟩, 13⟩
  let definition : IndexDefinition :=
    { name := "a", fields := (∅ : Table String FieldDefinition).insert "timestamp"
        { fieldType := .datetime, optional := true } }
  obtain ⟨schema, hbuild⟩ := Option.isSome_iff_exists.mp
    ((Externals.tiny.buildSchema_isSome_iff definition).mpr (by decide +kernel))
  have hparse : Externals.tiny.fromSlice event.event.payload =
      .ok (.object [("b", .number (.posInt 1))]) := by
    have hne : utf8 "\x7b\"b\":1\x7d" ≠ utf8 "\x7b\x7d" := by decide
    simp [Externals.tiny, event, hne]
  have hget : (Indexer.start .tiny ∅).registry.get event.event.index = some definition := rfl
  have hlossless := rootDocument_lossless hget hparse hbuild
  exact ⟨definition, schema, _, rfl, by rfl, hlossless.1⟩

end Edgewit
