import Edgewit.FileTree
import Edgewit.SchemaValidation

/-!
# The index registry

`register`, `upsert`, `remove` and `load_from_dir`. A directory is listed in any order;
what loading it gives is `loadFromDir_eq`.
-/

namespace Edgewit
open FileTree (Entry)

inductive RegistryError where
  | alreadyExists (name : String)
  | notFound (name : String)
  | validationError (e : ValidationError)
  deriving DecidableEq, Repr

def RegistryError.text : RegistryError → String
  | .alreadyExists name => s!"index '{name}' already exists"
  | .notFound name => s!"index '{name}' not found"
  | .validationError e => s!"validation error: {e.text}"

/-- serde_yaml on index definitions. -/
structure Yaml where
  fromStr : String → Except String IndexDefinition
  toString : IndexDefinition → Except String String
  roundTrip : ∀ definition text, toString definition = .ok text → fromStr text = .ok definition

/-- A directory. Its entries are listed in no particular order. -/
abbrev Folder := Table String Entry

/-- An entry of a listing. -/
abbrev Listed := (_ : String) × Entry

namespace IndexRegistry

theorem get_insert (registry : IndexRegistry) (definition : IndexDefinition) (name : String) :
    (registry.insert definition).get name =
      if name = definition.name then some definition else registry.get name :=
  Table.lookup_insert_eq _ _ _ _

/-- `none` is a panic of the validation. -/
def register (registry : IndexRegistry) (definition : IndexDefinition) :
    Option (Except RegistryError IndexRegistry) :=
  (validateSchema definition).map fun
    | .error e => .error (.validationError e)
    | .ok () =>
      if definition.name ∈ registry.indexes then .error (.alreadyExists definition.name)
      else .ok (registry.insert definition)

def upsert (registry : IndexRegistry) (definition : IndexDefinition) :
    Option (Except RegistryError IndexRegistry) :=
  (validateSchema definition).map fun
    | .error e => .error (.validationError e)
    | .ok () => .ok (registry.insert definition)

def erase (registry : IndexRegistry) (name : String) : IndexRegistry :=
  ⟨registry.indexes.erase name, by
    intro n definition h
    rw [Table.lookup_erase_eq] at h
    split at h
    · cases h
    · exact registry.named n definition h⟩

theorem get_erase (registry : IndexRegistry) (name n : String) :
    (registry.erase name).get n = if n = name then none else registry.get n :=
  Table.lookup_erase_eq _ _ _

def remove (registry : IndexRegistry) (name : String) : Except RegistryError IndexRegistry :=
  if name ∈ registry.indexes then .ok (registry.erase name) else .error (.notFound name)

end IndexRegistry

/-! ## Loading -/

def IndexDefinition.fromFile (x : Yaml) (content : String) :
    Option (Except ValidationError IndexDefinition) :=
  match x.fromStr content with
  | .error e => some (.error (.yamlError e))
  | .ok definition => (validateSchema definition).map fun r => r.map fun _ => definition

def isDefinitionFile (fileName : String) : Bool :=
  ".index.yaml".toList.isSuffixOf fileName.toList || ".index.yml".toList.isSuffixOf fileName.toList

namespace IndexRegistry

/-- The loop body: a definition already registered under its name is skipped. -/
def loadEntry (x : Yaml) (registry : IndexRegistry) (e : Listed) :
    Option (Except RegistryError (Nat × IndexRegistry)) :=
  match e.2 with
  | .directory => some (.ok (0, registry))
  | .file content =>
    if isDefinitionFile e.1 then
      match IndexDefinition.fromFile x content with
      | none => none
      | some (.error err) => some (.error (.validationError err))
      | some (.ok definition) =>
        match registry.register definition with
        | none => none
        | some (.ok registry) => some (.ok (1, registry))
        | some (.error (.alreadyExists _)) => some (.ok (0, registry))
        | some (.error err) => some (.error err)
    else some (.ok (0, registry))

/-- `load_from_dir`, with the count so far. -/
def loadFromDir (x : Yaml) (registry : IndexRegistry) (count : Nat) :
    List Listed → Option (Except RegistryError (Nat × IndexRegistry))
  | [] => some (.ok (count, registry))
  | e :: rest =>
    match registry.loadEntry x e with
    | some (.ok (n, registry)) => loadFromDir x registry (count + n) rest
    | stopped => stopped

/-- The definition that an entry declares. -/
def declared (x : Yaml) (e : Listed) : Option IndexDefinition :=
  match e.2 with
  | .directory => none
  | .file content =>
    if isDefinitionFile e.1 then
      match IndexDefinition.fromFile x content with
      | some (.ok definition) => some definition
      | _ => none
    else none

/-- A definition file that is read without an error. -/
def Readable (x : Yaml) (e : Listed) : Prop :=
  ∀ content, e.2 = .file content → isDefinitionFile e.1 = true →
    ∃ definition, IndexDefinition.fromFile x content = some (.ok definition)

theorem validateSchema_of_fromFile {x : Yaml} {content : String} {definition : IndexDefinition}
    (h : IndexDefinition.fromFile x content = some (.ok definition)) :
    validateSchema definition = some (.ok ()) := by
  unfold IndexDefinition.fromFile at h
  split at h
  · cases h
  · obtain ⟨verdict, hverdict, hok⟩ := Option.map_eq_some_iff.mp h
    cases verdict with
    | error e => cases hok
    | ok _ =>
      cases hok
      exact hverdict

theorem loadEntry_eq {x : Yaml} {registry : IndexRegistry} {e : Listed} (he : Readable x e) :
    registry.loadEntry x e = some (.ok
      (match declared x e with
      | none => (0, registry)
      | some definition =>
        if definition.name ∈ registry.indexes then (0, registry)
        else (1, registry.insert definition))) := by
  obtain ⟨name, entry⟩ := e
  cases entry with
  | directory => rfl
  | file content =>
    cases hname : isDefinitionFile name with
    | false => simp [loadEntry, declared, hname]
    | true =>
      obtain ⟨definition, hread⟩ := he content rfl hname
      simp only [loadEntry, declared, hname, if_true, hread, register,
        validateSchema_of_fromFile hread, Option.map_some]
      by_cases hmem : definition.name ∈ registry.indexes
      · simp only [if_pos hmem]
      · simp only [if_neg hmem]

theorem readable_of_loadEntry {x : Yaml} {registry registry' : IndexRegistry} {n : Nat} {e : Listed}
    (h : registry.loadEntry x e = some (.ok (n, registry'))) : Readable x e := by
  intro content hfile hname
  unfold loadEntry at h
  simp only [hfile, hname, if_true] at h
  cases hread : IndexDefinition.fromFile x content with
  | none =>
    rw [hread] at h
    cases h
  | some verdict =>
    cases verdict with
    | error err =>
      rw [hread] at h
      cases h
    | ok definition => exact ⟨definition, rfl⟩

/-- Loading succeeds when every definition file is readable. A name that is not registered
yet gets the first definition listed for it. -/
theorem loadFromDir_eq {x : Yaml} {listing : List Listed} (hreadable : ∀ e ∈ listing, Readable x e)
    (registry : IndexRegistry) (count : Nat) :
    ∃ n loaded, registry.loadFromDir x count listing = some (.ok (n, loaded)) ∧
      ∀ name, loaded.get name =
        (registry.get name).or ((listing.filterMap (declared x)).find? (·.name = name)) := by
  induction listing generalizing registry count with
  | nil => exact ⟨count, registry, rfl, fun name => by simp⟩
  | cons e rest ih =>
    obtain ⟨he, hrest⟩ := List.forall_mem_cons.mp hreadable
    simp only [loadFromDir, loadEntry_eq he]
    cases hdeclared : declared x e with
    | none =>
      simp only [List.filterMap_cons, hdeclared]
      exact ih hrest registry _
    | some definition =>
      simp only [List.filterMap_cons, hdeclared, List.find?_cons]
      by_cases hmem : definition.name ∈ registry.indexes
      · simp only [if_pos hmem]
        obtain ⟨n, loaded, hload, hget⟩ := ih hrest registry (count + 0)
        refine ⟨n, loaded, hload, fun name => ?_⟩
        rw [hget name]
        by_cases hname : definition.name = name
        · obtain ⟨d, hd⟩ := Option.isSome_iff_exists.mp (AList.lookup_isSome.mpr (hname ▸ hmem))
          rw [show registry.get name = some d from hd]
          rfl
        · simp [hname]
      · simp only [if_neg hmem]
        obtain ⟨n, loaded, hload, hget⟩ := ih hrest (registry.insert definition) (count + 1)
        refine ⟨n, loaded, hload, fun name => ?_⟩
        rw [hget name, get_insert]
        by_cases hname : definition.name = name
        · subst hname
          rw [show registry.get definition.name = none from AList.lookup_eq_none.mpr hmem]
          simp
        · simp [hname, Ne.symm hname]

theorem readable_of_loadFromDir {x : Yaml} {listing : List Listed} {registry loaded : IndexRegistry}
    {count n : Nat} (h : registry.loadFromDir x count listing = some (.ok (n, loaded))) :
    ∀ e ∈ listing, Readable x e := by
  induction listing generalizing registry count with
  | nil => simp
  | cons e rest ih =>
    simp only [loadFromDir] at h
    cases hentry : registry.loadEntry x e with
    | none =>
      rw [hentry] at h
      cases h
    | some verdict =>
      cases verdict with
      | error err =>
        rw [hentry] at h
        cases h
      | ok found =>
        rw [hentry] at h
        exact List.forall_mem_cons.mpr ⟨readable_of_loadEntry hentry, ih h⟩

end IndexRegistry
end Edgewit
