import Edgewit.Registry
import Mathlib.Data.Finset.Card

/-!
# Loading the definitions at start-up

`load_from_dir` into an empty registry, over any listing of a directory. `load_iff`: it
succeeds when every definition file is sound; `load_spec`: what is registered then;
`load_fail_fast` adds that the order of the listing decides only between the files that
declare one name.

A file is what `is_file` and `read_to_string` see: a text. Everything else, a subdirectory
or a broken link, is a directory here.
-/

namespace Edgewit
namespace IndexRegistry
open FileTree (Entry)

/-- A regular file named `*.index.yaml` or `*.index.yml`. -/
def IsDefinitionFile (e : Listed) : Prop :=
  ∃ content, e.2 = Entry.file content ∧ isDefinitionFile e.1 = true

/-- The file parses, to a definition that passes `validate_schema`. -/
def Declares (x : Yaml) (e : Listed) (definition : IndexDefinition) : Prop :=
  ∃ content, e.2 = Entry.file content ∧ isDefinitionFile e.1 = true ∧
    x.fromStr content = .ok definition ∧ validateSchema definition = some (.ok ())

/-- The start-up: an empty registry, and no file counted yet. -/
def load (x : Yaml) (listing : List Listed) : Option (Except RegistryError (Nat × IndexRegistry)) :=
  IndexRegistry.new.loadFromDir x 0 listing

/-- The names that the definition files declare. -/
def declaredNames (x : Yaml) (listing : List Listed) : List String :=
  (listing.filterMap (declared x)).map IndexDefinition.name

/-! ## One file -/

theorem fromFile_iff {x : Yaml} {content : String} {definition : IndexDefinition} :
    IndexDefinition.fromFile x content = some (.ok definition) ↔
      x.fromStr content = .ok definition ∧ validateSchema definition = some (.ok ()) := by
  constructor
  · intro h
    refine ⟨?_, validateSchema_of_fromFile h⟩
    unfold IndexDefinition.fromFile at h
    cases hparse : x.fromStr content with
    | error e =>
      rw [hparse] at h
      cases h
    | ok parsed =>
      rw [hparse] at h
      obtain ⟨verdict, -, hok⟩ := Option.map_eq_some_iff.mp h
      cases verdict with
      | error e => cases hok
      | ok u =>
        cases hok
        rfl
  · rintro ⟨hparse, hvalid⟩
    simp only [IndexDefinition.fromFile, hparse, hvalid, Option.map_some]
    rfl

theorem declared_iff {x : Yaml} {e : Listed} {definition : IndexDefinition} :
    declared x e = some definition ↔ Declares x e definition := by
  obtain ⟨name, entry⟩ := e
  cases entry with
  | directory => simp [declared, Declares]
  | file content =>
    cases hname : isDefinitionFile name with
    | false => simp [declared, Declares, hname]
    | true =>
      have hread := @fromFile_iff x content definition
      simp only [declared, hname, if_true, Declares, Entry.file.injEq, true_and, exists_eq_left',
        ← hread]
      split
      · rename_i found hfound
        simp [hfound]
      · rename_i hnot
        constructor
        · intro h
          cases h
        · intro h
          exact absurd h (hnot definition)

theorem readable_iff {x : Yaml} {e : Listed} :
    Readable x e ↔ (IsDefinitionFile e → ∃ definition, Declares x e definition) := by
  constructor
  · rintro h ⟨content, hfile, hname⟩
    obtain ⟨definition, hread⟩ := h content hfile hname
    exact ⟨definition, content, hfile, hname, fromFile_iff.mp hread⟩
  · intro h content hfile hname
    obtain ⟨definition, content', hfile', -, hread⟩ := h ⟨content, hfile, hname⟩
    obtain rfl := Entry.file.inj (hfile.symm.trans hfile')
    exact ⟨definition, fromFile_iff.mpr hread⟩

theorem mem_declaredNames {x : Yaml} {listing : List Listed} {name : String} :
    name ∈ declaredNames x listing ↔
      ∃ e ∈ listing, ∃ definition, Declares x e definition ∧ definition.name = name := by
  simp only [declaredNames, List.mem_map, List.mem_filterMap, declared_iff]
  constructor
  · rintro ⟨definition, ⟨e, he, hdeclares⟩, hname⟩
    exact ⟨e, he, definition, hdeclares, hname⟩
  · rintro ⟨e, he, definition, hdeclares, hname⟩
    exact ⟨definition, ⟨e, he, hdeclares⟩, hname⟩

/-! ## The count -/

theorem keys_insert {registry : IndexRegistry} {definition : IndexDefinition}
    (hnew : definition.name ∉ registry.indexes) :
    (registry.insert definition).indexes.keys.length = registry.indexes.keys.length + 1 := by
  change (AList.insert definition.name definition registry.indexes).keys.length = _
  rw [AList.keys_insert, List.erase_of_not_mem (fun h => hnew (AList.mem_keys.mpr h)),
    List.length_cons]

/-- A file is counted when it adds a name. -/
theorem loadEntry_count {x : Yaml} {registry registry' : IndexRegistry} {e : Listed} {n : Nat}
    (h : registry.loadEntry x e = some (.ok (n, registry'))) :
    registry'.indexes.keys.length = registry.indexes.keys.length + n := by
  rw [loadEntry_eq (readable_of_loadEntry h)] at h
  split at h
  · cases h
    rfl
  split at h
  · cases h
    rfl
  · rename_i hnew
    cases h
    exact keys_insert hnew

theorem loadFromDir_count {x : Yaml} {registry loaded : IndexRegistry} {listing : List Listed}
    {count n : Nat} (h : registry.loadFromDir x count listing = some (.ok (n, loaded))) :
    registry.indexes.keys.length + n = loaded.indexes.keys.length + count := by
  induction listing generalizing registry count with
  | nil =>
    cases h
    rfl
  | cons e rest ih =>
    simp only [loadFromDir] at h
    split at h
    · rename_i k found hentry
      have hcount := loadEntry_count hentry
      have hrest := ih h
      omega
    · rename_i hstopped
      exact absurd h (hstopped n loaded)

/-! ## Loading -/

theorem load_iff {x : Yaml} {listing : List Listed} :
    (∃ n loaded, load x listing = some (.ok (n, loaded))) ↔
      ∀ e ∈ listing, IsDefinitionFile e → ∃ definition, Declares x e definition := by
  simp only [← readable_iff]
  constructor
  · rintro ⟨n, loaded, h⟩
    exact readable_of_loadFromDir h
  · intro h
    obtain ⟨n, loaded, hload, -⟩ := loadFromDir_eq h .new 0
    exact ⟨n, loaded, hload⟩

theorem load_get {x : Yaml} {listing : List Listed} {n : Nat} {loaded : IndexRegistry}
    (h : load x listing = some (.ok (n, loaded))) (name : String) :
    loaded.get name = (listing.filterMap (declared x)).find? (·.name = name) := by
  obtain ⟨n', loaded', hload, hget⟩ := loadFromDir_eq (readable_of_loadFromDir h) .new 0
  have hsame := h.symm.trans hload
  cases hsame
  rw [hget name, show IndexRegistry.new.get name = none from rfl, Option.none_or]

theorem load_mem {x : Yaml} {listing : List Listed} {n : Nat} {loaded : IndexRegistry}
    (h : load x listing = some (.ok (n, loaded))) (name : String) :
    name ∈ loaded.indexes ↔ name ∈ declaredNames x listing := by
  rw [← AList.lookup_isSome, show AList.lookup name loaded.indexes = loaded.get name from rfl,
    load_get h, List.find?_isSome]
  simp [declaredNames]

theorem load_stored {x : Yaml} {listing : List Listed} {n : Nat} {loaded : IndexRegistry}
    (h : load x listing = some (.ok (n, loaded))) {name : String} {definition : IndexDefinition}
    (hget : loaded.get name = some definition) :
    definition.name = name ∧ ∃ e ∈ listing, Declares x e definition := by
  refine ⟨loaded.named name definition hget, ?_⟩
  rw [load_get h] at hget
  obtain ⟨e, he, hdeclared⟩ := List.mem_filterMap.mp (List.mem_of_find?_eq_some hget)
  exact ⟨e, he, declared_iff.mp hdeclared⟩

theorem load_count {x : Yaml} {listing : List Listed} {n : Nat} {loaded : IndexRegistry}
    (h : load x listing = some (.ok (n, loaded))) : n = (declaredNames x listing).toFinset.card := by
  have hcount : 0 + n = loaded.indexes.keys.length + 0 := loadFromDir_count h
  have hnames : (declaredNames x listing).toFinset = loaded.indexes.keys.toFinset := by
    ext name
    rw [List.mem_toFinset, List.mem_toFinset, ← load_mem h, AList.mem_keys]
  rw [hnames, List.toFinset_card_of_nodup loaded.indexes.keys_nodup]
  omega

theorem declaredNames_perm {x : Yaml} {listing other : List Listed} (h : listing.Perm other) :
    (declaredNames x listing).Perm (declaredNames x other) :=
  (h.filterMap _).map _

/-- **Loading fails fast.** It succeeds exactly when every definition file parses and
passes the validation. The registry then has the names declared, each with a definition
that one of the files declares under it, and the count is the number of the names. None of
this depends on the order of the listing. -/
theorem load_fail_fast (x : Yaml) (listing : List Listed) :
    ((∃ n loaded, load x listing = some (.ok (n, loaded))) ↔
      ∀ e ∈ listing, IsDefinitionFile e → ∃ definition, Declares x e definition) ∧
    (∀ n loaded, load x listing = some (.ok (n, loaded)) →
      (∀ name, name ∈ loaded.indexes ↔
        ∃ e ∈ listing, ∃ definition, Declares x e definition ∧ definition.name = name) ∧
      (∀ name definition, loaded.get name = some definition →
        definition.name = name ∧ ∃ e ∈ listing, Declares x e definition) ∧
      n = (declaredNames x listing).toFinset.card) ∧
    ∀ other, listing.Perm other →
      ((∃ n loaded, load x listing = some (.ok (n, loaded))) ↔
        ∃ n loaded, load x other = some (.ok (n, loaded))) ∧
      ∀ n loaded n' loaded', load x listing = some (.ok (n, loaded)) →
        load x other = some (.ok (n', loaded')) →
        n = n' ∧ ∀ name, name ∈ loaded.indexes ↔ name ∈ loaded'.indexes := by
  refine ⟨load_iff, ?_, ?_⟩
  · intro n loaded h
    refine ⟨fun name => ?_, fun name definition => load_stored h, load_count h⟩
    rw [load_mem h, mem_declaredNames]
  · intro other hperm
    constructor
    · simp only [load_iff, hperm.mem_iff]
    · intro n loaded n' loaded' h h'
      have hnames := declaredNames_perm (x := x) hperm
      constructor
      · rw [load_count h, load_count h', List.toFinset_eq_of_perm _ _ hnames]
      · intro name
        rw [load_mem h, load_mem h', hnames.mem_iff]

end IndexRegistry
end Edgewit
