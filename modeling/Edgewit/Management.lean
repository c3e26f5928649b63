import Edgewit.Machine
import Edgewit.Registry

/-!
# Index management

`create_index_handler` and `delete_index_handler` on the registry and the directory
`data_dir/indexes`. A restart loads that directory again: `restores_iff` says of every
sequence of requests when it finds what the registry held.
-/

namespace Edgewit
open IndexRegistry
open FileTree (Entry)

/-- A name that is one component of a path. -/
def Ordinary (name : String) : Prop :=
  name ≠ "" ∧ name ≠ "." ∧ name ≠ ".." ∧ '/' ∉ name.toList

instance (name : String) : Decidable (Ordinary name) := by
  unfold Ordinary
  infer_instance

abbrev IndexName := { name : String // Ordinary name }

/-- The entry of a definition; the data are in the entry with the name itself. -/
def definitionFile (name : String) : String := name ++ ".index.yaml"

theorem definitionFile_inj {name name' : String} (h : definitionFile name = definitionFile name') :
    name = name' := by
  have hlist := congrArg String.toList h
  simp only [definitionFile, String.toList_append] at hlist
  exact String.toList_inj.mp (List.append_cancel_right hlist)

/-- The disk steps of a request that fail. A failed write leaves the file as it was, or
with a part of the text. -/
structure ManagementFaults where
  createDir : Bool := false
  write : Option (Option String) := none
  removeFile : Bool := false
  removeDir : Bool := false
  deriving DecidableEq, Repr

namespace Folder

/-- `fs::write`, and whether it succeeds. -/
def write (folder : Folder) (name text : String) (fault : Option (Option String)) : Bool × Folder :=
  if folder.lookup name = some .directory then (false, folder)
  else
    match fault with
    | none => (true, folder.insert name (.file text))
    | some none => (false, folder)
    | some (some part) => (false, folder.insert name (.file part))

/-- `remove_file`, where there is something. -/
def removeFile (folder : Folder) (name : String) (fault : Bool) : Bool × Folder :=
  match folder.lookup name with
  | none => (true, folder)
  | some .directory => (false, folder)
  | some (.file _) => if fault then (false, folder) else (true, folder.erase name)

/-- `remove_dir_all`, where there is something. -/
def removeDirAll (folder : Folder) (name : String) (fault : Bool) : Bool × Folder :=
  match folder.lookup name with
  | none => (true, folder)
  | some (.file _) => (false, folder)
  | some .directory => if fault then (false, folder) else (true, folder.erase name)

end Folder

/-! ## The handlers -/

/-- The definitions in memory, and those on disk. -/
structure Catalog where
  registry : IndexRegistry
  folder : Folder

def errorBody (text : String) : Json := .object [("error", .string text)]

def messageBody (text : String) : Json := .object [("message", .string text)]

def managementDisabled : Nat × Json := (403, errorBody "Index management via API is disabled")

/-- A definition under the name in the path. -/
def IndexDefinition.under (payload : IndexDefinition) (index : String) : IndexDefinition :=
  { payload with name := index }

namespace Catalog

/-- The steps of `create_index_handler` after the registration. -/
def persist (x : Yaml) (faults : ManagementFaults) (s : Catalog) (index : String)
    (payload : IndexDefinition) : (Nat × Json) × Catalog :=
  if faults.createDir then ((500, errorBody "Failed to create directory on disk"), s)
  else
    match x.toString payload with
    | .error _ => ((500, errorBody "Failed to serialize definition"), s)
    | .ok text =>
      let (ok, folder) := s.folder.write (definitionFile index) text faults.write
      if ok then ((200, messageBody "Index updated successfully"), { s with folder })
      else ((500, errorBody "Failed to persist index definition"), { s with folder })

/-- `none` is a panic of the validation. -/
def createIndexHandler (x : Yaml) (enabled : Bool) (faults : ManagementFaults) (s : Catalog)
    (index : IndexName) (payload : IndexDefinition) : Option ((Nat × Json) × Catalog) :=
  if !enabled then some (managementDisabled, s)
  else
    let payload := payload.under index
    (s.registry.upsert payload).map fun
      | .ok registry => persist x faults { s with registry } index payload
      | .error (.validationError e) => ((400, errorBody s!"Validation failed: {e.text}"), s)
      | .error e => ((500, errorBody s!"Internal error: {e.text}"), s)

/-- Disk steps that fail are logged. -/
def deleteIndexHandler (enabled : Bool) (faults : ManagementFaults) (s : Catalog)
    (index : IndexName) : (Nat × Json) × Catalog :=
  if !enabled then (managementDisabled, s)
  else
    match s.registry.remove index with
    | .ok registry =>
      let (_, folder) := s.folder.removeFile (definitionFile index) faults.removeFile
      let (_, folder) := folder.removeDirAll index faults.removeDir
      ((200, messageBody "Index deleted successfully"), { registry, folder })
    | .error (.notFound _) => ((404, errorBody "Index not found"), s)
    | .error e => ((500, errorBody s!"Internal error: {e.text}"), s)

end Catalog

/-! ## Sequences of requests -/

inductive ManagementRequest where
  | put (index : IndexName) (payload : IndexDefinition)
  | delete (index : IndexName)

namespace Catalog

/-- Whether the disk steps of a request can be done: no directory is where the definition
belongs, and no file where the data belong. -/
def Unobstructed (x : Yaml) (s : Catalog) : ManagementRequest → Prop
  | .put index payload => validateSchema (payload.under index) = some (.ok ()) →
    s.folder.lookup (definitionFile index) ≠ some .directory ∧
      (x.toString (payload.under index)).toOption.isSome = true
  | .delete index => index.1 ∈ s.registry.indexes →
    s.folder.lookup (definitionFile index) ≠ some .directory ∧
      (s.folder.lookup index.1 = none ∨ s.folder.lookup index.1 = some .directory)

instance (x : Yaml) (s : Catalog) (req : ManagementRequest) : Decidable (s.Unobstructed x req) := by
  cases req <;> unfold Unobstructed <;> infer_instance

/-- A request that is answered before the next one comes, with no failure of the disk. -/
def serve (x : Yaml) (s : Catalog) (req : ManagementRequest) : Option Catalog :=
  if s.Unobstructed x req then
    match req with
    | .put index payload => (createIndexHandler x true {} s index payload).map Prod.snd
    | .delete index => some (deleteIndexHandler true {} s index).2
  else none

/-- What a request changes. -/
inductive Served (x : Yaml) (s : Catalog) : ManagementRequest → Catalog → Prop where
  | refused {index : IndexName} {payload : IndexDefinition}
      (hinvalid : validateSchema (payload.under index) ≠ some (.ok ())) :
      Served x s (.put index payload) s
  | missing {index : IndexName} (hmissing : index.1 ∉ s.registry.indexes) :
      Served x s (.delete index) s
  | put {index : IndexName} {payload : IndexDefinition} {text : String}
      (hvalid : validateSchema (payload.under index) = some (.ok ()))
      (htext : x.toString (payload.under index) = .ok text) :
      Served x s (.put index payload) ⟨s.registry.insert (payload.under index),
        s.folder.insert (definitionFile index) (.file text)⟩
  | delete {index : IndexName} {folder : Folder} (hmem : index.1 ∈ s.registry.indexes)
      (hdata : s.folder.lookup index.1 = none ∨ s.folder.lookup index.1 = some .directory)
      (hfolder : ∀ name, folder.lookup name =
        if name = definitionFile index ∨ name = index.1 then none else s.folder.lookup name) :
      Served x s (.delete index) ⟨s.registry.erase index, folder⟩

theorem definitionFile_ne (name : String) : definitionFile name ≠ name := by
  intro h
  have hlength := congrArg (fun s : String => s.toList.length) h
  simp [definitionFile] at hlength

theorem removeFile_lookup {folder : Folder} {name : String}
    (h : folder.lookup name ≠ some .directory) (n : String) :
    (folder.removeFile name false).2.lookup n = if n = name then none else folder.lookup n := by
  unfold Folder.removeFile
  split
  · rename_i habsent
    by_cases hn : n = name
    · rw [if_pos hn, hn, habsent]
    · rw [if_neg hn]
  · rename_i hdir
    exact absurd hdir h
  · exact Table.lookup_erase_eq _ _ _

theorem removeDirAll_lookup {folder : Folder} {name : String}
    (h : folder.lookup name = none ∨ folder.lookup name = some .directory) (n : String) :
    (folder.removeDirAll name false).2.lookup n = if n = name then none else folder.lookup n := by
  unfold Folder.removeDirAll
  split
  · rename_i habsent
    by_cases hn : n = name
    · rw [if_pos hn, hn, habsent]
    · rw [if_neg hn]
  · rename_i content hfile
    simp [hfile] at h
  · exact Table.lookup_erase_eq _ _ _

theorem serve_cases {x : Yaml} {s t : Catalog} {req : ManagementRequest}
    (h : s.serve x req = some t) : Served x s req t := by
  unfold serve at h
  split at h
  swap
  · cases h
  rename_i hfree
  cases req with
  | put index payload =>
    obtain ⟨⟨answer, u⟩, hhandler, rfl⟩ := Option.map_eq_some_iff.mp h
    obtain ⟨result, hupsert, hresult⟩ := Option.map_eq_some_iff.mp hhandler
    obtain ⟨verdict, hverdict, rfl⟩ := Option.map_eq_some_iff.mp hupsert
    cases verdict with
    | error e =>
      cases hresult
      exact .refused (by simp [hverdict])
    | ok _ =>
      obtain ⟨hentry, hok⟩ := hfree hverdict
      cases htext : x.toString (payload.under index) with
      | error e =>
        rw [htext] at hok
        cases hok
      | ok text =>
        have hpersist := congrArg Prod.snd hresult
        simp only [persist, htext, Folder.write, if_neg hentry] at hpersist
        rw [← hpersist]
        exact .put hverdict htext
  | delete index =>
    simp only [Option.some.injEq] at h
    subst h
    by_cases hmem : index.1 ∈ s.registry.indexes
    · obtain ⟨hfile, hdata⟩ := hfree hmem
      simp only [deleteIndexHandler, IndexRegistry.remove, if_pos hmem]
      refine .delete hmem hdata fun name => ?_
      have hne := definitionFile_ne index.1
      have hdata' : (s.folder.removeFile (definitionFile index) false).2.lookup index.1 = none ∨
          (s.folder.removeFile (definitionFile index) false).2.lookup index.1 = some .directory := by
        rw [removeFile_lookup hfile, if_neg hne.symm]
        exact hdata
      rw [removeDirAll_lookup hdata', removeFile_lookup hfile]
      by_cases hn : name = index.1
      · simp [hn]
      · simp [hn]
    · simp only [deleteIndexHandler, IndexRegistry.remove, if_neg hmem]
      exact .missing hmem

/-! ## Restarts -/

/-- The definition that the file of a name declares. -/
def declaredAt (x : Yaml) (folder : Folder) (file : String) : Option IndexDefinition :=
  (folder.lookup file).bind fun entry => declared x ⟨file, entry⟩

/-- A restart, whatever the order of the listing, finds the definitions of the registry. -/
def Restores (x : Yaml) (s : Catalog) : Prop :=
  ∀ listing : List Listed, listing.Perm s.folder.entries →
    ∃ n loaded, IndexRegistry.new.loadFromDir x 0 listing = some (.ok (n, loaded)) ∧
      ∀ name, loaded.get name = s.registry.get name

/-- Every file declares what the registry has under that name, and no name is without a
file. -/
structure Mirrors (x : Yaml) (s : Catalog) : Prop where
  readable : ∀ file entry, s.folder.lookup file = some entry → Readable x ⟨file, entry⟩
  current : ∀ file d, declaredAt x s.folder file = some d → s.registry.get d.name = some d
  kept : ∀ name d, s.registry.get name = some d →
    ∃ file d', declaredAt x s.folder file = some d' ∧ d'.name = name

/-- The file of a name is the only one that declares it, and declares nothing else. Another
file may say what the request leaves under the name, or what the file declared before. -/
structure Owns (x : Yaml) (folder : Folder) (name : String) (left : Option IndexDefinition) :
    Prop where
  others : ∀ file d, file ≠ definitionFile name → declaredAt x folder file = some d →
    d.name = name → left = some d
  only : ∀ d, declaredAt x folder (definitionFile name) = some d → d.name ≠ name →
    ∃ file d', file ≠ definitionFile name ∧ declaredAt x folder file = some d' ∧ d'.name = d.name

/-- The condition on a request that changes something. -/
def Owned (x : Yaml) (s : Catalog) : ManagementRequest → Prop
  | .put index payload => validateSchema (payload.under index) = some (.ok ()) →
    Owns x s.folder index (some (payload.under index))
  | .delete index => index.1 ∈ s.registry.indexes → Owns x s.folder index none

theorem mem_declared {x : Yaml} {folder : Folder} {listing : List Listed} {d : IndexDefinition}
    (hperm : listing.Perm folder.entries) :
    d ∈ listing.filterMap (declared x) ↔ ∃ file, declaredAt x folder file = some d := by
  rw [List.mem_filterMap]
  constructor
  · rintro ⟨⟨file, entry⟩, hmem, hd⟩
    have hlookup : folder.lookup file = some entry := AList.mem_lookup_iff.mpr (hperm.mem_iff.mp hmem)
    exact ⟨file, by rw [declaredAt, hlookup]; exact hd⟩
  · rintro ⟨file, hd⟩
    obtain ⟨entry, hlookup, hentry⟩ := Option.bind_eq_some_iff.mp hd
    exact ⟨⟨file, entry⟩, hperm.mem_iff.mpr (AList.mem_lookup_iff.mp hlookup), hentry⟩

theorem restores_of_mirrors {x : Yaml} {s : Catalog} (hs : Mirrors x s) : Restores x s := by
  intro listing hperm
  have hreadable : ∀ e ∈ listing, Readable x e := fun e he =>
    hs.readable e.1 e.2 (AList.mem_lookup_iff.mpr (hperm.mem_iff.mp he))
  obtain ⟨n, loaded, hload, hget⟩ := loadFromDir_eq hreadable .new 0
  refine ⟨n, loaded, hload, fun name => ?_⟩
  rw [hget name, show IndexRegistry.new.get name = none from rfl, Option.none_or]
  cases hfound : (listing.filterMap (declared x)).find? (·.name = name) with
  | none =>
    cases hget : s.registry.get name with
    | none => rfl
    | some d =>
      obtain ⟨file, d', hd', hname⟩ := hs.kept name d hget
      have hmem := (mem_declared hperm).mpr ⟨file, hd'⟩
      exact absurd (by simpa using hname) (List.find?_eq_none.mp hfound d' hmem)
  | some d =>
    obtain ⟨file, hd⟩ := (mem_declared hperm).mp (List.mem_of_find?_eq_some hfound)
    have hname : d.name = name := by simpa using List.find?_some hfound
    rw [← hname]
    exact (hs.current file d hd).symm

/-- If two files disagree, or a file and the registry do, some listing shows it. -/
theorem mirrors_of_restores {x : Yaml} {s : Catalog} (hs : Restores x s) : Mirrors x s := by
  obtain ⟨n, loaded, hload, hget⟩ := hs s.folder.entries (List.Perm.refl _)
  have hreadable := readable_of_loadFromDir hload
  constructor
  · intro file entry hlookup
    exact hreadable _ (AList.mem_lookup_iff.mp hlookup)
  · intro file d hd
    obtain ⟨entry, hlookup, hentry⟩ := Option.bind_eq_some_iff.mp hd
    -- The listing in which this file comes first.
    obtain ⟨front, back, hsplit⟩ := List.append_of_mem (AList.mem_lookup_iff.mp hlookup)
    have hperm : (⟨file, entry⟩ :: (front ++ back) : List Listed).Perm s.folder.entries := by
      rw [hsplit]
      exact List.perm_middle.symm
    obtain ⟨n', loaded', hload', hget'⟩ := hs _ hperm
    obtain ⟨n'', loaded'', hload'', hget''⟩ :=
      loadFromDir_eq (readable_of_loadFromDir hload') .new 0
    rw [hload'] at hload''
    cases hload''
    rw [← hget', hget'', show IndexRegistry.new.get d.name = none from rfl]
    simp [hentry]
  · intro name d hd
    obtain ⟨n', loaded', hload', hget'⟩ := loadFromDir_eq hreadable .new 0
    rw [hload] at hload'
    cases hload'
    rw [← hget, hget', show IndexRegistry.new.get name = none from rfl, Option.none_or] at hd
    obtain ⟨file, hfile⟩ := (mem_declared (List.Perm.refl _)).mp (List.mem_of_find?_eq_some hd)
    exact ⟨file, d, hfile, by simpa using List.find?_some hd⟩

theorem restores_iff_mirrors {x : Yaml} {s : Catalog} : Restores x s ↔ Mirrors x s :=
  ⟨mirrors_of_restores, restores_of_mirrors⟩

/-- A request leaves a definition, or none, under its name and in the file of that name. -/
theorem mirrors_changed_iff {x : Yaml} {s t : Catalog} {name : String}
    {left : Option IndexDefinition} (hs : Mirrors x s) (hleft : ∀ d ∈ left, d.name = name)
    (hregistry : ∀ n, t.registry.get n = if n = name then left else s.registry.get n)
    (hfiles : ∀ file, declaredAt x t.folder file =
      if file = definitionFile name then left else declaredAt x s.folder file)
    (hreadable : ∀ file entry, t.folder.lookup file = some entry → Readable x ⟨file, entry⟩) :
    Mirrors x t ↔ Owns x s.folder name left := by
  constructor
  · intro ht
    constructor
    · intro file d hfile hd hname
      have hcurrent := ht.current file d (by rw [hfiles, if_neg hfile, hd])
      rw [hregistry, if_pos hname] at hcurrent
      exact hcurrent
    · intro d hd hname
      have hcurrent : t.registry.get d.name = some d := by
        rw [hregistry, if_neg hname]
        exact hs.current _ d hd
      obtain ⟨file, d', hd', hsame⟩ := ht.kept _ d hcurrent
      by_cases hfile : file = definitionFile name
      · rw [hfiles, if_pos hfile] at hd'
        exact absurd (hsame ▸ hleft d' hd') hname
      · rw [hfiles, if_neg hfile] at hd'
        exact ⟨file, d', hfile, hd', hsame⟩
  · intro howns
    refine ⟨hreadable, ?_, ?_⟩
    · intro file d hd
      rw [hfiles] at hd
      by_cases hfile : file = definitionFile name
      · rw [if_pos hfile] at hd
        rw [hregistry, if_pos (hleft d hd), hd]
      · rw [if_neg hfile] at hd
        by_cases hname : d.name = name
        · rw [hregistry, if_pos hname]
          exact howns.others file d hfile hd hname
        · rw [hregistry, if_neg hname]
          exact hs.current file d hd
    · intro n d hd
      rw [hregistry] at hd
      by_cases hname : n = name
      · rw [if_pos hname] at hd
        exact ⟨definitionFile name, d, by rw [hfiles, if_pos rfl, hd], hname ▸ hleft d hd⟩
      · rw [if_neg hname] at hd
        obtain ⟨file, d', hd', hsame⟩ := hs.kept n d hd
        by_cases hfile : file = definitionFile name
        · obtain ⟨other, e, hother, he, hen⟩ :=
            howns.only d' (hfile ▸ hd') (by rw [hsame]; exact hname)
          exact ⟨other, e, by rw [hfiles, if_neg hother, he], hen.trans hsame⟩
        · exact ⟨file, d', by rw [hfiles, if_neg hfile, hd'], hsame⟩

theorem isDefinitionFile_definitionFile (name : String) :
    isDefinitionFile (definitionFile name) = true := by
  simp [isDefinitionFile, definitionFile]

theorem fromFile_toString {x : Yaml} {d : IndexDefinition} {text : String}
    (hvalid : validateSchema d = some (.ok ())) (htext : x.toString d = .ok text) :
    IndexDefinition.fromFile x text = some (.ok d) := by
  simp only [IndexDefinition.fromFile, x.roundTrip d text htext, hvalid, Option.map_some]
  rfl

/-- After a request the files mirror the registry exactly when its name owned its file. -/
theorem serve_mirrors {x : Yaml} {s t : Catalog} {req : ManagementRequest} (hs : Mirrors x s)
    (hserved : Served x s req t) : Mirrors x t ↔ s.Owned x req := by
  cases hserved with
  | refused hinvalid => exact ⟨fun _ hvalid => absurd hvalid hinvalid, fun _ => hs⟩
  | missing hmissing => exact ⟨fun _ hmem => absurd hmem hmissing, fun _ => hs⟩
  | @put index payload text hvalid htext =>
    have hread := fromFile_toString hvalid htext
    have hname := isDefinitionFile_definitionFile index
    have howned : s.Owned x (.put index payload) ↔
        Owns x s.folder index (some (payload.under index)) :=
      ⟨fun h => h hvalid, fun h _ => h⟩
    rw [howned]
    apply mirrors_changed_iff hs
    · intro d hd
      cases hd
      rfl
    · intro n
      exact get_insert _ _ _
    · intro file
      simp only [declaredAt, Table.lookup_insert_eq]
      by_cases hfile : file = definitionFile index
      · simp [hfile, declared, hname, hread]
      · simp only [if_neg hfile]
    · intro file entry hlookup
      rw [Table.lookup_insert_eq] at hlookup
      split at hlookup
      · cases hlookup
        intro content hcontent _
        cases hcontent
        exact ⟨_, hread⟩
      · exact hs.readable file entry hlookup
  | @delete index folder hmem hdata hfolder =>
    have howned : s.Owned x (.delete index) ↔ Owns x s.folder index none :=
      ⟨fun h => h hmem, fun h _ => h⟩
    rw [howned]
    apply mirrors_changed_iff hs
    · intro d hd
      cases hd
    · intro n
      exact get_erase _ _ _
    · intro file
      simp only [declaredAt, hfolder]
      by_cases hfile : file = definitionFile index
      · simp [hfile]
      · simp only [hfile, if_false, false_or]
        by_cases hindex : file = index.1
        · subst hindex
          rcases hdata with habsent | hdir
          · simp [habsent]
          · simp [hdir, declared]
        · simp only [hindex, if_false]
    · intro file entry hlookup
      rw [hfolder] at hlookup
      split at hlookup
      · cases hlookup
      · exact hs.readable file entry hlookup

/-- Files with different names are mirrored by the registry that is loaded from them. -/
theorem mirrors_of_load {x : Yaml} {s : Catalog} {listing : List Listed} {n : Nat}
    (hdistinct : ∀ file file' d d', declaredAt x s.folder file = some d →
      declaredAt x s.folder file' = some d' → d.name = d'.name → file = file')
    (hperm : listing.Perm s.folder.entries)
    (hload : IndexRegistry.new.loadFromDir x 0 listing = some (.ok (n, s.registry))) :
    Mirrors x s := by
  have hreadable := readable_of_loadFromDir hload
  obtain ⟨n', loaded, hload', hget⟩ := loadFromDir_eq hreadable .new 0
  rw [hload] at hload'
  cases hload'
  have hfound : ∀ name, s.registry.get name =
      (listing.filterMap (declared x)).find? (·.name = name) := fun name => by
    rw [hget name, show IndexRegistry.new.get name = none from rfl, Option.none_or]
  constructor
  · intro file entry hlookup
    exact hreadable _ (hperm.mem_iff.mpr (AList.mem_lookup_iff.mp hlookup))
  · intro file d hd
    rw [hfound]
    cases hfind : (listing.filterMap (declared x)).find? (·.name = d.name) with
    | none =>
      exact absurd (by simp) (List.find?_eq_none.mp hfind d ((mem_declared hperm).mpr ⟨file, hd⟩))
    | some d' =>
      obtain ⟨file', hd'⟩ := (mem_declared hperm).mp (List.mem_of_find?_eq_some hfind)
      have hname : d'.name = d.name := by simpa using List.find?_some hfind
      rw [hdistinct file' file d' d hd' hd hname, hd] at hd'
      exact hd'.symm
  · intro name d hd
    rw [hfound] at hd
    obtain ⟨file, hfile⟩ := (mem_declared hperm).mp (List.mem_of_find?_eq_some hd)
    exact ⟨file, d, hfile, by simpa using List.find?_some hd⟩

/-- Starting with definition files of different names, restarts give the registry back at
every point of a sequence of requests if and only if each request that changes something is
for a name that owns its file. -/
theorem restores_iff {x : Yaml} {s t : Catalog} {reqs : List ManagementRequest}
    {listing : List Listed} {n : Nat}
    (hdistinct : ∀ file file' d d', declaredAt x s.folder file = some d →
      declaredAt x s.folder file' = some d' → d.name = d'.name → file = file')
    (hperm : listing.Perm s.folder.entries)
    (hload : IndexRegistry.new.loadFromDir x 0 listing = some (.ok (n, s.registry)))
    (hrun : Machine.run (serve x) s reqs = some t) :
    (∀ pre u, pre <+: reqs → Machine.run (serve x) s pre = some u → Restores x u) ↔
      Machine.Along (serve x) (Owned x) s reqs := by
  simp only [restores_iff_mirrors]
  refine (Machine.along_iff (mirrors_of_load hdistinct hperm hload) ?_ hrun).symm
  intro u req v hu hserve
  exact serve_mirrors hu (serve_cases hserve)

end Catalog

/-- A definition without fields. -/
def IndexDefinition.bare (mode : SchemaMode) (name : String) : IndexDefinition where
  name := name
  mode := mode
  fields := ∅

/-- The text of a definition without fields: a letter for the mode, and the name. -/
def bareText (d : IndexDefinition) : Option String :=
  if d.description.isNone ∧ d.timestampField = "timestamp" ∧ d.partition = .none ∧
      d.retention.isNone ∧ d.compression = .zstd ∧ d.fields.isEmpty ∧ d.settings.isEmpty then
    match d.mode with
    | .dynamic => some ("d" ++ d.name)
    | .strict => some ("s" ++ d.name)
    | .dropUnmapped => some ("u" ++ d.name)
  else none

def ofBareText (text : String) : Except String IndexDefinition :=
  match text.toList with
  | 'd' :: name => .ok (.bare .dynamic (String.ofList name))
  | 's' :: name => .ok (.bare .strict (String.ofList name))
  | 'u' :: name => .ok (.bare .dropUnmapped (String.ofList name))
  | _ => .error "invalid definition"

theorem ofBareText_bareText {d : IndexDefinition} {text : String} (h : bareText d = some text) :
    ofBareText text = .ok d := by
  unfold bareText at h
  split at h
  · rename_i hplain
    obtain ⟨hdescription, htimestamp, hpartition, hretention, hcompression, hfields, hsettings⟩ :=
      hplain
    cases d with
    | mk name description timestampField mode partition retention compression fields settings =>
      rw [Table.isEmpty_iff] at hfields hsettings
      rw [Option.isNone_iff_eq_none] at hdescription hretention
      subst hdescription htimestamp hpartition hretention hcompression hfields hsettings
      cases mode <;> cases h <;> simp [ofBareText, IndexDefinition.bare]
  · cases h

/-- A reader and a writer for the definitions without fields. -/
def Yaml.bare : Yaml where
  fromStr := ofBareText
  toString := fun d => match bareText d with
    | some text => .ok text
    | none => .error "not bare"
  roundTrip := by
    intro d text h
    cases htext : bareText d with
    | none =>
      rw [htext] at h
      cases h
    | some text' =>
      rw [htext] at h
      cases h
      exact ofBareText_bareText htext

namespace Catalog

/-- A directory with one definition file, as a start loads it. -/
def single (file : String) : Catalog :=
  ⟨IndexRegistry.new.insert (.bare .dynamic "a"), (∅ : Folder).insert file (.file "da")⟩

theorem declaredAt_single {file name : String} {d : IndexDefinition}
    (hd : declaredAt .bare (single file).folder name = some d) :
    name = file ∧ (isDefinitionFile file = true → d.name = "a") := by
  obtain ⟨entry, hlookup, hentry⟩ := Option.bind_eq_some_iff.mp hd
  rw [single, Table.lookup_insert_eq] at hlookup
  split at hlookup
  · rename_i hname
    subst hname
    cases hlookup
    refine ⟨rfl, fun hfile => ?_⟩
    have hread : IndexDefinition.fromFile .bare "da" = some (.ok (.bare .dynamic "a")) := rfl
    simp only [declared, hfile, if_true, hread, Option.some.injEq] at hentry
    rw [← hentry]
    rfl
  · cases hlookup

theorem single_distinct (file : String) :
    ∀ name name' d d', declaredAt .bare (single file).folder name = some d →
      declaredAt .bare (single file).folder name' = some d' → d.name = d'.name → name = name' :=
  fun _ _ _ _ h h' _ => (declaredAt_single h).1.trans (declaredAt_single h').1.symm

/-- An update of an index that is stored under its name. -/
theorem restores_updated :
    ∃ t, Machine.run (serve .bare) (single "a.index.yaml")
        [.put ⟨"a", by decide⟩ (.bare .strict "b")] = some t ∧ Restores .bare t := by
  have hserve : ∃ t, Machine.run (serve .bare) (single "a.index.yaml")
      [.put ⟨"a", by decide⟩ (.bare .strict "b")] = some t := ⟨_, rfl⟩
  obtain ⟨t, ht⟩ := hserve
  refine ⟨t, ht, (restores_iff (single_distinct _) (List.Perm.refl _)
    (n := 1) rfl ht).mpr ?_ _ _ (List.prefix_refl _) ht⟩
  refine ⟨fun _ => ⟨?_, ?_⟩, fun _ _ => trivial⟩
  · intro file d hfile hd
    exact absurd (declaredAt_single hd).1 hfile
  · intro d hd hname
    exact absurd ((declaredAt_single hd).2 (by decide)) hname

/-- A deleted index comes back if its file is called otherwise. -/
theorem deleted_restored :
    ¬ ∀ (x : Yaml) (s t : Catalog) (reqs : List ManagementRequest) (listing : List Listed) (n : Nat),
      (∀ file file' d d', declaredAt x s.folder file = some d →
        declaredAt x s.folder file' = some d' → d.name = d'.name → file = file') →
      listing.Perm s.folder.entries →
      IndexRegistry.new.loadFromDir x 0 listing = some (.ok (n, s.registry)) →
      Machine.run (serve x) s reqs = some t → Restores x t := by
  intro halways
  let req : ManagementRequest := .delete ⟨"a", by decide⟩
  obtain ⟨t, ht⟩ : ∃ t, Machine.run (serve .bare) (single "x.index.yaml") [req] = some t := ⟨_, rfl⟩
  have hrestores := halways .bare (single "x.index.yaml") t [req] _ 1 (single_distinct _)
    (List.Perm.refl _) rfl ht
  obtain ⟨u, hserve, hu⟩ := Machine.run_cons.mp ht
  cases hu
  have hmirrors : Mirrors .bare (single "x.index.yaml") :=
    mirrors_of_load (single_distinct _) (List.Perm.refl _) (n := 1) rfl
  have howned := (serve_mirrors hmirrors (serve_cases hserve)).mp (mirrors_of_restores hrestores)
  have hothers := (howned (by decide)).others "x.index.yaml" (.bare .dynamic "a") (by decide) rfl rfl
  cases hothers

end Catalog
end Edgewit
