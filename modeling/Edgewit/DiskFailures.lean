import Edgewit.Isolation

/-!
# Requests on a failing disk

`create_index_handler` and `delete_index_handler` on a tree of files, for any name and any
failure of their disk steps. `management_atomic_iff` says when a request that is not answered
with 200 has changed nothing, and when a deletion that is has left nothing behind.

For names of one component and without failures the handlers do to the tree what
`createOnDisk` and `deleteOnDisk` do.
-/

namespace FileTree.Tree

/-- `fs::create_dir_all`, and whether it succeeds; a failure may come after some of the
directories. -/
def tryCreateDirAll (t : Tree) (p : Path) (fault : Option Nat) : Bool × Tree :=
  match fault with
  | some made => (false, t.createDirAll (p.take made))
  | none => (!(p.inits.any fun q => t q matches some (.file _)), t.createDirAll p)

/-- `fs::write`. A failure leaves the file as it was, or with a part of the text. -/
def tryWrite (t : Tree) (p : Path) (text : String) (fault : Option (Option String)) : Bool × Tree :=
  if t p = some .directory ∨ t p.dropLast ≠ some .directory then (false, t)
  else
    match fault with
    | none => (true, t.writeFile p text)
    | some none => (false, t)
    | some (some part) => (false, t.writeFile p part)

/-- `fs::remove_file`, where there is something. -/
def tryRemoveFile (t : Tree) (p : Path) (fault : Bool) : Bool × Tree :=
  match t p with
  | none => (true, t)
  | some .directory => (false, t)
  | some (.file _) => if fault then (false, t) else (true, t.removeFile p)

/-- `fs::remove_dir_all`, where there is something. A failure leaves the directory, and some
of what is below it. -/
def tryRemoveDirAll (t : Tree) (p : Path) (fault : Option (Path → Bool)) : Bool × Tree :=
  match t p with
  | none => (true, t)
  | some (.file _) => (false, t)
  | some .directory =>
    match fault with
    | none => (true, t.removeDirAll p)
    | some kept => (false, fun q => if p <+: q ∧ q ≠ p ∧ kept q = false then none else t q)

end FileTree.Tree

namespace Edgewit
open FileTree IndexRegistry

/-- The failures of the disk steps of a request. -/
structure DiskFaults where
  createDir : Option Nat := none
  write : Option (Option String) := none
  removeFile : Bool := false
  removeDir : Option (Path → Bool) := none

/-- The same failures, where none of the directories is made and nothing of the data removed. -/
def ManagementFaults.onDisk (faults : ManagementFaults) : DiskFaults where
  createDir := if faults.createDir then some 0 else none
  write := faults.write
  removeFile := faults.removeFile
  removeDir := if faults.removeDir then some fun _ => true else none

/-- The definitions in memory, and the disk. -/
structure DataDir where
  registry : IndexRegistry
  tree : Tree

namespace DataDir

/-- The steps of `create_index_handler` after the registration. -/
def persist (x : Yaml) (base : Path) (faults : DiskFaults) (s : DataDir) (index : String)
    (payload : IndexDefinition) : (Nat × Json) × DataDir :=
  match s.tree.tryCreateDirAll (indexesDir base) faults.createDir with
  | (false, tree) => ((500, errorBody "Failed to create directory on disk"), { s with tree })
  | (true, tree) =>
    match x.toString payload with
    | .error _ => ((500, errorBody "Failed to serialize definition"), { s with tree })
    | .ok text =>
      match tree.tryWrite (definitionPath base index) text faults.write with
      | (true, tree) => ((200, messageBody "Index updated successfully"), { s with tree })
      | (false, tree) => ((500, errorBody "Failed to persist index definition"), { s with tree })

/-- `none` is a panic of the validation. -/
def createIndexHandler (x : Yaml) (base : Path) (enabled : Bool) (faults : DiskFaults) (s : DataDir)
    (index : String) (payload : IndexDefinition) : Option ((Nat × Json) × DataDir) :=
  if !enabled then some (managementDisabled, s)
  else
    let payload := payload.under index
    (s.registry.upsert payload).map fun
      | .ok registry => persist x base faults { s with registry } index payload
      | .error (.validationError e) => ((400, errorBody s!"Validation failed: {e.text}"), s)
      | .error e => ((500, errorBody s!"Internal error: {e.text}"), s)

/-- Disk steps that fail are logged. -/
def deleteIndexHandler (base : Path) (enabled : Bool) (faults : DiskFaults) (s : DataDir)
    (index : String) : (Nat × Json) × DataDir :=
  if !enabled then (managementDisabled, s)
  else
    match s.registry.remove index with
    | .ok registry =>
      let (_, tree) := s.tree.tryRemoveFile (definitionPath base index) faults.removeFile
      let (_, tree) := tree.tryRemoveDirAll (indexPath base index) faults.removeDir
      ((200, messageBody "Index deleted successfully"), { registry, tree })
    | .error (.notFound _) => ((404, errorBody "Index not found"), s)
    | .error e => ((500, errorBody s!"Internal error: {e.text}"), s)

/-! ## All or nothing -/

/-- A creation that is not answered with 200 leaves the registry and the definition file as
they were. -/
def CreatesOrKeeps (x : Yaml) (base : Path) (enabled : Bool) (faults : DiskFaults) (s : DataDir)
    (index : String) (payload : IndexDefinition) : Prop :=
  ∀ answer t, createIndexHandler x base enabled faults s index payload = some (answer, t) →
    answer.1 ≠ 200 → (∀ name, t.registry.get name = s.registry.get name) ∧
      t.tree.content (definitionPath base index) = s.tree.content (definitionPath base index)

/-- A deletion that is answered with 200 leaves neither the name nor its definition file nor
its data directory. -/
def DeletesAll (base : Path) (enabled : Bool) (faults : DiskFaults) (s : DataDir)
    (index : String) : Prop :=
  ∀ answer t, deleteIndexHandler base enabled faults s index = (answer, t) → answer.1 = 200 →
    t.registry.get index = none ∧ t.tree.content (definitionPath base index) = none ∧
      t.tree (indexPath base index) ≠ some .directory

/-- The definition can be written: the directory can be created, the text can be made, and a
file can be at the place. -/
structure Writable (x : Yaml) (base : Path) (faults : DiskFaults) (t : Tree) (index : String)
    (d : IndexDefinition) : Prop where
  directory : faults.createDir = none
  free : ∀ q, q <+: indexesDir base → t.content q = none
  serialised : ∃ text, x.toString d = .ok text
  place : t.createDirAll (indexesDir base) (definitionPath base index) ≠ some .directory
  parent : t.createDirAll (indexesDir base) (definitionPath base index).dropLast = some .directory

/-- Every disk step succeeds, or the definition was registered before and the write, if it
comes to that, leaves what was in the file. -/
def PutSafe (x : Yaml) (base : Path) (faults : DiskFaults) (s : DataDir) (index : String)
    (d : IndexDefinition) : Prop :=
  (Writable x base faults s.tree index d ∧ faults.write = none) ∨
    (s.registry.get index = some d ∧ (Writable x base faults s.tree index d →
      ∀ part, faults.write = some (some part) →
        s.tree.content (definitionPath base index) = some part))

/-- The definition file, if there is one, can be removed or goes with the data, and the data
directory, if there is one, can be removed. -/
def DeleteSafe (base : Path) (faults : DiskFaults) (t : Tree) (index : String) : Prop :=
  (t.content (definitionPath base index) ≠ none → faults.removeFile = false ∨
    (t (indexPath base index) = some .directory ∧ indexPath base index <+: definitionPath base index)) ∧
  (t (indexPath base index) = some .directory → faults.removeDir = none)

/-! ## Creation -/

/-- No failure of the directories changes a file. -/
theorem tryCreateDirAll_content (t : Tree) (p q : Path) (fault : Option Nat) :
    (t.tryCreateDirAll p fault).2.content q = t.content q := by
  cases fault <;> exact Tree.createDirAll_content _ _ _

theorem tryCreateDirAll_ok (t : Tree) (p : Path) (fault : Option Nat) :
    (t.tryCreateDirAll p fault).1 = true ↔
      fault = none ∧ ∀ q, q <+: p → t.content q = none := by
  cases fault with
  | some made => simp [Tree.tryCreateDirAll]
  | none =>
    simp only [Tree.tryCreateDirAll, Bool.not_eq_true', List.any_eq_false, true_and]
    constructor
    · intro h q hq
      have hfile := h q ((List.mem_inits q p).mpr hq)
      unfold Tree.content
      split
      · rename_i hentry
        simp [hentry] at hfile
      · rfl
    · intro h q hq
      have hnone := h q ((List.mem_inits q p).mp hq)
      unfold Tree.content at hnone
      cases hentry : t q with
      | none => simp
      | some entry =>
        cases entry with
        | directory => simp
        | file text =>
          rw [hentry] at hnone
          cases hnone

theorem tryCreateDirAll_free {t : Tree} {p : Path} (hfree : ∀ q, q <+: p → t.content q = none) :
    t.tryCreateDirAll p none = (true, t.createDirAll p) :=
  Prod.ext ((tryCreateDirAll_ok t p none).mpr ⟨rfl, hfree⟩) rfl

/-- Where the definition can be written, the write decides. -/
theorem persist_writable {x : Yaml} {base : Path} {faults : DiskFaults} {s : DataDir}
    {index : String} {d : IndexDefinition} (hw : Writable x base faults s.tree index d) :
    ∃ status body t, persist x base faults s index d = ((status, body), t) ∧
      t.registry = s.registry ∧
      ((status = 200 ∧ faults.write = none) ∨
        (status = 500 ∧ ∃ part, faults.write = some part ∧
          t.tree.content (definitionPath base index) =
            part.or (s.tree.content (definitionPath base index)))) := by
  obtain ⟨text, htext⟩ := hw.serialised
  have hcontent := Tree.createDirAll_content s.tree (indexesDir base) (definitionPath base index)
  unfold persist
  rw [hw.directory, tryCreateDirAll_free hw.free]
  simp only [htext]
  unfold Tree.tryWrite
  rw [if_neg (by simp [hw.place, hw.parent])]
  rcases hwrite : faults.write with _ | _ | part
  · exact ⟨200, _, _, rfl, rfl, Or.inl ⟨rfl, rfl⟩⟩
  · exact ⟨500, _, _, rfl, rfl, Or.inr ⟨rfl, none, rfl, hcontent⟩⟩
  · exact ⟨500, _, _, rfl, rfl,
      Or.inr ⟨rfl, some part, rfl, Tree.writeFile_content hw.place hw.parent part⟩⟩

/-- Where it cannot be written, nothing is. -/
theorem persist_not_writable {x : Yaml} {base : Path} {faults : DiskFaults} {s : DataDir}
    {index : String} {d : IndexDefinition} (hnot : ¬ Writable x base faults s.tree index d) :
    ∃ body t, persist x base faults s index d = ((500, body), t) ∧ t.registry = s.registry ∧
      t.tree.content (definitionPath base index) = s.tree.content (definitionPath base index) := by
  have hcontent := tryCreateDirAll_content s.tree (indexesDir base) (definitionPath base index)
    faults.createDir
  have hok := tryCreateDirAll_ok s.tree (indexesDir base) faults.createDir
  unfold persist
  cases hdir : s.tree.tryCreateDirAll (indexesDir base) faults.createDir with
  | mk made tree =>
    rw [hdir] at hcontent hok
    cases made with
    | false => exact ⟨_, _, rfl, rfl, hcontent⟩
    | true =>
      obtain ⟨hfault, hfree⟩ := hok.mp rfl
      obtain rfl : tree = s.tree.createDirAll (indexesDir base) := by
        rw [hfault, Tree.tryCreateDirAll] at hdir
        exact (Prod.mk.inj hdir).2.symm
      cases htext : x.toString d with
      | error e => exact ⟨_, _, rfl, rfl, hcontent⟩
      | ok text =>
        have hplace : s.tree.createDirAll (indexesDir base) (definitionPath base index) =
              some .directory ∨
            s.tree.createDirAll (indexesDir base) (definitionPath base index).dropLast ≠
              some .directory := by
          by_contra hno
          rw [not_or, not_not] at hno
          exact hnot ⟨hfault, hfree, ⟨text, htext⟩, hno.1, hno.2⟩
        dsimp only
        unfold Tree.tryWrite
        rw [if_pos hplace]
        exact ⟨_, _, rfl, rfl, hcontent⟩

/-- A definition that is not valid changes nothing. -/
theorem create_refused {x : Yaml} {base : Path} {faults : DiskFaults} {s t : DataDir}
    {index : String} {payload : IndexDefinition} {answer : Nat × Json}
    (hinvalid : validateSchema (payload.under index) ≠ some (.ok ()))
    (h : createIndexHandler x base true faults s index payload = some (answer, t)) : t = s := by
  unfold createIndexHandler IndexRegistry.upsert at h
  obtain ⟨result, hresult, heq⟩ := Option.map_eq_some_iff.mp h
  obtain ⟨valid, hvalid, rfl⟩ := Option.map_eq_some_iff.mp hresult
  rcases valid with e | ⟨⟩
  · exact (Prod.mk.inj heq).2.symm
  · exact absurd hvalid hinvalid

theorem create_valid {x : Yaml} {base : Path} {faults : DiskFaults} {s : DataDir} {index : String}
    {payload : IndexDefinition} (hvalid : validateSchema (payload.under index) = some (.ok ())) :
    createIndexHandler x base true faults s index payload =
      some (persist x base faults { s with registry := s.registry.insert (payload.under index) }
        index (payload.under index)) := by
  unfold createIndexHandler IndexRegistry.upsert
  simp only [hvalid]
  rfl

theorem insert_same_iff (registry : IndexRegistry) (d : IndexDefinition) :
    (∀ name, (registry.insert d).get name = registry.get name) ↔ registry.get d.name = some d := by
  constructor
  · intro h
    rw [← h d.name, get_insert, if_pos rfl]
  · intro h name
    rw [get_insert]
    by_cases hname : name = d.name
    · rw [if_pos hname, hname, h]
    · rw [if_neg hname]

/-- A valid definition is put, or everything kept, by what becomes of its file. -/
theorem createsOrKeeps_persist {x : Yaml} {base : Path} {faults : DiskFaults} {s t : DataDir}
    {index : String} {payload : IndexDefinition} {status : Nat} {body : Json}
    (hvalid : validateSchema (payload.under index) = some (.ok ()))
    (hpersist : persist x base faults
      { s with registry := s.registry.insert (payload.under index) } index (payload.under index) =
        ((status, body), t))
    (hregistry : t.registry = s.registry.insert (payload.under index)) :
    CreatesOrKeeps x base true faults s index payload ↔
      (status ≠ 200 → s.registry.get index = some (payload.under index) ∧
        t.tree.content (definitionPath base index) =
          s.tree.content (definitionPath base index)) := by
  have hcreate : createIndexHandler x base true faults s index payload =
      some ((status, body), t) := by rw [create_valid hvalid, hpersist]
  have hsame := insert_same_iff s.registry (payload.under index)
  rw [← hregistry] at hsame
  constructor
  · intro h hne
    obtain ⟨hregistered, hcontent⟩ := h _ _ hcreate hne
    exact ⟨hsame.mp hregistered, hcontent⟩
  · intro h answer u hanswer hne
    rw [hcreate] at hanswer
    cases hanswer
    exact ⟨hsame.mpr (h hne).1, (h hne).2⟩

theorem createsOrKeeps_iff {x : Yaml} {base : Path} {faults : DiskFaults} {s : DataDir}
    {index : String} {payload : IndexDefinition}
    (hvalid : validateSchema (payload.under index) = some (.ok ())) :
    CreatesOrKeeps x base true faults s index payload ↔
      PutSafe x base faults s index (payload.under index) := by
  by_cases hw : Writable x base faults s.tree index (payload.under index)
  · obtain ⟨status, body, t, hpersist, hregistry, hcases⟩ := persist_writable
      (s := { s with registry := s.registry.insert (payload.under index) }) hw
    rw [createsOrKeeps_persist hvalid hpersist hregistry]
    rcases hcases with ⟨rfl, hnone⟩ | ⟨rfl, part, hpart, hcontent⟩
    · exact ⟨fun _ => Or.inl ⟨hw, hnone⟩, fun _ hne => absurd rfl hne⟩
    · rw [hcontent]
      constructor
      · intro h
        obtain ⟨hregistered, hsame⟩ := h (by decide)
        refine Or.inr ⟨hregistered, fun _ part' hpart' => ?_⟩
        rw [hpart] at hpart'
        cases hpart'
        exact hsame.symm
      · rintro (⟨-, hnone⟩ | ⟨hregistered, hleft⟩) _
        · rw [hnone] at hpart
          cases hpart
        · cases part with
          | none => exact ⟨hregistered, rfl⟩
          | some part => exact ⟨hregistered, (hleft hw part hpart).symm⟩
  · obtain ⟨body, t, hpersist, hregistry, hcontent⟩ := persist_not_writable
      (s := { s with registry := s.registry.insert (payload.under index) }) hw
    rw [createsOrKeeps_persist hvalid hpersist hregistry]
    constructor
    · intro h
      exact Or.inr ⟨(h (by decide)).1, fun hwritable => absurd hwritable hw⟩
    · rintro (⟨hwritable, -⟩ | ⟨hregistered, -⟩) _
      · exact absurd hwritable hw
      · exact ⟨hregistered, hcontent⟩

/-! ## Deletion -/

/-- The definition file is not the data directory. -/
theorem definitionPath_ne (base : Path) (name : String) :
    definitionPath base name ≠ indexPath base name := by
  obtain ⟨parent, last, -, hpath, hfile⟩ :=
    resolve_append (show '/' ∉ ".index.yaml".toList by decide) (indexesDir base) name
  have hdefinition : definitionPath base name = parent ++ [definitionFile last] := by
    rw [definitionPath, definitionFile, hfile]
    exact enter_plain (plain_definitionFile last) parent
  rw [hdefinition, indexPath, hpath]
  intro heq
  by_cases hplain : Plain last
  · rw [enter_plain hplain] at heq
    have hlast := List.append_inj_right' heq rfl
    exact Catalog.definitionFile_ne last (List.cons.inj hlast).1
  · have hshort := (enter_below hplain parent).length_le
    rw [← heq, List.length_append, List.length_singleton] at hshort
    omega

theorem tryRemoveFile_ne {t : Tree} {p q : Path} (h : q ≠ p) (fault : Bool) :
    (t.tryRemoveFile p fault).2 q = t q := by
  unfold Tree.tryRemoveFile
  split
  · rfl
  · rfl
  · split
    · rfl
    · exact Tree.removeFile_ne h

/-- A file is gone if there was none, or its removal did not fail. -/
theorem tryRemoveFile_content {t : Tree} {p : Path} {fault : Bool} :
    (t.tryRemoveFile p fault).2.content p = none ↔ t.content p = none ∨ fault = false := by
  unfold Tree.tryRemoveFile
  cases hentry : t p with
  | none => simp [Tree.content, hentry]
  | some entry =>
    cases entry with
    | directory => simp [Tree.content, hentry]
    | file text =>
      cases fault with
      | true => simp [Tree.content, hentry]
      | false => simp [Tree.content, Tree.removeFile, hentry]

/-- A directory is gone if there was none, or its removal did not fail. -/
theorem tryRemoveDirAll_directory {t : Tree} {p : Path} {fault : Option (Path → Bool)} :
    (t.tryRemoveDirAll p fault).2 p ≠ some .directory ↔
      (t p = some .directory → fault = none) := by
  unfold Tree.tryRemoveDirAll
  cases hentry : t p with
  | none => simp [hentry]
  | some entry =>
    cases entry with
    | file text => simp [hentry]
    | directory =>
      cases fault with
      | none => simp [Tree.removeDirAll, hentry]
      | some kept => simp [hentry]

/-- What is left of a file by a removal of directories that does not fail. -/
theorem tryRemoveDirAll_content {t : Tree} {p q : Path} {fault : Option (Path → Bool)}
    (hok : t p = some .directory → fault = none) :
    (t.tryRemoveDirAll p fault).2.content q = none ↔
      t.content q = none ∨ (t p = some .directory ∧ p <+: q) := by
  unfold Tree.tryRemoveDirAll
  cases hentry : t p with
  | none => simp
  | some entry =>
    cases entry with
    | file text => simp
    | directory =>
      rw [hok hentry]
      simp only [Tree.removeDirAll, hentry, if_true, true_and]
      by_cases hq : p <+: q
      · simp [Tree.content, hq]
      · simp [Tree.content, hq]

theorem deletesAll_iff {base : Path} {faults : DiskFaults} {s : DataDir} {index : String}
    (hregistered : index ∈ s.registry.indexes) :
    DeletesAll base true faults s index ↔ DeleteSafe base faults s.tree index := by
  have hne := definitionPath_ne base index
  have hdelete : deleteIndexHandler base true faults s index =
      ((200, messageBody "Index deleted successfully"),
        { registry := s.registry.erase index
          tree := ((s.tree.tryRemoveFile (definitionPath base index) faults.removeFile).2.tryRemoveDirAll
            (indexPath base index) faults.removeDir).2 }) := by
    simp only [deleteIndexHandler, IndexRegistry.remove, hregistered, if_true]
    rfl
  have hdata := tryRemoveFile_ne (t := s.tree) hne.symm faults.removeFile
  have hiff : DeletesAll base true faults s index ↔
      ((s.tree.tryRemoveFile (definitionPath base index) faults.removeFile).2.tryRemoveDirAll
          (indexPath base index) faults.removeDir).2.content (definitionPath base index) = none ∧
        ((s.tree.tryRemoveFile (definitionPath base index) faults.removeFile).2.tryRemoveDirAll
          (indexPath base index) faults.removeDir).2 (indexPath base index) ≠ some .directory := by
    constructor
    · intro h
      exact (h _ _ hdelete rfl).2
    · rintro h answer t hanswer -
      rw [hdelete] at hanswer
      cases hanswer
      refine ⟨?_, h⟩
      rw [get_erase, if_pos rfl]
  rw [hiff, tryRemoveDirAll_directory, hdata, DeleteSafe]
  apply and_congr_left
  intro hdir
  have hok : (s.tree.tryRemoveFile (definitionPath base index) faults.removeFile).2
      (indexPath base index) = some .directory → faults.removeDir = none := by
    rw [hdata]
    exact hdir
  rw [tryRemoveDirAll_content hok, hdata, tryRemoveFile_content, or_assoc]
  exact ⟨fun h hpresent => h.resolve_left hpresent, fun h => or_iff_not_imp_left.mpr h⟩

/-- **A creation is all or nothing when every disk step succeeds, or nothing was to be
changed; a deletion leaves nothing when what is there can be removed; and not otherwise.** -/
theorem management_atomic_iff (x : Yaml) (base : Path) (enabled : Bool) (faults : DiskFaults)
    (s : DataDir) (index : String) (payload : IndexDefinition) :
    (CreatesOrKeeps x base enabled faults s index payload ↔
      (enabled = true → validateSchema (payload.under index) = some (.ok ()) →
        PutSafe x base faults s index (payload.under index))) ∧
    (DeletesAll base enabled faults s index ↔
      (enabled = true → index ∈ s.registry.indexes → DeleteSafe base faults s.tree index)) := by
  cases enabled with
  | false =>
    constructor
    · refine ⟨fun _ h => absurd h (by decide), ?_⟩
      rintro - answer t hanswer -
      cases hanswer
      exact ⟨fun _ => rfl, rfl⟩
    · refine ⟨fun _ h => absurd h (by decide), ?_⟩
      rintro - answer t hanswer hok
      cases hanswer
      cases hok
  | true =>
    constructor
    · by_cases hvalid : validateSchema (payload.under index) = some (.ok ())
      · rw [createsOrKeeps_iff hvalid]
        simp only [hvalid, forall_true_left]
      · refine ⟨fun _ _ h => absurd h hvalid, ?_⟩
        rintro - answer t hanswer -
        rw [create_refused hvalid hanswer]
        exact ⟨fun _ => rfl, rfl⟩
    · by_cases hregistered : index ∈ s.registry.indexes
      · rw [deletesAll_iff hregistered]
        simp only [hregistered, forall_true_left]
      · refine ⟨fun _ _ h => absurd h hregistered, ?_⟩
        rintro - answer t hanswer hok
        simp only [deleteIndexHandler, IndexRegistry.remove, hregistered, if_false, Bool.not_true,
          Bool.false_eq_true] at hanswer
        cases hanswer
        cases hok

/-- A definition stays registered when it cannot be written, and data stay when they cannot be
removed. -/
theorem management_not_atomic :
    (¬ ∀ (x : Yaml) (base : Path) (enabled : Bool) (faults : DiskFaults) (s : DataDir)
      (index : String) (payload : IndexDefinition),
      CreatesOrKeeps x base enabled faults s index payload) ∧
    ¬ ∀ (base : Path) (enabled : Bool) (faults : DiskFaults) (s : DataDir) (index : String),
      DeletesAll base enabled faults s index := by
  let tree : Tree := fun p => if p <+: ["data", "indexes", "a"] then some .directory else none
  constructor
  · intro halways
    have hkeeps := halways .bare ["data"] true { write := some none } ⟨.new, tree⟩ "a"
      (.bare .dynamic "a")
    rcases (createsOrKeeps_iff rfl).mp hkeeps with ⟨-, hnone⟩ | ⟨hregistered, -⟩
    · cases hnone
    · cases hregistered
  · intro halways
    have hall := halways ["data"] true { removeDir := some fun _ => true }
      ⟨IndexRegistry.new.insert (.bare .dynamic "a"), tree⟩ "a"
    have hsafe := (deletesAll_iff (by decide)).mp hall
    have hpath : indexPath ["data"] "a" = ["data", "indexes", "a"] := by decide
    have hnone := hsafe.2 (by rw [hpath]; rfl)
    cases hnone

/-! ## Without failures, and on names of one component -/

theorem persist_onDisk {x : Yaml} {base : Path} {s : DataDir} {index text : String}
    {d : IndexDefinition} (hw : Writable x base {} s.tree index d) (htext : x.toString d = .ok text) :
    persist x base {} s index d = ((200, messageBody "Index updated successfully"),
      { s with tree := createOnDisk s.tree base index text }) := by
  have hplace : ¬ (s.tree.createDirAll (indexesDir base) (definitionPath base index) =
      some .directory ∨
      s.tree.createDirAll (indexesDir base) (definitionPath base index).dropLast ≠
        some .directory) := by
    rw [not_or, not_not]
    exact ⟨hw.place, hw.parent⟩
  simp only [persist, tryCreateDirAll_free hw.free, htext, Tree.tryWrite, if_neg hplace]
  rfl

theorem deleteIndexHandler_onDisk {base : Path} {s : DataDir} {index : String}
    (hregistered : index ∈ s.registry.indexes) :
    deleteIndexHandler base true {} s index = ((200, messageBody "Index deleted successfully"),
      { registry := s.registry.erase index, tree := deleteOnDisk s.tree base index }) := by
  have hfile : ∀ (t : Tree) (p : Path), (t.tryRemoveFile p false).2 = t.removeFile p := by
    intro t p
    unfold Tree.tryRemoveFile Tree.removeFile
    split
    · rename_i hentry
      rw [hentry]
    · rename_i hentry
      rw [hentry]
    · rename_i hentry
      rw [hentry]
      rfl
  have hdata : ∀ (t : Tree) (p : Path), (t.tryRemoveDirAll p none).2 = t.removeDirAll p := by
    intro t p
    unfold Tree.tryRemoveDirAll Tree.removeDirAll
    split
    · rename_i hentry
      rw [hentry]
      rfl
    · rename_i hentry
      rw [hentry]
      rfl
    · rename_i hentry
      rw [if_pos hentry]
  simp only [deleteIndexHandler, IndexRegistry.remove, hregistered, if_true, deleteOnDisk, ← hfile,
    ← hdata]
  rfl

/-- A directory in which the entries of the folder are found. -/
structure Shows (base : Path) (t : Tree) (folder : Folder) : Prop where
  root : t (indexesDir base) = some .directory
  free : ∀ q, q <+: indexesDir base → t.content q = none
  entries : ∀ name, t (indexesDir base ++ [name]) = folder.lookup name

theorem Shows.createDirAll {base p : Path} {t : Tree} {folder : Folder} (h : Shows base t folder)
    (hp : p <+: indexesDir base) : Shows base (t.createDirAll p) folder := by
  refine ⟨?_, ?_, ?_⟩
  · unfold Tree.createDirAll
    split
    · exact h.root
    · dsimp only
      split
      · rfl
      · exact h.root
  · intro q hq
    rw [Tree.createDirAll_content]
    exact h.free q hq
  · intro name
    rw [Tree.createDirAll_ne]
    · exact h.entries name
    · intro hlong
      have hlength := (hlong.trans hp).length_le
      rw [List.length_append, List.length_singleton] at hlength
      omega

/-- A change of one entry of the directory. -/
theorem Shows.update {base : Path} {t t' : Tree} {folder folder' : Folder} (h : Shows base t folder)
    (name : String) (hsame : ∀ q, ¬ indexesDir base ++ [name] <+: q → t' q = t q)
    (hentry : t' (indexesDir base ++ [name]) = folder'.lookup name)
    (hothers : ∀ n, n ≠ name → folder'.lookup n = folder.lookup n) : Shows base t' folder' := by
  have hshort : ∀ q, q <+: indexesDir base → ¬ indexesDir base ++ [name] <+: q := by
    intro q hq hlong
    have hlength := (hlong.trans hq).length_le
    rw [List.length_append, List.length_singleton] at hlength
    omega
  refine ⟨?_, ?_, ?_⟩
  · rw [hsame _ (hshort _ (List.prefix_refl _))]
    exact h.root
  · intro q hq
    rw [Tree.content, hsame q (hshort q hq)]
    exact h.free q hq
  · intro n
    by_cases hn : n = name
    · rw [hn, hentry]
    · rw [hsame, h.entries, hothers n hn]
      rw [List.prefix_append_right_inj, List.cons_prefix_cons]
      exact fun heq => hn heq.1.symm

theorem Shows.write {base : Path} {t : Tree} {folder : Folder} (h : Shows base t folder)
    (name text : String) (fault : Option (Option String)) :
    (t.tryWrite (indexesDir base ++ [name]) text fault).1 = (folder.write name text fault).1 ∧
      Shows base (t.tryWrite (indexesDir base ++ [name]) text fault).2
        (folder.write name text fault).2 := by
  have hput : ∀ written : String, folder.lookup name ≠ some .directory →
      Shows base (t.writeFile (indexesDir base ++ [name]) written)
        (folder.insert name (.file written)) := by
    intro written hplace
    refine h.update name ?_ ?_ ?_
    · intro q hq
      exact Tree.writeFile_ne written fun heq => hq (heq ▸ List.prefix_refl _)
    · rw [AList.lookup_insert, ← Tree.content_eq_some]
      apply Tree.writeFile_content
      · rw [h.entries]
        exact hplace
      · rw [List.dropLast_concat]
        exact h.root
    · intro n hn
      exact AList.lookup_insert_ne hn
  unfold Tree.tryWrite Folder.write
  rw [h.entries, List.dropLast_concat, h.root]
  by_cases hplace : folder.lookup name = some .directory
  · rw [if_pos (Or.inl hplace), if_pos hplace]
    exact ⟨rfl, h⟩
  · rw [if_neg (by simp [hplace]), if_neg hplace]
    rcases fault with _ | _ | part
    · exact ⟨rfl, hput text hplace⟩
    · exact ⟨rfl, h⟩
    · exact ⟨rfl, hput part hplace⟩

theorem Shows.removeFile {base : Path} {t : Tree} {folder : Folder} (h : Shows base t folder)
    (name : String) (fault : Bool) :
    Shows base (t.tryRemoveFile (indexesDir base ++ [name]) fault).2
      (folder.removeFile name fault).2 := by
  unfold Tree.tryRemoveFile Folder.removeFile
  rw [h.entries]
  cases hentry : folder.lookup name with
  | none => exact h
  | some entry =>
    cases entry with
    | directory => exact h
    | file text =>
      cases fault with
      | true => exact h
      | false =>
        refine h.update name ?_ ?_ ?_
        · intro q hq
          exact Tree.removeFile_ne fun heq => hq (heq ▸ List.prefix_refl _)
        · simp [Tree.removeFile, h.entries, hentry]
        · intro n hn
          exact AList.lookup_erase_ne hn

theorem Shows.removeDirAll {base : Path} {t : Tree} {folder : Folder} (h : Shows base t folder)
    (name : String) (fault : Bool) :
    Shows base (t.tryRemoveDirAll (indexesDir base ++ [name])
      (if fault then some fun _ => true else none)).2 (folder.removeDirAll name fault).2 := by
  unfold Tree.tryRemoveDirAll Folder.removeDirAll
  rw [h.entries]
  cases hentry : folder.lookup name with
  | none => exact h
  | some entry =>
    cases entry with
    | file text => exact h
    | directory =>
      cases fault with
      | true => simpa using h
      | false =>
        refine h.update name ?_ ?_ ?_
        · intro q hq
          exact Tree.removeDirAll_ne hq
        · simp [Tree.removeDirAll, h.entries, hentry]
        · intro n hn
          exact AList.lookup_erase_ne hn

/-- Two states with the same definitions in memory, one of them on the tree. -/
structure Simulates (base : Path) (s : DataDir) (c : Catalog) : Prop where
  registry : s.registry = c.registry
  shows : Shows base s.tree c.folder

theorem persist_simulates {x : Yaml} {base : Path} {faults : ManagementFaults}
    {registry : IndexRegistry} {t : Tree} {folder : Folder} {index : IndexName} {d : IndexDefinition}
    (h : Shows base t folder) :
    (persist x base faults.onDisk ⟨registry, t⟩ index d).1 =
        (Catalog.persist x faults ⟨registry, folder⟩ index d).1 ∧
      Simulates base (persist x base faults.onDisk ⟨registry, t⟩ index d).2
        (Catalog.persist x faults ⟨registry, folder⟩ index d).2 := by
  have hpath : definitionPath base index = indexesDir base ++ [definitionFile index] :=
    (paths_ordinary index.2 base).2
  unfold persist Catalog.persist ManagementFaults.onDisk
  cases hfault : faults.createDir with
  | true => exact ⟨rfl, rfl, h.createDirAll (List.take_prefix 0 _)⟩
  | false =>
    have hmade := h.createDirAll (List.prefix_refl _)
    simp only [Bool.false_eq_true, if_false, tryCreateDirAll_free h.free, hpath]
    cases htext : x.toString d with
    | error e => exact ⟨rfl, rfl, hmade⟩
    | ok text =>
      dsimp only
      obtain ⟨hok, hwritten⟩ := hmade.write (definitionFile index) text faults.write
      cases hdisk : (t.createDirAll (indexesDir base)).tryWrite
          (indexesDir base ++ [definitionFile index]) text faults.write with
      | mk ok tree =>
        cases hfolder : folder.write (definitionFile index) text faults.write with
        | mk ok' folder' =>
          rw [hdisk, hfolder] at hok hwritten
          dsimp only at hok
          subst hok
          cases ok with
          | true => exact ⟨rfl, rfl, hwritten⟩
          | false => exact ⟨rfl, rfl, hwritten⟩

/-- On the entries of `data_dir/indexes`, a creation does what it does in the catalog. -/
theorem create_simulates {x : Yaml} {base : Path} {enabled : Bool} {faults : ManagementFaults}
    {s : DataDir} {c : Catalog} {index : IndexName} {payload : IndexDefinition}
    (h : Simulates base s c) :
    Option.Rel (fun a b => a.1 = b.1 ∧ Simulates base a.2 b.2)
      (createIndexHandler x base enabled faults.onDisk s index payload)
      (Catalog.createIndexHandler x enabled faults c index payload) := by
  obtain ⟨registry, tree⟩ := s
  obtain ⟨registry', folder⟩ := c
  obtain ⟨hregistry, hshows⟩ := h
  dsimp only at hregistry
  subst hregistry
  unfold createIndexHandler Catalog.createIndexHandler
  cases enabled with
  | false => exact .some ⟨rfl, rfl, hshows⟩
  | true =>
    simp only [Bool.not_true, Bool.false_eq_true, if_false]
    rcases registry.upsert (payload.under index) with _ | e | registry'
    · exact .none
    · cases e <;> exact .some ⟨rfl, rfl, hshows⟩
    · exact .some (persist_simulates hshows)

/-- On the entries of `data_dir/indexes`, a deletion does what it does in the catalog. -/
theorem delete_simulates {base : Path} {enabled : Bool} {faults : ManagementFaults} {s : DataDir}
    {c : Catalog} {index : IndexName} (h : Simulates base s c) :
    (deleteIndexHandler base enabled faults.onDisk s index).1 =
        (Catalog.deleteIndexHandler enabled faults c index).1 ∧
      Simulates base (deleteIndexHandler base enabled faults.onDisk s index).2
        (Catalog.deleteIndexHandler enabled faults c index).2 := by
  obtain ⟨registry, tree⟩ := s
  obtain ⟨registry', folder⟩ := c
  obtain ⟨hregistry, hshows⟩ := h
  dsimp only at hregistry
  subst hregistry
  obtain ⟨hdata, hfile⟩ := paths_ordinary index.2 base
  unfold deleteIndexHandler Catalog.deleteIndexHandler
  cases enabled with
  | false => exact ⟨rfl, rfl, hshows⟩
  | true =>
    simp only [Bool.not_true, Bool.false_eq_true, if_false, hdata, hfile]
    rcases registry.remove index with e | registry'
    · cases e <;> exact ⟨rfl, rfl, hshows⟩
    · exact ⟨rfl, rfl, (hshows.removeFile (definitionFile index) faults.removeFile).removeDirAll index
        faults.removeDir⟩

end DataDir
end Edgewit
