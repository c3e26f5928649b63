import Edgewit.Directories

/-!
# Deletion

DELETE takes an index out of the registry and off the disk. The caches of the manager and
the writers of the actor keep what they have of it, and the receiver its events. What one
name goes through is a machine of its own, `Moves`; `wiped_iff` says in which runs nothing is
left of a deleted index, and a new one of its name works, if the names of the run are kept apart.
-/

namespace Edgewit
open Edits IndexService

/-- What there is under a name. -/
structure IndexView where
  definition : Option IndexDefinition
  index : Option OpenIndex
  reader : Option OpenReader
  writer : Option OpenWriter
  dir : Option IndexOnDisk
  deleted : Option Nat
  definitions : List IndexDefinition
  accepted : List (Edit StoredDoc)

namespace IndexView

variable {x : Externals}

def floor (v : IndexView) : Nat := v.deleted.getD 0

/-- The document was acknowledged after the last deletion of its name. -/
def Since (v : IndexView) (acknowledged : Nat) (doc : StoredDoc) : Prop :=
  v.floor ≤ doc.id ∧ doc.id < acknowledged

/-- Something is opened under a name. -/
inductive Opening (x : Externals) (v : IndexView) : IndexView → Prop where
  | create {definition : IndexDefinition} {schema : Schema} (inode : Nat)
      (habsent : v.index = none) (hregistered : v.definition = some definition)
      (hbuild : x.buildSchema definition = some schema) (hdir : v.dir = none) :
      Opening x v { v with index := some ⟨inode, schema⟩, dir := some ⟨inode, schema, []⟩ }
  | existing {definition : IndexDefinition} {dir : IndexOnDisk}
      (habsent : v.index = none) (hregistered : v.definition = some definition)
      (hbuild : x.buildSchema definition = some dir.schema) (hdir : v.dir = some dir) :
      Opening x v { v with index := some ⟨dir.inode, dir.schema⟩ }
  | reader {index : OpenIndex} {dir : IndexOnDisk}
      (hindex : v.index = some index) (hdir : v.dir = some dir) (hinode : dir.inode = index.inode) :
      Opening x v { v with reader := some ⟨dir.inode, dir.docs⟩ }
  | writer {index : OpenIndex} {dir : IndexOnDisk} (habsent : v.writer = none)
      (hindex : v.index = some index) (hdir : v.dir = some dir) (hinode : dir.inode = index.inode) :
      Opening x v { v with writer := some ⟨dir.inode, []⟩ }

/-- A step at one name, when `acknowledged` events have been acknowledged. A definition is put
where no index of a deleted one is open, a deleted index has no documents in a reader, and
the documents that are added were not there when the name was deleted. -/
inductive Moves (x : Externals) (acknowledged : Nat) (v : IndexView) : IndexView → Prop where
  | opens {v' : IndexView} (hopening : Opening x v v') : Moves x acknowledged v v'
  | put (definition : IndexDefinition) (hclear : v.definition = none → v.index = none) :
      Moves x acknowledged v
        { v with definition := some definition, definitions := v.definitions ++ [definition] }
  | delete (hregistered : v.definition ≠ none) (hreader : ∀ r, v.reader = some r → r.docs = []) :
      Moves x acknowledged v
        { v with
          definition := none
          dir := none
          deleted := some acknowledged
          definitions := []
          accepted := [] }
  | staged {writer : OpenWriter} (edit : Edit StoredDoc) (hregistered : v.definition ≠ none)
      (hwriter : v.writer = some writer)
      (hsince : ∀ doc, edit = .add doc → v.Since acknowledged doc) :
      Moves x acknowledged v
        { v with
          writer := some { writer with staged := writer.staged ++ [edit] }
          accepted := v.accepted ++ [edit] }
  | committed {writer : OpenWriter} {dir : IndexOnDisk} (hwriter : v.writer = some writer)
      (hdir : v.dir = some dir) (hinode : dir.inode = writer.inode) :
      Moves x acknowledged v
        { v with
          writer := some { writer with staged := [] }
          dir := some { dir with docs := writer.staged.foldl Edit.apply dir.docs } }
  | reloaded {reader : OpenReader} {dir : IndexOnDisk} (hreader : v.reader = some reader)
      (hdir : v.dir = some dir) (hinode : dir.inode = reader.inode) :
      Moves x acknowledged v { v with reader := some { reader with docs := dir.docs } }

/-- While a name is registered, what is open under it belongs to its directory, which has a
schema of its definitions; otherwise nothing is left on disk of what was open. What was accepted
is on disk or with the writer. -/
structure Sound (x : Externals) (acknowledged : Nat) (v : IndexView) : Prop where
  reader : ∀ r, v.reader = some r → ∃ i, v.index = some i ∧ i.inode = r.inode
  writer : ∀ w, v.writer = some w → ∃ i, v.index = some i ∧ i.inode = w.inode
  live : v.definition ≠ none → ∀ i, v.index = some i →
    ∃ dir, v.dir = some dir ∧ dir.inode = i.inode ∧ dir.schema = i.schema
  known : v.definition ≠ none → ∀ i, v.index = some i →
    ∃ d ∈ v.definitions, x.buildSchema d = some i.schema
  current : ∀ d, v.definition = some d → d ∈ v.definitions
  dead : v.definition = none → v.index ≠ none → v.dir = none
  untouched : v.deleted ≠ none → v.index = none → v.dir = none
  floor_le : v.floor ≤ acknowledged
  dirDocs : ∀ dir, v.dir = some dir → ∀ doc ∈ dir.docs, v.Since acknowledged doc
  readerDocs : ∀ r, v.reader = some r → ∀ doc ∈ r.docs, v.Since acknowledged doc
  staged : v.definition ≠ none → ∀ w, v.writer = some w →
    ∀ doc ∈ added w.staged, v.Since acknowledged doc
  kept : v.definition ≠ none → v.accepted ≠ [] → ∃ w dir base, v.writer = some w ∧
    v.dir = some dir ∧ w.staged.foldl Edit.apply dir.docs = v.accepted.foldl Edit.apply base
  old : v.definition = none → v.accepted = []

/-- Nothing is open, and nothing has been deleted or indexed. -/
theorem sound_of_start {acknowledged : Nat} {v : IndexView} (hindex : v.index = none)
    (hreader : v.reader = none) (hwriter : v.writer = none) (hdeleted : v.deleted = none)
    (haccepted : v.accepted = []) (hcurrent : ∀ d, v.definition = some d → d ∈ v.definitions)
    (hdir : ∀ dir, v.dir = some dir → ∀ doc ∈ dir.docs, doc.id < acknowledged) :
    v.Sound x acknowledged := by
  have hfloor : v.floor = 0 := by simp [floor, hdeleted]
  constructor
  case current => exact hcurrent
  case dirDocs =>
    intro dir h doc hdoc
    exact ⟨by omega, hdir dir h doc hdoc⟩
  all_goals simp_all

theorem Sound.mono {v : IndexView} {a b : Nat} (hv : v.Sound x a) (hle : a ≤ b) : v.Sound x b := by
  have hsince : ∀ doc, v.Since a doc → v.Since b doc := fun doc h => ⟨h.1, by have := h.2; omega⟩
  exact { hv with
    floor_le := hv.floor_le.trans hle
    dirDocs := fun dir h doc hdoc => hsince doc (hv.dirDocs dir h doc hdoc)
    readerDocs := fun r h doc hdoc => hsince doc (hv.readerDocs r h doc hdoc)
    staged := fun hd w h doc hdoc => hsince doc (hv.staged hd w h doc hdoc) }

section
variable {α : Type} {o : Option α} {inode : α → Nat} {index : Option OpenIndex}
  (hopen : ∀ a, o = some a → ∃ i, index = some i ∧ i.inode = inode a)
include hopen

/-- What belongs to an open index is not open without one. -/
theorem none_of_index (hindex : index = none) : o = none := by
  refine Option.eq_none_iff_forall_ne_some.mpr fun a ha => ?_
  obtain ⟨i, hi, -⟩ := hopen a ha
  cases hindex.symm.trans hi

theorem inode_of_index {i : OpenIndex} (hindex : index = some i) :
    ∀ a, o = some a → i.inode = inode a := by
  intro a ha
  obtain ⟨j, hj, hsame⟩ := hopen a ha
  cases hindex.symm.trans hj
  exact hsame

end

/-- Without an open index there is no reader and no writer. -/
theorem Sound.closed {v : IndexView} {acknowledged : Nat} (hv : v.Sound x acknowledged)
    (hindex : v.index = none) : v.reader = none ∧ v.writer = none :=
  ⟨none_of_index hv.reader hindex, none_of_index hv.writer hindex⟩

/-- An index is opened on a directory of its schema. -/
theorem Sound.opened {v : IndexView} {acknowledged : Nat} (hv : v.Sound x acknowledged)
    {definition : IndexDefinition} (dir : IndexOnDisk) (habsent : v.index = none)
    (hregistered : v.definition = some definition)
    (hbuild : x.buildSchema definition = some dir.schema)
    (hdocs : ∀ doc ∈ dir.docs, v.Since acknowledged doc) :
    Sound x acknowledged { v with index := some ⟨dir.inode, dir.schema⟩, dir := some dir } := by
  obtain ⟨hnoreader, hnowriter⟩ := hv.closed habsent
  exact { hv with
    reader := fun r h => by cases hnoreader.symm.trans h
    writer := fun w h => by cases hnowriter.symm.trans h
    live := by
      rintro - i h
      cases h
      exact ⟨dir, rfl, rfl, rfl⟩
    known := by
      rintro - i h
      cases h
      exact ⟨definition, hv.current definition hregistered, hbuild⟩
    dead := fun hnone => by cases hregistered.symm.trans hnone
    untouched := fun _ h => by cases h
    dirDocs := by
      rintro d h doc hdoc
      cases h
      exact hdocs doc hdoc
    kept := by
      intro hdef haccepted
      obtain ⟨w, _, _, h, -⟩ := hv.kept hdef haccepted
      cases hnowriter.symm.trans h }

theorem Sound.read {v : IndexView} {acknowledged : Nat} (hv : v.Sound x acknowledged)
    {index : OpenIndex} (reader : OpenReader) {dir : IndexOnDisk} (hindex : v.index = some index)
    (hinode : index.inode = reader.inode) (hdir : v.dir = some dir) :
    Sound x acknowledged { v with reader := some { reader with docs := dir.docs } } :=
  { hv with
    reader := by
      intro r h
      cases h
      exact ⟨index, hindex, hinode⟩
    readerDocs := by
      intro r h doc hdoc
      cases h
      exact hv.dirDocs dir hdir doc hdoc }

theorem Sound.write {v : IndexView} {acknowledged : Nat} (hv : v.Sound x acknowledged)
    {index : OpenIndex} {inode : Nat} (habsent : v.writer = none) (hindex : v.index = some index)
    (hinode : index.inode = inode) :
    Sound x acknowledged { v with writer := some ⟨inode, []⟩ } :=
  { hv with
    writer := by
      intro w h
      cases h
      exact ⟨index, hindex, hinode⟩
    staged := by
      rintro - w h doc hdoc
      cases h
      cases hdoc
    kept := by
      intro hdef haccepted
      obtain ⟨w, _, _, h, -⟩ := hv.kept hdef haccepted
      cases habsent.symm.trans h }

theorem Sound.put {v : IndexView} {acknowledged : Nat} (hv : v.Sound x acknowledged)
    (definition : IndexDefinition) (hclear : v.definition = none → v.index = none) :
    Sound x acknowledged
      { v with definition := some definition, definitions := v.definitions ++ [definition] } := by
  -- What is open is of a registered index.
  have hopen : ∀ i, v.index = some i → v.definition ≠ none := by
    intro i hindex hnone
    cases (hclear hnone).symm.trans hindex
  exact { hv with
    live := fun _ i h => hv.live (hopen i h) i h
    known := by
      intro _ i h
      obtain ⟨d, hd, hbuild⟩ := hv.known (hopen i h) i h
      exact ⟨d, List.mem_append_left _ hd, hbuild⟩
    current := by
      intro d h
      cases h
      exact List.mem_append_right _ (List.mem_singleton_self _)
    dead := fun h => by cases h
    staged := by
      intro _ w h
      obtain ⟨i, hi, -⟩ := hv.writer w h
      exact hv.staged (hopen i hi) w h
    kept := by
      intro _ haccepted
      exact hv.kept (fun hnone => haccepted (hv.old hnone)) haccepted
    old := fun h => by cases h }

theorem Sound.delete {v : IndexView} {acknowledged : Nat} (hv : v.Sound x acknowledged)
    (hreader : ∀ r, v.reader = some r → r.docs = []) :
    Sound x acknowledged
      { v with
        definition := none
        dir := none
        deleted := some acknowledged
        definitions := []
        accepted := [] } :=
  { hv with
    live := fun h => absurd rfl h
    known := fun h => absurd rfl h
    current := fun d h => by cases h
    dead := fun _ _ => rfl
    untouched := fun _ _ => rfl
    floor_le := le_refl acknowledged
    dirDocs := fun dir h => by cases h
    readerDocs := by
      intro r h doc hdoc
      rw [hreader r h] at hdoc
      cases hdoc
    staged := fun h => absurd rfl h
    kept := fun h => absurd rfl h
    old := fun _ => rfl }

/-- The directory of a writer is there. -/
theorem Sound.directory {v : IndexView} {acknowledged : Nat} (hv : v.Sound x acknowledged)
    {writer : OpenWriter} (hregistered : v.definition ≠ none) (hwriter : v.writer = some writer) :
    ∃ dir, v.dir = some dir := by
  obtain ⟨i, hindex, -⟩ := hv.writer writer hwriter
  obtain ⟨dir, hdir, -⟩ := hv.live hregistered i hindex
  exact ⟨dir, hdir⟩

theorem Sound.stage {v : IndexView} {acknowledged : Nat} (hv : v.Sound x acknowledged)
    {writer : OpenWriter} (edit : Edit StoredDoc) (hregistered : v.definition ≠ none)
    (hwriter : v.writer = some writer)
    (hsince : ∀ doc, edit = .add doc → v.Since acknowledged doc) :
    Sound x acknowledged
      { v with
        writer := some { writer with staged := writer.staged ++ [edit] }
        accepted := v.accepted ++ [edit] } :=
  { hv with
    writer := by
      intro w h
      cases h
      exact hv.writer writer hwriter
    staged := by
      intro _ w h doc hdoc
      cases h
      rw [added_append, List.mem_append] at hdoc
      rcases hdoc with hold | hnew
      · exact hv.staged hregistered writer hwriter doc hold
      · cases edit with
        | add item =>
          rw [List.mem_singleton.mp hnew]
          exact hsince item rfl
        | delete old => cases hnew
    kept := by
      intro _ _
      by_cases haccepted : v.accepted = []
      · obtain ⟨dir, hdir⟩ := hv.directory hregistered hwriter
        refine ⟨_, dir, writer.staged.foldl Edit.apply dir.docs, rfl, hdir, ?_⟩
        rw [haccepted, List.foldl_append]
        rfl
      · obtain ⟨w, dir, base, h, hdir, hsame⟩ := hv.kept hregistered haccepted
        cases hwriter.symm.trans h
        refine ⟨_, dir, base, rfl, hdir, ?_⟩
        rw [List.foldl_append, List.foldl_append, hsame]
    old := fun h => absurd h hregistered }

theorem Sound.commit {v : IndexView} {acknowledged : Nat} (hv : v.Sound x acknowledged)
    {writer : OpenWriter} {dir : IndexOnDisk} (hwriter : v.writer = some writer)
    (hdir : v.dir = some dir) :
    Sound x acknowledged
      { v with
        writer := some { writer with staged := [] }
        dir := some { dir with docs := writer.staged.foldl Edit.apply dir.docs } } := by
  obtain ⟨i, hindex, hsame⟩ := hv.writer writer hwriter
  have hregistered : v.definition ≠ none := by
    intro hnone
    cases hdir.symm.trans (hv.dead hnone (by simp [hindex]))
  exact { hv with
    writer := by
      intro w h
      cases h
      exact ⟨i, hindex, hsame⟩
    live := by
      intro hdef j hj
      obtain ⟨dir', hdir', hinode', hschema⟩ := hv.live hdef j hj
      cases hdir.symm.trans hdir'
      exact ⟨_, rfl, hinode', hschema⟩
    dead := fun hnone => absurd hnone hregistered
    untouched := fun _ hnone => by cases hindex.symm.trans hnone
    dirDocs := by
      intro d h doc hdoc
      cases h
      rcases mem_foldl hdoc with hold | hstaged
      · exact hv.dirDocs dir hdir doc hold
      · exact hv.staged hregistered writer hwriter doc hstaged
    staged := by
      intro _ w h doc hdoc
      cases h
      cases hdoc
    kept := by
      intro hdef haccepted
      obtain ⟨w, dir', base, h, hdir', hsame⟩ := hv.kept hdef haccepted
      cases hwriter.symm.trans h
      cases hdir.symm.trans hdir'
      exact ⟨_, _, base, rfl, rfl, hsame⟩ }

theorem opening_sound {v v' : IndexView} {acknowledged : Nat} (h : Opening x v v')
    (hv : v.Sound x acknowledged) : v'.Sound x acknowledged := by
  cases h with
  | create inode habsent hregistered hbuild hdir =>
    exact hv.opened ⟨inode, _, []⟩ habsent hregistered hbuild (fun doc hdoc => by cases hdoc)
  | existing habsent hregistered hbuild hdir =>
    have hopened := hv.opened _ habsent hregistered hbuild (hv.dirDocs _ hdir)
    rw [← hdir] at hopened
    exact hopened
  | reader hindex hdir hinode => exact hv.read ⟨_, []⟩ hindex hinode.symm hdir
  | writer habsent hindex hdir hinode => exact hv.write habsent hindex hinode.symm

theorem moves_sound {v v' : IndexView} {acknowledged : Nat} (h : Moves x acknowledged v v')
    (hv : v.Sound x acknowledged) : v'.Sound x acknowledged := by
  cases h with
  | opens hopening => exact opening_sound hopening hv
  | put definition hclear => exact hv.put definition hclear
  | delete hregistered hreader => exact hv.delete hreader
  | staged edit hregistered hwriter hsince => exact hv.stage edit hregistered hwriter hsince
  | committed hwriter hdir hinode => exact hv.commit hwriter hdir
  | reloaded hreader hdir hinode =>
    obtain ⟨i, hindex, hsame⟩ := hv.reader _ hreader
    exact hv.read _ hindex hsame hdir

end IndexView

namespace IndexService
open IndexView

def view (s : IndexService) (name : String) : IndexView where
  definition := s.registry.get name
  index := s.indexes.lookup name
  reader := s.readers.lookup name
  writer := s.writers.lookup name
  dir := s.disk.lookup (s.indexPath name)
  deleted := s.deletedAt.lookup name
  definitions := (s.definitions.lookup name).getD []
  accepted := s.acceptedOf name

structure Sound (x : Externals) (names : List String) (s : IndexService) : Prop where
  placed : Placed names s
  views : ∀ name ∈ names, (s.view name).Sound x s.acknowledged
  waiting : ∀ w ∈ s.receiver, w.id < s.acknowledged

variable {x : Externals} {names : List String}

/-- What is opened is opened under one name. -/
theorem opens_view {s t : IndexService} (h : Opens x s t) (hs : Placed names s) {n : String}
    (hmem : n ∈ names) :
    t.view n = s.view n ∨ Opening x (s.view n) (t.view n) := by
  cases h with
  | @create name definition schema habsent hregistered hbuild hdir =>
    by_cases hn : n = name
    · subst hn
      have hopening : Opening x (s.view n) _ :=
        .create s.nextInode habsent hregistered hbuild hdir
      right
      simpa [view, indexPath, acceptedOf] using hopening
    · have hpath := hs.path_ne hmem (hs.registered (by simp [hregistered])) hn
      simp only [indexPath] at hpath
      left
      simp [view, indexPath, acceptedOf, AList.lookup_insert_ne hn, AList.lookup_insert_ne hpath]
  | @existing name definition dir habsent hregistered hbuild hdir =>
    by_cases hn : n = name
    · subst hn
      have hopening : Opening x (s.view n) _ := .existing habsent hregistered hbuild hdir
      right
      simpa [view, indexPath, acceptedOf] using hopening
    · exact Or.inl (by simp [view, indexPath, acceptedOf, AList.lookup_insert_ne hn])
  | @reader name index dir hindex hlive =>
    by_cases hn : n = name
    · subst hn
      obtain ⟨hdir, hinode⟩ := live_eq_some.mp hlive
      have hopening : Opening x (s.view n) _ := .reader hindex hdir hinode
      right
      simpa [view, indexPath, acceptedOf] using hopening
    · exact Or.inl (by simp [view, indexPath, acceptedOf, AList.lookup_insert_ne hn])
  | @writer name index dir habsent hindex hlive =>
    by_cases hn : n = name
    · subst hn
      obtain ⟨hdir, hinode⟩ := live_eq_some.mp hlive
      have hopening : Opening x (s.view n) _ := .writer habsent hindex hdir hinode
      right
      simpa [view, indexPath, acceptedOf] using hopening
    · exact Or.inl (by simp [view, indexPath, acceptedOf, AList.lookup_insert_ne hn])

theorem Sound.of_moves {s t : IndexService} (hs : Sound x names s) (hplaced : Placed names t)
    (hacknowledged : t.acknowledged = s.acknowledged)
    (hmoves : ∀ n ∈ names, t.view n = s.view n ∨ Moves x s.acknowledged (s.view n) (t.view n))
    (hreceiver : ∀ w ∈ t.receiver, w ∈ s.receiver) : Sound x names t := by
  refine ⟨hplaced, fun n hn => ?_, fun w hw => ?_⟩
  · rw [hacknowledged]
    rcases hmoves n hn with hsame | hmove
    · rw [hsame]
      exact hs.views n hn
    · exact moves_sound hmove (hs.views n hn)
  · rw [hacknowledged]
    exact hs.waiting w (hreceiver w hw)

theorem Opened.sound {s t : IndexService} (h : Opened x s t) (hs : Sound x names s) :
    Sound x names t := by
  apply h.keeps _ hs
  intro u v hopens hu
  have hframe := Opened.frame (.single hopens)
  exact hu.of_moves (opens_placed hopens hu.placed) hframe.acknowledged
    (fun n hn => (opens_view hopens hu.placed hn).imp_right .opens) (fun w hw => hframe.receiver ▸ hw)

theorem Started.sound {s : IndexService} {ls : List LifecycleLabel} (hs : Started s)
    (hapart : s.KeptApart ls) : Sound x (s.names ls) s := by
  refine ⟨hs.placed hapart, fun name _ => ?_, hs.waiting⟩
  apply sound_of_start
  case hcurrent => exact hs.definitions name
  case hdir => exact hs.disk (s.indexPath name)
  all_goals
    simp [view, acceptedOf, hs.indexes, hs.readers, hs.writers, hs.deletedAt, hs.accepted]

/-- A definition is put where no index of a deleted one is open, an index is deleted when no
reader of it has documents, and an event of a deleted index is not taken for a new one that
takes its document. -/
def Clears (x : Externals) (s : IndexService) : LifecycleLabel → Prop
  | .put name payload => validateSchema (payload.under name) = some (.ok ()) →
    s.registry.get name = none → s.indexes.lookup name = none
  | .delete name => s.registry.get name ≠ none →
    ∀ reader ∈ s.readers.lookup name, reader.docs = []
  | .process => ∀ w ∈ s.receiver.head?, ∀ definition ∈ s.registry.get w.event.index,
    ∀ schema ∈ s.indexSchema x w.event.index definition,
      (documentOf x definition schema w).isSome → s.deletedBefore w.event.index ≤ w.id
  | _ => True

instance (x : Externals) (s : IndexService) (l : LifecycleLabel) : Decidable (s.Clears x l) := by
  cases l <;> unfold Clears <;> infer_instance

theorem put_sound {s t : IndexService} {name : String} {payload : IndexDefinition}
    (hs : Sound x names s) (hname : name ∈ names) (hclear : s.Clears x (.put name payload))
    (h : s.put name payload = some t) : Sound x names t := by
  have hplaced := put_placed hs.placed hname h
  rcases put_cases h with ⟨-, rfl⟩ | ⟨hvalid, rfl⟩
  · exact hs
  · refine hs.of_moves hplaced rfl (fun n _ => ?_) fun w hw => hw
    by_cases hn : n = name
    · subst hn
      have hmoves : Moves x s.acknowledged (s.view n) _ :=
        .put (payload.under n) (hclear hvalid)
      right
      simpa [view, indexPath, acceptedOf, IndexRegistry.get_insert, IndexDefinition.under,
        definitionsOf] using hmoves
    · left
      simp [view, indexPath, acceptedOf, IndexRegistry.get_insert, IndexDefinition.under, hn,
        AList.lookup_insert_ne hn]

/-- A deletion leaves the directories of the other names. -/
theorem delete_view {s : IndexService} {name n : String} (hs : Placed names s) (hmem : n ∈ names)
    (hn : n ≠ name) : (s.delete name).view n = s.view n := by
  rcases delete_cases s name with ⟨-, hsame⟩ | ⟨hregistered, hdeleted⟩
  · rw [hsame]
  · have hbeside := (hs.apart name (hs.registered hregistered) n hmem (Ne.symm hn)).1
    simp only [indexPath] at hbeside
    rw [hdeleted]
    simp [view, indexPath, acceptedOf, IndexRegistry.get_erase, hn, AList.lookup_erase_ne hn,
      AList.lookup_insert_ne hn, Table.lookup_restrict, hbeside]

theorem delete_sound {s : IndexService} {name : String} (hs : Sound x names s)
    (hclear : s.Clears x (.delete name)) : Sound x names (s.delete name) := by
  have hplaced := delete_placed name hs.placed
  rcases delete_cases s name with ⟨-, hsame⟩ | ⟨hregistered, hdeleted⟩
  · rw [hsame]
    exact hs
  · refine hs.of_moves hplaced (by rw [hdeleted]) (fun n hmem => ?_)
      fun w hw => by rwa [hdeleted] at hw
    by_cases hn : n = name
    · subst hn
      have hmoves : Moves x s.acknowledged (s.view n) _ := .delete hregistered (hclear hregistered)
      right
      rw [hdeleted]
      simpa [view, indexPath, acceptedOf, IndexRegistry.get_erase, AList.lookup_erase,
        Table.lookup_restrict] using hmoves
    · exact Or.inl (delete_view hs.placed hmem hn)

theorem ingest_sound {s : IndexService} (event : IngestEvent) (hs : Sound x names s) :
    Sound x names (s.ingest event) := by
  have hle : s.acknowledged ≤ s.acknowledged + 1 := Nat.le_succ _
  refine ⟨hs.placed.records _ _, fun n hn => (hs.views n hn).mono hle, fun w hw => ?_⟩
  rcases List.mem_append.mp hw with hold | hlast
  · exact (hs.waiting w hold).trans_le hle
  · rw [List.mem_singleton] at hlast
    subst hlast
    exact Nat.lt_succ_self _

theorem Sound.tail {s : IndexService} {w : WaitingEvent} {rest : List WaitingEvent}
    (hs : Sound x names s) (hnext : s.receiver = w :: rest) :
    Sound x names { s with receiver := rest } :=
  ⟨hs.placed.records rest s.acknowledged, hs.views,
    fun w' hw' => hs.waiting w' (hnext ▸ List.mem_cons_of_mem w hw')⟩

theorem stage_view (s : IndexService) (name : String) (writer : OpenWriter)
    (edit : Edit StoredDoc) : (s.stage name writer edit).view name =
      { s.view name with
        writer := some { writer with staged := writer.staged ++ [edit] }
        accepted := (s.view name).accepted ++ [edit] } := by
  simp [view, stage, indexPath, acceptedOf]

theorem stage_view_ne {s : IndexService} {name n : String} (writer : OpenWriter)
    (edit : Edit StoredDoc) (hn : n ≠ name) : (s.stage name writer edit).view n = s.view n := by
  simp [view, stage, indexPath, acceptedOf, AList.lookup_insert_ne hn]

theorem reload_view (s : IndexService) (name : String) (reader : OpenReader) :
    view { s with readers := s.readers.insert name reader } name =
      { s.view name with reader := some reader } := by
  simp [view, indexPath, acceptedOf]

theorem reload_view_ne {s : IndexService} {name n : String} (reader : OpenReader) (hn : n ≠ name) :
    view { s with readers := s.readers.insert name reader } n = s.view n := by
  simp [view, indexPath, acceptedOf, AList.lookup_insert_ne hn]

theorem commit_eq {s : IndexService} {name : String} {writer : OpenWriter} {dir : IndexOnDisk}
    (hwriter : s.writers.lookup name = some writer) (hlive : s.live name writer.inode = some dir) :
    s.commit name =
      { s with
        writers := s.writers.insert name { writer with staged := [] }
        disk := s.disk.insert (s.indexPath name)
          { dir with docs := writer.staged.foldl Edit.apply dir.docs } } := by
  simp only [commit, hwriter, hlive]

theorem commit_view {s : IndexService} {name : String} {writer : OpenWriter} {dir : IndexOnDisk}
    (hwriter : s.writers.lookup name = some writer) (hlive : s.live name writer.inode = some dir) :
    (s.commit name).view name =
      { s.view name with
        writer := some { writer with staged := [] }
        dir := some { dir with docs := writer.staged.foldl Edit.apply dir.docs } } := by
  rw [commit_eq hwriter hlive]
  simp [view, indexPath, acceptedOf]

/-- What a message stages is for a registered name, and no document from before its deletion. -/
theorem Stages.sound {s t : IndexService} {name : String} {takes : Edit StoredDoc → Prop}
    {r : Except Failure (Edit StoredDoc)} (h : Stages x s name takes r t) (hs : Sound x names s)
    (hregistered : ∀ edit, takes edit → s.registry.get name ≠ none)
    (hsince : ∀ doc, takes (.add doc) → (s.view name).Since s.acknowledged doc) :
    Sound x names t := by
  have hplaced := h.placed hs.placed
  cases h with
  | refused e hopened => exact hopened.sound hs
  | @staged u writer edit hopened hwriter htakes =>
    have hu := hopened.sound hs
    have hframe := hopened.frame
    refine hu.of_moves hplaced rfl (fun n _ => ?_) fun w hw => hw
    by_cases hn : n = name
    · subst hn
      have hregistered' : u.registry.get n ≠ none := by
        rw [hframe.registry]
        exact hregistered edit htakes
      have hnew : ∀ doc, edit = .add doc → (u.view n).Since u.acknowledged doc := by
        rintro doc rfl
        have hfloor : (u.view n).floor = (s.view n).floor := by
          simp [view, floor, hframe.deletedAt]
        rw [Since, hfloor, hframe.acknowledged]
        exact hsince doc htakes
      right
      rw [stage_view]
      exact .staged edit hregistered' hwriter hnew
    · exact Or.inl (stage_view_ne writer edit hn)

theorem process_sound {s t : IndexService} (hs : Sound x names s) (hclear : s.Clears x .process)
    (h : s.process x = some t) : Sound x names t := by
  obtain ⟨w, rest, r, hnext, hstages⟩ := process_cases h
  apply hstages.sound (hs.tail hnext)
  · rintro edit ⟨⟨definition, map, index, hregistered, -⟩, -⟩
    simp [hregistered]
  · rintro doc ⟨⟨definition, map, index, hregistered, hjson, hindex, herror⟩, _, heq, hid⟩
    injection heq with heq
    subst heq
    refine ⟨?_, ?_⟩
    · rw [hid]
      exact hclear w (by rw [hnext]; rfl) definition hregistered index.schema
        (getOrCreateIndex_schema hregistered hindex)
        (documentOf_isSome_iff.mpr ⟨map, hjson, herror⟩)
    · rw [hid]
      exact hs.waiting w (hnext ▸ List.mem_cons_self)

theorem purge_sound {s : IndexService} (cmd : PurgeCommand) (hs : Sound x names s) :
    Sound x names (s.purgeOldDocs x cmd).2 := by
  apply (purgeOldDocs_cases x s cmd).sound hs
  · rintro edit ⟨definition, hregistered, -⟩
    simp [hregistered]
  · rintro doc ⟨definition, -, heq⟩
    cases heq

theorem commit_view_ne {s : IndexService} {name n : String} (hs : Placed names s) (hmem : n ∈ names)
    (hn : n ≠ name) : (s.commit name).view n = s.view n := by
  rcases commit_cases s name with hsame | ⟨writer, _, hwriter, -, hcommitted⟩
  · rw [hsame]
  · have hpath := hs.path_ne hmem (hs.written hwriter) hn
    simp only [indexPath] at hpath
    rw [hcommitted]
    simp [view, indexPath, acceptedOf, AList.lookup_insert_ne hn, AList.lookup_insert_ne hpath]

theorem commit_sound {s : IndexService} (name : String) (hs : Sound x names s) :
    Sound x names (s.commit name) := by
  have hplaced := commit_placed name hs.placed
  rcases commit_cases s name with hsame | ⟨writer, dir, hwriter, hlive, hcommitted⟩
  · rw [hsame]
    exact hs
  · refine hs.of_moves hplaced (by rw [hcommitted]) (fun n hmem => ?_)
      fun w hw => by rwa [hcommitted] at hw
    by_cases hn : n = name
    · subst hn
      obtain ⟨hdir, hinode⟩ := live_eq_some.mp hlive
      right
      rw [commit_view hwriter hlive]
      exact .committed hwriter hdir hinode
    · exact Or.inl (commit_view_ne hs.placed hmem hn)

theorem search_sound {s t : IndexService} {name : String} {r : Except Failure (Multiset StoredDoc)}
    (hs : Sound x names s) (h : Searched x s name r t) : Sound x names t := by
  have hplaced := h.placed hs.placed
  cases h with
  | failed e hopened => exact hopened.sound hs
  | stale hopened => exact hopened.sound hs
  | @reloaded u reader dir hopened hreader hlive =>
    have hu := hopened.sound hs
    refine hu.of_moves hplaced rfl (fun n _ => ?_) fun w hw => hw
    by_cases hn : n = name
    · subst hn
      obtain ⟨hdir, hinode⟩ := live_eq_some.mp hlive
      right
      rw [reload_view]
      exact .reloaded hreader hdir hinode
    · exact Or.inl (reload_view_ne _ hn)

theorem step_sound {s t : IndexService} {l : LifecycleLabel} (hs : Sound x names s)
    (hputs : ∀ n ∈ l.puts, n ∈ names) (hclear : s.Clears x l) (h : s.step x l = some t) :
    Sound x names t := by
  cases l with
  | put name payload => exact put_sound hs (hputs name rfl) hclear h
  | delete name =>
    cases h
    exact delete_sound hs hclear
  | ingest event =>
    cases h
    exact ingest_sound event hs
  | process => exact process_sound hs hclear h
  | purge cmd =>
    obtain ⟨-, rfl⟩ := survive_eq_some.mp h
    exact purge_sound cmd hs
  | commit name =>
    cases h
    exact commit_sound name hs
  | search name =>
    obtain ⟨r, hsearched⟩ := search_survives h
    exact search_sound hs hsearched

/-! ## What holds of a deleted index -/

/-- The directory of the name is the one with the inode. It has a schema of the definitions
since the name was last deleted, and no document from before. -/
def Fresh (x : Externals) (s : IndexService) (name : String) (inode : Nat) : Prop :=
  ∃ dir, s.live name inode = some dir ∧
    (∃ definition ∈ s.definitionsOf name, x.buildSchema definition = some dir.schema) ∧
    ∀ doc ∈ dir.docs, s.deletedBefore name ≤ doc.id

/-- No search finds a document from before the last deletion of its name. A registered name has
a fresh index, whose documents are indexed and then found, unless a purge has come since. -/
structure Wiped (x : Externals) (s : IndexService) : Prop where
  gone : ∀ name u hits t, u = s ∨ u = s.commit name → u.search x name = (.ok hits, t) →
    ∀ doc ∈ hits, s.deletedBefore name ≤ doc.id
  index : ∀ name index t, s.registry.get name ≠ none →
    s.getOrCreateIndex x name = (.ok index, t) → t.Fresh x name index.inode
  writer : ∀ name writer t, s.registry.get name ≠ none →
    s.ensureWriter x name = (.ok writer, t) → t.Fresh x name writer.inode
  reader : ∀ name reader t, s.registry.get name ≠ none →
    s.getReader x name = (.ok reader, t) → t.Fresh x name reader.inode
  created : ∀ name definition, s.registry.get name = some definition → name ∈ s.deletedAt →
    x.Buildable definition → ∃ index, (s.getOrCreateIndex x name).1 = .ok index
  taken : ∀ w rest, s.receiver = w :: rest → s.Acceptable x w →
    ∃ t doc, s.process x = some t ∧ doc.id = w.id ∧
      t.acceptedOf w.event.index = s.acceptedOf w.event.index ++ [.add doc]
  found : ∀ name, s.registry.get name ≠ none → ∀ doc ∈ survivors (s.acceptedOf name),
    ∃ hits t, (s.commit name).search x name = (.ok hits, t) ∧ doc ∈ hits

theorem Sound.fresh {s : IndexService} (hs : Sound x names s) {name : String} {index : OpenIndex}
    (hregistered : s.registry.get name ≠ none) (hindex : s.indexes.lookup name = some index) :
    s.Fresh x name index.inode := by
  have hview := hs.views name (hs.placed.registered hregistered)
  obtain ⟨dir, hdir, hinode, hschema⟩ := hview.live hregistered index hindex
  refine ⟨dir, live_eq_some.mpr ⟨hdir, hinode⟩, ?_, fun doc hdoc => ?_⟩
  · rw [hschema]
    exact hview.known hregistered index hindex
  · exact (hview.dirDocs dir hdir doc hdoc).1

theorem Sound.reader_inode {s : IndexService} (hs : Sound x names s) {name : String}
    {index : OpenIndex} (hindex : s.indexes.lookup name = some index) :
    ∀ reader, s.readers.lookup name = some reader → index.inode = reader.inode :=
  inode_of_index (hs.views name (hs.placed.opened hindex)).reader hindex

/-- No other writer keeps a registered name from opening its own. -/
theorem ensureWriter_ok {s : IndexService} (hs : Sound x names s) {name : String}
    {index : OpenIndex} (hregistered : s.registry.get name ≠ none)
    (hindex : (s.getOrCreateIndex x name).1 = .ok index) :
    ∃ writer u, s.ensureWriter x name = (.ok writer, u) := by
  unfold ensureWriter
  cases habsent : s.writers.lookup name with
  | some writer => exact ⟨writer, s, rfl⟩
  | none =>
    obtain ⟨hopened, hcached⟩ := getOrCreateIndex_opened x s name
    have hwriters := getOrCreateIndex_writers x s name
    cases hresult : s.getOrCreateIndex x name with
    | mk r u =>
      rw [hresult] at hindex hopened hcached hwriters
      cases hindex
      have hu := hopened.sound hs
      have hregistered' : u.registry.get name ≠ none := by
        rw [hopened.frame.registry]
        exact hregistered
      have habsent' : u.writers.lookup name = none := by
        rw [show u.writers = s.writers from hwriters, habsent]
      obtain ⟨dir, hlive, -⟩ := hu.fresh hregistered' (hcached index rfl)
      have hfree := unlocked hu.placed (hu.placed.registered hregistered') habsent' hlive
      simp only [hlive, hfree]
      exact ⟨_, _, rfl⟩

/-- An acceptable event is added. -/
theorem process_acceptable {s : IndexService} (hs : Sound x names s) {w : WaitingEvent}
    {rest : List WaitingEvent} (hnext : s.receiver = w :: rest) (hacceptable : s.Acceptable x w) :
    ∃ u writer doc, Opened x { s with receiver := rest } u ∧
      u.writers.lookup w.event.index = some writer ∧ doc.id = w.id ∧
      s.process x = some (u.stage w.event.index writer (.add doc)) := by
  obtain ⟨definition, map, index, hregistered, hjson, hindex, herror⟩ := hacceptable
  have hindex' := (getOrCreateIndex_receiver x s rest w.event.index).trans hindex
  obtain ⟨writer, u, hwriter⟩ := ensureWriter_ok (hs.tail hnext) (by simp [hregistered]) hindex'
  cases hresult : u.getOrCreateIndex x w.event.index with
  | mk r v =>
    obtain ⟨hopened, hlookup, hsame⟩ := writer_and_index hwriter hresult
    rw [hindex'] at hsame
    cases hsame
    refine ⟨v, writer, ⟨w.id, parsed index.schema (definition.rootDocument x.toText map)⟩,
      hopened, hlookup, rfl, ?_⟩
    simp only [process, hnext, processEvent, hregistered, hjson, hwriter, hresult, herror]
    rfl

/-- A search reads the directory of the index that is open. -/
theorem search_live {s : IndexService} {name : String} {index : OpenIndex} {dir : IndexOnDisk}
    (hindex : s.indexes.lookup name = some index) (hlive : s.live name index.inode = some dir)
    (hreader : ∀ reader, s.readers.lookup name = some reader → index.inode = reader.inode) :
    ∃ t, s.search x name = (.ok dir.docs, t) := by
  have hinode := (live_eq_some.mp hlive).2
  cases hcached : s.readers.lookup name with
  | some reader =>
    rw [hreader reader hcached] at hlive
    simp only [search, getReader, hcached, hlive]
    exact ⟨_, rfl⟩
  | none =>
    have hlive' : { s with readers := s.readers.insert name ⟨dir.inode, dir.docs⟩ }.live name
        dir.inode = some dir := by
      rw [hinode]
      exact hlive
    simp only [search, getReader, hcached, getOrCreateIndex, hindex, hlive, hlive']
    exact ⟨_, rfl⟩

/-- What is staged is on disk after a commit. -/
theorem search_committed {s : IndexService} {name : String} {index : OpenIndex}
    {writer : OpenWriter} {dir : IndexOnDisk}
    (hindex : s.indexes.lookup name = some index) (hlive : s.live name index.inode = some dir)
    (hreader : ∀ reader, s.readers.lookup name = some reader → index.inode = reader.inode)
    (hwriter : s.writers.lookup name = some writer) (hinode : index.inode = writer.inode) :
    ∃ t, (s.commit name).search x name =
      (.ok (writer.staged.foldl Edit.apply dir.docs : List StoredDoc), t) := by
  have hcommit := commit_eq hwriter (hinode ▸ hlive)
  have hdir : (s.commit name).live name index.inode =
      some { dir with docs := writer.staged.foldl Edit.apply dir.docs } := by
    rw [hcommit]
    exact live_eq_some.mpr ⟨AList.lookup_insert _, (live_eq_some.mp hlive).2⟩
  have hindex' : (s.commit name).indexes.lookup name = some index := by
    rw [hcommit]
    exact hindex
  apply search_live hindex' hdir
  rw [hcommit]
  exact hreader

/-- There is nothing to find under a name that has not been used. -/
theorem search_blank {s : IndexService} {name : String} (h : s.Blank name) :
    ∃ e, s.search x name = (.error e, s) := by
  simp only [search, getReader, h.readers, getOrCreateIndex, h.indexes, h.registry]
  exact ⟨_, rfl⟩

theorem searched_mem {s t : IndexService} (hs : Placed names s) {name : String}
    {hits : Multiset StoredDoc} (h : s.search x name = (.ok hits, t)) : name ∈ names := by
  by_contra hname
  obtain ⟨e, he⟩ := search_blank (x := x) (hs.blank name hname)
  rw [h] at he
  cases he

theorem search_since {s t : IndexService} (hs : Sound x names s) {name : String}
    {hits : Multiset StoredDoc} (h : s.search x name = (.ok hits, t)) :
    ∀ doc ∈ hits, s.deletedBefore name ≤ doc.id := by
  have hname := searched_mem hs.placed h
  have hfloor : ∀ {u : IndexService}, Opened x s u →
      (u.view name).floor = s.deletedBefore name := by
    intro u hopened
    simp [view, floor, deletedBefore, hopened.frame.deletedAt]
  cases search_cases h with
  | stale hopened hreader =>
    intro doc hdoc
    rw [← hfloor hopened]
    exact (((hopened.sound hs).views name hname).readerDocs _ hreader doc hdoc).1
  | reloaded hopened hreader hlive =>
    intro doc hdoc
    rw [← hfloor hopened]
    exact (((hopened.sound hs).views name hname).dirDocs _ (live_eq_some.mp hlive).1 doc hdoc).1

theorem deletedBefore_commit (s : IndexService) (name : String) :
    (s.commit name).deletedBefore name = s.deletedBefore name := by
  rcases commit_cases s name with hsame | ⟨_, _, -, -, hcommitted⟩
  · rw [hsame]
  · rw [hcommitted]
    rfl

/-- Nothing is left on disk of a deleted index, so its name gets a new one. -/
theorem getOrCreateIndex_deleted {s : IndexService} (hs : Sound x names s) {name : String}
    {definition : IndexDefinition} {schema : Schema}
    (hregistered : s.registry.get name = some definition) (hdeleted : name ∈ s.deletedAt)
    (hschema : s.indexSchema x name definition = some schema) :
    ∃ index, (s.getOrCreateIndex x name).1 = .ok index ∧ index.schema = schema := by
  have hview := hs.views name (hs.placed.registered (by simp [hregistered]))
  unfold getOrCreateIndex
  unfold indexSchema at hschema
  cases hindex : s.indexes.lookup name with
  | some index =>
    rw [hindex] at hschema
    exact ⟨index, rfl, Option.some.inj hschema⟩
  | none =>
    rw [hindex] at hschema
    have hdir : s.disk.lookup (s.indexPath name) = none := by
      apply hview.untouched _ hindex
      rw [view, Ne, AList.lookup_eq_none]
      exact fun h => h hdeleted
    simp only [hregistered, hschema, hdir]
    exact ⟨_, rfl, rfl⟩

/-- The schema of a registered name is there if its definition can be built. -/
theorem indexSchema_of_buildable (s : IndexService) (name : String) {definition : IndexDefinition}
    (hbuildable : x.Buildable definition) :
    ∃ schema, s.indexSchema x name definition = some schema := by
  unfold indexSchema
  cases s.indexes.lookup name with
  | some index => exact ⟨index.schema, rfl⟩
  | none =>
    exact Option.isSome_iff_exists.mp ((x.buildSchema_isSome_iff definition).mpr hbuildable)

/-- What was accepted since the last deletion is found after a commit. -/
theorem search_accepted {s : IndexService} (hs : Sound x names s) {name : String}
    (hregistered : s.registry.get name ≠ none) {doc : StoredDoc}
    (hdoc : doc ∈ survivors (s.acceptedOf name)) :
    ∃ hits t, (s.commit name).search x name = (.ok hits, t) ∧ doc ∈ hits := by
  have hview := hs.views name (hs.placed.registered hregistered)
  have hsome : (s.view name).accepted ≠ [] := by
    intro hnil
    rw [show s.acceptedOf name = [] from hnil] at hdoc
    cases hdoc
  obtain ⟨writer, dir, base, hwriter, hdir, hsame⟩ := hview.kept hregistered hsome
  obtain ⟨index, hindex, hinode⟩ := hview.writer writer hwriter
  obtain ⟨dir', hdir', hinode', -⟩ := hview.live hregistered index hindex
  cases hdir.symm.trans hdir'
  obtain ⟨t, hsearch⟩ := search_committed (x := x) hindex (live_eq_some.mpr ⟨hdir, hinode'⟩)
    (hs.reader_inode hindex) hwriter hinode
  refine ⟨_, t, hsearch, ?_⟩
  rw [hsame]
  exact Multiset.mem_coe.mpr (mem_foldl_of_survivors base hdoc)

theorem Sound.wiped {s : IndexService} (hs : Sound x names s) : s.Wiped x := by
  have hopen : ∀ {t : IndexService} {name : String} {inode : Nat}, Opened x s t →
      s.registry.get name ≠ none → (∃ i, t.indexes.lookup name = some i ∧ i.inode = inode) →
      t.Fresh x name inode := by
    rintro t name _ hopened hregistered ⟨i, hindex, rfl⟩
    refine (hopened.sound hs).fresh ?_ hindex
    rw [hopened.frame.registry]
    exact hregistered
  have hview : ∀ {t : IndexService} {name : String}, Opened x s t → s.registry.get name ≠ none →
      (t.view name).Sound x t.acknowledged := fun hopened hregistered =>
    (hopened.sound hs).views _ (hs.placed.registered hregistered)
  constructor
  case gone =>
    rintro name u hits t (rfl | rfl) hsearch
    · exact search_since hs hsearch
    · rw [← deletedBefore_commit]
      exact search_since (commit_sound name hs) hsearch
  case index =>
    intro name index t hregistered hresult
    have hopened := getOrCreateIndex_opened x s name
    rw [hresult] at hopened
    exact hopen hopened.1 hregistered ⟨index, hopened.2 index rfl, rfl⟩
  case writer =>
    intro name writer t hregistered hresult
    have hopened := ensureWriter_opened x s name
    rw [hresult] at hopened
    exact hopen hopened.1 hregistered
      ((hview hopened.1 hregistered).writer writer (hopened.2 writer rfl))
  case reader =>
    intro name reader t hregistered hresult
    have hopened := getReader_opened x s name
    rw [hresult] at hopened
    exact hopen hopened.1 hregistered
      ((hview hopened.1 hregistered).reader reader (hopened.2 reader rfl))
  case created =>
    intro name definition hregistered hdeleted hbuildable
    obtain ⟨schema, hschema⟩ := indexSchema_of_buildable s name hbuildable
    obtain ⟨index, hindex, -⟩ := getOrCreateIndex_deleted hs hregistered hdeleted hschema
    exact ⟨index, hindex⟩
  case taken =>
    intro w rest hnext hacceptable
    obtain ⟨u, writer, doc, hopened, -, hid, hprocess⟩ := process_acceptable hs hnext hacceptable
    refine ⟨_, doc, hprocess, hid, ?_⟩
    simp [stage, acceptedOf, hopened.frame.accepted]
  case found =>
    intro name hregistered doc hdoc
    exact search_accepted hs hregistered hdoc

/-! ## When it goes wrong -/

/-- An index that is still open when its name is put again stays on the directory that is
gone. -/
theorem put_clears {s t : IndexService} {name : String} {payload : IndexDefinition}
    (hs : Sound x names s) (hname : name ∈ names) (h : s.put name payload = some t)
    (ht : t.Wiped x) : s.Clears x (.put name payload) := by
  intro hvalid hunregistered
  rcases put_cases h with ⟨hinvalid, -⟩ | ⟨-, rfl⟩
  · exact absurd hvalid hinvalid
  · cases hindex : s.indexes.lookup name with
    | none => rfl
    | some index =>
      have hdir : s.disk.lookup (s.indexPath name) = none :=
        (hs.views name hname).dead hunregistered (by simp [view, hindex])
      have hput : (s.registry.insert (payload.under name)).get name ≠ none := by
        simp [IndexRegistry.get_insert, IndexDefinition.under]
      obtain ⟨dir, hlive, -⟩ := ht.index name index _ hput (by
        simp only [getOrCreateIndex, hindex]
        rfl)
      cases hdir.symm.trans (live_eq_some.mp hlive).1

/-- A reader of a deleted index still finds what is in its snapshot. -/
theorem delete_clears {s : IndexService} {name : String} (hs : Sound x names s)
    (ht : (s.delete name).Wiped x) : s.Clears x (.delete name) := by
  intro hregistered reader hreader
  rcases delete_cases s name with ⟨hunregistered, -⟩ | ⟨-, hdeleted⟩
  · exact absurd hunregistered hregistered
  · have hlive : (s.delete name).live name reader.inode = none := by
      rw [hdeleted]
      simp [live, indexPath, Table.lookup_restrict]
    have hreader' : (s.delete name).readers.lookup name = some reader := by
      rw [hdeleted]
      exact hreader
    have hsearch : (s.delete name).search x name = (.ok reader.docs, s.delete name) := by
      simp only [search, getReader, hreader', hlive]
    apply List.eq_nil_iff_forall_not_mem.mpr
    intro doc hdoc
    have hgone := ht.gone name _ _ _ (Or.inl rfl) hsearch doc (Multiset.mem_coe.mpr hdoc)
    have hbefore := ((hs.views name (hs.placed.registered hregistered)).readerDocs
      reader hreader doc hdoc).2
    rw [hdeleted] at hgone
    simp only [deletedBefore, AList.lookup_insert, Option.getD_some] at hgone
    omega

/-- An event from before a deletion is found in the index that has the name now. -/
theorem process_clears {s t : IndexService} (hs : Sound x names s) (h : s.process x = some t)
    (ht : t.Wiped x) : s.Clears x .process := by
  intro w hw definition hregistered schema hschema hdocument
  obtain ⟨rest, hnext⟩ := List.head?_eq_some_iff.mp hw
  obtain ⟨map, hjson, herror⟩ := documentOf_isSome_iff.mp hdocument
  rw [Option.mem_def] at hregistered hschema
  by_contra hold
  have hname : w.event.index ∈ names := hs.placed.registered (by simp [hregistered])
  have hdeleted : w.event.index ∈ s.deletedAt := by
    by_contra habsent
    simp [deletedBefore, AList.lookup_eq_none.mpr habsent] at hold
  obtain ⟨index, hindex, rfl⟩ := getOrCreateIndex_deleted hs hregistered hdeleted hschema
  obtain ⟨u, writer, doc, hopened, hwriter, hid, hprocess⟩ := process_acceptable hs hnext
    ⟨definition, map, index, hregistered, hjson, hindex, herror⟩
  cases h.symm.trans hprocess
  have hu := hopened.sound (hs.tail hnext)
  have hframe := hopened.frame
  have hregistered' : u.registry.get w.event.index ≠ none := by
    rw [hframe.registry]
    simp [hregistered]
  obtain ⟨index', hindex', hinode⟩ := (hu.views w.event.index hname).writer writer hwriter
  obtain ⟨dir, hlive, -⟩ := hu.fresh hregistered' hindex'
  obtain ⟨_, hsearch⟩ := search_committed (x := x)
    (s := u.stage w.event.index writer (.add doc)) hindex' hlive (hu.reader_inode hindex')
    (AList.lookup_insert _) hinode
  have hgone := ht.gone w.event.index _ _ _ (Or.inr rfl) hsearch doc (by
    rw [List.foldl_append]
    exact Multiset.mem_coe.mpr (List.mem_append_right _ (List.mem_singleton_self _)))
  have hfloor : (u.stage w.event.index writer (.add doc)).deletedBefore w.event.index =
      s.deletedBefore w.event.index := by
    simp [stage, deletedBefore, hframe.deletedAt]
  rw [hfloor, hid] at hgone
  exact hold hgone

theorem step_clears {s t : IndexService} {l : LifecycleLabel} (hs : Sound x names s)
    (hputs : ∀ n ∈ l.puts, n ∈ names) (h : s.step x l = some t) (ht : t.Wiped x) :
    s.Clears x l := by
  cases l with
  | put name payload => exact put_clears hs (hputs name rfl) h ht
  | delete name =>
    cases h
    exact delete_clears hs ht
  | process => exact process_clears hs h ht
  | ingest event => trivial
  | purge cmd => trivial
  | commit name => trivial
  | search name => trivial

/-- From the start, with names that are kept apart: nothing is left of a deleted index and new
indexes work at every point of a run if and only if every step of it clears what it has to. -/
theorem wiped_iff {s t : IndexService} {ls : List LifecycleLabel} (hstart : Started s)
    (hapart : s.KeptApart ls) (hrun : Machine.run (step x) s ls = some t) :
    (∀ pre u, pre <+: ls → Machine.run (step x) s pre = some u → u.Wiped x) ↔
      Machine.Along (step x) (Clears x) s ls :=
  (Machine.along_iff_visits (hstart.sound hapart) (fun _ hu => hu.wiped)
    (fun _ _ _ hmem hu hl hv => step_sound hu (mem_names hmem) hl hv)
    (fun _ _ _ hmem hu hv hw => step_clears hu (mem_names hmem) hv hw) hrun).symm

theorem serving_started (definition : IndexDefinition) : Started (serving definition) := by
  constructor
  case definitions =>
    intro name d hregistered
    have hname : name = definition.name ∧ d = definition := by
      rw [serving, IndexRegistry.get_insert] at hregistered
      split at hregistered
      · rename_i hname
        exact ⟨hname, (Option.some.inj hregistered).symm⟩
      · cases hregistered
    obtain ⟨rfl, rfl⟩ := hname
    have hlookup : (serving d).definitions.lookup d.name = some [d] := AList.lookup_insert _
    simp [definitionsOf, hlookup]
  all_goals simp [serving]

/-- An index that is deleted before it is used, and created again, beside another one. The event
that was waiting for it is dropped, the one after it is indexed. -/
theorem wiped_example :
    let event : IngestEvent := ⟨"a", utf8 "\x7b\x7d"⟩
    ∃ t, Machine.run (step .tiny) (serving (.bare .strict "a"))
        [.put "b" (.bare .strict "b"), .ingest event, .delete "a", .process,
          .put "a" (.bare .dynamic "a"), .ingest event, .process] = some t ∧
      (t.acceptedOf "a").length = 1 ∧ t.Wiped .tiny := by
  intro event
  let ls : List LifecycleLabel := [.put "b" (.bare .strict "b"), .ingest event, .delete "a",
    .process, .put "a" (.bare .dynamic "a"), .ingest event, .process]
  have hseen : (Machine.run (step .tiny) (serving (.bare .strict "a")) ls).map
      (fun t => (t.acceptedOf "a").length) = some 1 := by decide +kernel
  obtain ⟨t, ht, hlength⟩ := Option.map_eq_some_iff.mp hseen
  have hapart : KeptApart (serving (.bare .strict "a")) ls :=
    keptApart_of_ordinary (by decide +kernel) (by decide +kernel)
  have hclear : Machine.Along (step .tiny) (Clears .tiny) (serving (.bare .strict "a")) ls := by
    decide +kernel
  exact ⟨t, ht, hlength,
    (wiped_iff (serving_started _) hapart ht).mpr hclear _ _ (List.prefix_refl _) ht⟩

theorem ok_of_toOption {α : Type} {r : Except Failure α} {a : α} (h : r.toOption = some a) :
    r = .ok a := by
  cases r <;> cases h
  rfl

/-- A document that has been searched is found after its index is deleted. -/
theorem search_not_wiped :
    ¬ ∀ (x : Externals) (s t : IndexService) (ls : List LifecycleLabel), Started s →
      Machine.run (step x) s ls = some t → t.Wiped x := by
  intro halways
  let event : IngestEvent := ⟨"a", utf8 "\x7b\x7d"⟩
  let ls : List LifecycleLabel := [.ingest event, .process, .commit "a", .search "a", .delete "a"]
  have hseen : (Machine.run (step .tiny) (serving (.bare .strict "a")) ls).bind (fun t =>
      (t.search .tiny "a").1.toOption.map fun hits =>
        (hits.map StoredDoc.id, t.deletedBefore "a")) = some ({0}, 1) := by decide +kernel
  obtain ⟨t, ht, hsearch⟩ := Option.bind_eq_some_iff.mp hseen
  obtain ⟨hits, hhits, heq⟩ := Option.map_eq_some_iff.mp hsearch
  obtain ⟨hids, hbefore⟩ := Prod.mk.inj heq
  obtain ⟨doc, hdoc, hid⟩ := Multiset.mem_map.mp (hids ▸ Multiset.mem_singleton_self 0)
  have hok : t.search .tiny "a" = (.ok hits, (t.search .tiny "a").2) :=
    Prod.ext (ok_of_toOption hhits) rfl
  have hgone := (halways _ _ t ls (serving_started _) ht).gone "a" t hits _ (Or.inl rfl) hok doc hdoc
  omega

/-- The names have to be kept apart: `./a` is in the directory of `a`, whose writer keeps it from
opening its own, so that its documents are lost. -/
theorem alias_not_wiped :
    ¬ ∀ (x : Externals) (s t : IndexService) (ls : List LifecycleLabel), Started s →
      Machine.run (step x) s ls = some t → Machine.Along (step x) (Clears x) s ls → t.Wiped x := by
  intro halways
  let ls : List LifecycleLabel := [.put "./a" (.bare .strict "./a"),
    .ingest ⟨"a", utf8 "\x7b\x7d"⟩, .process, .ingest ⟨"./a", utf8 "\x7b\x7d"⟩]
  let w : WaitingEvent := ⟨1, ⟨"./a", utf8 "\x7b\x7d"⟩⟩
  have hseen : (Machine.run (step .tiny) (serving (.bare .strict "a")) ls).map (fun t =>
      (t.receiver, (t.process .tiny).map fun u => (u.acceptedOf "./a").length,
        (t.registry.get "./a").isSome, (t.getOrCreateIndex .tiny "./a").1.toOption.isSome)) =
        some ([w], some 0, true, true) := by decide +kernel
  obtain ⟨t, ht, heq⟩ := Option.map_eq_some_iff.mp hseen
  simp only [Prod.mk.injEq] at heq
  obtain ⟨hnext, hprocess, hregistered, hopened⟩ := heq
  obtain ⟨definition, hdefinition⟩ := Option.isSome_iff_exists.mp hregistered
  obtain ⟨index, hindex⟩ := Option.isSome_iff_exists.mp hopened
  have hclear : Machine.Along (step .tiny) (Clears .tiny) (serving (.bare .strict "a")) ls := by
    decide +kernel
  have hwiped := halways _ _ t ls (serving_started _) ht hclear
  obtain ⟨u, doc, hu, -, haccepted⟩ := hwiped.taken w [] hnext
    ⟨definition, [], index, hdefinition, rfl, ok_of_toOption hindex, rfl⟩
  obtain ⟨u', hu', hnone⟩ := Option.map_eq_some_iff.mp hprocess
  cases hu.symm.trans hu'
  change u.acceptedOf "./a" = t.acceptedOf "./a" ++ [.add doc] at haccepted
  rw [haccepted, List.length_append, List.length_singleton] at hnone
  omega

end IndexService
end Edgewit
