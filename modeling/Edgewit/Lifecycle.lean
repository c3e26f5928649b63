import Edgewit.Edits
import Edgewit.Ingest
import Edgewit.Isolation
import Mathlib.Data.Multiset.MapFold
import Mathlib.Logic.Relation

/-!
# Indexes that come and go

The state of an index is spread over the registry, the two caches of `IndexManager`, the
writers of the actor, and the directory on disk. Here definitions are put and deleted while
events are indexed, old documents are purged and searches run. `schemas_agree_iff` says when
the schemas in the cache are those of the definitions in the registry.

A directory is known by its path, which several names may share. Opened indexes, readers and
writers belong to one directory, whatever directory has its path later.
-/

namespace Edgewit
open IndexRegistry Edits FileTree

/-- A document in an index, with the number of its event. -/
structure StoredDoc where
  id : Nat
  fields : JsonMap

/-- An index directory. The inode tells it from other directories of its path. -/
structure IndexOnDisk where
  inode : Nat
  schema : Schema
  docs : List StoredDoc

/-- An open index. -/
structure OpenIndex where
  inode : Nat
  schema : Schema
  deriving DecidableEq

/-- A reader, with the documents of its snapshot. -/
structure OpenReader where
  inode : Nat
  docs : List StoredDoc

/-- A writer, with the operations on it since its last commit. It holds the lock of its
directory. -/
structure OpenWriter where
  inode : Nat
  staged : List (Edit StoredDoc)

/-- An acknowledged event that the actor has not processed yet. -/
structure WaitingEvent where
  id : Nat
  event : IngestEvent
  deriving DecidableEq

/-- The last four fields are records: the number of acknowledged events, what that number was
when a name was last deleted, and the definitions that the name has had since then, and the
operations that were accepted under it. -/
structure IndexService where
  baseDir : Path
  registry : IndexRegistry
  indexes : Table String OpenIndex
  readers : Table String OpenReader
  writers : Table String OpenWriter
  disk : Table Path IndexOnDisk
  nextInode : Nat
  receiver : List WaitingEvent
  acknowledged : Nat
  deletedAt : Table String Nat
  definitions : Table String (List IndexDefinition)
  accepted : Table String (List (Edit StoredDoc))

inductive LifecycleLabel where
  | put (name : String) (payload : IndexDefinition)
  | delete (name : String)
  | ingest (event : IngestEvent)
  | process
  | purge (cmd : PurgeCommand)
  | commit (name : String)
  | search (name : String)

/-- `parse_json` ignores the keys that the schema does not have. -/
def parsed (schema : Schema) (root : JsonMap) : JsonMap := root.filter fun m => schema.hasField m.1

/-- The document that an event gives to an index with the definition and the schema, if it has
one. -/
def documentOf (x : Externals) (d : IndexDefinition) (schema : Schema) (w : WaitingEvent) :
    Option StoredDoc :=
  match x.fromSlice w.event.payload with
  | .ok (.object map) =>
    let root := d.rootDocument x.toText map
    match x.documentError schema root with
    | none => some ⟨w.id, parsed schema root⟩
    | some _ => none
  | _ => none

theorem documentOf_isSome_iff {x : Externals} {d : IndexDefinition} {schema : Schema}
    {w : WaitingEvent} : (documentOf x d schema w).isSome ↔ ∃ map,
      x.fromSlice w.event.payload = .ok (.object map) ∧
        x.documentError schema (d.rootDocument x.toText map) = none := by
  unfold documentOf
  split
  · rename_i map hjson
    rw [hjson]
    dsimp only
    split <;> simp [*]
  · rename_i hother
    simp only [Option.isSome_none, Bool.false_eq_true, false_iff]
    rintro ⟨map, hjson, -⟩
    exact hother map hjson

namespace IndexService

/-- Events acknowledged before this number were there when the name was last deleted. -/
def deletedBefore (s : IndexService) (name : String) : Nat := (s.deletedAt.lookup name).getD 0

def definitionsOf (s : IndexService) (name : String) : List IndexDefinition :=
  (s.definitions.lookup name).getD []

def acceptedOf (s : IndexService) (name : String) : List (Edit StoredDoc) :=
  (s.accepted.lookup name).getD []

/-- `index_path`. -/
def indexPath (s : IndexService) (name : String) : Path := Edgewit.indexPath s.baseDir name

/-- The directory at the path of the name is the one with the inode. -/
def live (s : IndexService) (name : String) (inode : Nat) : Option IndexOnDisk :=
  (s.disk.lookup (s.indexPath name)).filter fun dir => dir.inode = inode

/-- The schema of the open index of a name or, if none is open, of its definition. -/
def indexSchema (x : Externals) (s : IndexService) (name : String) (definition : IndexDefinition) :
    Option Schema :=
  match s.indexes.lookup name with
  | some index => some index.schema
  | none => x.buildSchema definition

/-! ## The index manager -/

/-- `get_or_create_index`. An index that exists is opened with its own schema only. -/
def getOrCreateIndex (x : Externals) (s : IndexService) (name : String) :
    Except Failure OpenIndex × IndexService :=
  match s.indexes.lookup name with
  | some index => (.ok index, s)
  | none =>
    match s.registry.get name with
    | none => (.error (.error s!"Index definition not found: '{name}'"), s)
    | some definition =>
      match x.buildSchema definition with
      | none => (.error .panic, s)
      | some schema =>
        match s.disk.lookup (s.indexPath name) with
        | none =>
          let index : OpenIndex := ⟨s.nextInode, schema⟩
          (.ok index, { s with
            indexes := s.indexes.insert name index
            disk := s.disk.insert (s.indexPath name) ⟨s.nextInode, schema, []⟩
            nextInode := s.nextInode + 1 })
        | some dir =>
          if dir.schema = schema then
            let index : OpenIndex := ⟨dir.inode, schema⟩
            (.ok index, { s with indexes := s.indexes.insert name index })
          else
            (.error (.error
              "Schema error: 'An index exists but the schema does not match.'"), s)

/-- `get_reader`. A reader cannot be opened on a directory that is gone. -/
def getReader (x : Externals) (s : IndexService) (name : String) :
    Except Failure OpenReader × IndexService :=
  match s.readers.lookup name with
  | some reader => (.ok reader, s)
  | none =>
    match s.getOrCreateIndex x name with
    | (.error e, s) => (.error e, s)
    | (.ok index, s) =>
      match s.live name index.inode with
      | none => (.error (.error s!"Failed to build reader for '{name}'"), s)
      | some dir =>
        let reader : OpenReader := ⟨dir.inode, dir.docs⟩
        (.ok reader, { s with readers := s.readers.insert name reader })

/-! ## The indexer -/

/-- Some writer is open on the directory. -/
def locked (s : IndexService) (inode : Nat) : Bool := s.writers.entries.any fun e => e.2.inode = inode

/-- `ensure_writer`. A writer cannot be opened on a directory that is gone, or has one. -/
def ensureWriter (x : Externals) (s : IndexService) (name : String) :
    Except Failure OpenWriter × IndexService :=
  match s.writers.lookup name with
  | some writer => (.ok writer, s)
  | none =>
    match s.getOrCreateIndex x name with
    | (.error e, s) => (.error e, s)
    | (.ok index, s) =>
      match s.live name index.inode with
      | none => (.error (.error s!"Failed to open writer for '{name}'"), s)
      | some dir =>
        if s.locked dir.inode then (.error (.error x.lockFailure), s)
        else
          let writer : OpenWriter := ⟨dir.inode, []⟩
          (.ok writer, { s with writers := s.writers.insert name writer })

/-- `add_document` or `delete_query` on a writer. -/
def stage (s : IndexService) (name : String) (writer : OpenWriter) (edit : Edit StoredDoc) :
    IndexService :=
  { s with
    writers := s.writers.insert name { writer with staged := writer.staged ++ [edit] }
    accepted := s.accepted.insert name (s.acceptedOf name ++ [edit]) }

/-- `process_event`, with the operation it stages. -/
def processEvent (x : Externals) (s : IndexService) (w : WaitingEvent) :
    Except Failure (Edit StoredDoc) × IndexService :=
  let name := w.event.index
  match s.registry.get name with
  | none => (.error (.error s!"Unknown index: '{name}'"), s)
  | some definition =>
    match x.fromSlice w.event.payload with
    | .error e => (.error (.error s!"Invalid JSON payload: {e}"), s)
    | .ok (.object map) =>
      match s.ensureWriter x name with
      | (.error e, s) => (.error e, s)
      | (.ok writer, s) =>
        match s.getOrCreateIndex x name with
        | (.error e, s) => (.error e, s)
        | (.ok index, s) =>
          let root := definition.rootDocument x.toText map
          match x.documentError index.schema root with
          | some e => (.error (.error s!"Failed to parse tantivy doc: {e}"), s)
          | none =>
            let edit : Edit StoredDoc := .add ⟨w.id, parsed index.schema root⟩
            (.ok edit, s.stage name writer edit)
    | .ok _ => (.error (.error "Payload must be a JSON object"), s)

/-- The documents that a purge takes. -/
def pastBound (x : Externals) (definition : IndexDefinition) (cmd : PurgeCommand)
    (doc : StoredDoc) : Bool :=
  x.olderThan definition.timestampField cmd.bound doc.fields

/-- `purge_old_docs`, with the operation it stages. -/
def purgeOldDocs (x : Externals) (s : IndexService) (cmd : PurgeCommand) :
    Except Failure (Edit StoredDoc) × IndexService :=
  let name := cmd.indexName
  match s.registry.get name with
  | none => (.error (.error s!"Index '{name}' not found in registry"), s)
  | some definition =>
    let timestampField := definition.timestampField
    match definition.fields.lookup timestampField with
    | none =>
      (.error (.error (s!"Timestamp field '{timestampField}' is not declared in index " ++
        s!"'{name}' — add it to fields: to enable retention")), s)
    | some field =>
      if field.fieldType = .datetime then
        match s.ensureWriter x name with
        | (.error e, s) => (.error e, s)
        | (.ok writer, s) =>
          match s.getOrCreateIndex x name with
          | (.error e, s) => (.error e, s)
          | (.ok index, s) =>
            if index.schema.hasField timestampField then
              let edit : Edit StoredDoc := .delete (pastBound x definition cmd)
              (.ok edit, s.stage name writer edit)
            else
              (.error (.error s!"Field '{timestampField}' missing from Tantivy schema"), s)
      else
        (.error (.error
          s!"Field '{timestampField}' must be type: datetime for retention to work in '{name}'"), s)

/-! ## The operations -/

/-- `create_index_handler` in memory. -/
def put (s : IndexService) (name : String) (payload : IndexDefinition) : Option IndexService :=
  let payload := payload.under name
  (s.registry.upsert payload).map fun
    | .error _ => s
    | .ok registry =>
      { s with
        registry
        definitions := s.definitions.insert name (s.definitionsOf name ++ [payload]) }

/-- `delete_index_handler` in memory, and the removal of the data directory with all that is
below it. -/
def delete (s : IndexService) (name : String) : IndexService :=
  match s.registry.remove name with
  | .error _ => s
  | .ok registry =>
    { s with
      registry
      disk := Table.restrict s.disk fun path => ¬ s.indexPath name <+: path
      deletedAt := s.deletedAt.insert name s.acknowledged
      definitions := s.definitions.erase name
      accepted := s.accepted.erase name }

/-- An event is acknowledged, whether its index exists or not. -/
def ingest (s : IndexService) (event : IngestEvent) : IndexService :=
  { s with
    receiver := s.receiver ++ [⟨s.acknowledged, event⟩]
    acknowledged := s.acknowledged + 1 }

/-- A panic ends the process. -/
def survive {α : Type} : Except Failure α × IndexService → Option IndexService
  | (.error .panic, _) => none
  | (_, s) => some s

/-- The actor takes its next event. -/
def process (x : Externals) (s : IndexService) : Option IndexService :=
  match s.receiver with
  | [] => none
  | w :: rest => survive ({ s with receiver := rest }.processEvent x w)

/-- A commit of the writer. It fails where the directory is gone. -/
def commit (s : IndexService) (name : String) : IndexService :=
  match s.writers.lookup name with
  | none => s
  | some writer =>
    match s.live name writer.inode with
    | none => s
    | some dir =>
      { s with
        writers := s.writers.insert name { writer with staged := [] }
        disk := s.disk.insert (s.indexPath name)
          { dir with docs := writer.staged.foldl Edit.apply dir.docs } }

/-- `index_search_handler`, with all the documents that a query can match: their order is that
of the query. A reload fails where the directory is gone. -/
def search (x : Externals) (s : IndexService) (name : String) :
    Except Failure (Multiset StoredDoc) × IndexService :=
  match s.getReader x name with
  | (.error e, s) => (.error e, s)
  | (.ok reader, s) =>
    match s.live name reader.inode with
    | none => (.ok reader.docs, s)
    | some dir =>
      (.ok dir.docs, { s with readers := s.readers.insert name { reader with docs := dir.docs } })

/-- A purge command may come at any time. -/
def step (x : Externals) (s : IndexService) : LifecycleLabel → Option IndexService
  | .put name payload => s.put name payload
  | .delete name => some (s.delete name)
  | .ingest event => some (s.ingest event)
  | .process => s.process x
  | .purge cmd => survive (s.purgeOldDocs x cmd)
  | .commit name => some (s.commit name)
  | .search name => survive (s.search x name)

/-! ## What is opened -/

variable {x : Externals}

/-- The manager or the actor opens something. -/
inductive Opens (x : Externals) (s : IndexService) : IndexService → Prop where
  | create {name : String} {definition : IndexDefinition} {schema : Schema}
      (habsent : s.indexes.lookup name = none) (hregistered : s.registry.get name = some definition)
      (hbuild : x.buildSchema definition = some schema)
      (hdir : s.disk.lookup (s.indexPath name) = none) :
      Opens x s { s with
        indexes := s.indexes.insert name ⟨s.nextInode, schema⟩
        disk := s.disk.insert (s.indexPath name) ⟨s.nextInode, schema, []⟩
        nextInode := s.nextInode + 1 }
  | existing {name : String} {definition : IndexDefinition} {dir : IndexOnDisk}
      (habsent : s.indexes.lookup name = none) (hregistered : s.registry.get name = some definition)
      (hbuild : x.buildSchema definition = some dir.schema)
      (hdir : s.disk.lookup (s.indexPath name) = some dir) :
      Opens x s { s with indexes := s.indexes.insert name ⟨dir.inode, dir.schema⟩ }
  | reader {name : String} {index : OpenIndex} {dir : IndexOnDisk}
      (hindex : s.indexes.lookup name = some index) (hlive : s.live name index.inode = some dir) :
      Opens x s { s with readers := s.readers.insert name ⟨dir.inode, dir.docs⟩ }
  | writer {name : String} {index : OpenIndex} {dir : IndexOnDisk}
      (habsent : s.writers.lookup name = none) (hindex : s.indexes.lookup name = some index)
      (hlive : s.live name index.inode = some dir) :
      Opens x s { s with writers := s.writers.insert name ⟨dir.inode, []⟩ }

abbrev Opened (x : Externals) : IndexService → IndexService → Prop :=
  Relation.ReflTransGen (Opens x)

theorem live_eq_some {s : IndexService} {name : String} {inode : Nat} {dir : IndexOnDisk} :
    s.live name inode = some dir ↔
      s.disk.lookup (s.indexPath name) = some dir ∧ dir.inode = inode := by
  simp [live, Option.filter_eq_some_iff]

theorem locked_iff {s : IndexService} {inode : Nat} :
    s.locked inode = true ↔ ∃ name w, s.writers.lookup name = some w ∧ w.inode = inode := by
  simp only [locked, List.any_eq_true, decide_eq_true_eq]
  constructor
  · rintro ⟨⟨name, w⟩, hmem, hinode⟩
    exact ⟨name, w, AList.mem_lookup_iff.mpr hmem, hinode⟩
  · rintro ⟨name, w, hlookup, hinode⟩
    exact ⟨⟨name, w⟩, AList.mem_lookup_iff.mp hlookup, hinode⟩

theorem getOrCreateIndex_opened (x : Externals) (s : IndexService) (name : String) :
    Opened x s (s.getOrCreateIndex x name).2 ∧ ∀ index, (s.getOrCreateIndex x name).1 = .ok index →
      (s.getOrCreateIndex x name).2.indexes.lookup name = some index := by
  unfold getOrCreateIndex
  cases hcached : s.indexes.lookup name with
  | some index =>
    refine ⟨.refl, fun index' h => ?_⟩
    cases h
    exact hcached
  | none =>
    dsimp only
    cases hregistered : s.registry.get name with
    | none => exact ⟨.refl, fun _ h => by cases h⟩
    | some definition =>
      dsimp only
      cases hbuild : x.buildSchema definition with
      | none => exact ⟨.refl, fun _ h => by cases h⟩
      | some schema =>
        dsimp only
        cases hdir : s.disk.lookup (s.indexPath name) with
        | none =>
          refine ⟨.single (.create hcached hregistered hbuild hdir), fun index h => ?_⟩
          cases h
          exact AList.lookup_insert _
        | some dir =>
          dsimp only
          by_cases hschema : dir.schema = schema
          · subst hschema
            rw [if_pos rfl]
            refine ⟨.single (.existing hcached hregistered hbuild hdir), fun index h => ?_⟩
            cases h
            exact AList.lookup_insert _
          · rw [if_neg hschema]
            exact ⟨.refl, fun _ h => by cases h⟩

theorem getOrCreateIndex_schema {s : IndexService} {name : String} {definition : IndexDefinition}
    {index : OpenIndex} (hregistered : s.registry.get name = some definition)
    (hindex : (s.getOrCreateIndex x name).1 = .ok index) :
    s.indexSchema x name definition = some index.schema := by
  unfold indexSchema
  unfold getOrCreateIndex at hindex
  cases hcached : s.indexes.lookup name with
  | some index' =>
    rw [hcached] at hindex
    cases hindex
    rfl
  | none =>
    rw [hcached] at hindex
    dsimp only at hindex ⊢
    rw [hregistered] at hindex
    dsimp only at hindex
    cases hbuild : x.buildSchema definition with
    | none =>
      rw [hbuild] at hindex
      cases hindex
    | some schema =>
      rw [hbuild] at hindex
      dsimp only at hindex
      split at hindex
      · cases hindex
        rfl
      split at hindex
      · cases hindex
        rfl
      · cases hindex

theorem getOrCreateIndex_writers (x : Externals) (s : IndexService) (name : String) :
    (s.getOrCreateIndex x name).2.writers = s.writers := by
  unfold getOrCreateIndex
  split
  · rfl
  split
  · rfl
  split
  · rfl
  split
  · rfl
  split <;> rfl

theorem getReader_opened (x : Externals) (s : IndexService) (name : String) :
    Opened x s (s.getReader x name).2 ∧ ∀ reader, (s.getReader x name).1 = .ok reader →
      (s.getReader x name).2.readers.lookup name = some reader := by
  unfold getReader
  cases hcached : s.readers.lookup name with
  | some reader =>
    refine ⟨.refl, fun reader' h => ?_⟩
    cases h
    exact hcached
  | none =>
    dsimp only
    obtain ⟨hopened, hindex⟩ := getOrCreateIndex_opened x s name
    cases hresult : s.getOrCreateIndex x name with
    | mk r u =>
      rw [hresult] at hopened hindex
      cases r with
      | error e => exact ⟨hopened, fun _ h => by cases h⟩
      | ok index =>
        dsimp only
        cases hlive : u.live name index.inode with
        | none => exact ⟨hopened, fun _ h => by cases h⟩
        | some dir =>
          refine ⟨hopened.tail (.reader (hindex index rfl) hlive), fun reader h => ?_⟩
          cases h
          exact AList.lookup_insert _

theorem ensureWriter_opened (x : Externals) (s : IndexService) (name : String) :
    Opened x s (s.ensureWriter x name).2 ∧ ∀ writer, (s.ensureWriter x name).1 = .ok writer →
      (s.ensureWriter x name).2.writers.lookup name = some writer := by
  unfold ensureWriter
  cases hcached : s.writers.lookup name with
  | some writer =>
    refine ⟨.refl, fun writer' h => ?_⟩
    cases h
    exact hcached
  | none =>
    dsimp only
    obtain ⟨hopened, hindex⟩ := getOrCreateIndex_opened x s name
    cases hresult : s.getOrCreateIndex x name with
    | mk r u =>
      rw [hresult] at hopened hindex
      cases r with
      | error e => exact ⟨hopened, fun _ h => by cases h⟩
      | ok index =>
        dsimp only
        cases hlive : u.live name index.inode with
        | none => exact ⟨hopened, fun _ h => by cases h⟩
        | some dir =>
          have habsent : u.writers.lookup name = none := by
            have hsame := getOrCreateIndex_writers x s name
            rw [hresult] at hsame
            rw [hsame, hcached]
          dsimp only
          split
          · exact ⟨hopened, fun _ h => by cases h⟩
          · refine ⟨hopened.tail (.writer habsent (hindex index rfl) hlive), fun writer h => ?_⟩
            cases h
            exact AList.lookup_insert _

/-- A search opens a reader if it can, and answers from the directory or, if that is gone,
from the snapshot of the reader. -/
inductive Searched (x : Externals) (s : IndexService) (name : String) :
    Except Failure (Multiset StoredDoc) → IndexService → Prop where
  | failed {u : IndexService} (e : Failure) (hopened : Opened x s u) :
      Searched x s name (.error e) u
  | stale {u : IndexService} {reader : OpenReader} (hopened : Opened x s u)
      (hreader : u.readers.lookup name = some reader) (hgone : u.live name reader.inode = none) :
      Searched x s name (.ok reader.docs) u
  | reloaded {u : IndexService} {reader : OpenReader} {dir : IndexOnDisk} (hopened : Opened x s u)
      (hreader : u.readers.lookup name = some reader)
      (hlive : u.live name reader.inode = some dir) :
      Searched x s name (.ok dir.docs)
        { u with readers := u.readers.insert name { reader with docs := dir.docs } }

theorem search_cases {s t : IndexService} {name : String} {r : Except Failure (Multiset StoredDoc)}
    (h : s.search x name = (r, t)) : Searched x s name r t := by
  unfold search at h
  obtain ⟨hopened, hreader⟩ := getReader_opened x s name
  cases hresult : s.getReader x name with
  | mk r' u =>
    rw [hresult] at h hopened hreader
    cases r' with
    | error e =>
      cases h
      exact .failed e hopened
    | ok reader =>
      dsimp only at h
      cases hlive : u.live name reader.inode with
      | none =>
        rw [hlive] at h
        cases h
        exact .stale hopened (hreader reader rfl) hlive
      | some dir =>
        rw [hlive] at h
        cases h
        exact .reloaded hopened (hreader reader rfl) hlive

/-- An event with a document that its index takes. -/
def Acceptable (x : Externals) (s : IndexService) (w : WaitingEvent) : Prop :=
  ∃ definition map index, s.registry.get w.event.index = some definition ∧
    x.fromSlice w.event.payload = .ok (.object map) ∧
    (s.getOrCreateIndex x w.event.index).1 = .ok index ∧
    x.documentError index.schema (definition.rootDocument x.toText map) = none

theorem getOrCreateIndex_receiver (x : Externals) (s : IndexService) (rest : List WaitingEvent) (name : String) :
    (getOrCreateIndex x { s with receiver := rest } name).1 = (s.getOrCreateIndex x name).1 := by
  unfold getOrCreateIndex
  cases s.indexes.lookup name with
  | some index => rfl
  | none =>
    cases s.registry.get name with
    | none => rfl
    | some definition =>
      dsimp only
      cases x.buildSchema definition with
      | none => rfl
      | some schema =>
        change (match s.disk.lookup (s.indexPath name) with | none => _ | some dir => _ : _ × _).1 = _
        cases s.disk.lookup (s.indexPath name) with
        | none => rfl
        | some dir =>
          dsimp only
          split <;> rfl

theorem ensureWriter_index {s u : IndexService} {name : String} {writer : OpenWriter}
    (h : s.ensureWriter x name = (.ok writer, u)) :
    (u.getOrCreateIndex x name).1 = (s.getOrCreateIndex x name).1 := by
  unfold ensureWriter at h
  cases hcached : s.writers.lookup name with
  | some writer' =>
    rw [hcached] at h
    cases h
    rfl
  | none =>
    rw [hcached] at h
    have hindex := (getOrCreateIndex_opened x s name).2
    cases hresult : s.getOrCreateIndex x name with
    | mk r v =>
      rw [hresult] at h hindex
      cases r with
      | error e => cases h
      | ok index =>
        dsimp only at h
        split at h
        · cases h
        split at h
        · cases h
        · cases h
          have hcached' := hindex index rfl
          simp only [getOrCreateIndex, hcached']

/-- The writer of a name is opened, and then its index, which is the one before. -/
theorem writer_and_index {s u v : IndexService} {name : String} {writer : OpenWriter}
    {r : Except Failure OpenIndex} (hwriter : s.ensureWriter x name = (.ok writer, u))
    (hindex : u.getOrCreateIndex x name = (r, v)) :
    Opened x s v ∧ v.writers.lookup name = some writer ∧ (s.getOrCreateIndex x name).1 = r := by
  have hopened := ensureWriter_opened x s name
  have hopened' := (getOrCreateIndex_opened x u name).1
  have hwriters := getOrCreateIndex_writers x u name
  have hsame := ensureWriter_index hwriter
  rw [hwriter] at hopened
  rw [hindex] at hopened' hwriters hsame
  refine ⟨hopened.1.trans hopened', ?_, hsame.symm⟩
  change v.writers = u.writers at hwriters
  rw [hwriters]
  exact hopened.2 writer rfl

/-- The actor opens what it needs and stages an operation, if all is well. -/
inductive Stages (x : Externals) (s : IndexService) (name : String) (takes : Edit StoredDoc → Prop) :
    Except Failure (Edit StoredDoc) → IndexService → Prop where
  | refused {u : IndexService} (e : Failure) (hopened : Opened x s u) :
      Stages x s name takes (.error e) u
  | staged {u : IndexService} {writer : OpenWriter} {edit : Edit StoredDoc} (hopened : Opened x s u)
      (hwriter : u.writers.lookup name = some writer) (htakes : takes edit) :
      Stages x s name takes (.ok edit) (u.stage name writer edit)

/-- What an event stages. -/
def Adds (x : Externals) (s : IndexService) (w : WaitingEvent) (edit : Edit StoredDoc) : Prop :=
  s.Acceptable x w ∧ ∃ doc : StoredDoc, edit = .add doc ∧ doc.id = w.id

/-- What a purge command stages. -/
def Purges (x : Externals) (s : IndexService) (cmd : PurgeCommand) (edit : Edit StoredDoc) : Prop :=
  ∃ definition, s.registry.get cmd.indexName = some definition ∧
    edit = .delete (pastBound x definition cmd)

/-- An operation is staged once the writer and the index are open. -/
theorem staged_of_open {s u v : IndexService} {name : String} {writer : OpenWriter}
    {r : Except Failure OpenIndex} (hwriter : s.ensureWriter x name = (.ok writer, u))
    (hindex : u.getOrCreateIndex x name = (r, v)) {takes : Edit StoredDoc → Prop}
    {edit : Edit StoredDoc} (htakes : takes edit) :
    Stages x s name takes (.ok edit) (v.stage name writer edit) :=
  have hopen := writer_and_index hwriter hindex
  .staged hopen.1 hopen.2.1 htakes

/-- The document of an acceptable event is staged. -/
theorem processEvent_cases (x : Externals) (s : IndexService) (w : WaitingEvent) :
    Stages x s w.event.index (s.Adds x w) (s.processEvent x w).1 (s.processEvent x w).2 := by
  unfold processEvent
  dsimp only
  cases hregistered : s.registry.get w.event.index with
  | none => exact .refused _ .refl
  | some definition =>
    dsimp only
    cases hjson : x.fromSlice w.event.payload with
    | error e => exact .refused _ .refl
    | ok source =>
      cases source with
      | object map =>
        dsimp only
        cases hwriter : s.ensureWriter x w.event.index with
        | mk r u =>
          have hopened := (ensureWriter_opened x s w.event.index).1
          rw [hwriter] at hopened
          cases r with
          | error e => exact .refused e hopened
          | ok writer =>
            dsimp only
            cases hresult : u.getOrCreateIndex x w.event.index with
            | mk r v =>
              obtain ⟨hopened', -, hindex⟩ := writer_and_index hwriter hresult
              cases r with
              | error e => exact .refused e hopened'
              | ok index =>
                dsimp only
                cases herror : x.documentError index.schema
                    (definition.rootDocument x.toText map) with
                | some e => exact .refused _ hopened'
                | none =>
                  exact staged_of_open hwriter hresult
                    ⟨⟨definition, map, index, hregistered, hjson, hindex, herror⟩, _, rfl, rfl⟩
      | _ => exact .refused _ .refl

/-- The deletion for a command is staged if its index has a timestamp field. -/
theorem purgeOldDocs_cases (x : Externals) (s : IndexService) (cmd : PurgeCommand) :
    Stages x s cmd.indexName (s.Purges x cmd) (s.purgeOldDocs x cmd).1 (s.purgeOldDocs x cmd).2 := by
  unfold purgeOldDocs
  dsimp only
  cases hregistered : s.registry.get cmd.indexName with
  | none => exact .refused _ .refl
  | some definition =>
    dsimp only
    cases definition.fields.lookup definition.timestampField with
    | none => exact .refused _ .refl
    | some field =>
      dsimp only
      split
      swap
      · exact .refused _ .refl
      cases hwriter : s.ensureWriter x cmd.indexName with
      | mk r u =>
        have hopened := (ensureWriter_opened x s cmd.indexName).1
        rw [hwriter] at hopened
        cases r with
        | error e => exact .refused e hopened
        | ok writer =>
          dsimp only
          cases hresult : u.getOrCreateIndex x cmd.indexName with
          | mk r v =>
            obtain ⟨hopened', -, -⟩ := writer_and_index hwriter hresult
            cases r with
            | error e => exact .refused e hopened'
            | ok index =>
              dsimp only
              split
              · exact staged_of_open hwriter hresult ⟨definition, hregistered, rfl⟩
              · exact .refused _ hopened'

theorem survive_eq_some {α : Type} {r : Except Failure α × IndexService} {t : IndexService} :
    survive r = some t ↔ r.1 ≠ .error .panic ∧ r.2 = t := by
  obtain ⟨result, u⟩ := r
  cases result with
  | ok a => simp [survive]
  | error e => cases e <;> simp [survive]

theorem search_survives {s t : IndexService} {name : String} (h : survive (s.search x name) = some t) :
    ∃ r, Searched x s name r t := by
  obtain ⟨-, rfl⟩ := survive_eq_some.mp h
  exact ⟨(s.search x name).1, search_cases rfl⟩

theorem process_cases {s t : IndexService} (h : s.process x = some t) :
    ∃ w rest r, s.receiver = w :: rest ∧
      Stages x { s with receiver := rest } w.event.index (s.Adds x w) r t := by
  unfold process at h
  cases hnext : s.receiver with
  | nil =>
    rw [hnext] at h
    cases h
  | cons w rest =>
    rw [hnext] at h
    obtain ⟨-, rfl⟩ := survive_eq_some.mp h
    refine ⟨w, rest, (processEvent x { s with receiver := rest } w).1, rfl, ?_⟩
    have hsame : Adds x { s with receiver := rest } w = s.Adds x w := by
      funext edit
      unfold Adds Acceptable
      simp only [getOrCreateIndex_receiver]
    rw [← hsame]
    exact processEvent_cases x _ w

/-- A definition is put if it is valid. -/
theorem put_cases {s t : IndexService} {name : String} {payload : IndexDefinition}
    (h : s.put name payload = some t) :
    (validateSchema (payload.under name) ≠ some (.ok ()) ∧ t = s) ∨
    (validateSchema (payload.under name) = some (.ok ()) ∧
      t = { s with
        registry := s.registry.insert (payload.under name)
        definitions := s.definitions.insert name (s.definitionsOf name ++ [payload.under name]) }) := by
  obtain ⟨verdict, hverdict, ht⟩ := Option.map_eq_some_iff.mp h
  obtain ⟨valid, hvalid, hok⟩ := Option.map_eq_some_iff.mp hverdict
  cases valid with
  | error e =>
    cases hok
    exact Or.inl ⟨by simp [hvalid], ht.symm⟩
  | ok _ =>
    cases hok
    exact Or.inr ⟨hvalid, ht.symm⟩

/-- An index is deleted if it is registered. -/
theorem delete_cases (s : IndexService) (name : String) :
    (s.registry.get name = none ∧ s.delete name = s) ∨
    (s.registry.get name ≠ none ∧ s.delete name =
      { s with
        registry := s.registry.erase name
        disk := Table.restrict s.disk fun path => ¬ s.indexPath name <+: path
        deletedAt := s.deletedAt.insert name s.acknowledged
        definitions := s.definitions.erase name
        accepted := s.accepted.erase name }) := by
  simp only [delete, IndexRegistry.remove, IndexRegistry.get, Ne, AList.lookup_eq_none]
  by_cases hmem : name ∈ s.registry.indexes
  · rw [if_pos hmem]
    exact Or.inr ⟨fun h => h hmem, rfl⟩
  · rw [if_neg hmem]
    exact Or.inl ⟨hmem, rfl⟩

/-- A commit goes through if the directory of the writer is still there. -/
theorem commit_cases (s : IndexService) (name : String) :
    s.commit name = s ∨ ∃ writer dir, s.writers.lookup name = some writer ∧
      s.live name writer.inode = some dir ∧ s.commit name =
      { s with
        writers := s.writers.insert name { writer with staged := [] }
        disk := s.disk.insert (s.indexPath name)
          { dir with docs := writer.staged.foldl Edit.apply dir.docs } } := by
  unfold commit
  cases hwriter : s.writers.lookup name with
  | none => exact Or.inl rfl
  | some writer =>
    dsimp only
    cases hlive : s.live name writer.inode with
    | none => exact Or.inl rfl
    | some dir => exact Or.inr ⟨writer, dir, rfl, hlive, rfl⟩

theorem Opened.keeps {P : IndexService → Prop} (hP : ∀ {s t : IndexService}, Opens x s t → P s → P t)
    {s t : IndexService} (h : Opened x s t) (hs : P s) : P t := by
  induction h with
  | refl => exact hs
  | tail _ hopens ih => exact hP hopens ih

/-- What is not opened stays as it is. -/
structure Frame (s t : IndexService) : Prop where
  baseDir : t.baseDir = s.baseDir
  registry : t.registry = s.registry
  receiver : t.receiver = s.receiver
  acknowledged : t.acknowledged = s.acknowledged
  deletedAt : t.deletedAt = s.deletedAt
  definitions : t.definitions = s.definitions
  accepted : t.accepted = s.accepted

theorem Opened.frame {s t : IndexService} (h : Opened x s t) : Frame s t := by
  apply h.keeps (P := Frame s) _ ⟨rfl, rfl, rfl, rfl, rfl, rfl, rfl⟩
  intro u v hopens hu
  cases hopens <;>
    exact ⟨hu.baseDir, hu.registry, hu.receiver, hu.acknowledged, hu.deletedAt, hu.definitions,
      hu.accepted⟩

/-! ## Schemas -/

/-- The values of a payload that are in its document: a mapped one in its own field and, in
dynamic mode, an unmapped one in `_dynamic`. -/
structure Kept (x : Externals) (definition : IndexDefinition) (map doc : JsonMap) : Prop where
  mapped : ∀ m ∈ map, m.1 ∈ definition.fields → m.2.isNull = false → doc.get? m.1 = some m.2
  unmapped : definition.mode = .dynamic → ∀ m ∈ map, m.1 ∉ definition.fields →
    ∀ text, dynamicPart x.toText m.2 = some text →
      ∃ parts, text ∈ parts ∧ doc.get? "_dynamic" = some (.string (String.intercalate " " parts))

/-- The index of a registered name has the schema of the definition, with every field that
is mapped, and its documents keep the values of their payloads. -/
def SchemasAgree (x : Externals) (s : IndexService) : Prop :=
  ∀ name definition index t, s.registry.get name = some definition →
    s.getOrCreateIndex x name = (.ok index, t) →
    x.buildSchema definition = some index.schema ∧
    (∀ field ∈ definition.fields, index.schema.hasField field = true) ∧
    ∀ map : JsonMap, (map.map Prod.fst).Nodup →
      Kept x definition map (parsed index.schema (definition.rootDocument x.toText map))

/-- A definition that is put has the schema of the index that is open under its name. -/
def Fits (x : Externals) (s : IndexService) : LifecycleLabel → Prop
  | .put name payload => validateSchema (payload.under name) = some (.ok ()) →
    ∀ index, s.indexes.lookup name = some index →
      x.buildSchema (payload.under name) = some index.schema
  | _ => True

/-- The open indexes have the schemas of the definitions. -/
def Agree (x : Externals) (s : IndexService) : Prop :=
  ∀ name definition index, s.registry.get name = some definition →
    s.indexes.lookup name = some index → x.buildSchema definition = some index.schema

theorem parsed_rootDocument {definition : IndexDefinition} {schema : Schema}
    (hbuild : x.buildSchema definition = some schema) (toText : Json → String) (map : JsonMap) :
    parsed schema (definition.rootDocument toText map) = definition.rootDocument toText map :=
  List.filter_eq_self.mpr (definition.rootDocument_hasField hbuild toText map)

theorem rootDocument_kept {x : Externals} {definition : IndexDefinition} (hbuild : x.Buildable definition)
    {map : JsonMap} (hmap : (map.map Prod.fst).Nodup) :
    Kept x definition map (definition.rootDocument x.toText map) := by
  constructor
  · intro m hm hmapped hnull
    have hget : map.get? m.1 = some m.2 := JsonMap.get?_of_mem hmap hm
    rw [IndexDefinition.rootDocument_fields hbuild _ hmap hmapped, hget]
    simp [hnull]
  · intro hmode m hm hunmapped text htext
    exact IndexDefinition.rootDocument_dynamic _ hmode hm hunmapped htext

theorem schemasAgree_iff {x : Externals} {s : IndexService} : SchemasAgree x s ↔ s.Agree x := by
  constructor
  · intro h name definition index hregistered hcached
    apply (h name definition index s hregistered ?_).1
    simp only [getOrCreateIndex, hcached]
  · intro h name definition index t hregistered hindex
    have hschema : s.indexSchema x name definition = some index.schema :=
      getOrCreateIndex_schema hregistered (by rw [hindex])
    have hbuild : x.buildSchema definition = some index.schema := by
      unfold indexSchema at hschema
      cases hcached : s.indexes.lookup name with
      | some index' =>
        rw [hcached] at hschema
        rw [← hschema]
        exact h name definition index' hregistered hcached
      | none =>
        rw [hcached] at hschema
        exact hschema
    refine ⟨hbuild, fun field hfield => SchemaBuilder.buildSchema_hasField hbuild hfield, ?_⟩
    intro map hmap
    rw [parsed_rootDocument hbuild]
    exact rootDocument_kept ((x.buildSchema_isSome_iff definition).mp (by simp [hbuild])) hmap

theorem agree_insert {s t : IndexService} (hs : Agree x s) {name : String}
    {definition : IndexDefinition} {index : OpenIndex} (hregistry : t.registry = s.registry)
    (hindexes : t.indexes = s.indexes.insert name index)
    (hregistered : s.registry.get name = some definition)
    (hbuild : x.buildSchema definition = some index.schema) : Agree x t := by
  intro n definition' index' hregistered' hcached
  rw [hregistry] at hregistered'
  rw [hindexes, Table.lookup_insert_eq] at hcached
  split at hcached
  · rename_i hname
    subst hname
    cases hcached
    cases hregistered.symm.trans hregistered'
    exact hbuild
  · exact hs n definition' index' hregistered' hcached

theorem opens_agree {s t : IndexService} (h : Opens x s t) (hs : Agree x s) : Agree x t := by
  cases h with
  | create habsent hregistered hbuild hdir => exact agree_insert hs rfl rfl hregistered hbuild
  | existing habsent hregistered hbuild hdir => exact agree_insert hs rfl rfl hregistered hbuild
  | reader => exact hs
  | writer => exact hs

theorem Stages.agree {s t : IndexService} {name : String} {takes : Edit StoredDoc → Prop}
    {r : Except Failure (Edit StoredDoc)} (h : Stages x s name takes r t) (hs : Agree x s) :
    Agree x t := by
  cases h with
  | refused e hopened => exact hopened.keeps opens_agree hs
  | staged hopened => exact hopened.keeps (P := Agree x) opens_agree hs

/-- With indexes that agree, a step leaves indexes that agree exactly when a definition it
puts fits. -/
theorem step_agree {x : Externals} {s t : IndexService} {l : LifecycleLabel} (hs : Agree x s)
    (h : s.step x l = some t) : Agree x t ↔ s.Fits x l := by
  cases l with
  | put name payload =>
    rcases put_cases h with ⟨hinvalid, rfl⟩ | ⟨hvalid, rfl⟩
    · exact ⟨fun _ hvalid => absurd hvalid hinvalid, fun _ => hs⟩
    · constructor
      · intro hagree _ index hcached
        apply hagree name (payload.under name) index
        · exact (IndexRegistry.get_insert _ _ _).trans (if_pos rfl)
        · exact hcached
      · intro hfits n definition index hregistered hcached
        rw [IndexRegistry.get_insert] at hregistered
        split at hregistered
        · rename_i hname
          cases hregistered
          subst hname
          exact hfits hvalid index hcached
        · exact hs n definition index hregistered hcached
  | delete name =>
    cases h
    refine ⟨fun _ => trivial, fun _ => ?_⟩
    rcases delete_cases s name with ⟨-, hsame⟩ | ⟨-, hdeleted⟩
    · rw [hsame]
      exact hs
    · rw [hdeleted]
      intro n definition index hregistered hcached
      rw [IndexRegistry.get_erase] at hregistered
      split at hregistered
      · cases hregistered
      · exact hs n definition index hregistered hcached
  | ingest event =>
    cases h
    exact ⟨fun _ => trivial, fun _ => hs⟩
  | process =>
    refine ⟨fun _ => trivial, fun _ => ?_⟩
    obtain ⟨w, rest, r, -, hstages⟩ := process_cases h
    exact hstages.agree hs
  | purge cmd =>
    obtain ⟨-, rfl⟩ := survive_eq_some.mp h
    exact ⟨fun _ => trivial, fun _ => (purgeOldDocs_cases x s cmd).agree hs⟩
  | commit name =>
    cases h
    refine ⟨fun _ => trivial, fun _ => ?_⟩
    rcases commit_cases s name with hsame | ⟨_, _, -, -, hcommitted⟩
    · rw [hsame]
      exact hs
    · rw [hcommitted]
      exact hs
  | search name =>
    refine ⟨fun _ => trivial, fun _ => ?_⟩
    obtain ⟨r, hsearched⟩ := search_survives h
    cases hsearched with
    | failed e hopened => exact hopened.keeps opens_agree hs
    | stale hopened => exact hopened.keeps opens_agree hs
    | reloaded hopened => exact hopened.keeps (P := Agree x) opens_agree hs

/-- From a start with no index open, whatever is on disk, the schemas agree at every point of
a run if and only if each definition that is put fits the index that is open under its
name. -/
theorem schemas_agree_iff {x : Externals} {s t : IndexService} {ls : List LifecycleLabel}
    (hstart : s.indexes = ∅) (hrun : Machine.run (step x) s ls = some t) :
    (∀ pre u, pre <+: ls → Machine.run (step x) s pre = some u → SchemasAgree x u) ↔
      Machine.Along (step x) (Fits x) s ls := by
  simp only [schemasAgree_iff]
  have hagree : Agree x s := by
    intro name definition index _ hcached
    simp [hstart] at hcached
  exact (Machine.along_iff hagree (fun _ _ _ hu hstep => step_agree hu hstep) hrun).symm

/-- A start with one definition, and no data. -/
def serving (definition : IndexDefinition) : IndexService where
  baseDir := ["data"]
  registry := IndexRegistry.new.insert definition
  indexes := ∅
  readers := ∅
  writers := ∅
  disk := ∅
  nextInode := 0
  receiver := []
  acknowledged := 0
  deletedAt := ∅
  definitions := (∅ : Table String _).insert definition.name [definition]
  accepted := ∅

/-- An update that keeps the mode and the fields of an open index. -/
theorem schemas_agree_example :
    ∃ t, Machine.run (step .tiny) (serving (.bare .strict "a"))
        [.search "a", .put "a" (.bare .strict "b")] = some t ∧
      SchemasAgree .tiny t := by
  obtain ⟨t, ht⟩ : ∃ t, Machine.run (step .tiny) (serving (.bare .strict "a"))
      [.search "a", .put "a" (.bare .strict "b")] = some t := ⟨_, rfl⟩
  refine ⟨t, ht, (schemas_agree_iff rfl ht).mpr ⟨trivial, ?_⟩ _ _ (List.prefix_refl _) ht⟩
  intro u hu
  obtain rfl := Option.some.inj hu
  refine ⟨fun _ index hcached => ?_, fun _ _ => trivial⟩
  obtain rfl := Option.some.inj hcached
  rfl

/-- An update to dynamic mode leaves an open index without `_dynamic`. -/
theorem schemas_disagree :
    ¬ ∀ (x : Externals) (s t : IndexService) (ls : List LifecycleLabel), s.indexes = ∅ →
      Machine.run (step x) s ls = some t → SchemasAgree x t := by
  intro halways
  obtain ⟨t, ht⟩ : ∃ t, Machine.run (step .tiny)
      (serving (.bare .strict "a")) [.search "a", .put "a" (.bare .dynamic "a")] = some t := ⟨_, rfl⟩
  have hagree := schemasAgree_iff.mp (halways _ _ t _ rfl ht)
  obtain rfl := Option.some.inj ht
  have hbuild := hagree "a" (.bare .dynamic "a") _ rfl rfl
  revert hbuild
  decide

end IndexService
end Edgewit
