import Edgewit.Frame
import Edgewit.Machine
import Edgewit.Validation

/-!
# The indexer actor

`IndexerActor::run` as a machine, together with the compaction worker, which opens
its own writers on the same index directories. A label is one action of either, or
something arriving on one of the actor's channels, together with what Tantivy and the
operating system answered.

Of Tantivy the model keeps, for every index directory, the committed documents and the
payload of the last commit, and for every writer the operations added since. The
JSON reader, the document parser and the range query are parameters.
-/

namespace Edgewit

/-- What the actor uses of serde_json and Tantivy. -/
structure Externals extends SchemaBuilder where
  /-- `serde_json::from_slice`, with the text of its error. -/
  fromSlice : Bytes → Except String Json
  /-- `serde_json::to_string`, and the display of a number. -/
  toText : Json → String
  /-- The complaint of `TantivyDocument::parse_json` about a document. -/
  documentError : Schema → JsonMap → Option String
  /-- The dates that a field of a document holds, in nanoseconds since 1970. -/
  dates : String → JsonMap → List Int
  lockFailure : String
  /-- A `BTreeMap` holds its keys in order. -/
  keysSorted : ∀ bytes obj, fromSlice bytes = .ok (.object obj) →
    (obj.map Prod.fst).Pairwise (· < ·)

/-- The range query of a purge: a date before the bound. -/
def Externals.olderThan (x : Externals) (field : String) (bound : Int) (doc : JsonMap) : Bool :=
  (x.dates field doc).any fun date => date < bound

structure IndexerConfig extends Externals where
  commitIntervalDocs : Nat
  minSegments : Nat

/-- A request of the retention worker: the actor uses the seconds of `cutoff`. -/
structure PurgeCommand where
  indexName : String
  cutoff : Int
  deriving DecidableEq, Repr

/-- `i64` multiplication in a release build. -/
def wrappingMul (a b : Int) : Int := (a * b).bmod (2 ^ 64)

/-- `tantivy::DateTime::from_timestamp_secs`: nanoseconds in an `i64`, multiplied without a
check. -/
def fromTimestampSecs (secs : Int) : Int := wrappingMul secs 1000000000

/-- `Term::from_field_date_for_search` goes to the second, towards 1970. -/
def dateForSearch (nanos : Int) : Int := nanos.tdiv 1000000000 * 1000000000

/-- The upper bound of the range query. -/
def PurgeCommand.bound (cmd : PurgeCommand) : Int := dateForSearch (fromTimestampSecs cmd.cutoff)

/-- An operation on a Tantivy writer. The offset is that of the event: Tantivy does
not store it with the document. -/
inductive Op where
  | add (doc : JsonMap) (walOffset : Nat)
  | delete (field : String) (bound : Int)

def Op.offset? : Op → Option Nat
  | .add _ walOffset => some walOffset
  | .delete _ _ => none

/-- How a commit changes the documents, one operation at a time. -/
def Op.apply (x : Externals) (docs : List JsonMap) : Op → List JsonMap
  | .add doc _ => docs ++ [doc]
  | .delete field bound => docs.filter fun doc => !x.olderThan field bound doc

/-- An index directory. `applied` records every operation committed to it. -/
structure IndexDir where
  docs : List JsonMap
  payload : Option Nat
  applied : List Op

def IndexDir.empty : IndexDir := ⟨[], none, []⟩

/-- The WAL offsets of the events committed to an index. -/
def IndexDir.offsets (dir : IndexDir) : List Nat := dir.applied.filterMap Op.offset?

inductive Failure where
  | error (text : String)
  | panic
  deriving DecidableEq, Repr

/-- What Tantivy and the operating system answer while one message is processed. -/
structure Faults where
  openIndex : Option String := none
  openWriter : Option String := none
  write : Option String := none
  deriving DecidableEq, Repr

inductive Input where
  | event (e : IndexerEvent)
  | purge (cmd : PurgeCommand)
  deriving DecidableEq, Repr

def Input.index : Input → String
  | .event e => e.event.index
  | .purge cmd => cmd.indexName

/-- A message the actor has processed, and what it staged. -/
structure Handled where
  input : Input
  result : Except Failure Op

/-- The index a compaction cycle holds a writer for. -/
structure Compaction where
  index : String
  committed : Bool
  deriving DecidableEq, Repr

/-- The place of the actor in its loop. -/
inductive IndexerPhase where
  | idle
  | checking
  | committing
  | stopped
  deriving DecidableEq, Repr

structure Indexer where
  registry : IndexRegistry
  receiver : List IndexerEvent
  purgeRx : List PurgeCommand
  phase : IndexerPhase
  /-- The indexes `IndexManager` has open, with their schemas. -/
  indexes : Table String Schema
  writers : Table String (List Op)
  dirtyWriters : Table String Nat
  docsSinceCommit : Nat
  store : Table String IndexDir
  compaction : Option Compaction
  /-- Records of what has been sent to the actor and of what it has made of it. -/
  arrived : List IndexerEvent
  handled : List Handled

/-- A schedulable action. -/
inductive IndexerLabel where
  | deliver (event : IndexerEvent)
  | schedule (cmd : PurgeCommand)
  | event (faults : Faults)
  | check
  | purge (faults : Faults)
  | tick
  | commit (name : String) (ok : Bool)
  | committed
  | compactOpen (name : String) (segments : Nat)
  | compactCommit
  | compactClose
  deriving DecidableEq, Repr

/-! ## The document of an event -/

/-- The text of an unmapped value for `_dynamic`. -/
def dynamicPart (toText : Json → String) : Json → Option String
  | .null => none
  | .string s => some s
  | .bool b => some (if b then "true" else "false")
  | val => some (toText val)

namespace IndexDefinition

/-- One turn of the loop over the members of the payload. -/
def splitMember (definition : IndexDefinition) (toText : Json → String)
    (acc : JsonMap × List String) (m : String × Json) : JsonMap × List String :=
  if m.1 ∈ definition.fields ∧ m.2.isNull = false then (acc.1.insert m.1 m.2, acc.2)
  else (acc.1, acc.2 ++ (dynamicPart toText m.2).toList)

/-- The document of an event: its mapped fields, the whole payload as `_source` and, in
dynamic mode, the texts of the unmapped values as `_dynamic`. -/
def rootDocument (definition : IndexDefinition) (toText : Json → String) (map : JsonMap) :
    JsonMap :=
  let (root, dynamicParts) := map.foldl (definition.splitMember toText) ([], [])
  let root := root.insert "_source" (.object map)
  if definition.mode = .dynamic ∧ dynamicParts ≠ [] then
    root.insert "_dynamic" (.string (String.intercalate " " dynamicParts))
  else root

end IndexDefinition

namespace Indexer

/-- The actor as `main` spawns it, on the index directories of `store`. -/
def start (registry : IndexRegistry) (store : Table String IndexDir) : Indexer :=
  { registry := registry
    receiver := []
    purgeRx := []
    phase := .idle
    indexes := ∅
    writers := ∅
    dirtyWriters := ∅
    docsSinceCommit := 0
    store := store
    compaction := none
    arrived := []
    handled := [] }

def dir (s : Indexer) (name : String) : IndexDir := (s.store.lookup name).getD .empty

/-- The operations added to the writer of an index since its last commit. -/
def staged (s : Indexer) (name : String) : List Op := (s.writers.lookup name).getD []

/-- Compaction holds the writer lock of the index. -/
def Locked (s : Indexer) (name : String) : Prop := ∃ held, s.compaction = some held ∧ held.index = name

instance (s : Indexer) (name : String) : Decidable (s.Locked name) :=
  decidable_of_iff (s.compaction.any fun held => held.index = name) (by
    unfold Locked
    cases s.compaction <;> simp)

/-! ## Writers -/

/-- `IndexManager::get_or_create_index`: the schema of the index. -/
def getOrCreateIndex (x : Externals) (s : Indexer) (name : String) (faults : Faults) :
    Except Failure Schema × Indexer :=
  match s.indexes.lookup name with
  | some schema => (.ok schema, s)
  | none =>
    match s.registry.get name with
    | none => (.error (.error s!"Index definition not found: '{name}'"), s)
    | some definition =>
      match x.buildSchema definition with
      | none => (.error .panic, s)
      | some schema =>
        match faults.openIndex with
        | some text => (.error (.error text), s)
        | none =>
          (.ok schema, { s with
            indexes := s.indexes.insert name schema
            store := Table.orInsert s.store name .empty })

/-- `Index::writer`: one writer at a time for each directory. -/
def openWriter (x : Externals) (s : Indexer) (name : String) (faults : Faults) : Option String :=
  if s.Locked name then some x.lockFailure else faults.openWriter

def ensureWriter (x : Externals) (s : Indexer) (name : String) (faults : Faults) :
    Except Failure Unit × Indexer :=
  if name ∈ s.writers then (.ok (), s)
  else
    match s.getOrCreateIndex x name faults with
    | (.error e, s) => (.error e, s)
    | (.ok _, s) =>
      match s.openWriter x name faults with
      | some text => (.error (.error text), s)
      | none => (.ok (), { s with writers := s.writers.insert name [] })

/-- `add_document` or `delete_query` on the writer of an index. -/
def stage (s : Indexer) (name : String) (op : Op) : Indexer :=
  match s.writers.lookup name with
  | none => s
  | some ops => { s with writers := s.writers.insert name (ops ++ [op]) }

/-! ## Ingest -/

/-- Returns the operation staged, where the source returns nothing. -/
def processEvent (x : Externals) (s : Indexer) (event : IndexerEvent) (faults : Faults) :
    Except Failure Op × Indexer :=
  let index := event.event.index
  match s.registry.get index with
  | none => (.error (.error s!"Unknown index: '{index}'"), s)
  | some definition =>
    match x.fromSlice event.event.payload with
    | .error e => (.error (.error s!"Invalid JSON payload: {e}"), s)
    | .ok (.object map) =>
      match s.ensureWriter x index faults with
      | (.error e, s) => (.error e, s)
      | (.ok _, s) =>
        match s.getOrCreateIndex x index faults with
        | (.error e, s) => (.error e, s)
        | (.ok schema, s) =>
          let root := definition.rootDocument x.toText map
          match x.documentError schema root with
          | some e => (.error (.error s!"Failed to parse tantivy doc: {e}"), s)
          | none =>
            match faults.write with
            | some e => (.error (.error s!"Tantivy write error: {e}"), s)
            | none =>
              let op := Op.add root event.walOffset
              let s := s.stage index op
              (.ok op,
                { s with dirtyWriters := s.dirtyWriters.insert index event.walOffset })
    | .ok _ => (.error (.error "Payload must be a JSON object"), s)

/-! ## Retention -/

def purgeOldDocs (x : Externals) (s : Indexer) (cmd : PurgeCommand) (faults : Faults) :
    Except Failure Op × Indexer :=
  let indexName := cmd.indexName
  match s.registry.get indexName with
  | none => (.error (.error s!"Index '{indexName}' not found in registry"), s)
  | some definition =>
    let timestampField := definition.timestampField
    match definition.fields.lookup timestampField with
    | none =>
      (.error (.error (s!"Timestamp field '{timestampField}' is not declared in index " ++
        s!"'{indexName}' — add it to fields: to enable retention")), s)
    | some field =>
      if field.fieldType = .datetime then
        match s.ensureWriter x indexName faults with
        | (.error e, s) => (.error e, s)
        | (.ok _, s) =>
          match s.getOrCreateIndex x indexName faults with
          | (.error e, s) => (.error e, s)
          | (.ok schema, s) =>
            if schema.hasField timestampField then
              match faults.write with
              | some e => (.error (.error s!"delete_query failed for '{indexName}': {e}"), s)
              | none =>
                let op := Op.delete timestampField cmd.bound
                let s := s.stage indexName op
                -- `or_insert(0)` keeps an offset that is already pending.
                (.ok op,
                  { s with dirtyWriters := Table.orInsert s.dirtyWriters indexName 0 })
            else
              (.error (.error s!"Field '{timestampField}' missing from Tantivy schema"), s)
      else
        (.error (.error
          s!"Field '{timestampField}' must be type: datetime for retention to work in '{indexName}'"),
          s)

/-! ## Commit -/

/-- One turn of the loop of `commit_all`. A failed commit leaves its operations with
the writer, but the index is no longer dirty. -/
def commit (x : Externals) (s : Indexer) (name : String) (offset : Nat) (ok : Bool) : Indexer :=
  let s := { s with dirtyWriters := s.dirtyWriters.erase name }
  match s.writers.lookup name with
  | none => s
  | some ops =>
    if ok then
      let dir := s.dir name
      { s with
        writers := s.writers.insert name []
        store := s.store.insert name
          { docs := ops.foldl (Op.apply x) dir.docs
            payload := some offset
            applied := dir.applied ++ ops } }
    else s

/-! ## Compaction -/

/-- `compact_index` up to the opening of the writer. A directory without `meta.json`
is not visited; one with few segments or a writer of the actor is left alone. -/
def compactOpen (c : IndexerConfig) (s : Indexer) (name : String) (segments : Nat) : Indexer :=
  if segments < c.minSegments ∨ name ∈ s.writers then s
  else { s with compaction := some ⟨name, false⟩ }

/-- The commit after a merge sets no payload. -/
def compactCommit (s : Indexer) (name : String) : Indexer :=
  { s with
    compaction := some ⟨name, true⟩
    store := s.store.insert name { s.dir name with payload := none } }

/-! ## The loop -/

/-- The end of the event branch: the record of what was made of the event, and the
count of the documents. -/
def handleEvent (s : Indexer) (event : IndexerEvent) (result : Except Failure Op) : Indexer :=
  { s with
    handled := s.handled ++ [⟨.event event, result⟩]
    phase := if result matches .error .panic then .stopped else .checking
    docsSinceCommit :=
      if result matches .ok _ then s.docsSinceCommit + 1 else s.docsSinceCommit }

def handlePurge (s : Indexer) (cmd : PurgeCommand) (result : Except Failure Op) : Indexer :=
  { s with
    handled := s.handled ++ [⟨.purge cmd, result⟩]
    phase := if result matches .error .panic then .stopped else .idle }

/-- Takes the next event: the branch of `recv` up to its check of the count. -/
def takeEvent (x : Externals) (s : Indexer) (event : IndexerEvent) (rest : List IndexerEvent)
    (faults : Faults) : Indexer :=
  let (result, s) := { s with receiver := rest }.processEvent x event faults
  s.handleEvent event result

def takePurge (x : Externals) (s : Indexer) (cmd : PurgeCommand) (rest : List PurgeCommand)
    (faults : Faults) : Indexer :=
  let (result, s) := { s with purgeRx := rest }.purgeOldDocs x cmd faults
  s.handlePurge cmd result

/-- The action of a label, where the actor is at the place for it. `select!` takes any
branch that is ready. The writers of `commit_all` are committed in any order. -/
def step (c : IndexerConfig) (s : Indexer) : IndexerLabel → Option Indexer
  | .deliver event =>
    some { s with receiver := s.receiver ++ [event], arrived := s.arrived ++ [event] }
  | .schedule cmd => some { s with purgeRx := s.purgeRx ++ [cmd] }
  | .event faults =>
    match s.phase, s.receiver with
    | .idle, event :: rest => some (s.takeEvent c.toExternals event rest faults)
    | _, _ => none
  | .check =>
    match s.phase with
    | .checking =>
      some { s with phase := if c.commitIntervalDocs ≤ s.docsSinceCommit then .committing else .idle }
    | _ => none
  | .purge faults =>
    match s.phase, s.purgeRx with
    | .idle, cmd :: rest => some (s.takePurge c.toExternals cmd rest faults)
    | _, _ => none
  | .tick =>
    match s.phase with
    | .idle => some { s with phase := if Table.isEmpty s.dirtyWriters then .idle else .committing }
    | _ => none
  | .commit name ok =>
    match s.phase, s.dirtyWriters.lookup name with
    | .committing, some offset => some (s.commit c.toExternals name offset ok)
    | _, _ => none
  | .committed =>
    match s.phase with
    | .committing =>
      if Table.isEmpty s.dirtyWriters then some { s with phase := .idle, docsSinceCommit := 0 } else none
    | _ => none
  | .compactOpen name segments =>
    match s.compaction with
    | none => if name ∈ s.store then some (s.compactOpen c name segments) else none
    | some _ => none
  | .compactCommit =>
    match s.compaction with
    | some ⟨name, false⟩ => some (s.compactCommit name)
    | _ => none
  | .compactClose =>
    match s.compaction with
    | some _ => some { s with compaction := none }
    | none => none

/-- The same actions as a relation, one rule for each. -/
inductive Step (c : IndexerConfig) : Indexer → IndexerLabel → Indexer → Prop
  | deliver {s : Indexer} {event : IndexerEvent} :
      Step c s (.deliver event)
        { s with receiver := s.receiver ++ [event], arrived := s.arrived ++ [event] }
  | schedule {s : Indexer} {cmd : PurgeCommand} :
      Step c s (.schedule cmd) { s with purgeRx := s.purgeRx ++ [cmd] }
  | event {s : Indexer} {faults : Faults} {event : IndexerEvent} {rest : List IndexerEvent}
      (phase : s.phase = .idle) (next : s.receiver = event :: rest) :
      Step c s (.event faults) (s.takeEvent c.toExternals event rest faults)
  | check {s : Indexer} (phase : s.phase = .checking) :
      Step c s .check
        { s with phase := if c.commitIntervalDocs ≤ s.docsSinceCommit then .committing else .idle }
  | purge {s : Indexer} {faults : Faults} {cmd : PurgeCommand} {rest : List PurgeCommand}
      (phase : s.phase = .idle) (next : s.purgeRx = cmd :: rest) :
      Step c s (.purge faults) (s.takePurge c.toExternals cmd rest faults)
  | tick {s : Indexer} (phase : s.phase = .idle) :
      Step c s .tick { s with phase := if Table.isEmpty s.dirtyWriters then .idle else .committing }
  | commit {s : Indexer} {name : String} {ok : Bool} {offset : Nat}
      (phase : s.phase = .committing) (dirty : s.dirtyWriters.lookup name = some offset) :
      Step c s (.commit name ok) (s.commit c.toExternals name offset ok)
  | committed {s : Indexer} (phase : s.phase = .committing) (clean : Table.isEmpty s.dirtyWriters = true) :
      Step c s .committed { s with phase := .idle, docsSinceCommit := 0 }
  | compactOpen {s : Indexer} {name : String} {segments : Nat} (free : s.compaction = none)
      (present : name ∈ s.store) :
      Step c s (.compactOpen name segments) (s.compactOpen c name segments)
  | compactCommit {s : Indexer} {name : String} (held : s.compaction = some ⟨name, false⟩) :
      Step c s .compactCommit (s.compactCommit name)
  | compactClose {s : Indexer} {held : Compaction} (open' : s.compaction = some held) :
      Step c s .compactClose { s with compaction := none }

theorem step_cases {c : IndexerConfig} {s t : Indexer} {l : IndexerLabel}
    (h : s.step c l = some t) : Step c s l t := by
  cases l with
  | deliver event => cases h; exact .deliver
  | schedule cmd => cases h; exact .schedule
  | committed =>
    simp only [step] at h
    split at h
    · simp only [Option.ite_none_right_eq_some, Option.some.injEq] at h
      obtain ⟨clean, rfl⟩ := h
      exact .committed ‹_› clean
    · cases h
  | compactOpen name segments =>
    simp only [step] at h
    split at h
    · simp only [Option.ite_none_right_eq_some, Option.some.injEq] at h
      obtain ⟨present, rfl⟩ := h
      exact .compactOpen ‹_› present
    · cases h
  | _ =>
    simp only [step] at h
    split at h
    · cases h
      constructor <;> assumption
    · cases h

end Indexer

/-! ## A small instance -/

/-- A reader of two documents, for examples: `{}` and `{"b":1}`, which has a date. -/
def Externals.tiny : Externals where
  toSchemaBuilder := .documented
  fromSlice bytes :=
    if bytes = utf8 "\x7b\x7d" then .ok (.object [])
    else if bytes = utf8 "\x7b\"b\":1\x7d" then .ok (.object [("b", .number (.posInt 1))])
    else .error "expected value at line 1 column 1"
  toText
    | .number (.posInt n) => toString n.toNat
    | _ => ""
  documentError _ _ := none
  dates field doc :=
    match JsonMap.get? doc field with
    | some (.number (.posInt n)) => [fromTimestampSecs n.toNat]
    | _ => []
  lockFailure := "Failed to acquire Lockfile: LockBusy."
  keysSorted := by
    intro bytes obj h
    split at h
    · cases h
      simp
    · split at h
      · cases h
        simp
      · cases h

def IndexerConfig.tiny : IndexerConfig :=
  { Externals.tiny with commitIntervalDocs := 2, minSegments := 10 }

/-- An index whose documents may have the date `b`, and are kept for a minute. -/
def IndexDefinition.dated : IndexDefinition where
  name := "a"
  timestampField := "b"
  fields := (∅ : Table String FieldDefinition).insert "b" { fieldType := .datetime, optional := true }
  retention := some "1m"

/-- Two indexes with the timestamp field that retention needs. -/
def IndexRegistry.tiny : IndexRegistry :=
  let fields := (∅ : Table String FieldDefinition).insert "timestamp"
    { fieldType := .datetime, optional := true }
  (new.insert { name := "a", fields := fields }).insert { name := "b", fields := fields }

end Edgewit
