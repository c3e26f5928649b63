import Edgewit.Staging

/-!
# The actor as a fold

With no failure and no compaction, whether a message is accepted depends on the
registry alone (`op?`), and each index is the fold of its own accepted messages:
`refines_fold`, for every order of events, purge commands and ticks.
-/

namespace Edgewit

namespace SchemaBuilder

variable {x : SchemaBuilder} {definition : IndexDefinition} {schema : Schema}

theorem buildSchema_names (h : x.buildSchema definition = some schema) :
    schema.names = definition.schemaFields.map FieldEntry.name := by
  simp [Schema.names, (x.addFields_eq_some.mp h).2.2, Schema.empty]

/-- The schema has every declared field. -/
theorem buildSchema_hasField (h : x.buildSchema definition = some schema) {name : String}
    (hname : name ∈ definition.fields) : schema.hasField name = true := by
  have hmem := definition.sortedFields_names.mem_iff.mpr (AList.mem_keys.mp hname)
  rw [Schema.hasField, List.contains_iff_mem, buildSchema_names h, IndexDefinition.schemaFields,
    List.map_append]
  exact List.mem_append_left _ hmem

end SchemaBuilder

/-! ## What is accepted -/

/-- The document of an event, when its index is registered, its payload is an object
and Tantivy takes the result. -/
def Externals.document? (x : Externals) (registry : IndexRegistry) (event : IngestEvent) :
    Option JsonMap :=
  match registry.get event.index with
  | none => none
  | some definition =>
    match x.fromSlice event.payload, x.buildSchema definition with
    | .ok (.object map), some schema =>
      let root := definition.rootDocument x.toText map
      if x.documentError schema root = none then some root else none
    | _, _ => none

/-- The field that retention of an index goes by. -/
def Externals.retentionField? (x : Externals) (registry : IndexRegistry) (name : String) :
    Option String :=
  match registry.get name with
  | none => none
  | some definition =>
    match definition.fields.lookup definition.timestampField with
    | none => none
    | some field =>
      if field.fieldType = .datetime ∧ x.Buildable definition then some definition.timestampField
      else none

/-- The operation a message is for, if it is accepted. -/
def Externals.op? (x : Externals) (registry : IndexRegistry) : Input → Option Op
  | .event e => (x.document? registry e.event).map fun doc => .add doc e.walOffset
  | .purge cmd => (x.retentionField? registry cmd.indexName).map fun field => .delete field cmd.bound

/-- The operations that the messages for an index come to. -/
def Externals.opsFor (x : Externals) (registry : IndexRegistry) (name : String)
    (inputs : List Input) : List Op :=
  inputs.filterMap fun input => if input.index = name then x.op? registry input else none

/-- What a message says, apart from the WAL offset of an event. -/
def Input.message : Input → IngestEvent ⊕ PurgeCommand
  | .event e => .inl e.event
  | .purge cmd => .inr cmd

/-- The documents of an index after one more message for it: an accepted event adds its
document, an accepted purge drops the older ones, all else changes nothing. -/
def Externals.take (x : Externals) (registry : IndexRegistry) (docs : List JsonMap) :
    IngestEvent ⊕ PurgeCommand → List JsonMap
  | .inl event => docs ++ (x.document? registry event).toList
  | .inr cmd =>
    match x.retentionField? registry cmd.indexName with
    | none => docs
    | some field => docs.filter fun doc => !x.olderThan field cmd.bound doc

/-- A label with which nothing fails, and which is not compaction's. -/
def IndexerLabel.Clean : IndexerLabel → Prop
  | .event faults | .purge faults => faults = {}
  | .commit _ ok => ok = true
  | .compactOpen _ _ | .compactCommit | .compactClose => False
  | _ => True

instance (l : IndexerLabel) : Decidable l.Clean := by
  cases l <;> unfold IndexerLabel.Clean <;> infer_instance

namespace Indexer

variable {x : Externals}

theorem getOrCreateIndex_ok {s : Indexer} (hc : Cached x s) {name : String}
    {definition : IndexDefinition} {schema : Schema} (hget : s.registry.get name = some definition)
    (hbuild : x.buildSchema definition = some schema) :
    (s.getOrCreateIndex x name {}).1 = .ok schema := by
  unfold getOrCreateIndex
  cases hcached : s.indexes.lookup name with
  | some schema' =>
    obtain ⟨definition', hget', hbuild'⟩ := hc name schema' hcached
    rw [hget] at hget'
    obtain rfl := Option.some.inj hget'
    rw [hbuild] at hbuild'
    rw [Option.some.inj hbuild']
  | none => simp [hget, hbuild]

theorem getOrCreateIndex_error {s : Indexer} (hc : Cached x s) {name : String}
    {definition : IndexDefinition} (hget : s.registry.get name = some definition)
    (hbuild : x.buildSchema definition = none) (faults : Faults) :
    s.getOrCreateIndex x name faults = (.error .panic, s) := by
  unfold getOrCreateIndex
  cases hcached : s.indexes.lookup name with
  | some schema' =>
    obtain ⟨definition', hget', hbuild'⟩ := hc name schema' hcached
    rw [hget] at hget'
    obtain rfl := Option.some.inj hget'
    rw [hbuild] at hbuild'
    cases hbuild'
  | none => simp [hget, hbuild]

/-- With a free lock, or a writer already open, an index that can be built gets its
writer and its schema. -/
theorem prepare_ok (x : Externals) {s : Indexer} (hc : Cached x s) {name : String}
    {definition : IndexDefinition} {schema : Schema} (hget : s.registry.get name = some definition)
    (hbuild : x.buildSchema definition = some schema) (hfree : name ∈ s.writers ∨ ¬ s.Locked name) :
    ∃ u v, s.ensureWriter x name {} = (.ok (), u) ∧ u.getOrCreateIndex x name {} = (.ok schema, v) := by
  have hopens := (ensureWriter_opens x s name {}).1
  have hensure : (s.ensureWriter x name {}).1 = .ok () := by
    unfold ensureWriter
    by_cases hw : name ∈ s.writers
    · rw [if_pos hw]
    · rw [if_neg hw]
      have hfree' : ¬ s.Locked name := hfree.resolve_left hw
      have hschema := getOrCreateIndex_ok hc hget hbuild
      have hu := (getOrCreateIndex_opens x s name {}).1
      cases hres : s.getOrCreateIndex x name {} with
      | mk r u =>
        rw [hres] at hschema hu
        obtain ⟨_, _, _, hsame⟩ := hu.same
        have hlock : ¬ u.Locked name := by
          rw [show u = _ from hsame]
          exact hfree'
        rw [show r = .ok schema from hschema]
        simp [openWriter, hlock]
  cases hres : s.ensureWriter x name {} with
  | mk r u =>
    rw [hres] at hensure hopens
    have hget' : u.registry.get name = some definition := by
      rw [show u.registry = s.registry from hopens.registry]
      exact hget
    have hschema := getOrCreateIndex_ok (hopens.keepsCached hc) hget' hbuild
    refine ⟨u, (u.getOrCreateIndex x name {}).2, by rw [show r = .ok () from hensure], ?_⟩
    rw [← hschema]

/-- An index that cannot be built gets neither. -/
theorem prepare_error (x : Externals) {s : Indexer} (hc : Cached x s) {name : String}
    {definition : IndexDefinition} (hget : s.registry.get name = some definition)
    (hbuild : x.buildSchema definition = none) (faults : Faults) :
    (∃ e u, s.ensureWriter x name faults = (.error e, u)) ∨
    ∃ u e v, s.ensureWriter x name faults = (.ok (), u) ∧
      u.getOrCreateIndex x name faults = (.error e, v) := by
  have hopens := (ensureWriter_opens x s name faults).1
  cases hres : s.ensureWriter x name faults with
  | mk r u =>
    rw [hres] at hopens
    cases r with
    | error e => exact Or.inl ⟨e, u, rfl⟩
    | ok _ =>
      right
      have hget' : u.registry.get name = some definition := by
        rw [show u.registry = s.registry from hopens.registry]
        exact hget
      exact ⟨u, .panic, u, rfl,
        getOrCreateIndex_error (hopens.keepsCached hc) hget' hbuild faults⟩

/-- With a free lock and no failure, an event is accepted by the registry alone. -/
theorem processEvent_op? (x : Externals) {s : Indexer} (hc : Cached x s) (event : IndexerEvent)
    (hfree : event.event.index ∈ s.writers ∨ ¬ s.Locked event.event.index) :
    (s.processEvent x event {}).1.toOption = x.op? s.registry (.event event) := by
  unfold processEvent Externals.op? Externals.document?
  dsimp only
  cases hget : s.registry.get event.event.index with
  | none => rfl
  | some definition =>
    dsimp only
    cases hparse : x.fromSlice event.event.payload with
    | error e => rfl
    | ok source =>
      cases source with
      | object map =>
        dsimp only
        cases hbuild : x.buildSchema definition with
        | none =>
          rcases prepare_error x hc hget hbuild {} with ⟨e, u, hres⟩ | ⟨u, e, v, hres, hres'⟩
          · rw [hres]
            rfl
          · simp only [hres, hres']
            rfl
        | some schema =>
          obtain ⟨u, v, hres, hres'⟩ := prepare_ok x hc hget hbuild hfree
          simp only [hres, hres']
          cases x.documentError schema (definition.rootDocument x.toText map) with
          | some e => rfl
          | none => rfl
      | _ => rfl

theorem purgeOldDocs_op? (x : Externals) {s : Indexer} (hc : Cached x s) (cmd : PurgeCommand)
    (hfree : cmd.indexName ∈ s.writers ∨ ¬ s.Locked cmd.indexName) :
    (s.purgeOldDocs x cmd {}).1.toOption = x.op? s.registry (.purge cmd) := by
  unfold purgeOldDocs Externals.op? Externals.retentionField?
  dsimp only
  cases hget : s.registry.get cmd.indexName with
  | none => rfl
  | some definition =>
    dsimp only
    cases hfield : definition.fields.lookup definition.timestampField with
    | none => rfl
    | some field =>
      dsimp only
      by_cases hdate : field.fieldType = .datetime
      · rw [if_pos hdate]
        have hiff := x.buildSchema_isSome_iff definition
        cases hbuild : x.buildSchema definition with
        | none =>
          rw [hbuild] at hiff
          rcases prepare_error x hc hget hbuild {} with ⟨e, u, hres⟩ | ⟨u, e, v, hres, hres'⟩
          · rw [hres]
            simp [← hiff, Except.toOption]
          · simp only [hres, hres']
            simp [← hiff, Except.toOption]
        | some schema =>
          rw [hbuild] at hiff
          obtain ⟨u, v, hres, hres'⟩ := prepare_ok x hc hget hbuild hfree
          have hmem : definition.timestampField ∈ definition.fields :=
            AList.lookup_isSome.mp (by simp [hfield])
          simp only [hres, hres', SchemaBuilder.buildSchema_hasField hbuild hmem, if_true]
          simp [← hiff, hdate, Except.toOption]
      · rw [if_neg hdate]
        simp [hdate, Except.toOption]

/-! ## The books of a run without failures -/

/-- The messages taken, in order. -/
def inputs (s : Indexer) : List Input := s.handled.map Handled.input

/-- How the writers, the dirty indexes and the count of documents agree. The count is
reset only when all dirty indexes have been committed. -/
structure Books (c : IndexerConfig) (registry : IndexRegistry) (s : Indexer) : Prop where
  registered : s.registry = registry
  cached : Cached c.toExternals s
  unlocked : s.compaction = none
  results : ∀ h ∈ s.handled, h.result.toOption = c.op? registry h.input
  dirty : ∀ n, s.staged n ≠ [] ↔ n ∈ s.dirtyWriters
  writers : ∀ n ∈ s.dirtyWriters, n ∈ s.writers
  counted : s.phase ≠ .committing → s.stagedAdds = s.docsSinceCommit
  bounded : s.phase = .idle ∨ s.phase = .stopped → s.docsSinceCommit < c.commitIntervalDocs

theorem start_books (c : IndexerConfig) (registry : IndexRegistry) (store : Table String IndexDir)
    (hpos : 1 ≤ c.commitIntervalDocs) : Books c registry (start registry store) where
  registered := rfl
  cached := by
    intro n schema h
    simp [start] at h
  unlocked := rfl
  results := by simp [start]
  dirty := by simp [start, staged]
  writers := by simp [start]
  counted := fun _ => rfl
  bounded := fun _ => hpos

theorem Opens.handled {s t : Indexer} (h : Opens x s t) : t.handled = s.handled := by
  obtain ⟨_, _, _, hsame⟩ := h.same
  rw [hsame]

/-- Opening keeps the books. -/
theorem Opens.books {c : IndexerConfig} {registry : IndexRegistry} {s t : Indexer}
    (h : Opens c.toExternals s t) (hb : Books c registry s) : Books c registry t := by
  obtain ⟨_, _, _, hsame⟩ := id h.same
  refine ⟨by rw [h.registry, hb.registered], h.keepsCached hb.cached, ?_, ?_, ?_, ?_, ?_, ?_⟩
  · rw [hsame]
    exact hb.unlocked
  · rw [h.handled]
    exact hb.results
  · intro n
    rw [h.staged, h.dirtyWriters]
    exact hb.dirty n
  · intro n hn
    rw [h.dirtyWriters] at hn
    exact h.writers n (hb.writers n hn)
  · rw [h.pending, hsame]
    exact hb.counted
  · rw [hsame]
    exact hb.bounded

theorem Stages.mem_dirty {s t : Indexer} {name : String} {op : Op} (h : Stages x s t name op)
    (n : String) : n ∈ t.dirtyWriters ↔ n = name ∨ n ∈ s.dirtyWriters := by
  rw [← AList.lookup_isSome, h.dirty, ← AList.lookup_isSome]
  by_cases hn : n = name <;> simp [hn]

/-- The writers and the dirty indexes after an operation. -/
theorem Stages.dirty_iff {s t : Indexer} {name : String} {op : Op} (h : Stages x s t name op)
    (hdirty : ∀ n, s.staged n ≠ [] ↔ n ∈ s.dirtyWriters) (n : String) :
    t.staged n ≠ [] ↔ n ∈ t.dirtyWriters := by
  rw [h.mem_dirty, h.staged]
  by_cases hn : n = name
  · simp [hn]
  · simp only [hn, if_false, false_or]
    exact hdirty n

theorem Stages.has_writer {s t : Indexer} {name : String} {op : Op} (h : Stages x s t name op)
    (hw : ∀ n ∈ s.dirtyWriters, n ∈ s.writers) : ∀ n ∈ t.dirtyWriters, n ∈ t.writers := by
  intro n hn
  rcases (h.mem_dirty n).mp hn with rfl | hold
  · exact h.writer
  · exact h.writers n (hw n hold)

theorem results_append {x : Externals} {registry : IndexRegistry} {hs : List Handled} {h : Handled}
    (hall : ∀ h ∈ hs, h.result.toOption = x.op? registry h.input)
    (hlast : h.result.toOption = x.op? registry h.input) :
    ∀ h' ∈ hs ++ [h], h'.result.toOption = x.op? registry h'.input := by
  intro h' hmem
  rcases List.mem_append.mp hmem with hold | hnew
  · exact hall h' hold
  · rw [List.mem_singleton.mp hnew]
    exact hlast

theorem not_locked {s : Indexer} (h : s.compaction = none) (n : String) : ¬ s.Locked n := by
  rintro ⟨held, hheld, -⟩
  rw [h] at hheld
  cases hheld

/-- A message that only opens what it needs. -/
theorem Opens.handled_books {c : IndexerConfig} {registry : IndexRegistry} {s u : Indexer}
    (hopens : Opens c.toExternals s u) (hb : Books c registry s) (hphase : s.phase = .idle) {h : Handled}
    (hop : h.result.toOption = c.op? registry h.input) (phase : IndexerPhase) :
    Books c registry { u with handled := u.handled ++ [h], phase := phase } := by
  have hbu := hopens.books hb
  obtain ⟨_, _, _, hsame⟩ := id hopens.same
  have hidle : u.phase = .idle := by rw [hsame, ← hphase]
  exact ⟨hbu.registered, hbu.cached, hbu.unlocked, results_append hbu.results hop, hbu.dirty,
    hbu.writers, fun _ => hbu.counted (by simp [hidle]), fun _ => hbu.bounded (Or.inl hidle)⟩

/-- A message that stages its operation, with the count after it. -/
theorem Stages.handled_books {c : IndexerConfig} {registry : IndexRegistry} {s u : Indexer}
    {name : String} {op : Op} (hstages : Stages c.toExternals s u name op) (hb : Books c registry s)
    (hphase : s.phase = .idle) {h : Handled} (hop : h.result.toOption = c.op? registry h.input)
    {phase : IndexerPhase} {count : Nat} (hcount : count = s.docsSinceCommit + adds [op])
    (hbound : phase = .idle ∨ phase = .stopped → count < c.commitIntervalDocs) :
    Books c registry
      { u with handled := u.handled ++ [h], phase := phase, docsSinceCommit := count } := by
  obtain ⟨_, _, _, _, hsame⟩ := id hstages.same
  have hstaged : s.stagedAdds = s.docsSinceCommit := hb.counted (by simp [hphase])
  refine ⟨?_, hstages.keepsCached hb.cached, ?_, ?_, hstages.dirty_iff hb.dirty,
    hstages.has_writer hb.writers, ?_, hbound⟩
  · rw [hsame]
    exact hb.registered
  · rw [hsame]
    exact hb.unlocked
  · apply results_append _ hop
    rw [hsame]
    exact hb.results
  · intro _
    have hpending : u.stagedAdds = s.stagedAdds + adds [op] := hstages.pending
    change u.stagedAdds = count
    omega

theorem takeEvent_books {c : IndexerConfig} {registry : IndexRegistry} {s : Indexer}
    (hb : Books c registry s) (hphase : s.phase = .idle) (event : IndexerEvent)
    (rest : List IndexerEvent) :
    Books c registry (s.takeEvent c.toExternals event rest {}) := by
  obtain rfl := hb.registered
  have hb' : Books c s.registry { s with receiver := rest } :=
    ⟨hb.registered, hb.cached, hb.unlocked, hb.results, hb.dirty, hb.writers, hb.counted, hb.bounded⟩
  have hop := processEvent_op? c.toExternals hb'.cached event
    (Or.inr (not_locked hb'.unlocked event.event.index))
  rw [takeEvent_eq]
  rcases processEvent_cases c.toExternals { s with receiver := rest } event {} with
    ⟨e, hres, hopens⟩ | ⟨doc, hres, hstages⟩
  · rw [hres] at hop ⊢
    exact hopens.handled_books hb' hphase hop _
  · obtain ⟨_, _, _, _, hsame⟩ := id hstages.same
    rw [hres] at hop ⊢
    apply hstages.handled_books hb' hphase hop
    · rw [hsame]
      rfl
    · simp

theorem takePurge_books {c : IndexerConfig} {registry : IndexRegistry} {s : Indexer}
    (hb : Books c registry s) (hphase : s.phase = .idle) (cmd : PurgeCommand)
    (rest : List PurgeCommand) :
    Books c registry (s.takePurge c.toExternals cmd rest {}) := by
  obtain rfl := hb.registered
  have hb' : Books c s.registry { s with purgeRx := rest } :=
    ⟨hb.registered, hb.cached, hb.unlocked, hb.results, hb.dirty, hb.writers, hb.counted, hb.bounded⟩
  have hop := purgeOldDocs_op? c.toExternals hb'.cached cmd
    (Or.inr (not_locked hb'.unlocked cmd.indexName))
  rw [takePurge_eq]
  rcases purgeOldDocs_cases c.toExternals { s with purgeRx := rest } cmd {} with
    ⟨e, hres, hopens⟩ | ⟨field, hres, hstages⟩
  · rw [hres] at hop ⊢
    exact hopens.handled_books hb' hphase hop _
  · obtain ⟨_, _, _, _, hsame⟩ := id hstages.same
    rw [hres] at hop ⊢
    apply hstages.handled_books hb' hphase hop
    · rw [hsame]
      rfl
    · intro _
      rw [hsame]
      exact hb.bounded (Or.inl hphase)

/-- Committing an index clears it. -/
theorem commit_books {c : IndexerConfig} {registry : IndexRegistry} {s : Indexer}
    (hb : Books c registry s) (hphase : s.phase = .committing) {name : String} {offset : Nat}
    (hdirty : s.dirtyWriters.lookup name = some offset) :
    Books c registry (s.commit c.toExternals name offset true) := by
  have hw := hb.writers name (AList.lookup_isSome.mp (by simp [hdirty]))
  rcases commit_cases c.toExternals s name offset true with ⟨hskip, -⟩ | ⟨-, -, hcommits⟩
  · exact absurd ⟨rfl, hw⟩ hskip
  · obtain ⟨_, _, hsame⟩ := id hcommits.same
    have herase : (s.commit c.toExternals name offset true).dirtyWriters =
        s.dirtyWriters.erase name := by rw [hsame]
    refine ⟨?_, ?_, ?_, ?_, ?_, ?_, ?_, ?_⟩
    · rw [hsame]
      exact hb.registered
    · rw [hsame]
      exact hb.cached
    · rw [hsame]
      exact hb.unlocked
    · rw [hsame]
      exact hb.results
    · intro n
      rw [hcommits.staged, herase, AList.mem_erase]
      by_cases hn : n = name
      · simp [hn]
      · simp only [hn, if_false, ne_eq, not_false_eq_true, true_and]
        exact hb.dirty n
    · intro n hn
      rw [herase, AList.mem_erase] at hn
      exact (hcommits.writers n).mpr (hb.writers n hn.2)
    · intro hne
      rw [hsame] at hne
      exact absurd hphase hne
    · intro hidle
      rw [hsame] at hidle
      simp [hphase] at hidle

/-- With nothing dirty, nothing is staged. -/
theorem Books.stagedAdds_zero {c : IndexerConfig} {registry : IndexRegistry} {s : Indexer}
    (hb : Books c registry s) (hclean : s.dirtyWriters = ∅) : s.stagedAdds = 0 := by
  apply Table.total_eq_zero_iff.mpr
  intro n ops hops
  have hstaged : s.staged n = ops := by simp [staged, hops]
  have hempty : s.staged n = [] := by
    by_contra hne
    have hmem := (hb.dirty n).mp hne
    rw [hclean] at hmem
    exact AList.notMem_empty n hmem
  rw [← hstaged, hempty, adds_nil]

theorem step_books {c : IndexerConfig} {registry : IndexRegistry} {s t : Indexer}
    {l : IndexerLabel} (hpos : 1 ≤ c.commitIntervalDocs) (hl : l.Clean) (h : Step c s l t)
    (hb : Books c registry s) : Books c registry t := by
  cases h with
  | @event faults event rest phase next =>
    cases hl
    exact takeEvent_books hb phase event rest
  | @purge faults cmd rest phase next =>
    cases hl
    exact takePurge_books hb phase cmd rest
  | check phase =>
    have hcount := hb.counted (by simp [phase])
    refine ⟨hb.registered, hb.cached, hb.unlocked, hb.results, hb.dirty, hb.writers,
      fun _ => hcount, ?_⟩
    intro hidle
    by_cases hfull : c.commitIntervalDocs ≤ s.docsSinceCommit
    · simp [hfull] at hidle
    · exact Nat.lt_of_not_le hfull
  | tick phase =>
    exact ⟨hb.registered, hb.cached, hb.unlocked, hb.results, hb.dirty, hb.writers,
      fun _ => hb.counted (by simp [phase]), fun _ => hb.bounded (Or.inl phase)⟩
  | @commit name ok offset phase dirty =>
    cases hl
    exact commit_books hb phase dirty
  | committed phase clean =>
    exact ⟨hb.registered, hb.cached, hb.unlocked, hb.results, hb.dirty, hb.writers,
      fun _ => hb.stagedAdds_zero (Table.isEmpty_iff.mp clean), fun _ => hpos⟩
  | compactOpen => exact absurd hl (by simp [IndexerLabel.Clean])
  | compactCommit => exact absurd hl (by simp [IndexerLabel.Clean])
  | compactClose => exact absurd hl (by simp [IndexerLabel.Clean])
  | deliver =>
    exact ⟨hb.registered, hb.cached, hb.unlocked, hb.results, hb.dirty, hb.writers, hb.counted,
      hb.bounded⟩
  | schedule =>
    exact ⟨hb.registered, hb.cached, hb.unlocked, hb.results, hb.dirty, hb.writers, hb.counted,
      hb.bounded⟩

theorem run_books {c : IndexerConfig} {registry : IndexRegistry} {store : Table String IndexDir}
    {t : Indexer} {ls : List IndexerLabel} (hpos : 1 ≤ c.commitIntervalDocs)
    (hclean : ∀ l ∈ ls, l.Clean) (h : Machine.run (step c) (start registry store) ls = some t) :
    Books c registry t := by
  have hG : Machine.Along (step c) (fun _ l => l.Clean) (start registry store) ls :=
    Machine.along_of_labels hclean
  exact Machine.run_guarded (start_books c registry store hpos)
    (fun _ _ _ hl hstep => step_books hpos hl (step_cases hstep)) hG h

/-! ## The fold -/

theorem accepted_eq_opsFor {x : Externals} {registry : IndexRegistry} {hs : List Handled}
    (h : ∀ h ∈ hs, h.result.toOption = x.op? registry h.input) (name : String) :
    accepted name hs = x.opsFor registry name (hs.map Handled.input) := by
  simp only [accepted, Externals.opsFor, List.filterMap_map]
  apply List.filterMap_congr
  intro a ha
  simp only [Function.comp, h a ha]

theorem foldl_opsFor (x : Externals) (registry : IndexRegistry) (name : String)
    (inputs : List Input) (docs : List JsonMap) :
    (x.opsFor registry name inputs).foldl (Op.apply x) docs =
      ((inputs.filter (·.index = name)).map Input.message).foldl (x.take registry) docs := by
  induction inputs generalizing docs with
  | nil => rfl
  | cons input rest ih =>
    by_cases hindex : input.index = name
    · rw [List.filter_cons_of_pos (by simpa using hindex), List.map_cons, List.foldl_cons, ← ih]
      simp only [Externals.opsFor, List.filterMap_cons, hindex, if_true]
      cases input with
      | event e =>
        simp only [Externals.op?, Input.message, Externals.take]
        cases x.document? registry e.event with
        | none => simp
        | some doc => rfl
      | purge cmd =>
        simp only [Externals.op?, Input.message, Externals.take]
        cases x.retentionField? registry cmd.indexName with
        | none => rfl
        | some field => rfl
    · rw [List.filter_cons_of_neg (by simpa using hindex), ← ih]
      simp [Externals.opsFor, hindex]

/-- The messages taken for an index, in order. -/
def messages (s : Indexer) (name : String) : List (IngestEvent ⊕ PurgeCommand) :=
  (s.inputs.filter (·.index = name)).map Input.message

/-- What the actor holds of each index is the fold of that index's messages, and its
other records of it agree. -/
structure Folds (c : IndexerConfig) (registry : IndexRegistry) (store : Table String IndexDir)
    (s : Indexer) : Prop where
  documents : ∀ n, (s.staged n).foldl (Op.apply c.toExternals) (s.dir n).docs =
    (s.messages n).foldl (c.take registry) ((start registry store).dir n).docs
  dirty : ∀ n, s.staged n ≠ [] ↔ n ∈ s.dirtyWriters
  counted : s.phase = .idle →
    s.stagedAdds = s.docsSinceCommit ∧ s.docsSinceCommit < c.commitIntervalDocs

theorem run_folds {c : IndexerConfig} {registry : IndexRegistry} {store : Table String IndexDir}
    {s : Indexer} {ls : List IndexerLabel} (hpos : 1 ≤ c.commitIntervalDocs)
    (hclean : ∀ l ∈ ls, l.Clean) (h : Machine.run (step c) (start registry store) ls = some s) :
    Folds c registry store s := by
  have hb := run_books hpos hclean h
  refine ⟨fun n => ?_, hb.dirty, fun hidle => ⟨hb.counted (by simp [hidle]), hb.bounded (Or.inl hidle)⟩⟩
  obtain ⟨done, -, hdocs, haccepted⟩ := run_ledger h n
  rw [hdocs, ← List.foldl_append, ← haccepted, accepted_eq_opsFor hb.results, foldl_opsFor]
  rfl

/-- A `commit_all` has just run. -/
def Settled (s : Indexer) : Prop := s.phase = .idle ∧ s.dirtyWriters = ∅

instance (s : Indexer) : Decidable s.Settled :=
  decidable_of_iff (s.phase = .idle ∧ Table.isEmpty s.dirtyWriters) (by simp [Settled])

/-- **The actor is an independent fold for each index.** Every run without failures
holds the fold of the messages it has taken; two runs that took the same messages for an
index, in the same order, have committed the same documents to it after a final
`commit_all`. -/
theorem refines_fold {c : IndexerConfig} {registry : IndexRegistry} {store : Table String IndexDir}
    {s : Indexer} {ls : List IndexerLabel} (hpos : 1 ≤ c.commitIntervalDocs)
    (hclean : ∀ l ∈ ls, l.Clean) (h : Machine.run (step c) (start registry store) ls = some s) :
    Folds c registry store s ∧
    ∀ (t : Indexer) (ls' : List IndexerLabel), (∀ l ∈ ls', l.Clean) →
      Machine.run (step c) (start registry store) ls' = some t → s.Settled → t.Settled →
      ∀ n, s.messages n = t.messages n → (s.dir n).docs = (t.dir n).docs := by
  have hs := run_folds hpos hclean h
  refine ⟨hs, ?_⟩
  intro t ls' hclean' h' hsettled hsettled' n hsame
  have ht := run_folds hpos hclean' h'
  have hnil : ∀ {u : Indexer}, Folds c registry store u → u.Settled → u.staged n = [] := by
    intro u hu hset
    by_contra hne
    have hmem := (hu.dirty n).mp hne
    rw [hset.2] at hmem
    exact AList.notMem_empty n hmem
  have hdocs := hs.documents n
  have hdocs' := ht.documents n
  rw [hnil hs hsettled, List.foldl_nil] at hdocs
  rw [hnil ht hsettled', List.foldl_nil] at hdocs'
  rw [hdocs, hdocs', hsame]

/-- An event for each of two indexes and a purge of one, committed together by the
count, or one by one by the ticks with the indexes in the other order. -/
theorem refines_fold_example :
    ∃ s t : Indexer, Folds .tiny .tiny ∅ s ∧ Folds .tiny .tiny ∅ t ∧
      (s.dir "a").docs = (t.dir "a").docs ∧ (s.dir "a").docs.length = 1 := by
  let a : IngestEvent := ⟨"a", utf8 "\x7b\x7d"⟩
  let b : IngestEvent := ⟨"b", utf8 "\x7b\"b\":1\x7d"⟩
  let ls : List IndexerLabel := [.deliver ⟨a, 12⟩, .deliver ⟨b, 29⟩, .event {}, .check, .event {},
    .check, .commit "b" true, .commit "a" true, .committed, .schedule ⟨"a", 0⟩, .purge {}, .tick,
    .commit "a" true, .committed]
  let ls' : List IndexerLabel := [.deliver ⟨b, 17⟩, .event {}, .check, .tick, .commit "b" true,
    .committed, .deliver ⟨a, 29⟩, .event {}, .schedule ⟨"a", 0⟩, .check, .purge {}, .tick,
    .commit "a" true, .committed]
  let seen (s : Indexer) := (decide s.Settled, s.messages "a", (s.dir "a").docs.length)
  have hs : (Machine.run (step .tiny) (start .tiny ∅) ls).map seen =
      some (true, [.inl a, .inr ⟨"a", 0⟩], 1) := by decide +kernel
  have ht : (Machine.run (step .tiny) (start .tiny ∅) ls').map seen =
      some (true, [.inl a, .inr ⟨"a", 0⟩], 1) := by decide +kernel
  obtain ⟨s, hrun, hseen⟩ := Option.map_eq_some_iff.mp hs
  obtain ⟨t, hrun', hseen'⟩ := Option.map_eq_some_iff.mp ht
  simp only [seen, Prod.mk.injEq, decide_eq_true_eq] at hseen hseen'
  obtain ⟨hfolds, hsame⟩ := refines_fold (c := .tiny) (by decide) (by decide) hrun
  exact ⟨s, t, hfolds, (refines_fold (c := .tiny) (by decide) (by decide) hrun').1,
    hsame t ls' (by decide) hrun' hseen.1 hseen'.1 "a" (hseen.2.1.trans hseen'.2.1.symm), hseen.2.2⟩

end Indexer
end Edgewit
