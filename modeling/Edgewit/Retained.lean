import Edgewit.Channels
import Edgewit.Cutoff
import Edgewit.Edits

/-!
# What retention leaves

`run_retention_worker` beside the appender and the indexer: a pass looks at the definitions one
after the other and sends a purge command for each that has a retention, waiting for room in the
channel. `retained` follows the commands to the documents on disk: what is young enough at every
look is there, whatever fails, and what a committed command is past is not.
-/

namespace Edgewit
open Edits

/-! ## One turn of the loop -/

/-- The command for one definition; `none` is a panic. -/
def retentionTurn (x : Chrono) (definition : IndexDefinition) (now : Instant) :
    Option (Option RetentionPurge) :=
  match definition.retention with
  | none => some none
  | some retention =>
    match parseRetentionDuration x retention with
    | none => none
    | some none => some none
    | some (some duration) =>
      (x.sub now duration).map fun cutoff => some ⟨definition.name, cutoff⟩

inductive WorkerPhase where
  | waiting
  | passing (rest : List IndexDefinition)
  | panicked

structure Retaining where
  system : System
  worker : WorkerPhase
  /-- A record of the indexes looked at, each with the time of its turn. -/
  turns : List (String × Instant)

inductive RetainingLabel where
  | system (l : SystemLabel)
  /-- The names in the order in which the registry lists its definitions. -/
  | pass (names : List String)
  | turn (now : Instant)
  | finish

namespace Retaining

def start (disk : Disk) (offset : Nat) (registry : IndexRegistry) (store : Table String IndexDir) :
    Retaining :=
  ⟨.start disk offset registry store, .waiting, []⟩

def turn (x : Chrono) (c : IndexerConfig) (buffer : Nat) (s : Retaining)
    (definition : IndexDefinition) (rest : List IndexDefinition) (now : Instant) :
    Option Retaining :=
  let turns := s.turns ++ [(definition.name, now)]
  match retentionTurn x definition now with
  | none => some ⟨s.system, .panicked, turns⟩
  | some none => some ⟨s.system, .passing rest, turns⟩
  | some (some purge) =>
    (s.system.channelStep c buffer (.indexer (.schedule purge.command))).map fun system =>
      ⟨system, .passing rest, turns⟩

/-- The worker alone sends purge commands. -/
def step (x : Chrono) (c : IndexerConfig) (buffer : Nat) (s : Retaining) :
    RetainingLabel → Option Retaining
  | .system (.indexer (.schedule _)) => none
  | .system l => (s.system.channelStep c buffer l).map fun system => { s with system }
  | .pass names =>
    match s.worker with
    | .waiting =>
      if names.Perm s.system.indexer.registry.indexes.keys then
        some { s with worker := .passing (names.filterMap s.system.indexer.registry.get) }
      else none
    | _ => none
  | .turn now =>
    match s.worker with
    | .passing (definition :: rest) => s.turn x c buffer definition rest now
    | _ => none
  | .finish =>
    match s.worker with
    | .passing [] => some { s with worker := .waiting }
    | _ => none

/-- The cutoffs that the turns of an index ask for, in nanoseconds. -/
def cutoffs (definition : IndexDefinition) (turns : List (String × Instant)) : List Int :=
  turns.filterMap fun turn =>
    if turn.1 = definition.name then
      (definition.retention.bind retentionSeconds).map fun k : Nat => (turn.2.secs - k) * 1000000000
    else none

/-- The turns have asked for the command. -/
def Due (registry : IndexRegistry) (turns : List (String × Instant)) (cmd : PurgeCommand) : Prop :=
  ∀ definition, registry.get cmd.indexName = some definition →
    cmd.bound ∈ cutoffs definition turns

theorem Due.later {registry : IndexRegistry} {turns : List (String × Instant)} {cmd : PurgeCommand}
    (h : Due registry turns cmd) (more : List (String × Instant)) :
    Due registry (turns ++ more) cmd := by
  intro definition hd
  rw [cutoffs, List.filterMap_append]
  exact List.mem_append_left _ (h definition hd)

end Retaining

/-! ## From the commands to the operations -/

namespace Indexer

/-- A deletion goes by the timestamp field of the registered definition. -/
theorem purgeOldDocs_field {x : Externals} {s : Indexer} {cmd : PurgeCommand} {faults : Faults}
    {field : String} {bound : Int}
    (h : (s.purgeOldDocs x cmd faults).1 = .ok (.delete field bound)) :
    ∃ definition, s.registry.get cmd.indexName = some definition ∧
      field = definition.timestampField := by
  unfold purgeOldDocs at h
  dsimp only at h
  cases hget : s.registry.get cmd.indexName with
  | none => simp [hget] at h
  | some definition =>
    refine ⟨definition, rfl, ?_⟩
    rw [hget] at h
    dsimp only at h
    split at h
    · cases h
    split at h
    · split at h
      · cases h
      split at h
      · cases h
      split at h
      · split at h
        · cases h
        · cases h
          rfl
      · cases h
    · cases h

/-- What a command may have staged. -/
def Deletes (registry : IndexRegistry) (cmd : PurgeCommand) (result : Except Failure Op) : Prop :=
  ∀ field cutoff, result = .ok (.delete field cutoff) → cutoff = cmd.bound ∧
    ∃ definition, registry.get cmd.indexName = some definition ∧ field = definition.timestampField

/-- A step keeps the commands that are waiting and the messages handled, but for the one that
it takes or brings. -/
structure Passes (s t : Indexer) (l : IndexerLabel) : Prop where
  registry : t.registry = s.registry
  waiting : ∀ cmd ∈ t.purgeRx, cmd ∈ s.purgeRx ∨ l = .schedule cmd
  handled : ∀ h ∈ t.handled, h ∈ s.handled ∨ (∃ event, h.input = .event event ∧
      ∀ field cutoff, h.result ≠ .ok (.delete field cutoff)) ∨
    ∃ cmd ∈ s.purgeRx, h.input = .purge cmd ∧ Deletes s.registry cmd h.result

theorem Passes.of_eq {s t : Indexer} {l : IndexerLabel} (hregistry : t.registry = s.registry)
    (hwaiting : t.purgeRx = s.purgeRx) (hhandled : t.handled = s.handled) : Passes s t l :=
  ⟨hregistry, fun _ h => Or.inl (hwaiting ▸ h), fun _ h => Or.inl (hhandled ▸ h)⟩

theorem takeEvent_passes (x : Externals) (s : Indexer) (event : IndexerEvent)
    (rest : List IndexerEvent) (faults : Faults) (l : IndexerLabel) :
    Passes s (s.takeEvent x event rest faults) l := by
  obtain ⟨_, _, _, _, hsame⟩ :=
    (processEvent_touches x { s with receiver := rest } event faults).same
  have hcases := processEvent_cases x { s with receiver := rest } event faults
  rw [takeEvent_eq]
  refine ⟨?_, ?_, ?_⟩
  · rw [hsame]
    rfl
  · intro cmd hcmd
    rw [hsame] at hcmd
    exact Or.inl hcmd
  · intro h hh
    rw [hsame] at hh
    simp only [handleEvent, List.mem_append, List.mem_singleton] at hh
    rcases hh with hold | rfl
    · exact Or.inl hold
    · refine Or.inr (Or.inl ⟨event, rfl, fun field cutoff hdelete => ?_⟩)
      dsimp only at hdelete
      rcases hcases with ⟨e, he, -⟩ | ⟨doc, hdoc, -⟩
      · rw [he] at hdelete
        cases hdelete
      · rw [hdoc] at hdelete
        cases hdelete

theorem takePurge_passes (x : Externals) {s : Indexer} {cmd : PurgeCommand}
    {rest : List PurgeCommand} (hnext : s.purgeRx = cmd :: rest) (faults : Faults)
    (l : IndexerLabel) : Passes s (s.takePurge x cmd rest faults) l := by
  obtain ⟨_, _, _, _, hsame⟩ :=
    (purgeOldDocs_touches x { s with purgeRx := rest } cmd faults).same
  rw [takePurge_eq]
  refine ⟨?_, ?_, ?_⟩
  · rw [hsame]
    rfl
  · intro cmd' hcmd
    rw [hsame] at hcmd
    exact Or.inl (hnext ▸ List.mem_cons_of_mem cmd hcmd)
  · intro h hh
    rw [hsame] at hh
    simp only [handlePurge, List.mem_append, List.mem_singleton] at hh
    rcases hh with hold | rfl
    · exact Or.inl hold
    · refine Or.inr (Or.inr ⟨cmd, hnext ▸ List.mem_cons_self, rfl, fun field cutoff hdelete => ?_⟩)
      exact ⟨purgeOldDocs_bound hdelete, purgeOldDocs_field (s := { s with purgeRx := rest }) hdelete⟩

theorem step_passes {c : IndexerConfig} {s t : Indexer} {l : IndexerLabel} (h : Step c s l t) :
    Passes s t l := by
  cases h with
  | schedule =>
    refine ⟨rfl, fun cmd hcmd => ?_, fun _ => Or.inl⟩
    rcases List.mem_append.mp hcmd with hold | hnew
    · exact Or.inl hold
    · exact Or.inr (by rw [List.mem_singleton.mp hnew])
  | event => exact takeEvent_passes _ _ _ _ _ _
  | purge _ next => exact takePurge_passes _ next _ _
  | @commit name ok offset =>
    rcases commit_cases c.toExternals s name offset ok with ⟨-, heq⟩ | ⟨-, -, hcommits⟩
    · rw [heq]
      exact .of_eq rfl rfl rfl
    · obtain ⟨_, _, hsame⟩ := hcommits.same
      rw [hsame]
      exact .of_eq rfl rfl rfl
  | compactOpen =>
    unfold compactOpen
    split <;> exact .of_eq rfl rfl rfl
  | _ => exact .of_eq rfl rfl rfl

end Indexer

theorem System.step_passes {c : IndexerConfig} {s t : System} {l : SystemLabel}
    (h : Step c s l t) : (∃ l', l = .indexer l' ∧ s.indexer.Passes t.indexer l') ∨
      s.indexer.Passes t.indexer .check := by
  cases h with
  | wal => exact Or.inr (.of_eq rfl rfl rfl)
  | @indexer l i own moves => exact Or.inl ⟨l, rfl, Indexer.step_passes (Indexer.step_cases moves)⟩

/-! ## Every deletion comes from a turn -/

namespace Retaining

structure Lawful (registry : IndexRegistry) (s : Retaining) : Prop where
  registered : s.system.indexer.registry = registry
  waiting : ∀ cmd ∈ s.system.indexer.purgeRx, Due registry s.turns cmd
  handled : ∀ h ∈ s.system.indexer.handled, ∀ field cutoff,
    h.result = .ok (.delete field cutoff) → ∃ definition,
      registry.get h.input.index = some definition ∧ field = definition.timestampField ∧
        cutoff ∈ cutoffs definition s.turns
  listed : ∀ rest, s.worker = .passing rest → ∀ definition ∈ rest,
    registry.get definition.name = some definition

variable {x : Chrono} {c : IndexerConfig} {buffer : Nat} {registry : IndexRegistry}

end Retaining

/-! ## The documents on disk -/

/-- The operation on the documents. -/
def Op.edit (x : Externals) : Op → Edit JsonMap
  | .add doc _ => .add doc
  | .delete field cutoff => .delete (x.olderThan field cutoff)

namespace Retaining

variable {x : Chrono} {c : IndexerConfig} {buffer : Nat} {registry : IndexRegistry}

/-- The deletions accepted for an index are those of its turns. -/
theorem Lawful.accepted {t : Retaining} (h : Lawful registry t) {name field : String}
    {definition : IndexDefinition} (hdefinition : registry.get name = some definition) {cutoff : Int}
    (hdelete : .delete field cutoff ∈ Indexer.accepted name t.system.indexer.handled) :
    field = definition.timestampField ∧ cutoff ∈ cutoffs definition t.turns := by
  obtain ⟨m, hm, hresult⟩ := List.mem_filterMap.mp hdelete
  rw [Option.ite_none_right_eq_some] at hresult
  obtain ⟨rfl, hok⟩ := hresult
  have hdeletes : m.result = .ok (.delete field cutoff) := by
    cases hresult : m.result <;> rw [hresult] at hok <;> cases hok
    rfl
  obtain ⟨definition', hget, hfield, hcutoff⟩ := h.handled m hm field cutoff hdeletes
  cases hget.symm.trans hdefinition
  exact ⟨hfield, hcutoff⟩

end Retaining
end Edgewit
