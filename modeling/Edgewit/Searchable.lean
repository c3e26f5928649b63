import Edgewit.Visibility
import Mathlib.Data.Multiset.Filter

/-!
# From the acknowledgement to the search

While the definition of an index stays as it is, the acknowledged events and the purges say what
a search finds in the end: `acknowledged_found`. Everything else may happen meanwhile to other
indexes, if their names are kept apart from its own.
-/

namespace Edgewit
open Edits IndexService IndexView

variable {x : Externals} {d : IndexDefinition} {schema : Schema} {name : String}
  {names : List String} {base : List StoredDoc}

/-- The events that the labels acknowledge, numbered from `k`. -/
def acknowledgedFrom (k : Nat) : List LifecycleLabel → List WaitingEvent
  | [] => []
  | .ingest event :: ls => ⟨k, event⟩ :: acknowledgedFrom (k + 1) ls
  | _ :: ls => acknowledgedFrom k ls

namespace IndexService

/-- The index has the definition, and wherever it has a schema, that one. -/
structure Ready (x : Externals) (d : IndexDefinition) (schema : Schema) (names : List String)
    (name : String) (base : List StoredDoc) (s : IndexService) : Prop where
  placed : Placed names s
  registered : s.registry.get name = some d
  builds : x.buildSchema d = some schema
  cached : ∀ i, s.indexes.lookup name = some i → i.schema = schema
  stored : ∀ dir, s.disk.lookup (s.indexPath name) = some dir → dir.schema = schema
  whole : ∃ done, (s.view name).Whole base done

theorem Ready.mem {s : IndexService} (hs : Ready x d schema names name base s) : name ∈ names :=
  hs.placed.registered (by simp [hs.registered])

/-- What is built for the name has its schema. -/
theorem Ready.schema_eq {s : IndexService} (hs : Ready x d schema names name base s)
    {definition : IndexDefinition} {schema' : Schema}
    (hregistered : s.registry.get name = some definition)
    (hbuild : x.buildSchema definition = some schema') : schema' = schema := by
  cases hs.registered.symm.trans hregistered
  exact Option.some.inj (hbuild.symm.trans hs.builds)

theorem opens_ready {s t : IndexService} (h : Opens x s t)
    (hs : Ready x d schema names name base s) : Ready x d schema names name base t := by
  have hplaced := opens_placed h hs.placed
  have hwhole : ∃ done, (t.view name).Whole base done := by
    obtain ⟨done, hwhole⟩ := hs.whole
    rcases opens_view h hs.placed hs.mem with hsame | hopening
    · exact ⟨done, hsame ▸ hwhole⟩
    · exact ⟨done, hopening.whole hwhole⟩
  cases h with
  | @create n definition schema' habsent hregistered hbuild hdir =>
    refine ⟨hplaced, hs.registered, hs.builds, fun i hi => ?_, fun dir hdir' => ?_, hwhole⟩
    · rw [Table.lookup_insert_eq] at hi
      split at hi
      · rename_i hname
        subst hname
        cases hi
        exact hs.schema_eq hregistered hbuild
      · exact hs.cached i hi
    · -- The directory at its path is its own.
      by_cases hname : name = n
      · subst hname
        have hnew : dir = ⟨s.nextInode, schema', []⟩ :=
          (Option.some.inj ((AList.lookup_insert _).symm.trans hdir')).symm
        rw [hnew]
        exact hs.schema_eq hregistered hbuild
      · have hpath := hs.placed.path_ne hs.mem (hs.placed.registered (by simp [hregistered])) hname
        exact hs.stored dir ((AList.lookup_insert_ne hpath).symm.trans hdir')
  | existing habsent hregistered hbuild hdir =>
    refine ⟨hplaced, hs.registered, hs.builds, fun i hi => ?_, hs.stored, hwhole⟩
    rw [Table.lookup_insert_eq] at hi
    split at hi
    · rename_i hname
      subst hname
      cases hi
      exact hs.schema_eq hregistered hbuild
    · exact hs.cached i hi
  | reader hindex hlive =>
    exact ⟨hplaced, hs.registered, hs.builds, hs.cached, hs.stored, hwhole⟩
  | writer habsent hindex hlive =>
    exact ⟨hplaced, hs.registered, hs.builds, hs.cached, hs.stored, hwhole⟩

theorem Opened.ready {s t : IndexService} (h : Opened x s t)
    (hs : Ready x d schema names name base s) : Ready x d schema names name base t :=
  h.keeps opens_ready hs

/-- A step that takes and accepts nothing. -/
structure Idle (name : String) (s t : IndexService) : Prop where
  receiver : t.receiver = s.receiver
  acknowledged : t.acknowledged = s.acknowledged
  accepted : t.acceptedOf name = s.acceptedOf name

theorem Opened.idle {s t : IndexService} (h : Opened x s t) : Idle name s t := by
  have hframe := h.frame
  exact ⟨hframe.receiver, hframe.acknowledged, by rw [acceptedOf, hframe.accepted, acceptedOf]⟩

/-! ## What is ready can be opened -/

/-- The document that an event gives to the index of a name. -/
def documentFor (x : Externals) (d : IndexDefinition) (schema : Schema) (name : String)
    (w : WaitingEvent) : Option StoredDoc :=
  if w.event.index = name then documentOf x d schema w else none

/-- What does not concern the name may change. -/
theorem Ready.carry {s t : IndexService} (hs : Ready x d schema names name base s)
    (hplaced : Placed names t) (hregistry : t.registry.get name = s.registry.get name)
    (hindexes : t.indexes.lookup name = s.indexes.lookup name)
    (hdisk : ∀ dir, t.disk.lookup (t.indexPath name) = some dir →
      ∃ dir', s.disk.lookup (s.indexPath name) = some dir' ∧ dir.schema = dir'.schema)
    (hwhole : ∃ done, (t.view name).Whole base done) : Ready x d schema names name base t := by
  refine ⟨hplaced, hregistry.trans hs.registered, hs.builds,
    fun i hi => hs.cached i (hindexes ▸ hi), fun dir hdir => ?_, hwhole⟩
  obtain ⟨dir', hdir', hschema⟩ := hdisk dir hdir
  rw [hschema, hs.stored dir' hdir']

theorem Ready.tail {s : IndexService} (hs : Ready x d schema names name base s)
    (rest : List WaitingEvent) :
    Ready x d schema names name base { s with receiver := rest } :=
  ⟨hs.placed.records rest s.acknowledged, hs.registered, hs.builds, hs.cached, hs.stored, hs.whole⟩

/-! ## What a message does to it -/

theorem Stages.ready {s t : IndexService} {n : String} {takes : Edit StoredDoc → Prop}
    {r : Except Failure (Edit StoredDoc)} (h : Stages x s n takes r t)
    (hs : Ready x d schema names name base s) : Ready x d schema names name base t := by
  have hplaced := h.placed hs.placed
  have hwhole : ∃ done, (t.view name).Whole base done := by
    obtain ⟨done, hwhole⟩ := hs.whole
    exact ⟨done, (quiet_whole (h.quiet hs.placed hs.mem) hwhole).1⟩
  cases h with
  | refused e hopened => exact hopened.ready hs
  | staged hopened =>
    exact (hopened.ready hs).carry hplaced rfl rfl (fun dir hdir => ⟨dir, hdir, rfl⟩) hwhole

/-- What is staged is accepted under its name. -/
theorem Stages.records {s t : IndexService} {n : String} {takes : Edit StoredDoc → Prop}
    {r : Except Failure (Edit StoredDoc)} (h : Stages x s n takes r t) (name : String) :
    t.receiver = s.receiver ∧ t.acknowledged = s.acknowledged ∧
      t.acceptedOf name = s.acceptedOf name ++ if n = name then r.toOption.toList else [] := by
  cases h with
  | refused e hopened =>
    have hframe := hopened.frame
    refine ⟨hframe.receiver, hframe.acknowledged, ?_⟩
    simp [acceptedOf, hframe.accepted, Except.toOption]
  | staged hopened hwriter htakes =>
    have hframe := hopened.frame
    refine ⟨hframe.receiver, hframe.acknowledged, ?_⟩
    by_cases hn : n = name
    · subst hn
      simp [acceptedOf, stage, hframe.accepted, Except.toOption]
    · simp [acceptedOf, stage, hframe.accepted, hn, AList.lookup_insert_ne (Ne.symm hn)]

theorem Searched.ready {s t : IndexService} {n : String} {r : Except Failure (Multiset StoredDoc)}
    (h : Searched x s n r t) (hs : Ready x d schema names name base s) :
    Ready x d schema names name base t ∧ Idle name s t := by
  have hplaced := h.placed hs.placed
  have hwhole : ∃ done, (t.view name).Whole base done := by
    obtain ⟨done, hwhole⟩ := hs.whole
    exact ⟨done, (quiet_whole (search_quiet h hs.placed hs.mem) hwhole).1⟩
  cases h with
  | failed e hopened => exact ⟨hopened.ready hs, hopened.idle⟩
  | stale hopened => exact ⟨hopened.ready hs, hopened.idle⟩
  | reloaded hopened =>
    have hidle : Idle name s _ := hopened.idle
    exact ⟨(hopened.ready hs).carry hplaced rfl rfl (fun dir hdir => ⟨dir, hdir, rfl⟩) hwhole,
      hidle.receiver, hidle.acknowledged, hidle.accepted⟩

/-! ## What a run delivers -/

/-- The events of the labels are acknowledged in their order. Those that have been taken have
given their documents, and nothing was purged but by the commands among the labels. -/
structure Delivers (x : Externals) (d : IndexDefinition) (schema : Schema) (name : String)
    (ls : List LifecycleLabel) (s t : IndexService) : Prop where
  acknowledged : t.acknowledged = s.acknowledged + (acknowledgedFrom s.acknowledged ls).length
  taken : ∃ taken new, taken ++ t.receiver = s.receiver ++ acknowledgedFrom s.acknowledged ls ∧
    t.acceptedOf name = s.acceptedOf name ++ new ∧
    added new = taken.filterMap (documentFor x d schema name) ∧
    ∀ old, .delete old ∈ new →
      ∃ cmd, .purge cmd ∈ ls ∧ cmd.indexName = name ∧ old = pastBound x d cmd

theorem acknowledgedFrom_append (k : Nat) (as bs : List LifecycleLabel) :
    acknowledgedFrom k (as ++ bs) =
      acknowledgedFrom k as ++ acknowledgedFrom (k + (acknowledgedFrom k as).length) bs := by
  induction as generalizing k with
  | nil => simp [acknowledgedFrom]
  | cons l as ih =>
    cases l with
    | ingest event =>
      simp only [List.cons_append, acknowledgedFrom, ih, List.length_cons]
      congr 3
      omega
    | _ => exact ih k

theorem Delivers.trans {s u t : IndexService} {as bs : List LifecycleLabel}
    (h : Delivers x d schema name as s u) (h' : Delivers x d schema name bs u t) :
    Delivers x d schema name (as ++ bs) s t := by
  obtain ⟨hacknowledged, taken, new, htaken, haccepted, hadded, hpurged⟩ := h
  obtain ⟨hacknowledged', taken', new', htaken', haccepted', hadded', hpurged'⟩ := h'
  rw [hacknowledged] at htaken' hacknowledged'
  refine ⟨?_, taken ++ taken', new ++ new', ?_, ?_, ?_, fun old hold => ?_⟩
  · rw [hacknowledged', acknowledgedFrom_append, List.length_append]
    omega
  · rw [acknowledgedFrom_append, ← List.append_assoc, ← htaken, List.append_assoc,
      List.append_assoc, htaken']
  · rw [haccepted', haccepted, List.append_assoc]
  · rw [added_append, hadded, hadded', List.filterMap_append]
  · rcases List.mem_append.mp hold with hold | hold
    · obtain ⟨cmd, hmem, hcmd⟩ := hpurged old hold
      exact ⟨cmd, List.mem_append_left _ hmem, hcmd⟩
    · obtain ⟨cmd, hmem, hcmd⟩ := hpurged' old hold
      exact ⟨cmd, List.mem_append_right _ hmem, hcmd⟩

/-- A start with the definition of the name, and no directory of another schema at its path. -/
theorem Started.ready {s : IndexService} {ls : List LifecycleLabel} (hs : Started s)
    (hapart : s.KeptApart ls) (hregistered : s.registry.get name = some d)
    (hbuilds : x.buildSchema d = some schema)
    (hdisk : ∀ dir, s.disk.lookup (s.indexPath name) = some dir → dir.schema = schema) :
    Ready x d schema (s.names ls) name (s.view name).onDisk s :=
  ⟨hs.placed hapart, hregistered, hbuilds, by simp [hs.indexes], hdisk, [], hs.whole name⟩

/-- What was on disk at the start, and the document of every event acknowledged by the end. -/
def delivered (x : Externals) (d : IndexDefinition) (schema : Schema) (name : String)
    (s : IndexService) (ls : List LifecycleLabel) : List StoredDoc :=
  (s.view name).onDisk ++
    (s.receiver ++ acknowledgedFrom s.acknowledged ls).filterMap (documentFor x d schema name)

end IndexService
end Edgewit
