import Edgewit.Indexer
import Edgewit.WriteBehind

/-!
# Staged operations

What one step of the actor does to its writers and to the index directories: it opens
writers (`Opens`), stages one operation (`Stages`) or commits one index
(`commit_writer`). With this the actor refines the write-behind buffers:
`run_refines`.
-/

namespace Edgewit

/-- The number of added documents among operations. -/
def adds (ops : List Op) : Nat := (ops.filterMap Op.offset?).length

@[simp] theorem adds_nil : adds [] = 0 := rfl

@[simp] theorem adds_append (as bs : List Op) : adds (as ++ bs) = adds as + adds bs := by
  simp [adds]

/-- The offset kept for a dirty index after an operation on it. -/
def Op.mark : Op → Option Nat → Nat
  | .add _ walOffset, _ => walOffset
  | .delete _ _, pending => pending.getD 0

namespace Indexer
open WriteBehind

variable {x : Externals}

/-- The staged adds over all indexes. -/
def stagedAdds (s : Indexer) : Nat := Table.total adds s.writers

/-! ## Opening writers -/

/-- `t` is `s` with indexes opened or created, and writers with nothing to do. -/
structure Opens (x : Externals) (s t : Indexer) : Prop where
  same : ∃ indexes writers store,
    t = { s with indexes := indexes, writers := writers, store := store }
  dir : ∀ n, t.dir n = s.dir n
  staged : ∀ n, t.staged n = s.staged n
  pending : t.stagedAdds = s.stagedAdds
  writers : ∀ n ∈ s.writers, n ∈ t.writers
  unlocked : ∀ n ∈ t.writers, n ∈ s.writers ∨ ¬ s.Locked n
  cached : ∀ n schema, t.indexes.lookup n = some schema → s.indexes.lookup n = some schema ∨
    ∃ definition, s.registry.get n = some definition ∧ x.buildSchema definition = some schema

theorem Opens.dirtyWriters {s t : Indexer} (h : Opens x s t) : t.dirtyWriters = s.dirtyWriters := by
  obtain ⟨_, _, _, hsame⟩ := h.same
  rw [hsame]

theorem Opens.refl (x : Externals) (s : Indexer) : Opens x s s :=
  ⟨⟨_, _, _, rfl⟩, fun _ => rfl, fun _ => rfl, rfl, fun _ h => h, fun _ h => Or.inl h,
    fun _ _ h => Or.inl h⟩

theorem Opens.trans {s t u : Indexer} (h : Opens x s t) (h' : Opens x t u) : Opens x s u := by
  obtain ⟨indexes, writers, store, hsame⟩ := h.same
  obtain ⟨indexes', writers', store', hsame'⟩ := h'.same
  refine ⟨⟨indexes', writers', store', by rw [hsame', hsame]⟩,
    fun n => (h'.dir n).trans (h.dir n), fun n => (h'.staged n).trans (h.staged n),
    h'.pending.trans h.pending, fun n hn => h'.writers n (h.writers n hn), ?_, ?_⟩
  · intro n hn
    rcases h'.unlocked n hn with hold | hfree
    · exact h.unlocked n hold
    · right
      rw [hsame] at hfree
      exact hfree
  · intro n schema hn
    rcases h'.cached n schema hn with hold | hnew
    · exact h.cached n schema hold
    · right
      rw [hsame] at hnew
      exact hnew

/-- An index is cached, refused, or opened and cached with the schema of its
definition. -/
theorem getOrCreateIndex_cases (x : Externals) (s : Indexer) (name : String) (faults : Faults) :
    (∃ schema, s.indexes.lookup name = some schema ∧
      s.getOrCreateIndex x name faults = (.ok schema, s)) ∨
    (∃ e, s.getOrCreateIndex x name faults = (.error e, s) ∧ s.indexes.lookup name = none) ∨
    ∃ definition schema, s.indexes.lookup name = none ∧ s.registry.get name = some definition ∧
      x.buildSchema definition = some schema ∧ faults.openIndex = none ∧
      s.getOrCreateIndex x name faults = (.ok schema, { s with
        indexes := s.indexes.insert name schema
        store := Table.orInsert s.store name .empty }) := by
  unfold getOrCreateIndex
  cases hcached : s.indexes.lookup name with
  | some schema => exact Or.inl ⟨schema, rfl, rfl⟩
  | none =>
    right
    cases hget : s.registry.get name with
    | none => exact Or.inl ⟨_, rfl, rfl⟩
    | some definition =>
      dsimp only
      cases hbuild : x.buildSchema definition with
      | none => exact Or.inl ⟨_, rfl, rfl⟩
      | some schema =>
        cases hopen : faults.openIndex with
        | some text => exact Or.inl ⟨_, rfl, rfl⟩
        | none => exact Or.inr ⟨definition, schema, rfl, rfl, hbuild, rfl, rfl⟩

theorem getOrCreateIndex_opens (x : Externals) (s : Indexer) (name : String) (faults : Faults) :
    Opens x s (s.getOrCreateIndex x name faults).2 ∧
    (s.getOrCreateIndex x name faults).2.writers = s.writers := by
  rcases getOrCreateIndex_cases x s name faults with ⟨schema, -, heq⟩ | ⟨e, heq, -⟩ |
    ⟨definition, schema, hnone, hget, hbuild, -, heq⟩
  · rw [heq]
    exact ⟨Opens.refl x s, rfl⟩
  · rw [heq]
    exact ⟨Opens.refl x s, rfl⟩
  · rw [heq]
    refine ⟨⟨⟨_, _, _, rfl⟩, ?_, fun _ => rfl, rfl, fun _ h => h, fun _ h => Or.inl h, ?_⟩, rfl⟩
    · intro n
      simp only [dir, Table.lookup_orInsert]
      by_cases hn : n = name <;> simp [hn]
    · intro n schema' h
      simp only [Table.lookup_insert_eq] at h
      by_cases hn : n = name
      · rw [if_pos hn] at h
        right
        exact ⟨definition, by rw [hn, hget], by rw [hbuild, h]⟩
      · rw [if_neg hn] at h
        exact Or.inl h

/-- A new writer has nothing to do. -/
theorem insertWriter_opens {s : Indexer} {name : String} (hw : name ∉ s.writers)
    (hfree : ¬ s.Locked name) : Opens x s { s with writers := s.writers.insert name [] } := by
  have hnone := AList.lookup_eq_none.mpr hw
  refine ⟨⟨_, _, _, rfl⟩, fun _ => rfl, ?_, ?_, ?_, ?_, fun _ _ h => Or.inl h⟩
  · intro n
    simp only [staged, Table.lookup_insert_eq]
    by_cases hn : n = name
    · subst hn
      simp [hnone]
    · simp [hn]
  · simp only [stagedAdds, Table.total_insert_new adds [] hnone, adds_nil, Nat.zero_add]
  · intro n hn
    exact (AList.mem_insert s.writers).mpr (Or.inr hn)
  · intro n hn
    rcases (AList.mem_insert s.writers).mp hn with rfl | hold
    · exact Or.inr hfree
    · exact Or.inl hold

theorem ensureWriter_opens (x : Externals) (s : Indexer) (name : String) (faults : Faults) :
    Opens x s (s.ensureWriter x name faults).2 ∧
    ((s.ensureWriter x name faults).1 = .ok () → name ∈ (s.ensureWriter x name faults).2.writers) := by
  unfold ensureWriter
  by_cases hw : name ∈ s.writers
  · rw [if_pos hw]
    exact ⟨Opens.refl x s, fun _ => hw⟩
  · rw [if_neg hw]
    obtain ⟨hopens, hwriters⟩ := getOrCreateIndex_opens x s name faults
    cases hres : s.getOrCreateIndex x name faults with
    | mk r u =>
      rw [hres] at hopens hwriters
      cases r with
      | error e => exact ⟨hopens, by simp⟩
      | ok schema =>
        dsimp only
        cases hopen : u.openWriter x name faults with
        | some text => exact ⟨hopens, by simp⟩
        | none =>
          have hfree : ¬ u.Locked name := by
            intro hlocked
            simp [openWriter, hlocked] at hopen
          have hnew : name ∉ u.writers := by
            rw [show u.writers = s.writers from hwriters]
            exact hw
          refine ⟨hopens.trans (insertWriter_opens hnew hfree), fun _ => ?_⟩
          exact (AList.mem_insert u.writers).mpr (Or.inl rfl)

/-! ## Staging an operation -/

/-- `t` is `s` after one operation has been staged for an index. -/
structure Stages (x : Externals) (s t : Indexer) (name : String) (op : Op) : Prop where
  same : ∃ indexes writers store dirtyWriters, t = { s with
    indexes := indexes, writers := writers, store := store, dirtyWriters := dirtyWriters }
  dir : ∀ n, t.dir n = s.dir n
  staged : ∀ n, t.staged n = if n = name then s.staged n ++ [op] else s.staged n
  dirty : ∀ n, t.dirtyWriters.lookup n =
    if n = name then some (op.mark (s.dirtyWriters.lookup n)) else s.dirtyWriters.lookup n
  pending : t.stagedAdds = s.stagedAdds + adds [op]
  writers : ∀ n ∈ s.writers, n ∈ t.writers
  unlocked : ∀ n ∈ t.writers, n ∈ s.writers ∨ ¬ s.Locked n
  writer : name ∈ t.writers
  cached : ∀ n schema, t.indexes.lookup n = some schema → s.indexes.lookup n = some schema ∨
    ∃ definition, s.registry.get n = some definition ∧ x.buildSchema definition = some schema

theorem stage_dirtyWriters (s : Indexer) (name : String) (op : Op) :
    (s.stage name op).dirtyWriters = s.dirtyWriters := by
  unfold stage
  split <;> rfl

theorem Opens.stages {s u : Indexer} {name : String} {op : Op} {dirtyWriters : Table String Nat}
    (h : Opens x s u) (hw : name ∈ u.writers)
    (hdirty : ∀ n, dirtyWriters.lookup n =
      if n = name then some (op.mark (s.dirtyWriters.lookup n)) else s.dirtyWriters.lookup n) :
    Stages x s { u.stage name op with dirtyWriters := dirtyWriters } name op := by
  obtain ⟨ops, hops⟩ := Option.isSome_iff_exists.mp (AList.lookup_isSome.mpr hw)
  obtain ⟨indexes, writers, store, hsame⟩ := h.same
  have hstage : u.stage name op = { u with writers := u.writers.insert name (ops ++ [op]) } := by
    simp [stage, hops]
  rw [hstage]
  refine ⟨⟨u.indexes, _, u.store, dirtyWriters, by rw [hsame]⟩, h.dir, ?_, hdirty, ?_, ?_, ?_, ?_,
    h.cached⟩
  · intro n
    rw [← h.staged n]
    simp only [Indexer.staged, Table.lookup_insert_eq]
    by_cases hn : n = name
    · subst hn
      simp [hops]
    · simp [hn]
  · have htotal := Table.total_insert adds (ops ++ [op]) hops
    have hpending := h.pending
    simp only [stagedAdds, adds_append] at htotal hpending ⊢
    omega
  · intro n hn
    exact (AList.mem_insert u.writers).mpr (Or.inr (h.writers n hn))
  · intro n hn
    apply h.unlocked
    rcases (AList.mem_insert u.writers).mp hn with rfl | hold
    · exact hw
    · exact hold
  · exact (AList.mem_insert u.writers).mpr (Or.inl rfl)

theorem processEvent_cases (x : Externals) (s : Indexer) (event : IndexerEvent) (faults : Faults) :
    (∃ e, (s.processEvent x event faults).1 = .error e ∧ Opens x s (s.processEvent x event faults).2) ∨
    ∃ doc, (s.processEvent x event faults).1 = .ok (.add doc event.walOffset) ∧
      Stages x s (s.processEvent x event faults).2 event.event.index (.add doc event.walOffset) := by
  unfold processEvent
  dsimp only
  cases s.registry.get event.event.index with
  | none => exact Or.inl ⟨_, rfl, Opens.refl x s⟩
  | some definition =>
    dsimp only
    cases hparse : x.fromSlice event.event.payload with
    | error e => exact Or.inl ⟨_, rfl, Opens.refl x s⟩
    | ok source =>
      cases source with
      | object map =>
        dsimp only
        obtain ⟨hopens, hwriter⟩ := ensureWriter_opens x s event.event.index faults
        cases hres : s.ensureWriter x event.event.index faults with
        | mk r u =>
          rw [hres] at hopens hwriter
          cases r with
          | error e => exact Or.inl ⟨_, rfl, hopens⟩
          | ok _ =>
            dsimp only
            have hw := hwriter rfl
            obtain ⟨hopens', -⟩ := getOrCreateIndex_opens x u event.event.index faults
            cases hres' : u.getOrCreateIndex x event.event.index faults with
            | mk r v =>
              rw [hres'] at hopens'
              have hall := hopens.trans hopens'
              cases r with
              | error e => exact Or.inl ⟨_, rfl, hall⟩
              | ok schema =>
                dsimp only
                cases x.documentError schema (definition.rootDocument x.toText map) with
                | some e => exact Or.inl ⟨_, rfl, hall⟩
                | none =>
                  dsimp only
                  cases faults.write with
                  | some e => exact Or.inl ⟨_, rfl, hall⟩
                  | none =>
                    refine Or.inr ⟨_, rfl, hall.stages (hopens'.writers _ hw) ?_⟩
                    intro n
                    rw [stage_dirtyWriters, hall.dirtyWriters, Table.lookup_insert_eq]
                    rfl
      | _ => exact Or.inl ⟨_, rfl, Opens.refl x s⟩

theorem purgeOldDocs_cases (x : Externals) (s : Indexer) (cmd : PurgeCommand) (faults : Faults) :
    (∃ e, (s.purgeOldDocs x cmd faults).1 = .error e ∧ Opens x s (s.purgeOldDocs x cmd faults).2) ∨
    ∃ field, (s.purgeOldDocs x cmd faults).1 = .ok (.delete field cmd.bound) ∧
      Stages x s (s.purgeOldDocs x cmd faults).2 cmd.indexName (.delete field cmd.bound) := by
  unfold purgeOldDocs
  dsimp only
  cases s.registry.get cmd.indexName with
  | none => exact Or.inl ⟨_, rfl, Opens.refl x s⟩
  | some definition =>
    dsimp only
    cases definition.fields.lookup definition.timestampField with
    | none => exact Or.inl ⟨_, rfl, Opens.refl x s⟩
    | some field =>
      dsimp only
      by_cases hdate : field.fieldType = .datetime
      · rw [if_pos hdate]
        obtain ⟨hopens, hwriter⟩ := ensureWriter_opens x s cmd.indexName faults
        cases hres : s.ensureWriter x cmd.indexName faults with
        | mk r u =>
          rw [hres] at hopens hwriter
          cases r with
          | error e => exact Or.inl ⟨_, rfl, hopens⟩
          | ok _ =>
            dsimp only
            have hw := hwriter rfl
            obtain ⟨hopens', -⟩ := getOrCreateIndex_opens x u cmd.indexName faults
            cases hres' : u.getOrCreateIndex x cmd.indexName faults with
            | mk r v =>
              rw [hres'] at hopens'
              have hall := hopens.trans hopens'
              cases r with
              | error e => exact Or.inl ⟨_, rfl, hall⟩
              | ok schema =>
                dsimp only
                by_cases hfield : schema.hasField definition.timestampField
                · rw [if_pos hfield]
                  cases faults.write with
                  | some e => exact Or.inl ⟨_, rfl, hall⟩
                  | none =>
                    refine Or.inr ⟨_, rfl, hall.stages (hopens'.writers _ hw) ?_⟩
                    intro n
                    rw [stage_dirtyWriters, hall.dirtyWriters]
                    exact Table.lookup_orInsert _ _ _ _
                · rw [if_neg hfield]
                  exact Or.inl ⟨_, rfl, hall⟩
      · rw [if_neg hdate]
        exact Or.inl ⟨_, rfl, Opens.refl x s⟩

/-- The event branch: what was opened or staged, and the record of it. -/
theorem takeEvent_cases (x : Externals) (s : Indexer) (event : IndexerEvent)
    (rest : List IndexerEvent) (faults : Faults) :
    (∃ e u, Opens x { s with receiver := rest } u ∧
      s.takeEvent x event rest faults = u.handleEvent event (.error e)) ∨
    ∃ doc u, Stages x { s with receiver := rest } u event.event.index (.add doc event.walOffset) ∧
      s.takeEvent x event rest faults = u.handleEvent event (.ok (.add doc event.walOffset)) := by
  have hcases := processEvent_cases x { s with receiver := rest } event faults
  unfold takeEvent
  cases hres : processEvent x { s with receiver := rest } event faults with
  | mk r u =>
    rw [hres] at hcases
    rcases hcases with ⟨e, he, hopens⟩ | ⟨doc, hdoc, hstages⟩
    · exact Or.inl ⟨e, u, hopens, by rw [show r = .error e from he]⟩
    · exact Or.inr ⟨doc, u, hstages, by rw [show r = .ok (.add doc event.walOffset) from hdoc]⟩

theorem takePurge_cases (x : Externals) (s : Indexer) (cmd : PurgeCommand)
    (rest : List PurgeCommand) (faults : Faults) :
    (∃ e u, Opens x { s with purgeRx := rest } u ∧
      s.takePurge x cmd rest faults = u.handlePurge cmd (.error e)) ∨
    ∃ field u, Stages x { s with purgeRx := rest } u cmd.indexName (.delete field cmd.bound) ∧
      s.takePurge x cmd rest faults = u.handlePurge cmd (.ok (.delete field cmd.bound)) := by
  have hcases := purgeOldDocs_cases x { s with purgeRx := rest } cmd faults
  unfold takePurge
  cases hres : purgeOldDocs x { s with purgeRx := rest } cmd faults with
  | mk r u =>
    rw [hres] at hcases
    rcases hcases with ⟨e, he, hopens⟩ | ⟨field, hop, hstages⟩
    · exact Or.inl ⟨e, u, hopens, by rw [show r = .error e from he]⟩
    · exact Or.inr ⟨field, u, hstages, by rw [show r = .ok (.delete field cmd.bound) from hop]⟩

/-! ## Committing an index -/

/-- `t` is `s` after the commit of one index. -/
structure Commits (x : Externals) (s t : Indexer) (name : String) (offset : Nat) : Prop where
  same : ∃ writers store, t = { s with
    writers := writers, store := store, dirtyWriters := s.dirtyWriters.erase name }
  dir : ∀ n, t.dir n = if n = name then
    ⟨(s.staged n).foldl (Op.apply x) (s.dir n).docs, some offset, (s.dir n).applied ++ s.staged n⟩
    else s.dir n
  staged : ∀ n, t.staged n = if n = name then [] else s.staged n
  pending : t.stagedAdds + adds (s.staged name) = s.stagedAdds
  writers : ∀ n, n ∈ t.writers ↔ n ∈ s.writers

/-- The commit of an index with a writer succeeds, or only takes the index off the
dirty ones. -/
theorem commit_cases (x : Externals) (s : Indexer) (name : String) (offset : Nat) (ok : Bool) :
    (¬ (ok = true ∧ name ∈ s.writers) ∧
      s.commit x name offset ok = { s with dirtyWriters := s.dirtyWriters.erase name }) ∨
    (ok = true ∧ name ∈ s.writers ∧ Commits x s (s.commit x name offset ok) name offset) := by
  unfold commit
  dsimp only
  cases hops : s.writers.lookup name with
  | none =>
    left
    exact ⟨fun h => AList.lookup_eq_none.mp hops h.2, rfl⟩
  | some ops =>
    have hw : name ∈ s.writers := AList.lookup_isSome.mp (by simp [hops])
    have hstaged : s.staged name = ops := by simp [staged, hops]
    cases ok with
    | false =>
      left
      exact ⟨by simp, rfl⟩
    | true =>
      right
      refine ⟨rfl, hw, ⟨_, _, rfl⟩, ?_, ?_, ?_, ?_⟩
      · intro n
        simp only [dir, if_true, Table.lookup_insert_eq]
        by_cases hn : n = name
        · subst hn
          simp [hstaged]
        · simp [hn]
      · intro n
        simp only [staged, if_true, Table.lookup_insert_eq]
        by_cases hn : n = name <;> simp [hn]
      · have htotal := Table.total_insert adds [] hops
        simp only [stagedAdds, if_true, hstaged, adds_nil] at htotal ⊢
        omega
      · intro n
        simp only [if_true, AList.mem_insert]
        constructor
        · rintro (rfl | hold)
          · exact hw
          · exact hold
        · exact Or.inr

theorem compactCommit_dir (s : Indexer) (name n : String) :
    (s.compactCommit name).dir n =
      if n = name then { s.dir n with payload := none } else s.dir n := by
  simp only [compactCommit, dir, Table.lookup_insert_eq]
  by_cases hn : n = name
  · subst hn
    simp
  · simp [hn]

/-! ## The refinement of the write-behind buffers -/

/-- The operations of the messages accepted for an index. -/
def accepted (name : String) (handled : List Handled) : List Op :=
  handled.filterMap fun h => if h.input.index = name then h.result.toOption else none

theorem accepted_append (name : String) (as bs : List Handled) :
    accepted name (as ++ bs) = accepted name as ++ accepted name bs := by
  simp [accepted]

theorem accepted_error (name : String) (input : Input) (e : Failure) :
    accepted name [⟨input, .error e⟩] = [] := by
  simp [accepted, Except.toOption]

theorem accepted_ok (name : String) (input : Input) (op : Op) :
    accepted name [⟨input, .ok op⟩] = if name = input.index then [op] else [] := by
  by_cases h : input.index = name
  · simp [accepted, Except.toOption, h]
  · simp [accepted, h, Ne.symm h]

def buffers (s : Indexer) : Buffers String Op := ⟨fun n => (s.dir n).applied, s.staged⟩

/-- The documents of a directory have seen the operations applied since. -/
def Applies (x : Externals) (d d' : IndexDir) : Prop :=
  ∃ ops, d'.applied = d.applied ++ ops ∧ d'.docs = ops.foldl (Op.apply x) d.docs

theorem Applies.refl (x : Externals) (d : IndexDir) : Applies x d d := ⟨[], by simp, rfl⟩

theorem Applies.trans {x : Externals} {d d' d'' : IndexDir} (h : Applies x d d')
    (h' : Applies x d' d'') : Applies x d d'' := by
  obtain ⟨ops, happlied, hdocs⟩ := h
  obtain ⟨ops', happlied', hdocs'⟩ := h'
  refine ⟨ops ++ ops', ?_, ?_⟩
  · rw [happlied', happlied, List.append_assoc]
  · rw [hdocs', hdocs, List.foldl_append]

/-- The buffers of `t` are those of `s` after the actions, which stage what has been
accepted in between. -/
structure Refines (x : Externals) (s t : Indexer) (as : List (Action String Op)) : Prop where
  buffers : t.buffers = s.buffers.run as
  accepted : ∀ n, accepted n t.handled = Indexer.accepted n s.handled ++ opsOf n as
  docs : ∀ n, Applies x (s.dir n) (t.dir n)

theorem Refines.of_eq {x : Externals} {s t : Indexer} (hdir : ∀ n, t.dir n = s.dir n)
    (hstaged : ∀ n, t.staged n = s.staged n)
    (haccepted : ∀ n, Indexer.accepted n t.handled = Indexer.accepted n s.handled) :
    Refines x s t [] := by
  refine ⟨?_, ?_, ?_⟩
  · simp only [Indexer.buffers, run_nil, hdir, Buffers.mk.injEq, true_and]
    funext n
    exact hstaged n
  · intro n
    rw [haccepted, opsOf, List.append_nil]
  · intro n
    rw [hdir]
    exact Applies.refl x _

theorem Refines.of_stages {x : Externals} {s t : Indexer} {name : String} {op : Op}
    (hdir : ∀ n, t.dir n = s.dir n)
    (hstaged : ∀ n, t.staged n = if n = name then s.staged n ++ [op] else s.staged n)
    (haccepted : ∀ n, Indexer.accepted n t.handled =
      Indexer.accepted n s.handled ++ if n = name then [op] else []) :
    Refines x s t [.stage name op] := by
  refine ⟨?_, ?_, ?_⟩
  · simp only [Indexer.buffers, Buffers.run, List.foldl_cons, List.foldl_nil, Buffers.step, hdir,
      Buffers.mk.injEq, true_and]
    funext n
    exact hstaged n
  · intro n
    rw [haccepted]
    by_cases hn : n = name <;> simp [opsOf, hn]
  · intro n
    rw [hdir]
    exact Applies.refl x _

theorem Refines.of_commits {x : Externals} {s t : Indexer} {name : String} {offset : Nat}
    (h : Commits x s t name offset) : Refines x s t [.commit name] := by
  obtain ⟨_, _, hsame⟩ := id h.same
  refine ⟨?_, ?_, ?_⟩
  · simp only [Indexer.buffers, Buffers.run, List.foldl_cons, List.foldl_nil, Buffers.step,
      Buffers.mk.injEq]
    constructor
    · funext n
      rw [h.dir]
      by_cases hn : n = name <;> simp [hn]
    · funext n
      exact h.staged n
  · intro n
    rw [hsame]
    simp [opsOf]
  · intro n
    rw [h.dir]
    by_cases hn : n = name
    · rw [if_pos hn]
      exact ⟨s.staged n, rfl, rfl⟩
    · rw [if_neg hn]
      exact Applies.refl _ _

/-- A merge changes no document. -/
theorem compactCommit_refines (x : Externals) (s : Indexer) (name : String) :
    Refines x s (s.compactCommit name) [] := by
  refine ⟨?_, fun n => by simp [compactCommit, opsOf], fun n => ?_⟩
  · simp only [buffers, run_nil, Buffers.mk.injEq]
    refine ⟨?_, rfl⟩
    funext n
    rw [compactCommit_dir]
    by_cases hn : n = name <;> simp [hn]
  · rw [compactCommit_dir]
    by_cases hn : n = name
    · rw [if_pos hn]
      exact Applies.refl _ _
    · rw [if_neg hn]
      exact Applies.refl _ _

theorem step_refines {c : IndexerConfig} {s t : Indexer} {l : IndexerLabel} (h : Step c s l t) :
    ∃ as, Refines c.toExternals s t as := by
  cases h with
  | @event faults event rest phase next =>
    rcases takeEvent_cases c.toExternals s event rest faults with
      ⟨e, u, hopens, heq⟩ | ⟨doc, u, hstages, heq⟩ <;> rw [heq]
    · obtain ⟨_, _, _, hsame⟩ := hopens.same
      refine ⟨[], .of_eq hopens.dir hopens.staged fun n => ?_⟩
      simp only [handleEvent, accepted_append, accepted_error, List.append_nil]
      rw [hsame]
    · obtain ⟨_, _, _, _, hsame⟩ := hstages.same
      refine ⟨_, .of_stages hstages.dir hstages.staged fun n => ?_⟩
      simp only [handleEvent, accepted_append, accepted_ok]
      rw [hsame]
      rfl
  | @purge faults cmd rest phase next =>
    rcases takePurge_cases c.toExternals s cmd rest faults with
      ⟨e, u, hopens, heq⟩ | ⟨field, u, hstages, heq⟩ <;> rw [heq]
    · obtain ⟨_, _, _, hsame⟩ := hopens.same
      refine ⟨[], .of_eq hopens.dir hopens.staged fun n => ?_⟩
      simp only [handlePurge, accepted_append, accepted_error, List.append_nil]
      rw [hsame]
    · obtain ⟨_, _, _, _, hsame⟩ := hstages.same
      refine ⟨_, .of_stages hstages.dir hstages.staged fun n => ?_⟩
      simp only [handlePurge, accepted_append, accepted_ok]
      rw [hsame]
      rfl
  | @commit name ok offset phase dirty =>
    rcases commit_cases c.toExternals s name offset ok with ⟨-, heq⟩ | ⟨-, -, hcommits⟩
    · rw [heq]
      exact ⟨[], .of_eq (fun _ => rfl) (fun _ => rfl) fun _ => rfl⟩
    · exact ⟨_, .of_commits hcommits⟩
  | @compactOpen name segments free present =>
    refine ⟨[], .of_eq (fun n => ?_) (fun n => ?_) fun n => ?_⟩ <;>
      (unfold compactOpen; split <;> rfl)
  | @compactCommit name held => exact ⟨[], compactCommit_refines _ _ _⟩
  | _ => exact ⟨[], .of_eq (fun _ => rfl) (fun _ => rfl) fun _ => rfl⟩

/-- **The actor refines the write-behind buffers**, whatever fails. -/
theorem run_refines {c : IndexerConfig} {s t : Indexer} {ls : List IndexerLabel}
    (h : Machine.run (step c) s ls = some t) : ∃ as, Refines c.toExternals s t as := by
  induction ls generalizing s with
  | nil =>
    cases h
    exact ⟨[], .of_eq (fun _ => rfl) (fun _ => rfl) fun _ => rfl⟩
  | cons l ls ih =>
    obtain ⟨u, hu, hrun⟩ := Machine.run_cons.mp h
    obtain ⟨as, has⟩ := step_refines (step_cases hu)
    obtain ⟨bs, hbs⟩ := ih hrun
    refine ⟨as ++ bs, ?_, ?_, ?_⟩
    · rw [hbs.buffers, has.buffers, run_append]
    · intro n
      rw [hbs.accepted, has.accepted, opsOf_append, List.append_assoc]
    · intro n
      exact (has.docs n).trans (hbs.docs n)

/-- What has been accepted for an index is committed to it or staged, in order. -/
theorem run_ledger {c : IndexerConfig} {registry : IndexRegistry} {store : Table String IndexDir}
    {t : Indexer} {ls : List IndexerLabel}
    (h : Machine.run (step c) (start registry store) ls = some t) (n : String) :
    ∃ done, (t.dir n).applied = ((start registry store).dir n).applied ++ done ∧
      (t.dir n).docs = done.foldl (Op.apply c.toExternals) ((start registry store).dir n).docs ∧
      accepted n t.handled = done ++ t.staged n := by
  obtain ⟨as, hrefines⟩ := run_refines h
  obtain ⟨done, happlied, hdocs⟩ := hrefines.docs n
  refine ⟨done, happlied, hdocs, ?_⟩
  have hlog := log_run (start registry store).buffers as n
  have haccepted : accepted n t.handled = opsOf n as := hrefines.accepted n
  rw [← hrefines.buffers] at hlog
  have hlog' : (t.dir n).applied ++ t.staged n =
      ((start registry store).dir n).applied ++ [] ++ opsOf n as := hlog
  rw [happlied, List.append_nil, List.append_assoc] at hlog'
  rw [haccepted, List.append_cancel_left hlog']

/-! ## What every step keeps -/

/-- Open indexes have the schema of their definition. -/
def Cached (x : Externals) (s : Indexer) : Prop := ∀ n schema, s.indexes.lookup n = some schema →
  ∃ definition, s.registry.get n = some definition ∧ x.buildSchema definition = some schema

theorem Opens.registry {s t : Indexer} (h : Opens x s t) : t.registry = s.registry := by
  obtain ⟨_, _, _, hsame⟩ := h.same
  rw [hsame]

theorem Opens.keepsCached {s t : Indexer} (h : Opens x s t) (hc : Cached x s) : Cached x t := by
  intro n schema hn
  rw [h.registry]
  rcases h.cached n schema hn with hold | hnew
  · exact hc n schema hold
  · exact hnew

theorem Stages.keepsCached {s t : Indexer} {name : String} {op : Op} (h : Stages x s t name op)
    (hc : Cached x s) : Cached x t := by
  obtain ⟨_, _, _, _, hsame⟩ := id h.same
  intro n schema hn
  have hregistry : t.registry = s.registry := by rw [hsame]
  rw [hregistry]
  rcases h.cached n schema hn with hold | hnew
  · exact hc n schema hold
  · exact hnew

theorem takeEvent_eq (x : Externals) (s : Indexer) (event : IndexerEvent)
    (rest : List IndexerEvent) (faults : Faults) :
    s.takeEvent x event rest faults =
      (processEvent x { s with receiver := rest } event faults).2.handleEvent event
        (processEvent x { s with receiver := rest } event faults).1 := rfl

theorem takePurge_eq (x : Externals) (s : Indexer) (cmd : PurgeCommand)
    (rest : List PurgeCommand) (faults : Faults) :
    s.takePurge x cmd rest faults =
      (purgeOldDocs x { s with purgeRx := rest } cmd faults).2.handlePurge cmd
        (purgeOldDocs x { s with purgeRx := rest } cmd faults).1 := rfl

/-- The events taken from the channel, with what was made of each. -/
def taken (s : Indexer) : List (IndexerEvent × Except Failure Op) :=
  s.handled.filterMap fun h =>
    match h.input with
    | .event e => some (e, h.result)
    | .purge _ => none

theorem taken_append (s : Indexer) (event : IndexerEvent) (r : Except Failure Op) :
    (s.handleEvent event r).taken = s.taken ++ [(event, r)] := by
  simp [taken, handleEvent]

theorem taken_purge (s : Indexer) (cmd : PurgeCommand) (r : Except Failure Op) :
    (s.handlePurge cmd r).taken = s.taken := by
  simp [taken, handlePurge]

/-- A message opens an index, or it also stages an operation. -/
def Touches (x : Externals) (s t : Indexer) : Prop := Opens x s t ∨ ∃ name op, Stages x s t name op

/-- A message changes no more than the writers, the directories and what is dirty. -/
theorem Touches.same {s t : Indexer} (h : Touches x s t) :
    ∃ indexes writers store dirtyWriters, t = { s with
      indexes := indexes, writers := writers, store := store, dirtyWriters := dirtyWriters } := by
  rcases h with hopens | ⟨_, _, hstages⟩
  · obtain ⟨indexes, writers, store, hsame⟩ := hopens.same
    exact ⟨indexes, writers, store, s.dirtyWriters, hsame⟩
  · exact hstages.same

theorem Touches.keepsCached {s t : Indexer} (h : Touches x s t) (hc : Cached x s) : Cached x t := by
  rcases h with hopens | ⟨_, _, hstages⟩
  · exact hopens.keepsCached hc
  · exact hstages.keepsCached hc

theorem processEvent_touches (x : Externals) (s : Indexer) (event : IndexerEvent) (faults : Faults) :
    Touches x s (s.processEvent x event faults).2 := by
  rcases processEvent_cases x s event faults with ⟨_, -, hopens⟩ | ⟨_, -, hstages⟩
  · exact Or.inl hopens
  · exact Or.inr ⟨_, _, hstages⟩

theorem purgeOldDocs_touches (x : Externals) (s : Indexer) (cmd : PurgeCommand) (faults : Faults) :
    Touches x s (s.purgeOldDocs x cmd faults).2 := by
  rcases purgeOldDocs_cases x s cmd faults with ⟨_, -, hopens⟩ | ⟨_, -, hstages⟩
  · exact Or.inl hopens
  · exact Or.inr ⟨_, _, hstages⟩

/-- A step takes the next event, or takes none. -/
theorem step_taken {c : IndexerConfig} {s t : Indexer} {l : IndexerLabel} (h : Step c s l t) :
    (∃ faults event rest, l = .event faults ∧ s.receiver = event :: rest ∧
      t = s.takeEvent c.toExternals event rest faults) ∨
    ((∀ faults, l ≠ .event faults) ∧ t.taken = s.taken ∧ t.registry = s.registry ∧
      ∃ more, t.receiver = s.receiver ++ more ∧ t.arrived = s.arrived ++ more ∧
        (more = [] ∨ ∃ event, l = .deliver event)) := by
  cases h with
  | @event faults event rest phase next => exact Or.inl ⟨faults, event, rest, rfl, next, rfl⟩
  | @deliver event => exact Or.inr ⟨by simp, rfl, rfl, [event], rfl, rfl, Or.inr ⟨event, rfl⟩⟩
  | @purge faults cmd rest phase next =>
    right
    obtain ⟨_, _, _, _, hsame⟩ :=
      (purgeOldDocs_touches c.toExternals { s with purgeRx := rest } cmd faults).same
    rw [takePurge_eq, taken_purge, hsame]
    exact ⟨by simp, rfl, rfl, [], by simp [handlePurge], by simp [handlePurge], Or.inl rfl⟩
  | @commit name ok offset phase dirty =>
    right
    rcases commit_cases c.toExternals s name offset ok with ⟨-, heq⟩ | ⟨-, -, hcommits⟩
    · rw [heq]
      exact ⟨by simp, rfl, rfl, [], by simp, by simp, Or.inl rfl⟩
    · obtain ⟨_, _, hsame⟩ := hcommits.same
      rw [hsame]
      exact ⟨by simp, rfl, rfl, [], by simp, by simp, Or.inl rfl⟩
  | @compactOpen name segments free present =>
    right
    unfold compactOpen
    split <;> exact ⟨by simp, rfl, rfl, [], by simp, by simp, Or.inl rfl⟩
  | _ =>
    exact Or.inr ⟨by simp, rfl, rfl, [], by simp [compactCommit], by simp [compactCommit],
      Or.inl rfl⟩

theorem step_cached {c : IndexerConfig} {s t : Indexer} {l : IndexerLabel} (h : Step c s l t)
    (hc : Cached c.toExternals s) : Cached c.toExternals t := by
  cases h with
  | @event faults event rest phase next =>
    exact (processEvent_touches c.toExternals { s with receiver := rest } event faults).keepsCached hc
  | @purge faults cmd rest phase next =>
    exact (purgeOldDocs_touches c.toExternals { s with purgeRx := rest } cmd faults).keepsCached hc
  | @commit name ok offset phase dirty =>
    rcases commit_cases c.toExternals s name offset ok with ⟨-, heq⟩ | ⟨-, -, hcommits⟩
    · rw [heq]
      exact hc
    · obtain ⟨_, _, hsame⟩ := hcommits.same
      rw [hsame]
      exact hc
  | @compactOpen name segments free present =>
    unfold compactOpen
    split <;> exact hc
  | _ => exact hc

/-- The registry, the schemas of open indexes and the account of the events, in every
run. -/
structure Accounts (x : Externals) (registry : IndexRegistry) (s : Indexer) : Prop where
  registered : s.registry = registry
  cached : Cached x s
  arrived : s.arrived = s.taken.map Prod.fst ++ s.receiver

theorem start_accounts (x : Externals) (registry : IndexRegistry) (store : Table String IndexDir) :
    Accounts x registry (start registry store) where
  registered := rfl
  cached := by
    intro n schema h
    simp [start] at h
  arrived := rfl

theorem step_accounts {c : IndexerConfig} {registry : IndexRegistry} {s t : Indexer}
    {l : IndexerLabel} (h : Step c s l t) (ha : Accounts c.toExternals registry s) :
    Accounts c.toExternals registry t := by
  refine ⟨?_, step_cached h ha.cached, ?_⟩
  · rcases step_taken h with ⟨faults, event, rest, -, -, rfl⟩ | ⟨-, -, hregistry, -⟩
    · obtain ⟨_, _, _, _, hsame⟩ :=
        (processEvent_touches c.toExternals { s with receiver := rest } event faults).same
      rw [takeEvent_eq, hsame]
      exact ha.registered
    · rw [hregistry]
      exact ha.registered
  · rcases step_taken h with ⟨faults, event, rest, -, hnext, rfl⟩ | ⟨-, htaken, -, more, hr, harr, -⟩
    · obtain ⟨_, _, _, _, hsame⟩ :=
        (processEvent_touches c.toExternals { s with receiver := rest } event faults).same
      rw [takeEvent_eq, taken_append, hsame]
      simp only [handleEvent, ha.arrived, hnext, List.map_append, List.map_cons, List.map_nil,
        List.append_assoc, List.singleton_append]
      rfl
    · rw [harr, htaken, hr, ha.arrived, List.append_assoc]

theorem run_accounts {c : IndexerConfig} {registry : IndexRegistry} {store : Table String IndexDir}
    {t : Indexer} {ls : List IndexerLabel}
    (h : Machine.run (step c) (start registry store) ls = some t) :
    Accounts c.toExternals registry t :=
  Machine.run_invariant (start_accounts c.toExternals registry store)
    (fun _ _ _ hstep => step_accounts (step_cases hstep)) h

end Indexer
end Edgewit
