import Edgewit.System

/-!
# Restart after a crash

A crash leaves the synced bytes of the WAL and the committed documents. `main` starts
both workers on them and reads no WAL file, so what had not been committed stays out of
its index: `recovered_iff`.
-/

namespace Edgewit

/-- The document an operation adds. -/
def Op.doc? : Op → Option JsonMap
  | .add doc _ => some doc
  | .delete _ _ => none

def documents (ops : List Op) : List JsonMap := ops.filterMap Op.doc?

/-- The documents ever committed to an index, with those retention has purged since. -/
def IndexDir.added (dir : IndexDir) : List JsonMap := documents dir.applied

/-- The operations committed to `d'` since `d` delete nothing. -/
def Unpurged (d d' : IndexDir) : Prop :=
  ∀ op ∈ d'.applied.drop d.applied.length, op.doc?.isSome = true

@[simp] theorem documents_append (as bs : List Op) :
    documents (as ++ bs) = documents as ++ documents bs := by
  simp [documents]

theorem length_documents (ops : List Op) : (documents ops).length = adds ops := by
  induction ops with
  | nil => rfl
  | cons op rest ih =>
    simp only [documents, adds, List.filterMap_cons] at ih ⊢
    cases op with
    | add doc walOffset => simp [Op.doc?, Op.offset?, ih]
    | delete field cutoff => exact ih

theorem documents_eq_nil_iff {ops : List Op} : documents ops = [] ↔ adds ops = 0 := by
  rw [← length_documents, List.length_eq_zero_iff]

/-- Operations that delete nothing add their documents at the end. -/
theorem foldl_apply_documents (x : Externals) {ops : List Op} (h : ∀ op ∈ ops, op.doc?.isSome = true)
    (docs : List JsonMap) : ops.foldl (Op.apply x) docs = docs ++ documents ops := by
  induction ops generalizing docs with
  | nil => simp [documents]
  | cons op rest ih =>
    rw [List.forall_mem_cons] at h
    cases op with
    | add doc walOffset =>
      rw [List.foldl_cons, ih h.2]
      simp [Op.apply, documents, Op.doc?]
    | delete field cutoff => cases h.1

/-- What a crash leaves of a directory: the unsynced bytes are lost. -/
def Disk.crash (d : Disk) : Disk :=
  ⟨d.nodes.map fun n => { n with content := n.content.take n.synced }, by
    have hnames : linkedNames (d.nodes.map fun n => { n with content := n.content.take n.synced }) =
        linkedNames d.nodes := by
      simp [linkedNames, List.filterMap_map]
    rw [hnames]
    exact d.distinct⟩

namespace Indexer

theorem stagedAdds_eq_zero_iff (s : Indexer) :
    s.stagedAdds = 0 ↔ ∀ n, documents (s.staged n) = [] := by
  simp only [stagedAdds, Table.total_eq_zero_iff, documents_eq_nil_iff, staged]
  constructor
  · intro h n
    cases hn : s.writers.lookup n with
    | none => rfl
    | some ops => exact h n ops hn
  · intro h n ops hn
    have hzero := h n
    rwa [hn, Option.getD_some] at hzero

end Indexer

namespace System

/-- A crash and the start-up of `main`, with the definitions it loads. -/
def restart (s : System) (registry : IndexRegistry) : System :=
  start s.wal.disk.crash 0 registry s.indexer.store

/-- The events answered Ok that the indexer has not taken. -/
def waiting (s : System) : List IndexerEvent := s.indexer.receiver ++ s.wal.pending

/-- The documents that the events answered Ok come to in an index: those of the events
taken and accepted, and those of the waiting events that would be. -/
def owed (x : Externals) (s : System) (n : String) : List JsonMap :=
  documents (Indexer.accepted n s.indexer.handled) ++
    documents (x.opsFor s.indexer.registry n (s.waiting.map .event))

/-- The lifetime from `r` to the crash in `s` and the next one up to `t`: every event of
the first that was answered Ok and accepted has been committed to its index once, next to
the events of the second. Where nothing was purged, the index holds exactly these. -/
structure Recovered (x : Externals) (r s t : System) : Prop where
  added : ∀ n, (t.indexer.dir n).added.Perm ((r.indexer.dir n).added ++ s.owed x n ++
    documents (Indexer.accepted n t.indexer.handled))
  docs : ∀ n, Unpurged (r.indexer.dir n) (t.indexer.dir n) →
    (t.indexer.dir n).docs.Perm ((r.indexer.dir n).docs ++ s.owed x n ++
      documents (Indexer.accepted n t.indexer.handled))

/-- No document is staged, and none is on its way. -/
def Quiet (x : Externals) (s : System) : Prop :=
  s.indexer.stagedAdds = 0 ∧
    ∀ e ∈ s.waiting, (x.document? s.indexer.registry e.event).isNone = true

instance (x : Externals) (s : System) : Decidable (s.Quiet x) :=
  inferInstanceAs (Decidable (_ ∧ _))

theorem waiting_documents_iff {x : Externals} {registry : IndexRegistry} {events : List IndexerEvent} :
    (∀ n, documents (x.opsFor registry n (events.map .event)) = []) ↔
      ∀ e ∈ events, (x.document? registry e.event).isNone = true := by
  simp only [documents, Externals.opsFor, List.filterMap_map, List.filterMap_filterMap,
    List.filterMap_eq_nil_iff]
  constructor
  · intro h e he
    have hnone := h e.event.index e he
    cases hdoc : x.document? registry e.event with
    | none => rfl
    | some doc => simp [Input.index, Externals.op?, hdoc, Op.doc?] at hnone
  · intro h n e he
    have hnone := Option.isNone_iff_eq_none.mp (h e he)
    simp [Externals.op?, hnone]

/-- What one lifetime does to an index. -/
theorem run_ledger {c : IndexerConfig} {disk : Disk} {offset : Nat} {registry : IndexRegistry}
    {store : Table String IndexDir} {t : System} {ls : List SystemLabel}
    (h : Machine.run (step c) (start disk offset registry store) ls = some t) (n : String) :
    ∃ done, (t.indexer.dir n).applied =
        ((start disk offset registry store).indexer.dir n).applied ++ done ∧
      (t.indexer.dir n).docs = done.foldl (Op.apply c.toExternals)
        ((start disk offset registry store).indexer.dir n).docs ∧
      Indexer.accepted n t.indexer.handled = done ++ t.indexer.staged n := by
  obtain ⟨ls', hrun, -⟩ := run_indexer h
  exact Indexer.run_ledger hrun n

/-- Every event answered Ok has been taken or is waiting. -/
theorem run_acknowledged {c : IndexerConfig} {disk : Disk} {offset : Nat}
    {registry : IndexRegistry} {store : Table String IndexDir} {t : System} {ls : List SystemLabel}
    (h : Machine.run (step c) (start disk offset registry store) ls = some t) :
    t.wal.acknowledged.map WalRequest.event =
      (t.indexer.taken.map Prod.fst ++ t.waiting).map IndexerEvent.event := by
  obtain ⟨lw, hwal, -⟩ := run_wal h
  obtain ⟨li, hindexer, -⟩ := run_indexer h
  rw [(Wal.run_books hwal).forwarded, ← run_sent h, (Indexer.run_accounts hindexer).arrived, waiting,
    List.append_assoc]

/-- What two lifetimes do to an index if the second has committed all that it staged. The
first left `done`, the second adds `done'`. -/
theorem two_lifetimes {c : IndexerConfig} {disk : Disk} {offset : Nat}
    {registry registry' : IndexRegistry} {store : Table String IndexDir} {s t : System}
    {ls ls' : List SystemLabel}
    (h : Machine.run (step c) (start disk offset registry store) ls = some s)
    (h' : Machine.run (step c) (s.restart registry') ls' = some t) {n : String}
    (hnone : documents (t.indexer.staged n) = []) :
    ∃ done done',
      (t.indexer.dir n).applied =
        ((start disk offset registry store).indexer.dir n).applied ++ (done ++ done') ∧
      (t.indexer.dir n).docs = (done ++ done').foldl (Op.apply c.toExternals)
        ((start disk offset registry store).indexer.dir n).docs ∧
      s.owed c.toExternals n ++ documents (Indexer.accepted n t.indexer.handled) =
        documents done ++ (documents (s.indexer.staged n) ++
          documents (c.opsFor s.indexer.registry n (s.waiting.map .event))) ++ documents done' := by
  obtain ⟨done, happlied, hdocs, haccepted⟩ := run_ledger h n
  obtain ⟨done', happlied', hdocs', haccepted'⟩ := run_ledger h' n
  refine ⟨done, done', ?_, ?_, ?_⟩
  · rw [happlied', ← List.append_assoc, ← happlied]
    rfl
  · rw [hdocs', List.foldl_append, ← hdocs]
    rfl
  · rw [owed, haccepted, haccepted']
    simp [hnone]

/-- **What was answered Ok is recovered exactly when it had been committed.** -/
theorem recovered_iff {c : IndexerConfig} {disk : Disk} {offset : Nat}
    {registry registry' : IndexRegistry} {store : Table String IndexDir} {s t : System}
    {ls ls' : List SystemLabel}
    (h : Machine.run (step c) (start disk offset registry store) ls = some s)
    (h' : Machine.run (step c) (s.restart registry') ls' = some t)
    (hcommitted : t.indexer.stagedAdds = 0) :
    s.wal.acknowledged.map WalRequest.event =
      (s.indexer.taken.map Prod.fst ++ s.waiting).map IndexerEvent.event ∧
    (Recovered c.toExternals (start disk offset registry store) s t ↔ s.Quiet c.toExternals) := by
  refine ⟨run_acknowledged h, ?_⟩
  have hnone := (Indexer.stagedAdds_eq_zero_iff t.indexer).mp hcommitted
  rw [Quiet, Indexer.stagedAdds_eq_zero_iff, ← waiting_documents_iff]
  constructor
  · intro hrec
    -- Nothing but what the two lifetimes left is in the index.
    have hlost : ∀ n, documents (s.indexer.staged n) = [] ∧
        documents (c.opsFor s.indexer.registry n (s.waiting.map .event)) = [] := by
      intro n
      obtain ⟨done, done', happlied, -, hall⟩ := two_lifetimes h h' (hnone n)
      have hlength := (hrec.added n).length_eq
      rw [List.append_assoc, hall, IndexDir.added, happlied, IndexDir.added] at hlength
      simp only [documents_append, List.length_append] at hlength
      constructor
      · apply List.eq_nil_of_length_eq_zero
        omega
      · apply List.eq_nil_of_length_eq_zero
        omega
    exact ⟨fun n => (hlost n).1, fun n => (hlost n).2⟩
  · rintro ⟨hstaged, hwaiting⟩
    constructor
    · intro n
      obtain ⟨done, done', happlied, -, hall⟩ := two_lifetimes h h' (hnone n)
      rw [List.append_assoc, hall, hstaged, hwaiting, IndexDir.added, happlied, IndexDir.added]
      simp
    · intro n hunpurged
      obtain ⟨done, done', happlied, hdocs, hall⟩ := two_lifetimes h h' (hnone n)
      rw [Unpurged, happlied, List.drop_left] at hunpurged
      rw [List.append_assoc, hall, hstaged, hwaiting, hdocs,
        foldl_apply_documents c.toExternals hunpurged]
      simp

/-- A run that also commits the event. -/
def commitOne (event : IngestEvent) : List SystemLabel :=
  oneEvent event ++ [.indexer .check, .indexer .tick, .indexer (.commit event.index true),
    .indexer .committed]

/-- A crash after the commit. -/
theorem recovered_iff_example : ∃ s t : System,
    Recovered .tiny (start .empty 0 .tiny ∅) s t ∧ (s.owed .tiny "a").length = 1 ∧
      (t.indexer.dir "b").docs.length = 1 := by
  let ls := commitOne ⟨"a", utf8 "\x7b\x7d"⟩
  let ls' := commitOne ⟨"b", utf8 "\x7b\x7d"⟩
  have hrun : (Machine.run (step .tiny) (start .empty 0 .tiny ∅) ls).map
      (fun s => (decide (s.Quiet .tiny), (s.owed .tiny "a").length,
        (Machine.run (step .tiny) (s.restart .tiny) ls').map
          fun t => (t.indexer.stagedAdds, (t.indexer.dir "b").docs.length))) =
      some (true, 1, some (0, 1)) := by decide +kernel
  obtain ⟨s, hs, hseen⟩ := Option.map_eq_some_iff.mp hrun
  simp only [Prod.mk.injEq, decide_eq_true_eq] at hseen
  obtain ⟨hquiet, howed, hnext⟩ := hseen
  obtain ⟨t, ht, hseen'⟩ := Option.map_eq_some_iff.mp hnext
  rw [Prod.mk.injEq] at hseen'
  exact ⟨s, t, (recovered_iff (c := .tiny) hs ht hseen'.1).2.mpr hquiet, howed, hseen'.2⟩

/-- A crash between the acknowledgement and the commit. -/
theorem acknowledged_event_lost :
    ¬ ∀ (c : IndexerConfig) (disk : Disk) (offset : Nat) (registry registry' : IndexRegistry)
      (store : Table String IndexDir) (s t : System) (ls ls' : List SystemLabel),
      Machine.run (step c) (start disk offset registry store) ls = some s →
      Machine.run (step c) (s.restart registry') ls' = some t → t.indexer.stagedAdds = 0 →
      Recovered c.toExternals (start disk offset registry store) s t := by
  intro halways
  let ls := oneEvent ⟨"a", utf8 "\x7b\x7d"⟩
  let ls' := commitOne ⟨"b", utf8 "\x7b\x7d"⟩
  have hrun : (Machine.run (step .tiny) (start .empty 0 .tiny ∅) ls).map
      (fun s => ((s.owed .tiny "a").length, (Machine.run (step .tiny) (s.restart .tiny) ls').map
        fun t => (t.indexer.stagedAdds, (t.indexer.dir "a").added.length))) =
      some (1, some (0, 0)) := by decide +kernel
  obtain ⟨s, hs, hseen⟩ := Option.map_eq_some_iff.mp hrun
  obtain ⟨howed, hnext⟩ := Prod.mk.inj hseen
  obtain ⟨t, ht, hseen'⟩ := Option.map_eq_some_iff.mp hnext
  obtain ⟨hstaged, hadded⟩ := Prod.mk.inj hseen'
  have hlength :=
    ((halways .tiny .empty 0 .tiny .tiny ∅ s t ls ls' hs ht hstaged).added "a").length_eq
  simp only [List.length_append] at hlength
  have howed' : (s.owed IndexerConfig.tiny.toExternals "a").length = 1 := howed
  omega

end System
end Edgewit
