import Edgewit.Retained

/-!
# From the acknowledgement to the commit

At rest, the documents of the last commit interval may still be staged. Once a tick has come and
the workers are at rest again, they are committed: `everything_committed`. Without failures and
purges, the committed documents are then those of the acknowledged events:
`acknowledged_committed`.
-/

namespace Edgewit.System

/-- Nothing is on its way, and the actor is committing or has committed. -/
structure Committing (s : System) : Prop where
  wal : s.wal.phase = .stopped ∨ s.wal.phase = .waiting ∧ s.wal.queue = []
  receiver : s.indexer.receiver = []
  purgeRx : s.indexer.purgeRx = []
  phase : s.indexer.phase = .committing ∨ s.indexer.phase = .idle ∧ s.indexer.dirtyWriters = ∅

variable {c : IndexerConfig} {buffer : Nat} {disk : Disk} {offset : Nat} {registry : IndexRegistry}
  {store : Table String IndexDir} {s t : System} {ls ls' : List SystemLabel}

theorem tick_committing (hs : AtRest s) (halive : s.indexer.phase ≠ .stopped)
    (h : s.channelStep c buffer (.indexer .tick) = some t) : Committing t := by
  obtain ⟨hphase, hreceiver, hpurge⟩ := hs.indexer.resolve_left halive
  cases step_cases (channelStep_eq_some.mp h).2 with
  | indexer own moves =>
    cases Indexer.step_cases moves with
    | tick =>
      refine ⟨hs.wal, hreceiver, hpurge, ?_⟩
      cases hclean : Table.isEmpty s.indexer.dirtyWriters with
      | true => exact Or.inr ⟨rfl, Table.isEmpty_iff.mp hclean⟩
      | false => exact Or.inl rfl

theorem step_committing {l : SystemLabel} (hl : l.brings = 0) (h : Step c s l t)
    (hs : Committing s) : Committing t := by
  cases h with
  | @wal l w moves =>
    rw [wal_rests hs.wal hl] at moves
    cases moves
  | @indexer l i own moves =>
    have hreceiver := hs.receiver
    have hpurge := hs.purgeRx
    cases Indexer.step_cases moves with
    | deliver => exact absurd rfl (own _)
    | event phase next => rw [hreceiver] at next; cases next
    | purge phase next => rw [hpurge] at next; cases next
    | check phase =>
      rcases hs.phase with hphase | ⟨hphase, -⟩ <;> rw [phase] at hphase <;> cases hphase
    | @commit name ok offset phase =>
      obtain ⟨hreceiver', hpurge'⟩ :=
        Indexer.commit_frame c.toExternals s.indexer name offset ok
      have hphase := Indexer.commit_phase c.toExternals s.indexer name offset ok
      exact ⟨hs.wal, hreceiver'.trans hreceiver, hpurge'.trans hpurge,
        Or.inl (hphase.trans phase)⟩
    | committed phase clean =>
      exact ⟨hs.wal, hreceiver, hpurge, Or.inr ⟨rfl, Table.isEmpty_iff.mp clean⟩⟩
    | schedule => cases hl
    | tick => cases hl
    | compactOpen => cases hl
    | compactCommit => cases hl
    | compactClose => cases hl

/-- Where the workers come to rest after a tick at rest, nothing is dirty. -/
theorem rest_clean (hbuffer : 0 < buffer) (hrest : AtRest s)
    (halive : s.indexer.phase ≠ .stopped) (hown : ∀ l ∈ ls', l.brings = 0)
    (hrun : Machine.run (channelStep c buffer) s (.indexer .tick :: ls') = some t)
    (hstuck : Stuck c buffer t) :
    AtRest t ∧ t.indexer.phase = .idle ∧ t.indexer.dirtyWriters = ∅ := by
  obtain ⟨u, htick, hrun'⟩ := Machine.run_cons.mp hrun
  have ht : Committing t :=
    Machine.run_guarded (G := fun _ l => l.brings = 0) (tick_committing hrest halive htick)
      (fun _ _ _ hl hstep hu => step_committing hl (step_cases (channelStep_eq_some.mp hstep).2) hu)
      (Machine.along_of_labels hown) hrun'
  have hrest' := (not_blocked_iff hbuffer).mp hstuck
  refine ⟨hrest', ?_⟩
  rcases ht.phase with hphase | hclean
  · rcases hrest'.indexer with hphase' | ⟨hphase', -⟩ <;> rw [hphase] at hphase' <;> cases hphase'
  · exact hclean

/-- **A tick at rest commits everything.** If no commit fails, then whatever else does: once the
workers are at rest, a tick comes, and they are at rest again, no operation is staged, every index
has all that was accepted for it, and every acknowledged event has been taken. -/
theorem everything_committed (hbuffer : 0 < buffer)
    (h : Machine.run (channelStep c buffer) (start disk offset registry store) ls = some s)
    (hrest : AtRest s) (halive : s.indexer.phase ≠ .stopped)
    (hrun : Machine.run (channelStep c buffer) s (.indexer .tick :: ls') = some t)
    (hown : ∀ l ∈ ls', l.brings = 0) (hstuck : Stuck c buffer t)
    (hok : ∀ l, .indexer l ∈ ls ++ ls' → Indexer.CommitOk l) :
    t.wal.acknowledged.map WalRequest.event = t.indexer.taken.map (fun e => e.1.event) ∧
    ∀ n, t.indexer.staged n = [] ∧ (t.indexer.dir n).applied =
      ((start disk offset registry store).indexer.dir n).applied ++
        Indexer.accepted n t.indexer.handled := by
  obtain ⟨hrest', hidle, hclean⟩ := rest_clean hbuffer hrest halive hown hrun hstuck
  have hall := run_of_channels (Machine.run_append.mpr ⟨s, h, hrun⟩)
  refine ⟨(hrest'.delivered hall).taken (by rw [hidle]; simp), fun n => ?_⟩
  obtain ⟨li, hindexer, hlabels⟩ := run_indexer hall
  have hcounted : Indexer.Counted c t.indexer := by
    refine Indexer.run_counted (fun l hl => ?_) hindexer
    obtain ⟨event, rfl⟩ | hmem := hlabels l hl
    · trivial
    · rcases List.mem_append.mp hmem with hold | hnew
      · exact hok l (List.mem_append_left _ hold)
      · rcases List.mem_cons.mp hnew with heq | hrest
        · cases heq
          trivial
        · exact hok l (List.mem_append_right _ hrest)
  have hstaged : t.indexer.staged n = [] := by
    by_contra hne
    have hmem := (hcounted.dirty n).mpr hne
    rw [hclean] at hmem
    exact AList.notMem_empty n hmem
  obtain ⟨done, happlied, -, haccepted⟩ := run_ledger hall n
  rw [hstaged, List.append_nil] at haccepted
  exact ⟨hstaged, by rw [happlied, haccepted]⟩

/-- The workers handle one event and come to rest. -/
def handleOne : List SystemLabel := oneEvent ⟨"a", utf8 "\x7b\x7d"⟩ ++ [.indexer .check]

/-- What they do after a tick. -/
def commitStaged : List SystemLabel := [.indexer (.commit "a" true), .indexer .committed]

theorem handleOne_run : ∃ s t, Machine.run (channelStep .tiny 1) (start .empty 0 .tiny ∅) handleOne =
      some s ∧ AtRest s ∧ s.indexer.phase ≠ .stopped ∧
    Machine.run (channelStep .tiny 1) s (.indexer .tick :: commitStaged) = some t ∧
      AtRest t ∧ t.wal.acknowledged.length = 1 := by
  have hrun : (Machine.run (channelStep .tiny 1) (start .empty 0 .tiny ∅) handleOne).map (fun s =>
      (decide (AtRest s ∧ s.indexer.phase ≠ .stopped),
        (Machine.run (channelStep .tiny 1) s (.indexer .tick :: commitStaged)).map fun t =>
          (decide (AtRest t), t.wal.acknowledged.length))) = some (true, some (true, 1)) := by
    decide +kernel
  obtain ⟨s, hs, hseen⟩ := Option.map_eq_some_iff.mp hrun
  obtain ⟨hrest, hnext⟩ := Prod.mk.inj hseen
  obtain ⟨t, ht, hseen'⟩ := Option.map_eq_some_iff.mp hnext
  obtain ⟨hrest', hacknowledged⟩ := Prod.mk.inj hseen'
  obtain ⟨hatRest, halive⟩ := of_decide_eq_true hrest
  exact ⟨s, t, hs, hatRest, halive, ht, of_decide_eq_true hrest', hacknowledged⟩

theorem everything_committed_example : ∃ t : System, t.wal.acknowledged.length = 1 ∧
    ∀ n, t.indexer.staged n = [] := by
  obtain ⟨s, t, hs, hrest, halive, ht, hrest', hacknowledged⟩ := handleOne_run
  have hall := everything_committed (by decide) hs hrest halive ht (by simp [commitStaged,
    SystemLabel.brings, IndexerLabel.brings]) hrest'.stuck (by
      simp [handleOne, oneEvent, commitStaged, Indexer.CommitOk])
  exact ⟨t, hacknowledged, fun n => (hall.2 n).1⟩

/-! ## Without failures and purges -/

/-- The actor has taken events only. -/
structure Unpurging (i : Indexer) : Prop where
  waiting : i.purgeRx = []
  handled : ∀ h ∈ i.handled, ∃ event, h.input = .event event

theorem step_unpurging {i j : Indexer} {l : IndexerLabel} (hl : ∀ cmd, l ≠ .schedule cmd)
    (h : Indexer.Step c i l j) (hi : Unpurging i) : Unpurging j := by
  have hpasses := Indexer.step_passes h
  constructor
  · apply List.eq_nil_iff_forall_not_mem.mpr
    intro cmd hcmd
    rcases hpasses.waiting cmd hcmd with hold | hnew
    · rw [hi.waiting] at hold
      cases hold
    · exact hl cmd hnew
  · intro m hm
    rcases hpasses.handled m hm with hold | ⟨event, hevent, -⟩ | ⟨cmd, hcmd, -⟩
    · exact hi.handled m hold
    · exact ⟨event, hevent⟩
    · rw [hi.waiting] at hcmd
      cases hcmd

/-- The messages for an index are then the events taken for it. -/
theorem Unpurging.messages {i : Indexer} (h : Unpurging i) (n : String) :
    i.messages n = ((i.taken.map fun e => e.1.event).filter (·.index = n)).map .inl := by
  have hhandled := h.handled
  simp only [Indexer.messages, Indexer.inputs, Indexer.taken]
  generalize i.handled = handled at hhandled ⊢
  induction handled with
  | nil => rfl
  | cons m rest ih =>
    obtain ⟨⟨event, hevent⟩, hrest⟩ := List.forall_mem_cons.mp hhandled
    have hsame := ih hrest
    have hown : (Input.event event).index = event.event.index := rfl
    rw [List.map_cons, hevent, List.filterMap_cons_some (by rw [hevent]), List.map_cons]
    by_cases hindex : event.event.index = n
    · simp only [List.filter_cons, hown, hindex, decide_true, if_true, List.map_cons, hsame]
      rfl
    · simp only [List.filter_cons, hown, hindex, decide_false, Bool.false_eq_true, if_false, hsame]

theorem foldl_take (x : Externals) (registry : IndexRegistry) (events : List IngestEvent)
    (docs : List JsonMap) : (events.map .inl).foldl (x.take registry) docs =
      docs ++ events.filterMap (x.document? registry) := by
  induction events generalizing docs with
  | nil => simp
  | cons event events ih =>
    rw [List.map_cons, List.foldl_cons, ih, List.filterMap_cons, Externals.take, List.append_assoc]
    cases x.document? registry event <;> rfl

/-- What is acknowledged is committed. Without failures and purges: once the workers are at
rest, a tick comes, and they are at rest again, every index holds what it held at the start and
then the document of each acknowledged event for it that has one, once and in the order of the
acknowledgements. -/
theorem acknowledged_committed (hbuffer : 0 < buffer) (hpos : 1 ≤ c.commitIntervalDocs)
    (h : Machine.run (channelStep c buffer) (start disk offset registry store) ls = some s)
    (hrest : AtRest s) (halive : s.indexer.phase ≠ .stopped)
    (hrun : Machine.run (channelStep c buffer) s (.indexer .tick :: ls') = some t)
    (hown : ∀ l ∈ ls', l.brings = 0) (hstuck : Stuck c buffer t)
    (hclean : ∀ l, .indexer l ∈ ls ++ ls' → l.Clean ∧ ∀ cmd, l ≠ .schedule cmd) (n : String) :
    (t.indexer.dir n).docs = ((start disk offset registry store).indexer.dir n).docs ++
      ((t.wal.acknowledged.map WalRequest.event).filter (·.index = n)).filterMap
        (c.document? registry) := by
  obtain ⟨hrest', hidle, hdirty⟩ := rest_clean hbuffer hrest halive hown hrun hstuck
  have hall := run_of_channels (Machine.run_append.mpr ⟨s, h, hrun⟩)
  obtain ⟨li, hindexer, hlabels⟩ := run_indexer hall
  have hli : ∀ l ∈ li, l.Clean ∧ ∀ cmd, l ≠ .schedule cmd := by
    intro l hl
    obtain ⟨event, rfl⟩ | hmem := hlabels l hl
    · exact ⟨trivial, by simp⟩
    · rcases List.mem_append.mp hmem with hold | hnew
      · exact hclean l (List.mem_append_left _ hold)
      · rcases List.mem_cons.mp hnew with heq | hrest
        · cases heq
          exact ⟨trivial, by simp⟩
        · exact hclean l (List.mem_append_right _ hrest)
  have hfolds := Indexer.run_folds hpos (fun l hl => (hli l hl).1) hindexer
  have hunpurging : Unpurging t.indexer :=
    Machine.run_guarded (G := fun _ l => ∀ cmd, l ≠ .schedule cmd)
      ⟨rfl, by simp [start, Indexer.start]⟩
      (fun _ _ _ hl hstep hu => step_unpurging hl (Indexer.step_cases hstep) hu)
      (Machine.along_of_labels fun l hl => (hli l hl).2) hindexer
  have hstaged : t.indexer.staged n = [] := by
    by_contra hne
    have hmem := (hfolds.dirty n).mp hne
    rw [hdirty] at hmem
    exact AList.notMem_empty n hmem
  have hdocs := hfolds.documents n
  rw [hstaged, List.foldl_nil, hunpurging.messages, foldl_take] at hdocs
  rw [hdocs, (hrest'.delivered hall).taken (by rw [hidle]; simp)]
  rfl

end Edgewit.System
