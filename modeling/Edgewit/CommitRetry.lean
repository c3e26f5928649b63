import Edgewit.Refinement

/-!
# Failed commits

`commit_all` takes every index off the dirty ones before its commit is tried, so an index
whose commit fails is not tried again at the next tick. `commit_retried_iff`: for one call
and over whole runs, exactly the commits that succeed leave the dirty indexes as they should
be.
-/

namespace Edgewit

/-- What becomes of a commit in its two stages. -/
inductive CommitOutcome where
  | prepareFailed
  | commitFailed
  | committed
  deriving DecidableEq, Repr

namespace Indexer

/-- `commit_all`: the dirty indexes are drained in the order of the map. -/
def commitAll (x : Externals) (s : Indexer) (outcomes : String → CommitOutcome) : Indexer :=
  s.dirtyWriters.entries.foldl
    (fun s e => s.commit x e.1 e.2 (outcomes e.1 = .committed)) s

/-- An index whose commit succeeded is clean, and one whose commit failed is dirty with the
offset it had. Without a writer nothing is committed. -/
def Retries (x : Externals) (s : Indexer) (outcomes : String → CommitOutcome) : Prop :=
  ∀ name offset, s.dirtyWriters.lookup name = some offset → name ∈ s.writers →
    (s.commitAll x outcomes).dirtyWriters.lookup name =
      if outcomes name = .committed then none else some offset

/-- Every commit of the drain succeeds. -/
def AllCommitted (s : Indexer) (outcomes : String → CommitOutcome) : Prop :=
  ∀ name ∈ s.dirtyWriters, name ∈ s.writers → outcomes name = .committed

/-- Whatever is staged and not committed belongs to a dirty index. -/
def StagedIsDirty (s : Indexer) : Prop := ∀ name, s.staged name ≠ [] → name ∈ s.dirtyWriters

/-- No commit fails. -/
def CommitOk : IndexerLabel → Prop
  | .commit _ ok => ok = true
  | _ => True

instance : (l : IndexerLabel) → Decidable (CommitOk l)
  | .commit _ ok => inferInstanceAs (Decidable (ok = true))
  | .deliver _ | .schedule _ | .event _ | .check | .purge _ | .tick | .committed
  | .compactOpen _ _ | .compactCommit | .compactClose => isTrue trivial

/-! ## One call -/

theorem commit_dirtyWriters (x : Externals) (s : Indexer) (name : String) (offset : Nat) (ok : Bool) :
    (s.commit x name offset ok).dirtyWriters = s.dirtyWriters.erase name := by
  rcases commit_cases x s name offset ok with ⟨-, heq⟩ | ⟨-, -, hcommits⟩
  · rw [heq]
  · obtain ⟨_, _, hsame⟩ := hcommits.same
    rw [hsame]

theorem commit_phase (x : Externals) (s : Indexer) (name : String) (offset : Nat) (ok : Bool) :
    (s.commit x name offset ok).phase = s.phase := by
  rcases commit_cases x s name offset ok with ⟨-, heq⟩ | ⟨-, -, hcommits⟩
  · rw [heq]
  · obtain ⟨_, _, hsame⟩ := hcommits.same
    rw [hsame]

theorem foldl_commit_lookup (x : Externals) (outcomes : String → CommitOutcome)
    (es : List ((_ : String) × Nat)) (s : Indexer) (name : String) :
    (es.foldl (fun s e => s.commit x e.1 e.2 (outcomes e.1 = .committed)) s).dirtyWriters.lookup name =
      if name ∈ es.keys then none else s.dirtyWriters.lookup name := by
  induction es generalizing s with
  | nil => simp
  | cons e es ih =>
    rw [List.foldl_cons, ih, commit_dirtyWriters, Table.lookup_erase_eq, List.keys_cons]
    by_cases hname : name = e.1 <;> simp [hname]

/-- The drain leaves no index dirty, whatever fails. -/
theorem commitAll_clean (x : Externals) (s : Indexer) (outcomes : String → CommitOutcome)
    (name : String) : (s.commitAll x outcomes).dirtyWriters.lookup name = none := by
  rw [commitAll, foldl_commit_lookup]
  by_cases hmem : name ∈ s.dirtyWriters.entries.keys
  · rw [if_pos hmem]
  · rw [if_neg hmem]
    exact AList.lookup_eq_none.mpr hmem

theorem retries_iff (x : Externals) (s : Indexer) (outcomes : String → CommitOutcome) :
    Retries x s outcomes ↔ AllCommitted s outcomes := by
  simp only [Retries, AllCommitted, commitAll_clean]
  constructor
  · intro h name hdirty hwriter
    obtain ⟨offset, hoffset⟩ := Option.isSome_iff_exists.mp (AList.lookup_isSome.mpr hdirty)
    by_contra hfailed
    have hlost := h name offset hoffset hwriter
    rw [if_neg hfailed] at hlost
    cases hlost
  · intro h name offset hoffset hwriter
    rw [if_pos (h name (AList.lookup_isSome.mp (by rw [hoffset]; rfl)) hwriter)]

/-- The call is the run of its commits, one dirty index after the other. -/
theorem commitAll_run {c : IndexerConfig} {s : Indexer} (hphase : s.phase = .committing)
    (outcomes : String → CommitOutcome) :
    Machine.run (step c) s
        (s.dirtyWriters.entries.map fun e => .commit e.1 (outcomes e.1 = .committed)) =
      some (s.commitAll c.toExternals outcomes) := by
  have hrun : ∀ (es : List ((_ : String) × Nat)) (s : Indexer), s.phase = .committing →
      es.NodupKeys → (∀ e ∈ es, s.dirtyWriters.lookup e.1 = some e.2) →
      Machine.run (step c) s (es.map fun e => .commit e.1 (outcomes e.1 = .committed)) =
        some (es.foldl (fun s e => s.commit c.toExternals e.1 e.2 (outcomes e.1 = .committed)) s) := by
    intro es
    induction es with
    | nil => exact fun _ _ _ _ => rfl
    | cons e es ih =>
      intro s hphase hnodup hdirty
      rw [List.nodupKeys_cons] at hnodup
      rw [List.forall_mem_cons] at hdirty
      rw [List.map_cons, List.foldl_cons, Machine.run]
      have hstep : s.step c (.commit e.1 (outcomes e.1 = .committed)) =
          some (s.commit c.toExternals e.1 e.2 (outcomes e.1 = .committed)) := by
        simp only [step, hphase, hdirty.1]
      rw [hstep, Option.bind_some]
      apply ih _ _ hnodup.2
      · intro d hd
        have hne : d.1 ≠ e.1 := fun heq => hnodup.1 (heq ▸ List.mem_keys_of_mem hd)
        rw [commit_dirtyWriters, Table.lookup_erase_eq, if_neg hne]
        exact hdirty.2 d hd
      · rw [commit_phase]
        exact hphase
  exact hrun _ s hphase s.dirtyWriters.nodupKeys fun e he => AList.mem_lookup_iff.mpr he

/-! ## Whole runs -/

/-- The dirty indexes are those with something staged. -/
def DirtyExact (s : Indexer) : Prop := ∀ name, name ∈ s.dirtyWriters ↔ s.staged name ≠ []

theorem start_dirtyExact (registry : IndexRegistry) (store : Table String IndexDir) :
    DirtyExact (start registry store) := by
  intro name
  simp [start, staged]

theorem DirtyExact.of_opens {x : Externals} {s t : Indexer} (h : DirtyExact s)
    (hopens : Opens x s t) : DirtyExact t := by
  intro name
  rw [hopens.dirtyWriters, hopens.staged]
  exact h name

theorem DirtyExact.of_stages {x : Externals} {s t : Indexer} {name : String} {op : Op}
    (h : DirtyExact s) (hstages : Stages x s t name op) : DirtyExact t := by
  intro n
  have hdirty := hstages.dirty n
  rw [hstages.staged, ← AList.lookup_isSome, hdirty]
  by_cases hn : n = name
  · simp [hn]
  · rw [if_neg hn, if_neg hn, AList.lookup_isSome]
    exact h n

/-- A commit that succeeds has nothing left to commit. -/
theorem DirtyExact.of_commit {x : Externals} {s : Indexer} {name : String} {offset : Nat}
    (h : DirtyExact s) (hdirty : s.dirtyWriters.lookup name = some offset) :
    DirtyExact (s.commit x name offset true) := by
  have hmem : name ∈ s.dirtyWriters := AList.lookup_isSome.mp (by rw [hdirty]; rfl)
  intro n
  rw [commit_dirtyWriters, AList.mem_erase, h n]
  rcases commit_cases x s name offset true with ⟨hnot, -⟩ | ⟨-, -, hcommits⟩
  · have hwriter : name ∈ s.writers := by
      by_contra hno
      apply (h name).mp hmem
      rw [staged, AList.lookup_eq_none.mpr hno, Option.getD_none]
    exact absurd ⟨rfl, hwriter⟩ hnot
  · rw [hcommits.staged]
    by_cases hn : n = name <;> simp [hn]

theorem step_dirtyExact {c : IndexerConfig} {s t : Indexer} {l : IndexerLabel}
    (hstep : Step c s l t) (hok : CommitOk l) (h : DirtyExact s) : DirtyExact t := by
  cases hstep with
  | @event faults event rest phase next =>
    rcases takeEvent_cases c.toExternals s event rest faults with
      ⟨e, u, hopens, heq⟩ | ⟨doc, u, hstages, heq⟩ <;> rw [heq]
    · exact DirtyExact.of_opens (s := { s with receiver := rest }) (t := u) h hopens
    · exact DirtyExact.of_stages (s := { s with receiver := rest }) (t := u) h hstages
  | @purge faults cmd rest phase next =>
    rcases takePurge_cases c.toExternals s cmd rest faults with
      ⟨e, u, hopens, heq⟩ | ⟨field, u, hstages, heq⟩ <;> rw [heq]
    · exact DirtyExact.of_opens (s := { s with purgeRx := rest }) (t := u) h hopens
    · exact DirtyExact.of_stages (s := { s with purgeRx := rest }) (t := u) h hstages
  | @commit name ok offset phase dirty =>
    obtain rfl : ok = true := hok
    exact h.of_commit dirty
  | @compactOpen name segments free present =>
    unfold compactOpen
    split <;> exact h
  | _ => exact h

/-- A failed commit leaves its operations staged, and the index clean. -/
theorem failed_commit_forgotten {x : Externals} {s : Indexer} {name : String} {offset : Nat}
    (h : DirtyExact s) (hdirty : s.dirtyWriters.lookup name = some offset) :
    ¬ StagedIsDirty (s.commit x name offset false) := by
  have hmem : name ∈ s.dirtyWriters := AList.lookup_isSome.mp (by rw [hdirty]; rfl)
  intro hstaged
  rcases commit_cases x s name offset false with ⟨-, heq⟩ | ⟨hfalse, -⟩
  · have hstill := hstaged name (by rw [heq]; exact (h name).mp hmem)
    rw [commit_dirtyWriters, AList.mem_erase] at hstill
    exact hstill.1 rfl
  · cases hfalse

/-- **A call leaves the dirty indexes as it should exactly when every commit it tries
succeeds, and a run keeps whatever is staged dirty exactly when none of its commits fails.** -/
theorem commit_retried_iff {c : IndexerConfig} {registry : IndexRegistry}
    {store : Table String IndexDir} {t : Indexer} {ls : List IndexerLabel}
    (h : Machine.run (step c) (start registry store) ls = some t) :
    (∀ s outcomes, Retries c.toExternals s outcomes ↔ AllCommitted s outcomes) ∧
    ((∀ pre u, pre <+: ls → Machine.run (step c) (start registry store) pre = some u →
        StagedIsDirty u) ↔
      ∀ l ∈ ls, CommitOk l) := by
  refine ⟨retries_iff c.toExternals, ?_⟩
  have hlabels : (∀ l ∈ ls, CommitOk l) ↔
      Machine.Along (step c) (fun _ l => CommitOk l) (start registry store) ls := by
    constructor
    · exact Machine.along_of_labels
    · intro halong
      refine Machine.run_history (I := fun ls _ => ∀ l ∈ ls, CommitOk l) (by simp) ?_ halong h
      intro pre u l v _ hl _ hpre
      rw [List.forall_mem_append]
      exact ⟨hpre, by simpa using hl⟩
  rw [hlabels]
  refine (Machine.along_iff_visits (I := DirtyExact) (start_dirtyExact registry store) ?_ ?_ ?_ h).symm
  · exact fun u hu name hstaged => (hu name).mpr hstaged
  · exact fun u v l _ hu hl hv => step_dirtyExact (step_cases hv) hl hu
  · intro u v l _ hu hv hW
    cases l with
    | commit name ok =>
      cases ok with
      | true => rfl
      | false =>
        cases step_cases hv with
        | commit phase dirty => exact absurd hW (failed_commit_forgotten hu dirty)
    | _ => trivial

/-- One event, and the tick that commits it. -/
def oneCommit (ok : Bool) : List IndexerLabel :=
  [.deliver ⟨⟨"a", utf8 "\x7b\x7d"⟩, 13⟩, .event {}, .check, .tick, .commit "a" ok, .committed]

theorem commit_retried_example :
    ∃ t, Machine.run (step .tiny) (start .tiny ∅) (oneCommit true) = some t ∧ StagedIsDirty t := by
  have hsome : (Machine.run (step .tiny) (start .tiny ∅) (oneCommit true)).isSome = true := by
    decide +kernel
  obtain ⟨t, ht⟩ := Option.isSome_iff_exists.mp hsome
  have hok : ∀ l ∈ oneCommit true, CommitOk l := by decide
  exact ⟨t, ht, (commit_retried_iff ht).2.mpr hok _ t (List.prefix_refl _) ht⟩

/-- A commit that fails is forgotten: by the call, and in the run of one event. -/
theorem failed_commit_not_retried :
    (¬ ∀ (x : Externals) (s : Indexer) (outcomes : String → CommitOutcome), Retries x s outcomes) ∧
    ¬ ∀ (c : IndexerConfig) (registry : IndexRegistry) (store : Table String IndexDir)
      (ls : List IndexerLabel) (t : Indexer),
      Machine.run (step c) (start registry store) ls = some t → StagedIsDirty t := by
  constructor
  · intro halways
    let s : Indexer := { start .new ∅ with
      writers := (∅ : Table String (List Op)).insert "a" []
      dirtyWriters := (∅ : Table String Nat).insert "a" 13 }
    have hall := (retries_iff .tiny s fun _ => .commitFailed).mp (halways _ _ _)
    have hone := hall "a" (by decide) (by decide)
    cases hone
  · intro halways
    have hrun : (Machine.run (step .tiny) (start .tiny ∅) (oneCommit false)).map
        (fun t => ((t.staged "a").length, Table.isEmpty t.dirtyWriters)) = some (1, true) := by
      decide +kernel
    obtain ⟨t, ht, hseen⟩ := Option.map_eq_some_iff.mp hrun
    simp only [Prod.mk.injEq] at hseen
    have hdirty := halways .tiny .tiny ∅ _ t ht "a" fun hnil => by
      rw [hnil] at hseen
      cases hseen.1
    rw [Table.isEmpty_iff.mp hseen.2] at hdirty
    cases hdirty

end Indexer
end Edgewit
