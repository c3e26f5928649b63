import Edgewit.Refinement

/-!
# Compaction beside the actor

Compaction and the actor open their writers on the same directories, and there is one
writer at a time. An event whose index has no writer yet is taken from the channel and
dropped when compaction holds the lock: `kept_iff`.
-/

namespace Edgewit
namespace Indexer

/-- Every event sent to the actor is on the channel, or its document, if there is one,
has been added to its index. -/
structure Kept (x : Externals) (s : Indexer) : Prop where
  arrived : s.arrived = s.taken.map Prod.fst ++ s.receiver
  added : ∀ p ∈ s.taken, ∀ doc, x.document? s.registry p.1.event = some doc →
    p.2 = .ok (.add doc p.1.walOffset) ∧
      .add doc p.1.walOffset ∈ (s.dir p.1.event.index).applied ++ s.staged p.1.event.index

/-- Tantivy refuses nothing to the events but a second writer. -/
def Faultless : IndexerLabel → Prop
  | .event faults => faults = {}
  | _ => True

instance : (l : IndexerLabel) → Decidable (Faultless l)
  | .event faults => inferInstanceAs (Decidable (faults = {}))
  | .deliver _ | .schedule _ | .check | .purge _ | .tick | .commit _ _ | .committed
  | .compactOpen _ _ | .compactCommit | .compactClose => isTrue trivial

/-- When an event that has a document is taken, its index has a writer or compaction
holds no lock on it. -/
def Unlocked (x : Externals) (s : Indexer) : IndexerLabel → Prop
  | .event _ => ∀ e ∈ s.receiver.head?, x.document? s.registry e.event ≠ none →
      e.event.index ∈ s.writers ∨ ¬ s.Locked e.event.index
  | _ => True

instance (x : Externals) (s : Indexer) : (l : IndexerLabel) → Decidable (Unlocked x s l)
  | .event _ =>
    let (event : IngestEvent) : Decidable (x.document? s.registry event ≠ none) :=
      decidable_of_iff _ Option.isSome_iff_ne_none
    inferInstanceAs (Decidable (∀ e ∈ s.receiver.head?, x.document? s.registry e.event ≠ none →
      e.event.index ∈ s.writers ∨ ¬ s.Locked e.event.index))
  | .deliver _ | .schedule _ | .check | .purge _ | .tick | .commit _ _ | .committed
  | .compactOpen _ _ | .compactCommit | .compactClose => isTrue trivial

/-- Whatever was made of the events, the accepted ones have been added. -/
def Added (x : Externals) (s : Indexer) : Prop :=
  ∀ p ∈ s.taken, ∀ doc, x.document? s.registry p.1.event = some doc →
    p.2 = .ok (.add doc p.1.walOffset)

/-! ## The lock -/

theorem ensureWriter_locked (x : Externals) {s : Indexer} {name : String} (hw : name ∉ s.writers)
    (hlocked : s.Locked name) (faults : Faults) :
    ∃ e, (s.ensureWriter x name faults).1 = .error e := by
  unfold ensureWriter
  rw [if_neg hw]
  obtain ⟨hopens, -⟩ := getOrCreateIndex_opens x s name faults
  cases hres : s.getOrCreateIndex x name faults with
  | mk r u =>
    rw [hres] at hopens
    cases r with
    | error e => exact ⟨e, rfl⟩
    | ok schema =>
      have hlocked' : u.Locked name := by
        obtain ⟨_, _, _, hsame⟩ := hopens.same
        rw [show u = _ from hsame]
        exact hlocked
      refine ⟨.error x.lockFailure, ?_⟩
      simp [openWriter, hlocked']

/-- An event that meets the lock is refused. -/
theorem processEvent_locked (x : Externals) {s : Indexer} {event : IndexerEvent}
    (hw : event.event.index ∉ s.writers) (hlocked : s.Locked event.event.index) (faults : Faults) :
    ∃ e, (s.processEvent x event faults).1 = .error e := by
  obtain ⟨e, he⟩ := ensureWriter_locked x hw hlocked faults
  unfold processEvent
  dsimp only
  cases s.registry.get event.event.index with
  | none => exact ⟨_, rfl⟩
  | some definition =>
    dsimp only
    cases x.fromSlice event.event.payload with
    | error e => exact ⟨_, rfl⟩
    | ok source =>
      cases source with
      | object map =>
        dsimp only
        cases hres : s.ensureWriter x event.event.index faults with
        | mk r u =>
          rw [hres] at he
          rw [show r = .error e from he]
          exact ⟨e, rfl⟩
      | _ => exact ⟨_, rfl⟩

/-- With nothing else refused, an event that has a document is added exactly when it
does not meet the lock. -/
theorem processEvent_added_iff (x : Externals) {s : Indexer} (hc : Cached x s) {event : IndexerEvent}
    {doc : JsonMap} (hdoc : x.document? s.registry event.event = some doc) :
    (s.processEvent x event {}).1 = .ok (.add doc event.walOffset) ↔
      event.event.index ∈ s.writers ∨ ¬ s.Locked event.event.index := by
  constructor
  · intro hok
    by_contra hmeets
    rw [not_or, not_not] at hmeets
    obtain ⟨e, he⟩ := processEvent_locked x hmeets.1 hmeets.2 {}
    rw [he] at hok
    cases hok
  · intro hfree
    have hop := processEvent_op? x hc event hfree
    rw [Externals.op?, hdoc, Option.map_some] at hop
    cases hres : (s.processEvent x event {}).1 with
    | error e =>
      rw [hres] at hop
      cases hop
    | ok op =>
      rw [hres] at hop
      exact congrArg Except.ok (Option.some.inj hop)

theorem step_added_iff {c : IndexerConfig} {s t : Indexer} {l : IndexerLabel}
    (hstep : Step c s l t) (hfault : Faultless l) (hc : Cached c.toExternals s) :
    Added c.toExternals t ↔ Added c.toExternals s ∧ Unlocked c.toExternals s l := by
  rcases step_taken hstep with ⟨faults, event, rest, rfl, hnext, rfl⟩ |
    ⟨hother, htaken, hregistry, -⟩
  · cases hfault
    have hadded : ∀ doc, c.document? s.registry event.event = some doc →
        ((processEvent c.toExternals { s with receiver := rest } event {}).1 =
          .ok (.add doc event.walOffset) ↔
        event.event.index ∈ s.writers ∨ ¬ s.Locked event.event.index) := fun doc hdoc =>
      processEvent_added_iff c.toExternals (s := { s with receiver := rest }) hc hdoc
    obtain ⟨_, _, _, _, hsame⟩ :=
      (processEvent_touches c.toExternals { s with receiver := rest } event {}).same
    have htaken : (s.takeEvent c.toExternals event rest {}).taken = s.taken ++
        [(event, (processEvent c.toExternals { s with receiver := rest } event {}).1)] := by
      rw [takeEvent_eq, taken_append, hsame]
      rfl
    have hregistry : (s.takeEvent c.toExternals event rest {}).registry = s.registry := by
      rw [takeEvent_eq, hsame]
      rfl
    simp only [Added, htaken, hregistry, List.forall_mem_append, List.forall_mem_singleton,
      Unlocked, hnext, List.head?_cons, Option.mem_some_iff, forall_eq']
    apply and_congr_right
    intro _
    constructor
    · intro h hdoc
      obtain ⟨doc, hdoc⟩ := Option.ne_none_iff_exists'.mp hdoc
      exact (hadded doc hdoc).mp (h doc hdoc)
    · intro h doc hdoc
      exact (hadded doc hdoc).mpr (h (by simp [hdoc]))
  · have hunlocked : Unlocked c.toExternals s l := by
      cases l with
      | event faults => exact absurd rfl (hother faults)
      | _ => trivial
    simp only [Added, htaken, hregistry, hunlocked, and_true]

/-! ## Whole runs -/

theorem run_added_iff {c : IndexerConfig} {registry : IndexRegistry} {store : Table String IndexDir}
    {t : Indexer} {ls : List IndexerLabel} (hfault : ∀ l ∈ ls, Faultless l)
    (h : Machine.run (step c) (start registry store) ls = some t) :
    Added c.toExternals t ↔
      Machine.Along (step c) (Unlocked c.toExternals) (start registry store) ls := by
  have hG : Machine.Along (step c) (fun _ l => Faultless l) (start registry store) ls :=
    Machine.along_of_labels hfault
  refine Machine.run_history (I := fun pre u => Added c.toExternals u ↔
    Machine.Along (step c) (Unlocked c.toExternals) (start registry store) pre) ?_ ?_ hG h
  · simp [Added, taken, start, Machine.Along]
  · intro pre u l v hu hl hstep ih
    rw [step_added_iff (step_cases hstep) hl (run_accounts hu).cached, Machine.along_concat_iff hu, ih]

/-- The operation of an accepted event is accepted for its index. -/
theorem mem_accepted {s : Indexer} {p : IndexerEvent × Except Failure Op} {op : Op}
    (hp : p ∈ s.taken) (hok : p.2 = .ok op) : op ∈ accepted p.1.event.index s.handled := by
  obtain ⟨handled, hhandled, heq⟩ := List.mem_filterMap.mp hp
  refine List.mem_filterMap.mpr ⟨handled, hhandled, ?_⟩
  cases hin : handled.input with
  | purge cmd =>
    rw [hin] at heq
    cases heq
  | event e =>
    rw [hin] at heq
    cases heq
    simp only [Input.index, if_true]
    rw [show handled.result = .ok op from hok]
    rfl

/-- **Compaction costs no event exactly when none meets its lock.** -/
theorem kept_iff {c : IndexerConfig} {registry : IndexRegistry} {store : Table String IndexDir}
    {t : Indexer} {ls : List IndexerLabel} (hfault : ∀ l ∈ ls, Faultless l)
    (h : Machine.run (step c) (start registry store) ls = some t) :
    Kept c.toExternals t ↔
      Machine.Along (step c) (Unlocked c.toExternals) (start registry store) ls := by
  rw [← run_added_iff hfault h]
  constructor
  · intro hkept p hp doc hdoc
    exact (hkept.added p hp doc hdoc).1
  · intro hadded
    refine ⟨(run_accounts h).arrived, fun p hp doc hdoc => ?_⟩
    have hok := hadded p hp doc hdoc
    refine ⟨hok, ?_⟩
    obtain ⟨done, happlied, -, haccepted⟩ := run_ledger h p.1.event.index
    have hmem := mem_accepted hp hok
    rw [happlied, List.append_assoc, ← haccepted]
    exact List.mem_append_right _ hmem

/-- A compaction that has closed its writer, then an event. -/
theorem kept_iff_example :
    ∃ t : Indexer, Kept Externals.tiny t ∧ t.taken.length = 1 ∧ t.receiver = [] := by
  let store : Table String IndexDir := (∅ : Table String IndexDir).insert "a" .empty
  let ls : List IndexerLabel := [.compactOpen "a" 12, .compactCommit,
    .deliver ⟨⟨"a", utf8 "\x7b\x7d"⟩, 12⟩, .compactClose, .event {}]
  have hrun : (Machine.run (step .tiny) (start .tiny store) ls).map
      (fun t => (t.taken.length, t.receiver)) = some (1, []) := by decide +kernel
  obtain ⟨t, ht, hseen⟩ := Option.map_eq_some_iff.mp hrun
  simp only [Prod.mk.injEq] at hseen
  have hG : Machine.Along (step .tiny) (Unlocked Externals.tiny) (start .tiny store) ls := by
    decide +kernel
  exact ⟨t, (kept_iff (c := .tiny) (by decide) ht).mpr hG, hseen⟩

/-- An event that arrives while compaction holds the writer of its index. -/
theorem locked_event_lost :
    ¬ ∀ (c : IndexerConfig) (registry : IndexRegistry) (store : Table String IndexDir)
      (ls : List IndexerLabel) (t : Indexer), (∀ l ∈ ls, Faultless l) →
      Machine.run (step c) (start registry store) ls = some t → Kept c.toExternals t := by
  intro halways
  let store : Table String IndexDir := (∅ : Table String IndexDir).insert "a" .empty
  let ls : List IndexerLabel := [.compactOpen "a" 12, .deliver ⟨⟨"a", utf8 "\x7b\x7d"⟩, 12⟩,
    .event {}]
  have hrun : (Machine.run (step .tiny) (start .tiny store) ls).map
      (fun t => t.taken.map fun p => ((Externals.tiny.document? t.registry p.1.event).isSome,
        p.2.toOption.isSome)) = some [(true, false)] := by decide +kernel
  obtain ⟨t, ht, hseen⟩ := Option.map_eq_some_iff.mp hrun
  obtain ⟨p, hp, hseen⟩ : ∃ p ∈ t.taken,
      (Externals.tiny.document? t.registry p.1.event).isSome = true ∧
        p.2.toOption.isSome = false := by
    cases htaken : t.taken with
    | nil =>
      rw [htaken] at hseen
      cases hseen
    | cons p rest =>
      rw [htaken, List.map_cons, List.cons.injEq, Prod.mk.injEq] at hseen
      exact ⟨p, List.mem_cons_self, hseen.1⟩
  obtain ⟨doc, hdoc⟩ := Option.isSome_iff_exists.mp hseen.1
  have hok := ((halways .tiny .tiny store ls t (by decide) ht).added p hp doc hdoc).1
  rw [hok] at hseen
  cases hseen.2

end Indexer
end Edgewit
