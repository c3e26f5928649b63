import Edgewit.CommitRetry
import Edgewit.Recovery

/-!
# The channels between the workers

The handlers, the appender and the indexer talk over bounded channels, and a full channel
holds its sender back.

* `work_bounded`: what arrives from outside bounds the steps that the workers take;
* `not_blocked_iff`: with room for one message in each channel, the workers never wait for
  one another;
* `every_request_settles`: left alone, they come to rest after boundedly many steps, and then
  every request has its answer and the indexer has taken every acknowledged event;
* `backlog_bounded`, `loss_window`: what is held in memory, and what a crash can lose.
-/

namespace Edgewit

/-! ## The work ahead -/

/-- The steps the appender and the indexer still take for the batch at hand. An event on its
way to the indexer will cost four steps there. -/
def Phase.work : Phase → Nat
  | .boot => 1
  | .waiting | .stopped => 0
  | .batching batch => 7 * batch.length + 5
  | .writing rest toIndex => 7 * rest.length + 6 * toIndex.length + 4
  | .syncing toIndex => 6 * toIndex.length + 3
  | .rotating toIndex => 6 * toIndex.length + 2
  | .responding toIndex => 6 * toIndex.length + 1
  | .forwarding _ toIndex => 6 * toIndex.length + 6
  | .failing toIndex => toIndex.length + 1

/-- What a label brings from outside: the steps it causes, with its own. -/
def Label.brings : Label → Nat
  | .send _ => 14
  | .shutdown _ => 1
  | _ => 0

def IndexerPhase.work : IndexerPhase → Nat
  | .idle | .stopped => 0
  | .checking => 2
  | .committing => 1

def IndexerLabel.brings : IndexerLabel → Nat
  | .schedule _ => 3
  | .tick => 2
  | .compactOpen _ _ | .compactCommit | .compactClose => 1
  | _ => 0

namespace Wal

def work (w : Wal) : Nat := 13 * w.queue.length + w.phase.work

/-- A step is paid for by the work ahead or by its label. -/
theorem step_work {w t : Wal} {l : Label} (h : Step w l t) :
    t.work + 4 * (w.forwarded l).length + 1 ≤ w.work + l.brings := by
  cases h with
  | send => simp [send, work, Label.brings, forwarded]; omega
  | @boot dirOk openOk metadataOk hphase =>
    obtain heq | ⟨handle, disk, size, -, -, heq⟩ := boot_cases w dirOk openOk metadataOk <;>
      simp [heq, work, Phase.work, hphase, Label.brings, forwarded]
  | recv hphase hnext =>
    simp [work, Phase.work, hphase, hnext, Label.brings, forwarded]
    omega
  | tryRecv hphase hnext =>
    simp [work, Phase.work, hphase, hnext, Label.brings, forwarded]
    omega
  | closeBatch hphase =>
    simp only [closeBatch, work, Phase.work, hphase, Label.brings, forwarded, List.length_nil]
    omega
  | @frame req rest toIndex io hphase =>
    obtain ⟨v, ⟨buf, disk, written, rfl⟩, -, ⟨-, heq⟩ | ⟨-, heq⟩⟩ :=
      writeFrame_cases w req rest toIndex io <;>
      simp [heq, work, Phase.work, hphase, Label.brings, forwarded] <;> omega
  | @flush toIndex io hphase =>
    cases io with
    | ok =>
      simp only [Wal.flush, flushBuf, push, work, Phase.work, hphase, Label.brings, forwarded,
        List.length_nil]
      omega
    | err out =>
      simp only [Wal.flush, flushBuf, push, work, Phase.work, hphase, Label.brings, forwarded,
        List.length_nil]
      omega
  | @sync toIndex ok hphase =>
    cases ok with
    | true =>
      simp only [sync, if_true, work, Phase.work, hphase, Label.brings, forwarded, List.length_nil]
      omega
    | false =>
      simp only [sync, Bool.false_eq_true, if_false, work, Phase.work, hphase, Label.brings,
        forwarded, List.length_nil]
      omega
  | @rotate toIndex flush syncOk openOk hphase =>
    obtain ⟨path, disk, handle, buf, size, written, heq⟩ := rotate_eq w toIndex flush syncOk openOk
    simp only [heq, work, Phase.work, hphase, Label.brings, forwarded, List.length_nil]
    omega
  | respond hphase =>
    simp [respond, work, Phase.work, hphase, Label.brings, forwarded]
    omega
  | forward hphase =>
    simp only [forward, work, Phase.work, hphase, Label.brings, forwarded, pending,
      List.length_cons, List.length_nil]
    omega
  | fail hphase =>
    simp only [fail, work, Phase.work, hphase, Label.brings, forwarded, List.length_cons,
      List.length_nil]
    omega
  | finishOk hphase => simp [finish, work, Phase.work, hphase, Label.brings, forwarded]
  | finishFailed hphase => simp [finish, work, Phase.work, hphase, Label.brings, forwarded]
  | @shutdown io hphase empty =>
    cases io <;>
      simp [shutdown, flushBuf, push, work, Phase.work, hphase, empty, Label.brings, forwarded]

end Wal

namespace Indexer

/-- Each message comes to two steps, or four with the commit it may cause. -/
def work (s : Indexer) : Nat :=
  4 * s.receiver.length + 2 * s.purgeRx.length + s.dirtyWriters.keys.length + s.phase.work

/-- A message makes at most one index dirty. -/
theorem Touches.dirty_le {x : Externals} {s t : Indexer} (h : Touches x s t) :
    t.dirtyWriters.keys.length ≤ s.dirtyWriters.keys.length + 1 := by
  rcases h with hopens | ⟨name, op, hstages⟩
  · rw [hopens.dirtyWriters]
    omega
  · have hsub : t.dirtyWriters.keys ⊆ name :: s.dirtyWriters.keys := by
      intro n hn
      rcases (hstages.mem_dirty n).mp (AList.mem_keys.mp hn) with rfl | hold
      · exact List.mem_cons_self
      · exact List.mem_cons_of_mem _ (AList.mem_keys.mpr hold)
    exact (List.subperm_of_subset t.dirtyWriters.keys_nodup hsub).length_le

theorem commit_keys (x : Externals) {s : Indexer} {name : String} {offset : Nat} {ok : Bool}
    (h : s.dirtyWriters.lookup name = some offset) :
    (s.commit x name offset ok).dirtyWriters.keys.length + 1 = s.dirtyWriters.keys.length := by
  have hmem : name ∈ s.dirtyWriters.keys := AList.mem_keys.mp (AList.lookup_isSome.mp (by simp [h]))
  have hpos := List.length_pos_of_mem hmem
  rw [commit_dirtyWriters, AList.keys_erase, List.length_erase_of_mem hmem]
  omega

/-- Taking an event leaves the channels behind it alone, and the check of the count ahead. -/
theorem takeEvent_frame (x : Externals) (s : Indexer) (event : IndexerEvent)
    (rest : List IndexerEvent) (faults : Faults) :
    (s.takeEvent x event rest faults).receiver = rest ∧
    (s.takeEvent x event rest faults).purgeRx = s.purgeRx ∧
    ((s.takeEvent x event rest faults).phase = .checking ∨
      (s.takeEvent x event rest faults).phase = .stopped) ∧
    (s.takeEvent x event rest faults).dirtyWriters.keys.length ≤ s.dirtyWriters.keys.length + 1 := by
  have htouch := processEvent_touches x { s with receiver := rest } event faults
  have hdirty := htouch.dirty_le
  obtain ⟨_, _, _, _, hsame⟩ := htouch.same
  rw [takeEvent_eq]
  refine ⟨?_, ?_, ?_, hdirty⟩
  · rw [hsame]
    rfl
  · rw [hsame]
    rfl
  · rcases (processEvent x { s with receiver := rest } event faults).1 with (_ | _) | _ <;>
      simp [handleEvent]

theorem takePurge_frame (x : Externals) (s : Indexer) (cmd : PurgeCommand)
    (rest : List PurgeCommand) (faults : Faults) :
    (s.takePurge x cmd rest faults).receiver = s.receiver ∧
    (s.takePurge x cmd rest faults).purgeRx = rest ∧
    ((s.takePurge x cmd rest faults).phase = .idle ∨
      (s.takePurge x cmd rest faults).phase = .stopped) ∧
    (s.takePurge x cmd rest faults).dirtyWriters.keys.length ≤ s.dirtyWriters.keys.length + 1 := by
  have htouch := purgeOldDocs_touches x { s with purgeRx := rest } cmd faults
  have hdirty := htouch.dirty_le
  obtain ⟨_, _, _, _, hsame⟩ := htouch.same
  rw [takePurge_eq]
  refine ⟨?_, ?_, ?_, hdirty⟩
  · rw [hsame]
    rfl
  · rw [hsame]
    rfl
  · rcases (purgeOldDocs x { s with purgeRx := rest } cmd faults).1 with (_ | _) | _ <;>
      simp [handlePurge]

theorem commit_frame (x : Externals) (s : Indexer) (name : String) (offset : Nat) (ok : Bool) :
    (s.commit x name offset ok).receiver = s.receiver ∧
    (s.commit x name offset ok).purgeRx = s.purgeRx := by
  rcases commit_cases x s name offset ok with ⟨-, heq⟩ | ⟨-, -, hcommits⟩
  · rw [heq]
    exact ⟨rfl, rfl⟩
  · obtain ⟨_, _, hsame⟩ := hcommits.same
    rw [hsame]
    exact ⟨rfl, rfl⟩

theorem step_work {c : IndexerConfig} {s t : Indexer} {l : IndexerLabel} (h : Step c s l t)
    (hown : ∀ event, l ≠ .deliver event) : t.work + 1 ≤ s.work + l.brings := by
  cases h with
  | @deliver event => exact absurd rfl (hown event)
  | @event faults event rest hphase hnext =>
    obtain ⟨hreceiver, hpurge, hphase', hdirty⟩ := takeEvent_frame c.toExternals s event rest faults
    simp only [work, hreceiver, hpurge, hphase, hnext, IndexerPhase.work, List.length_cons]
    rcases hphase' with hphase' | hphase' <;> simp only [hphase'] <;> omega
  | @purge faults cmd rest hphase hnext =>
    obtain ⟨hreceiver, hpurge, hphase', hdirty⟩ := takePurge_frame c.toExternals s cmd rest faults
    simp only [work, hreceiver, hpurge, hphase, hnext, IndexerPhase.work, List.length_cons]
    rcases hphase' with hphase' | hphase' <;> simp only [hphase'] <;> omega
  | check hphase =>
    by_cases hfull : c.commitIntervalDocs ≤ s.docsSinceCommit <;>
      simp [work, hphase, hfull, IndexerPhase.work, IndexerLabel.brings]
  | tick hphase =>
    cases hclean : Table.isEmpty s.dirtyWriters <;>
      simp [work, hphase, IndexerPhase.work, IndexerLabel.brings]
  | @commit name ok offset hphase hdirty =>
    have hkeys : (s.commit c.toExternals name offset ok).dirtyWriters.keys.length + 1 =
        s.dirtyWriters.keys.length := commit_keys c.toExternals hdirty
    have hphase' := commit_phase c.toExternals s name offset ok
    obtain ⟨hreceiver, hpurge⟩ := commit_frame c.toExternals s name offset ok
    simp only [work, hreceiver, hpurge, hphase']
    omega
  | committed hphase => simp [work, hphase, IndexerPhase.work]
  | schedule =>
    simp only [work, IndexerLabel.brings, List.length_append, List.length_singleton]
    omega
  | @compactOpen name segments =>
    unfold compactOpen
    split <;> simp [work, IndexerLabel.brings]
  | compactCommit => simp [compactCommit, work, IndexerLabel.brings]
  | compactClose => simp [work, IndexerLabel.brings]

end Indexer

namespace System

def work (s : System) : Nat := s.wal.work + s.indexer.work

end System

def SystemLabel.brings : SystemLabel → Nat
  | .wal l => l.brings
  | .indexer l => l.brings

namespace System

theorem step_work {c : IndexerConfig} {s t : System} {l : SystemLabel} (h : Step c s l t) :
    t.work + 1 ≤ s.work + l.brings := by
  cases h with
  | @wal l w moves =>
    have hwork := Wal.step_work (Wal.step_cases moves)
    simp only [work, SystemLabel.brings, Indexer.work, Indexer.receive, List.length_append] at hwork ⊢
    omega
  | @indexer l i own moves =>
    have hwork := Indexer.step_work (Indexer.step_cases moves) own
    simp only [work, SystemLabel.brings]
    omega

/-- A run is no longer than the work ahead at its start and what came from outside. -/
theorem run_work {c : IndexerConfig} {s t : System} {ls : List SystemLabel}
    (h : Machine.run (step c) s ls = some t) :
    ls.length + t.work ≤ s.work + (ls.map SystemLabel.brings).sum := by
  have hwork : 1 * ls.length + t.work ≤ s.work + (ls.map SystemLabel.brings).sum :=
    Machine.run_amortized (fun _ _ _ hstep => step_work (step_cases hstep)) h
  omega

/-- **Nothing spins.** However the workers interleave and whatever fails, the steps of a run
are paid for by what came from outside: 14 for each request, 3 for each purge command, 2 for
each tick, one for each step of compaction, and one for the start. -/
theorem work_bounded {c : IndexerConfig} {disk : Disk} {offset : Nat} {registry : IndexRegistry}
    {store : Table String IndexDir} {t : System} {ls : List SystemLabel}
    (h : Machine.run (step c) (start disk offset registry store) ls = some t) :
    ls.length + t.work ≤ 1 + (ls.map SystemLabel.brings).sum := by
  have hstart : (start disk offset registry store).work = 1 := rfl
  have hwork := run_work h
  omega

theorem work_bounded_example : ∃ t, Machine.run (step .tiny) (start .empty 0 .tiny ∅)
    (oneEvent ⟨"a", utf8 "\x7b\x7d"⟩) = some t ∧ 12 + t.work ≤ 15 := by
  have hrun : (Machine.run (step .tiny) (start .empty 0 .tiny ∅)
      (oneEvent ⟨"a", utf8 "\x7b\x7d"⟩)).isSome = true := by decide +kernel
  obtain ⟨t, ht⟩ := Option.isSome_iff_exists.mp hrun
  exact ⟨t, ht, work_bounded ht⟩

end System

/-! ## Bounded channels -/

/-- The capacity of the channel of purge commands in `main`. -/
def purgeBuffer : Nat := 32

namespace System

/-- A channel takes a message while it has room. That of a stopped indexer is closed: what
is sent to it is lost. -/
def Admits (buffer : Nat) (s : System) : SystemLabel → Prop
  | .wal (.send _) => s.wal.queue.length < buffer
  | .wal .forward => s.indexer.phase = .stopped ∨ s.indexer.receiver.length < buffer
  | .indexer (.schedule _) => s.indexer.phase = .stopped ∨ s.indexer.purgeRx.length < purgeBuffer
  | _ => True

instance (buffer : Nat) (s : System) (l : SystemLabel) : Decidable (s.Admits buffer l) := by
  unfold Admits
  split <;> infer_instance

/-- The workers with the channels of `main`, `buffer` being `EDGEWIT_CHANNEL_BUFFER`. -/
def channelStep (c : IndexerConfig) (buffer : Nat) (s : System) (l : SystemLabel) : Option System :=
  if s.Admits buffer l then s.step c l else none

theorem channelStep_eq_some {c : IndexerConfig} {buffer : Nat} {s t : System} {l : SystemLabel} :
    s.channelStep c buffer l = some t ↔ s.Admits buffer l ∧ s.step c l = some t := by
  simp [channelStep, Option.ite_none_right_eq_some]

/-- A run with bounded channels is a run. -/
theorem run_of_channels {c : IndexerConfig} {buffer : Nat} {s t : System} {ls : List SystemLabel}
    (h : Machine.run (channelStep c buffer) s ls = some t) : Machine.run (step c) s ls = some t := by
  induction ls generalizing s with
  | nil => exact h
  | cons l ls ih =>
    obtain ⟨u, hu, hrun⟩ := Machine.run_cons.mp h
    exact Machine.run_cons.mpr ⟨u, (channelStep_eq_some.mp hu).2, ih hrun⟩

/-- Neither worker can do anything until something arrives from outside. -/
def Stuck (c : IndexerConfig) (buffer : Nat) (s : System) : Prop :=
  ∀ l : SystemLabel, l.brings = 0 → s.channelStep c buffer l = none

/-- Both workers wait for their channels, unless they have stopped. -/
structure AtRest (s : System) : Prop where
  wal : s.wal.phase = .stopped ∨ s.wal.phase = .waiting ∧ s.wal.queue = []
  indexer : s.indexer.phase = .stopped ∨
    s.indexer.phase = .idle ∧ s.indexer.receiver = [] ∧ s.indexer.purgeRx = []

instance (s : System) : Decidable (AtRest s) :=
  decidable_of_iff
    ((s.wal.phase = .stopped ∨ s.wal.phase = .waiting ∧ s.wal.queue = []) ∧
      (s.indexer.phase = .stopped ∨
        s.indexer.phase = .idle ∧ s.indexer.receiver = [] ∧ s.indexer.purgeRx = []))
    ⟨fun h => ⟨h.1, h.2⟩, fun h => ⟨h.wal, h.indexer⟩⟩

/-- An indexer that has not come to rest can take a step. -/
theorem indexer_moves (c : IndexerConfig) (buffer : Nat) {s : System}
    (h : ¬ (s.indexer.phase = .stopped ∨
      s.indexer.phase = .idle ∧ s.indexer.receiver = [] ∧ s.indexer.purgeRx = [])) :
    ∃ l : IndexerLabel, l.brings = 0 ∧ (s.channelStep c buffer (.indexer l)).isSome = true := by
  cases hphase : s.indexer.phase with
  | stopped => exact absurd (Or.inl hphase) h
  | idle =>
    cases hreceiver : s.indexer.receiver with
    | cons event rest =>
      exact ⟨.event {}, rfl, by simp [channelStep, Admits, step, Indexer.step, hphase, hreceiver]⟩
    | nil =>
      cases hpurge : s.indexer.purgeRx with
      | cons cmd rest =>
        exact ⟨.purge {}, rfl, by simp [channelStep, Admits, step, Indexer.step, hphase, hpurge]⟩
      | nil => exact absurd (Or.inr ⟨hphase, hreceiver, hpurge⟩) h
  | checking => exact ⟨.check, rfl, by simp [channelStep, Admits, step, Indexer.step, hphase]⟩
  | committing =>
    cases hdirty : s.indexer.dirtyWriters.keys with
    | nil =>
      have hclean : Table.isEmpty s.indexer.dirtyWriters = true := by
        rw [Table.isEmpty_iff]
        exact AList.ext (List.map_eq_nil_iff.mp hdirty)
      exact ⟨.committed, rfl, by simp [channelStep, Admits, step, Indexer.step, hphase, hclean]⟩
    | cons name names =>
      have hmem : name ∈ s.indexer.dirtyWriters := AList.mem_keys.mpr (by simp [hdirty])
      obtain ⟨offset, hoffset⟩ := Option.isSome_iff_exists.mp (AList.lookup_isSome.mpr hmem)
      exact ⟨.commit name true, rfl,
        by simp [channelStep, Admits, step, Indexer.step, hphase, hoffset]⟩

/-- An appender that has not come to rest can take a step, if the indexer has come to rest. -/
theorem wal_moves {c : IndexerConfig} {buffer : Nat} {s : System} (hbuffer : 0 < buffer)
    (hindexer : s.indexer.phase = .stopped ∨
      s.indexer.phase = .idle ∧ s.indexer.receiver = [] ∧ s.indexer.purgeRx = [])
    (h : ¬ (s.wal.phase = .stopped ∨ s.wal.phase = .waiting ∧ s.wal.queue = [])) :
    ∃ l : Label, l.brings = 0 ∧ (s.channelStep c buffer (.wal l)).isSome = true := by
  cases hphase : s.wal.phase with
  | stopped => exact absurd (Or.inl hphase) h
  | boot =>
    exact ⟨.boot true true true, rfl, by simp [channelStep, Admits, step, Wal.step, hphase]⟩
  | waiting =>
    cases hqueue : s.wal.queue with
    | nil => exact absurd (Or.inr ⟨hphase, hqueue⟩) h
    | cons req queue =>
      exact ⟨.recv, rfl, by simp [channelStep, Admits, step, Wal.step, hphase, hqueue]⟩
  | batching batch =>
    exact ⟨.closeBatch, rfl, by simp [channelStep, Admits, step, Wal.step, hphase]⟩
  | writing rest toIndex =>
    cases rest with
    | nil => exact ⟨.flush .ok, rfl, by simp [channelStep, Admits, step, Wal.step, hphase]⟩
    | cons req rest =>
      exact ⟨.frame [], rfl, by simp [channelStep, Admits, step, Wal.step, hphase]⟩
  | syncing toIndex => exact ⟨.sync true, rfl, by simp [channelStep, Admits, step, Wal.step, hphase]⟩
  | rotating toIndex =>
    exact ⟨.rotate .ok true true, rfl, by simp [channelStep, Admits, step, Wal.step, hphase]⟩
  | responding toIndex =>
    cases toIndex with
    | nil => exact ⟨.finish, rfl, by simp [channelStep, Admits, step, Wal.step, hphase]⟩
    | cons x rest => exact ⟨.respond, rfl, by simp [channelStep, Admits, step, Wal.step, hphase]⟩
  | forwarding event toIndex =>
    -- The channel to the indexer is empty or closed.
    have hroom : s.Admits buffer (.wal .forward) := by
      rcases hindexer with hstopped | ⟨-, hempty, -⟩
      · exact Or.inl hstopped
      · exact Or.inr (by simpa [hempty] using hbuffer)
    exact ⟨.forward, rfl, by simp [channelStep, hroom, step, Wal.step, hphase]⟩
  | failing toIndex =>
    cases toIndex with
    | nil => exact ⟨.finish, rfl, by simp [channelStep, Admits, step, Wal.step, hphase]⟩
    | cons x rest => exact ⟨.fail, rfl, by simp [channelStep, Admits, step, Wal.step, hphase]⟩

/-- A worker at rest waits for something from outside. -/
theorem wal_rests {w : Wal} (h : w.phase = .stopped ∨ w.phase = .waiting ∧ w.queue = []) {l : Label}
    (hl : l.brings = 0) : w.step l = none := by
  rcases h with hphase | ⟨hphase, hqueue⟩
  · cases l <;> simp_all [Wal.step, Label.brings]
  · cases l <;> simp_all [Wal.step, Label.brings]

theorem AtRest.stuck {c : IndexerConfig} {buffer : Nat} {s : System} (h : AtRest s) :
    Stuck c buffer s := by
  intro l hl
  rw [channelStep]
  split
  · obtain ⟨hwal, hindexer⟩ := h
    cases l with
    | wal l => simp only [step, wal_rests hwal hl, Option.map_none]
    | indexer l =>
      rcases hindexer with hphase | ⟨hphase, hreceiver, hpurge⟩
      · cases l <;> simp_all [step, Indexer.step, SystemLabel.brings, IndexerLabel.brings]
      · cases l <;> simp_all [step, Indexer.step, SystemLabel.brings, IndexerLabel.brings]
  · rfl

/-- **No deadlock.** Where the channels have room for a message, the workers are stuck exactly
when both have nothing to do. -/
theorem not_blocked_iff {c : IndexerConfig} {buffer : Nat} {s : System} (hbuffer : 0 < buffer) :
    Stuck c buffer s ↔ AtRest s := by
  constructor
  · intro hstuck
    have hindexer : s.indexer.phase = .stopped ∨
        s.indexer.phase = .idle ∧ s.indexer.receiver = [] ∧ s.indexer.purgeRx = [] := by
      by_contra hbusy
      obtain ⟨l, hl, hmoves⟩ := indexer_moves c buffer hbusy
      rw [hstuck (.indexer l) hl] at hmoves
      cases hmoves
    refine ⟨?_, hindexer⟩
    by_contra hbusy
    obtain ⟨l, hl, hmoves⟩ := wal_moves (c := c) hbuffer hindexer hbusy
    rw [hstuck (.wal l) hl] at hmoves
    cases hmoves
  · exact AtRest.stuck

/-! ## Coming to rest -/

/-- Every request the appender received was answered or has lost its responder, and the
indexer has taken every acknowledged event. -/
structure Delivered (s : System) : Prop where
  answered : s.wal.arrived =
    (s.wal.past.flatMap fun r => r.answers.map Prod.fst ++ r.dropped) ++ s.wal.queue
  once : s.wal.arrived.Nodup
  taken : s.indexer.phase ≠ .stopped →
    s.wal.acknowledged.map WalRequest.event = s.indexer.taken.map fun e => e.1.event

theorem AtRest.delivered {c : IndexerConfig} {disk : Disk} {offset : Nat} {registry : IndexRegistry}
    {store : Table String IndexDir} {s : System} {ls : List SystemLabel} (h : AtRest s)
    (hrun : Machine.run (step c) (start disk offset registry store) ls = some s) : Delivered s := by
  obtain ⟨lw, hwal, -⟩ := run_wal hrun
  have hb := Wal.run_books hwal
  have hplace : s.wal.cur = .start [] ∧ s.wal.batched = [] ∧ s.wal.pending = [] := by
    have hcur := hb.current
    rcases h.wal with hphase | ⟨hphase, -⟩ <;>
      simp only [Wal.InProgress, hphase] at hcur <;>
      exact ⟨hcur, by simp [Wal.batched, hphase], by simp [Wal.pending, hphase]⟩
  obtain ⟨hcur, hbatched, hpending⟩ := hplace
  refine ⟨?_, hb.nodup, ?_⟩
  · have harr := hb.arrival
    rw [hcur, hbatched, BatchRecord.start, List.append_nil, List.append_nil] at harr
    rw [← harr]
    congr 1
    apply List.flatMap_congr
    intro r hr
    exact (hb.settled r hr).requests_eq
  · intro halive
    obtain hstopped | ⟨-, hempty, -⟩ := h.indexer
    · exact absurd hstopped halive
    · rw [run_acknowledged hrun, waiting, hempty, hpending]
      simp

/-- **Every request settles.** From any reachable state the workers, left alone, take at most
`work` more steps; where they cannot go on, both are at rest and everything is delivered. -/
theorem every_request_settles {c : IndexerConfig} {buffer : Nat} (hbuffer : 0 < buffer)
    {disk : Disk} {offset : Nat} {registry : IndexRegistry} {store : Table String IndexDir}
    {s : System} {ls : List SystemLabel}
    (h : Machine.run (channelStep c buffer) (start disk offset registry store) ls = some s) :
    (∀ ls' t, (∀ l ∈ ls', l.brings = 0) → Machine.run (channelStep c buffer) s ls' = some t →
      ls'.length ≤ s.work ∧ (Stuck c buffer t → AtRest t ∧ Delivered t)) ∧
    ∃ ls' t, (∀ l ∈ ls', l.brings = 0) ∧ Machine.run (channelStep c buffer) s ls' = some t ∧
      Stuck c buffer t := by
  constructor
  · intro ls' t hown hrun
    constructor
    · have hwork := run_work (run_of_channels hrun)
      have hzero : (ls'.map SystemLabel.brings).sum = 0 := by
        rw [List.sum_eq_zero_iff_forall_eq_nat]
        intro n hn
        obtain ⟨l, hl, rfl⟩ := List.mem_map.mp hn
        exact hown l hl
      omega
    · intro hstuck
      have hrest := (not_blocked_iff hbuffer).mp hstuck
      have hall := run_of_channels (Machine.run_append.mpr ⟨s, h, hrun⟩)
      exact ⟨hrest, hrest.delivered hall⟩
  · apply Machine.exists_stuck (m := work)
    intro u l v hl hstep
    have hwork := step_work (step_cases (channelStep_eq_some.mp hstep).2)
    omega

/-- A request that goes through, with one message of room in each channel. -/
theorem every_request_settles_example : ∃ s t : System,
    Machine.run (channelStep .tiny 1) (start .empty 0 .tiny ∅)
      [.wal (.boot true true true), .wal (.send ⟨"a", utf8 "\x7b\x7d"⟩)] = some s ∧
    AtRest t ∧ Delivered t := by
  have hrun : (Machine.run (channelStep .tiny 1) (start .empty 0 .tiny ∅)
      [.wal (.boot true true true), .wal (.send ⟨"a", utf8 "\x7b\x7d"⟩)]).isSome = true := by
    decide +kernel
  obtain ⟨s, hs⟩ := Option.isSome_iff_exists.mp hrun
  obtain ⟨hsettles, ls', t, hown, ht, hstuck⟩ := every_request_settles (by decide) hs
  have hrest := (hsettles ls' t hown ht).2 hstuck
  exact ⟨s, t, hs, hrest⟩

end System

/-! ## What is held in memory -/

namespace Wal

/-- A request arrives at the end of the queue; a step of the worker takes one off its front,
or none. -/
theorem step_queue {w t : Wal} {l : Label} (h : Step w l t) :
    t.queue.length ≤ w.queue.length ∨
      ∃ event, l = .send event ∧ t.queue.length = w.queue.length + 1 := by
  cases h with
  | @send event => exact Or.inr ⟨event, rfl, by simp [send]⟩
  | @boot dirOk openOk metadataOk =>
    left
    obtain heq | ⟨handle, disk, size, -, -, heq⟩ := boot_cases w dirOk openOk metadataOk <;> rw [heq]
  | recv hphase hnext => exact Or.inl (by simp [hnext])
  | tryRecv hphase hnext => exact Or.inl (by simp [hnext])
  | @frame req rest toIndex io =>
    left
    obtain ⟨v, ⟨buf, disk, written, rfl⟩, -, ⟨-, heq⟩ | ⟨-, heq⟩⟩ :=
      writeFrame_cases w req rest toIndex io <;> rw [heq]
  | @flush toIndex io => left; cases io <;> exact Nat.le_refl _
  | @sync toIndex ok => left; cases ok <;> exact Nat.le_refl _
  | @rotate toIndex flush syncOk openOk =>
    left
    obtain ⟨path, disk, handle, buf, size, written, heq⟩ := rotate_eq w toIndex flush syncOk openOk
    rw [heq]
  | @shutdown io => left; cases io <;> exact Nat.le_refl _
  | _ => exact Or.inl (Nat.le_refl _)

end Wal

namespace Indexer

/-- The actor's own steps take messages; only `schedule` brings one. -/
theorem step_channels {c : IndexerConfig} {s t : Indexer} {l : IndexerLabel} (h : Step c s l t)
    (hown : ∀ event, l ≠ .deliver event) :
    t.receiver.length ≤ s.receiver.length ∧
    (t.purgeRx.length ≤ s.purgeRx.length ∨
      ∃ cmd, l = .schedule cmd ∧ t.purgeRx.length = s.purgeRx.length + 1) := by
  cases h with
  | @deliver event => exact absurd rfl (hown event)
  | @schedule cmd => exact ⟨Nat.le_refl _, Or.inr ⟨cmd, rfl, by simp⟩⟩
  | @event faults event rest hphase hnext =>
    obtain ⟨hreceiver, hpurge, -, -⟩ := takeEvent_frame c.toExternals s event rest faults
    rw [hreceiver, hpurge, hnext]
    exact ⟨by simp, Or.inl (Nat.le_refl _)⟩
  | @purge faults cmd rest hphase hnext =>
    obtain ⟨hreceiver, hpurge, -, -⟩ := takePurge_frame c.toExternals s cmd rest faults
    rw [hreceiver, hpurge, hnext]
    exact ⟨Nat.le_refl _, Or.inl (by simp)⟩
  | @commit name ok offset =>
    obtain ⟨hreceiver, hpurge⟩ := commit_frame c.toExternals s name offset ok
    rw [hreceiver, hpurge]
    exact ⟨Nat.le_refl _, Or.inl (Nat.le_refl _)⟩
  | @compactOpen name segments =>
    unfold compactOpen
    split <;> exact ⟨Nat.le_refl _, Or.inl (Nat.le_refl _)⟩
  | _ => exact ⟨Nat.le_refl _, Or.inl (Nat.le_refl _)⟩

/-- A stopped actor stays stopped. -/
theorem step_alive {c : IndexerConfig} {s t : Indexer} {l : IndexerLabel} (h : Step c s l t)
    (halive : t.phase ≠ .stopped) : s.phase ≠ .stopped := by
  cases h with
  | @compactOpen name segments =>
    unfold compactOpen at halive
    split at halive <;> exact halive
  | event hphase => simp [hphase]
  | purge hphase => simp [hphase]
  | check hphase => simp [hphase]
  | tick hphase => simp [hphase]
  | commit hphase => simp [hphase]
  | committed hphase => simp [hphase]
  | _ => exact halive

end Indexer

namespace System

theorem pending_le_one (w : Wal) : w.pending.length ≤ 1 := by
  unfold Wal.pending
  split <;> simp

/-- No channel is over its capacity. -/
structure Backlog (buffer : Nat) (s : System) : Prop where
  requests : s.wal.queue.length ≤ buffer
  events : s.indexer.phase ≠ .stopped → s.indexer.receiver.length ≤ buffer
  purges : s.indexer.phase ≠ .stopped → s.indexer.purgeRx.length ≤ purgeBuffer

theorem step_backlog {c : IndexerConfig} {buffer : Nat} {s t : System} {l : SystemLabel}
    (hadmits : s.Admits buffer l) (h : Step c s l t) (hs : Backlog buffer s) : Backlog buffer t := by
  cases h with
  | @wal l w moves =>
    have hstep := Wal.step_cases moves
    refine ⟨?_, ?_, hs.purges⟩
    · rcases Wal.step_queue hstep with hle | ⟨event, rfl, hone⟩
      · exact Nat.le_trans hle hs.requests
      · have hroom : s.wal.queue.length < buffer := hadmits
        dsimp only
        omega
    · intro halive
      have hroom := hs.events halive
      simp only [Indexer.receive, List.length_append]
      cases l with
      | forward =>
        obtain hstopped | hfree : _ ∨ s.indexer.receiver.length < buffer := hadmits
        · exact absurd hstopped halive
        · have hone : (s.wal.forwarded .forward).length ≤ 1 := by
            simp only [Wal.forwarded, Wal.pending]
            split <;> simp
          omega
      | _ => simpa [Wal.forwarded] using hroom
  | @indexer l i own moves =>
    have hstep := Indexer.step_cases moves
    obtain ⟨hreceiver, hpurge⟩ := Indexer.step_channels hstep own
    refine ⟨hs.requests, ?_, ?_⟩
    · intro halive
      exact Nat.le_trans hreceiver (hs.events (Indexer.step_alive hstep halive))
    · intro halive
      have halive' := Indexer.step_alive hstep halive
      rcases hpurge with hle | ⟨cmd, rfl, hone⟩
      · exact Nat.le_trans hle (hs.purges halive')
      · obtain hstopped | hfree : _ ∨ s.indexer.purgeRx.length < purgeBuffer := hadmits
        · exact absurd hstopped halive'
        · dsimp only
          omega

theorem run_backlog {c : IndexerConfig} {buffer : Nat} {disk : Disk} {offset : Nat}
    {registry : IndexRegistry} {store : Table String IndexDir} {s : System} {ls : List SystemLabel}
    (h : Machine.run (channelStep c buffer) (start disk offset registry store) ls = some s) :
    Backlog buffer s := by
  refine Machine.run_invariant ?_ ?_ h
  · exact ⟨Nat.zero_le _, fun _ => Nat.zero_le _, fun _ => Nat.zero_le _⟩
  · intro u l v hstep hu
    obtain ⟨hadmits, hmoves⟩ := channelStep_eq_some.mp hstep
    exact step_backlog hadmits (step_cases hmoves) hu

/-- **Memory is bounded.** Over any run, the requests that are neither answered nor dropped
fit in the channel and one batch, and the acknowledged events that a living indexer has not
taken fit in its channel, but for the one whose send is under way. -/
theorem backlog_bounded {c : IndexerConfig} {buffer : Nat} {disk : Disk} {offset : Nat}
    {registry : IndexRegistry} {store : Table String IndexDir} {s : System} {ls : List SystemLabel}
    (h : Machine.run (channelStep c buffer) (start disk offset registry store) ls = some s) :
    s.wal.arrived.length ≤
      (s.wal.past.flatMap fun r => r.answers.map Prod.fst ++ r.dropped).length + maxBatch + buffer ∧
    (s.indexer.phase ≠ .stopped →
      s.wal.acknowledged.length ≤ s.indexer.taken.length + buffer + 1) := by
  have hrun := run_of_channels h
  have hbacklog := run_backlog h
  obtain ⟨lw, hwal, -⟩ := run_wal hrun
  have hb := Wal.run_books hwal
  constructor
  · have harr := congrArg List.length hb.arrival
    have hsettled : (s.wal.past.flatMap fun r => r.answers.map Prod.fst ++ r.dropped) =
        s.wal.past.flatMap BatchRecord.requests :=
      List.flatMap_congr fun r hr => (hb.settled r hr).requests_eq.symm
    have hheld := Wal.run_held hwal
    have hqueue := hbacklog.requests
    simp only [List.length_append] at harr
    simp only [Wal.held] at hheld
    rw [hsettled]
    omega
  · intro halive
    have hack := congrArg List.length (run_acknowledged hrun)
    have hevents := hbacklog.events halive
    have hpending := pending_le_one s.wal
    simp only [waiting, List.length_map, List.length_append] at hack
    omega

/-- One request, acknowledged and not yet sent on. -/
def acknowledgeOne (event : IngestEvent) : List SystemLabel :=
  [.wal (.boot true true true), .wal (.send event), .wal .recv, .wal .closeBatch, .wal (.frame []),
    .wal (.flush .ok), .wal (.sync true), .wal (.rotate .ok true true), .wal .respond]

theorem acknowledgeOne_run : ∃ s, Machine.run (channelStep .tiny 1) (start .empty 0 .tiny ∅)
    (acknowledgeOne ⟨"a", utf8 "\x7b\x7d"⟩) = some s ∧ s.wal.acknowledged.length = 1 ∧
    s.indexer.taken.length = 0 ∧ s.indexer.phase ≠ .stopped := by
  have hrun : (Machine.run (channelStep .tiny 1) (start .empty 0 .tiny ∅)
      (acknowledgeOne ⟨"a", utf8 "\x7b\x7d"⟩)).map (fun s => (s.wal.acknowledged.length,
        s.indexer.taken.length, decide (s.indexer.phase ≠ .stopped))) = some (1, 0, true) := by
    decide +kernel
  obtain ⟨s, hs, hseen⟩ := Option.map_eq_some_iff.mp hrun
  simp only [Prod.mk.injEq, decide_eq_true_eq] at hseen
  exact ⟨s, hs, hseen⟩

theorem backlog_bounded_example : ∃ s : System, s.wal.acknowledged.length = 1 ∧
    s.wal.acknowledged.length ≤ s.indexer.taken.length + 1 + 1 := by
  obtain ⟨s, hs, hack, -, halive⟩ := acknowledgeOne_run
  exact ⟨s, hack, (backlog_bounded hs).2 halive⟩

end System

/-! ## What a crash can lose -/

namespace Indexer

/-- The count bounds what is staged, and the count is bounded by the commit interval. -/
structure Counted (c : IndexerConfig) (s : Indexer) : Prop where
  dirty : DirtyExact s
  counted : s.stagedAdds ≤ s.docsSinceCommit
  bounded : s.docsSinceCommit ≤ max 1 c.commitIntervalDocs
  room : s.phase = .idle → s.docsSinceCommit < max 1 c.commitIntervalDocs

theorem start_counted (c : IndexerConfig) (registry : IndexRegistry)
    (store : Table String IndexDir) : Counted c (start registry store) where
  dirty := start_dirtyExact registry store
  counted := Nat.zero_le _
  bounded := Nat.zero_le _
  room := by simp [start]

/-- Without dirty indexes nothing is staged. -/
theorem DirtyExact.stagedAdds_zero {s : Indexer} (h : DirtyExact s) (hclean : s.dirtyWriters = ∅) :
    s.stagedAdds = 0 := by
  apply Table.total_eq_zero_iff.mpr
  intro n ops hops
  have hstaged : s.staged n = ops := by simp [staged, hops]
  have hempty : s.staged n = [] := by
    by_contra hne
    have hmem := (h n).mpr hne
    rw [hclean] at hmem
    exact AList.notMem_empty n hmem
  rw [← hstaged, hempty, adds_nil]

/-- A step that stages no document and counts none keeps the count. -/
theorem Counted.still {c : IndexerConfig} {s t : Indexer} (hs : Counted c s) (hdirty : DirtyExact t)
    (hadds : t.stagedAdds ≤ s.stagedAdds) (hdocs : t.docsSinceCommit = s.docsSinceCommit)
    (hidle : t.phase = .idle → s.phase = .idle) : Counted c t := by
  have hcounted := hs.counted
  refine ⟨hdirty, ?_, ?_, ?_⟩
  · rw [hdocs]
    exact Nat.le_trans hadds hcounted
  · rw [hdocs]
    exact hs.bounded
  · intro h
    rw [hdocs]
    exact hs.room (hidle h)

theorem step_counted {c : IndexerConfig} {s t : Indexer} {l : IndexerLabel} (hok : CommitOk l)
    (h : Step c s l t) (hs : Counted c s) : Counted c t := by
  have hdirty := step_dirtyExact h hok hs.dirty
  cases h with
  | @event faults event rest hphase hnext =>
    rcases takeEvent_cases c.toExternals s event rest faults with
      ⟨e, u, hopens, heq⟩ | ⟨doc, u, hstages, heq⟩ <;> rw [heq] at hdirty ⊢
    · obtain ⟨_, _, _, hsame⟩ := id hopens.same
      apply hs.still hdirty (Nat.le_of_eq hopens.pending) _ fun _ => hphase
      rw [hsame]
      rfl
    · have hroom := hs.room hphase
      have hcounted := hs.counted
      have hpending : u.stagedAdds = s.stagedAdds + 1 := hstages.pending
      obtain ⟨_, _, _, _, hsame⟩ := id hstages.same
      have hdocs : (u.handleEvent event (.ok (.add doc event.walOffset))).docsSinceCommit =
          s.docsSinceCommit + 1 := by
        rw [hsame]
        rfl
      refine ⟨hdirty, ?_, ?_, ?_⟩
      · rw [hdocs]
        change u.stagedAdds ≤ _
        omega
      · rw [hdocs]
        omega
      · simp [handleEvent]
  | @purge faults cmd rest hphase hnext =>
    rcases takePurge_cases c.toExternals s cmd rest faults with
      ⟨e, u, hopens, heq⟩ | ⟨field, u, hstages, heq⟩ <;> rw [heq] at hdirty ⊢
    · obtain ⟨_, _, _, hsame⟩ := id hopens.same
      apply hs.still hdirty (Nat.le_of_eq hopens.pending) _ fun _ => hphase
      rw [hsame]
      rfl
    · obtain ⟨_, _, _, _, hsame⟩ := id hstages.same
      apply hs.still hdirty (Nat.le_of_eq hstages.pending) _ fun _ => hphase
      rw [hsame]
      rfl
  | check hphase =>
    refine ⟨hdirty, hs.counted, hs.bounded, ?_⟩
    intro hidle
    by_cases hfull : c.commitIntervalDocs ≤ s.docsSinceCommit
    · simp [hfull] at hidle
    · dsimp only
      omega
  | tick hphase => exact hs.still hdirty (Nat.le_refl _) rfl fun _ => hphase
  | @commit name ok offset hphase hoffset =>
    have hphase' := commit_phase c.toExternals s name offset ok
    rcases commit_cases c.toExternals s name offset ok with ⟨-, heq⟩ | ⟨-, -, hcommits⟩
    · rw [heq] at hdirty ⊢
      exact hs.still hdirty (Nat.le_refl _) rfl id
    · obtain ⟨_, _, hsame⟩ := id hcommits.same
      have hpending := hcommits.pending
      apply hs.still hdirty
      · omega
      · rw [hsame]
      · rw [hphase']
        exact id
  | committed hphase hclean =>
    have hzero := hs.dirty.stagedAdds_zero (Table.isEmpty_iff.mp hclean)
    exact ⟨hdirty, Nat.le_of_eq hzero, Nat.zero_le _, fun _ => by simp⟩
  | @compactOpen name segments =>
    unfold compactOpen
    split
    · exact hs
    · exact ⟨hs.dirty, hs.counted, hs.bounded, hs.room⟩
  | _ => exact hs.still hdirty (Nat.le_refl _) rfl id

theorem run_counted {c : IndexerConfig} {registry : IndexRegistry} {store : Table String IndexDir}
    {t : Indexer} {ls : List IndexerLabel} (hok : ∀ l ∈ ls, CommitOk l)
    (h : Machine.run (step c) (start registry store) ls = some t) : Counted c t := by
  have hG : Machine.Along (step c) (fun _ l => CommitOk l) (start registry store) ls :=
    Machine.along_of_labels hok
  exact Machine.run_guarded (start_counted c registry store)
    (fun _ _ _ hl hstep => step_counted hl (step_cases hstep)) hG h

end Indexer

namespace System

/-- **The loss window.** If no commit fails, every event acknowledged so far has been turned
down by the indexer or committed to its index, but for those staged and those on their way;
these are never more than one commit interval, one full channel and one event. -/
theorem loss_window {c : IndexerConfig} {buffer : Nat} {disk : Disk} {offset : Nat}
    {registry : IndexRegistry} {store : Table String IndexDir} {s : System} {ls : List SystemLabel}
    (h : Machine.run (channelStep c buffer) (start disk offset registry store) ls = some s)
    (hok : ∀ l, .indexer l ∈ ls → Indexer.CommitOk l) (halive : s.indexer.phase ≠ .stopped) :
    s.wal.acknowledged.map WalRequest.event =
      (s.indexer.taken.map Prod.fst ++ s.waiting).map IndexerEvent.event ∧
    (∀ n, ∃ done, (s.indexer.dir n).applied =
        ((start disk offset registry store).indexer.dir n).applied ++ done ∧
      Indexer.accepted n s.indexer.handled = done ++ s.indexer.staged n) ∧
    s.indexer.stagedAdds + s.waiting.length ≤ max 1 c.commitIntervalDocs + buffer + 1 := by
  have hrun := run_of_channels h
  refine ⟨run_acknowledged hrun, fun n => ?_, ?_⟩
  · obtain ⟨done, happlied, -, haccepted⟩ := run_ledger hrun n
    exact ⟨done, happlied, haccepted⟩
  · obtain ⟨li, hindexer, hlabels⟩ := run_indexer hrun
    have hclean : ∀ l ∈ li, Indexer.CommitOk l := by
      intro l hl
      obtain ⟨event, rfl⟩ | hmem := hlabels l hl
      · trivial
      · exact hok l hmem
    have hcounted := Indexer.run_counted hclean hindexer
    have hevents := (run_backlog h).events halive
    have hpending := pending_le_one s.wal
    have hstaged := hcounted.counted
    have hinterval := hcounted.bounded
    simp only [waiting, List.length_append]
    omega

theorem loss_window_example : ∃ s : System, s.wal.acknowledged.length = 1 ∧
    s.indexer.stagedAdds + s.waiting.length ≤ 4 := by
  obtain ⟨s, hs, hack, -, halive⟩ := acknowledgeOne_run
  exact ⟨s, hack, (loss_window hs (by simp [acknowledgeOne]) halive).2.2⟩

end System
end Edgewit
