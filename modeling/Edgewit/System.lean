import Edgewit.LogStream
import Edgewit.Refinement

/-!
# The appender and the indexer together

The two workers run side by side. What the appender sends after an acknowledgement
arrives on the indexer's channel; nothing goes the other way.
-/

namespace Edgewit

structure System where
  wal : Wal
  indexer : Indexer

inductive SystemLabel where
  | wal (l : Label)
  | indexer (l : IndexerLabel)
  deriving DecidableEq, Repr

/-- The events a step of the appender sends to the indexer. -/
def Wal.forwarded (w : Wal) : Label → List IndexerEvent
  | .forward => w.pending
  | _ => []

def Indexer.receive (s : Indexer) (events : List IndexerEvent) : Indexer :=
  { s with receiver := s.receiver ++ events, arrived := s.arrived ++ events }

namespace System

/-- The workers as `main` starts them. -/
def start (disk : Disk) (offset : Nat) (registry : IndexRegistry) (store : Table String IndexDir) :
    System :=
  ⟨.start disk offset, .start registry store⟩

/-- The appender alone delivers events. -/
def step (c : IndexerConfig) (s : System) : SystemLabel → Option System
  | .wal l => (s.wal.step l).map fun w => ⟨w, s.indexer.receive (s.wal.forwarded l)⟩
  | .indexer (.deliver _) => none
  | .indexer l => (s.indexer.step c l).map fun i => ⟨s.wal, i⟩

inductive Step (c : IndexerConfig) : System → SystemLabel → System → Prop
  | wal {s : System} {l : Label} {w : Wal} (moves : s.wal.step l = some w) :
      Step c s (.wal l) ⟨w, s.indexer.receive (s.wal.forwarded l)⟩
  | indexer {s : System} {l : IndexerLabel} {i : Indexer} (own : ∀ event, l ≠ .deliver event)
      (moves : s.indexer.step c l = some i) : Step c s (.indexer l) ⟨s.wal, i⟩

theorem step_cases {c : IndexerConfig} {s t : System} {l : SystemLabel}
    (h : s.step c l = some t) : Step c s l t := by
  cases l with
  | wal l =>
    obtain ⟨w, hw, rfl⟩ := Option.map_eq_some_iff.mp h
    exact .wal hw
  | indexer l =>
    cases l with
    | deliver event => cases h
    | _ =>
      simp only [step, Option.map_eq_some_iff] at h
      obtain ⟨i, hi, rfl⟩ := h
      exact .indexer (by simp) hi

/-! ## The two workers on their own -/

/-- The appender of a run runs on its own. -/
theorem run_wal {c : IndexerConfig} {s t : System} {ls : List SystemLabel}
    (h : Machine.run (step c) s ls = some t) :
    ∃ ls', Machine.run Wal.step s.wal ls' = some t.wal ∧ ∀ l ∈ ls', .wal l ∈ ls := by
  have hstep : ∀ u l v, True → l ∈ ls → step c u l = some v →
      True ∧ ∃ ls', Machine.run Wal.step u.wal ls' = some v.wal ∧ ∀ l' ∈ ls', l = .wal l' := by
    intro u l v _ _ hstep
    refine ⟨trivial, ?_⟩
    cases step_cases hstep with
    | @wal l w moves => exact ⟨[l], Machine.run_cons.mpr ⟨w, moves, rfl⟩, by simp⟩
    | indexer => exact ⟨[], rfl, by simp⟩
  obtain ⟨ls', hrun, hlabels⟩ := Machine.run_simulates trivial hstep h
  refine ⟨ls', hrun, ?_⟩
  intro l hl
  obtain ⟨k, hk, rfl⟩ := hlabels l hl
  exact hk

theorem receive_nil (s : Indexer) : s.receive [] = s := by
  simp [Indexer.receive]

theorem receive_run {c : IndexerConfig} (s : Indexer) (events : List IndexerEvent) :
    Machine.run (Indexer.step c) s (events.map .deliver) = some (s.receive events) := by
  induction events generalizing s with
  | nil => simp [receive_nil]
  | cons event rest ih =>
    rw [List.map_cons]
    apply Machine.run_cons.mpr
    refine ⟨s.receive [event], rfl, ?_⟩
    rw [ih]
    simp [Indexer.receive]

/-- The indexer of a run runs on its own, with the events delivered to it. -/
theorem run_indexer {c : IndexerConfig} {s t : System} {ls : List SystemLabel}
    (h : Machine.run (step c) s ls = some t) :
    ∃ ls', Machine.run (Indexer.step c) s.indexer ls' = some t.indexer ∧
      ∀ l ∈ ls', (∃ event, l = .deliver event) ∨ .indexer l ∈ ls := by
  have hstep : ∀ u l v, True → l ∈ ls → step c u l = some v →
      True ∧ ∃ ls', Machine.run (Indexer.step c) u.indexer ls' = some v.indexer ∧
        ∀ l' ∈ ls', (∃ event, l' = .deliver event) ∨ l = .indexer l' := by
    intro u l v _ _ hstep
    refine ⟨trivial, ?_⟩
    cases step_cases hstep with
    | @wal l w moves =>
      refine ⟨(u.wal.forwarded l).map .deliver, receive_run _ _, ?_⟩
      intro l' hl'
      obtain ⟨event, -, rfl⟩ := List.mem_map.mp hl'
      exact Or.inl ⟨event, rfl⟩
    | @indexer l i own moves => exact ⟨[l], Machine.run_cons.mpr ⟨i, moves, rfl⟩, by simp⟩
  obtain ⟨ls', hrun, hlabels⟩ := Machine.run_simulates trivial hstep h
  refine ⟨ls', hrun, ?_⟩
  intro l hl
  obtain ⟨k, hk, hdeliver | rfl⟩ := hlabels l hl
  · exact Or.inl hdeliver
  · exact Or.inr hk

end System

/-! ## What the appender hands over -/

namespace Wal

theorem step_sent {w t : Wal} {l : Label} (h : Step w l t) : t.sent = w.sent ++ w.forwarded l := by
  cases h with
  | @forward event rest hphase => simp [forward, forwarded, pending, hphase]
  | @boot dirOk openOk metadataOk =>
    obtain heq | ⟨handle, disk, size, -, -, heq⟩ := boot_cases w dirOk openOk metadataOk <;>
      simp [heq, forwarded]
  | @frame req rest toIndex io =>
    obtain ⟨v, ⟨buf, disk, written, rfl⟩, -, ⟨-, heq⟩ | ⟨-, heq⟩⟩ :=
      writeFrame_cases w req rest toIndex io <;> simp [heq, forwarded]
  | @flush toIndex io => cases io <;> simp [Wal.flush, flushBuf, push, forwarded]
  | @sync toIndex ok => cases ok <;> simp [sync, forwarded]
  | @rotate toIndex flush syncOk openOk =>
    obtain ⟨path, disk, handle, buf, size, written, heq⟩ := rotate_eq w toIndex flush syncOk openOk
    simp [heq, forwarded]
  | @shutdown io => cases io <;> simp [shutdown, flushBuf, push, forwarded]
  | _ => simp [send, closeBatch, respond, fail, finish, forwarded]

end Wal

namespace System

/-- The indexer has been sent what the appender has sent. -/
theorem run_sent {c : IndexerConfig} {disk : Disk} {offset : Nat} {registry : IndexRegistry}
    {store : Table String IndexDir} {t : System} {ls : List SystemLabel}
    (h : Machine.run (step c) (start disk offset registry store) ls = some t) :
    t.indexer.arrived = t.wal.sent := by
  refine Machine.run_invariant (I := fun s : System => s.indexer.arrived = s.wal.sent) rfl ?_ h
  intro u l v hstep hu
  cases step_cases hstep with
  | @wal l w moves =>
    rw [Wal.step_sent (Wal.step_cases moves), ← hu]
    rfl
  | @indexer l i own moves =>
    rcases Indexer.step_taken (Indexer.step_cases moves) with
      ⟨faults, event, rest, -, -, rfl⟩ | ⟨-, -, -, more, -, harrived, hnone | ⟨event, hdeliver⟩⟩
    · obtain ⟨_, _, _, _, hsame⟩ :=
        (Indexer.processEvent_touches c.toExternals { u.indexer with receiver := rest } event faults).same
      rw [Indexer.takeEvent_eq, hsame]
      exact hu
    · rw [harrived, hnone, List.append_nil]
      exact hu
    · exact absurd hdeliver (own event)

/-- A run that acknowledges one event and hands it to the indexer. -/
def oneEvent (event : IngestEvent) : List SystemLabel :=
  [.wal (.boot true true true), .wal (.send event), .wal .recv, .wal .closeBatch, .wal (.frame []),
    .wal (.flush .ok), .wal (.sync true), .wal (.rotate .ok true true), .wal .respond, .wal .forward,
    .wal .finish, .indexer (.event {})]

end System
end Edgewit
