import Edgewit.Protocol
import Edgewit.Reader

/-!
# What a failed batch leaves behind

The frames of a batch go into a buffered stream that a failure does not rewind.
`step_stream` says what one step does to that stream and to the frames that
ought to be in it: either both grow by the same bytes, or something is left over
for good. A failed batch leaves nothing exactly when its first `write_all`
fails and takes no byte.
-/

namespace Edgewit.Wal
open Numerals

/-- Everything handed to the buffered writer: what reached files, then what it
still holds. -/
def stream (w : Wal) : Bytes := w.written ++ w.buf

/-- Written requests that may still be answered Ok. -/
def inFlight (w : Wal) : List WalRequest :=
  match w.phase with
  | .writing _ toIndex | .syncing toIndex | .rotating toIndex | .responding toIndex
  | .forwarding _ toIndex => toIndex.map Prod.fst
  | _ => []

/-- The frames that ought to be in the stream. -/
def expected (w : Wal) : Bytes :=
  frames ((w.acknowledged ++ w.inFlight).map WalRequest.event)

/-- The log of the run is what the senders were told, and the offset counts it. -/
def NoTrace (offset : Nat) (w : Wal) : Prop :=
  w.written = frames (w.acknowledged.map WalRequest.event) ∧
  w.currentOffset = offset + w.written.length

/-- The five calls of a frame succeed. -/
def FrameOk (io : List WriteOutcome) : Prop := ∀ o ∈ io.take 5, o.isOk = true

/-- The first call of a frame fails and takes no byte. -/
def failsAtOnce : List WriteOutcome → Bool
  | .err 0 _ :: _ => true
  | _ => false

/-- A step that fails no batch, or fails it in its first `write_all`, which takes
no byte. -/
def LeavesNothing (w : Wal) (l : Label) : Prop :=
  match w.phase, l with
  | .writing _ toIndex, .frame io => FrameOk io ∨ (toIndex = [] ∧ failsAtOnce io = true)
  | .writing _ _, .flush io => io = .ok
  | .syncing _, .sync ok => ok = true
  | _, _ => True

instance (w : Wal) (l : Label) : Decidable (LeavesNothing w l) := by
  unfold LeavesNothing FrameOk
  split <;> infer_instance

/-! ## The stream under the writer's operations -/

@[simp] theorem stream_push (w : Wal) (bytes : Bytes) (out : Nat) :
    (w.push bytes out).stream = w.stream ++ bytes := by
  simp [stream, push]

@[simp] theorem stream_flushBuf (w : Wal) (io : FlushOutcome) :
    (w.flushBuf io).2.stream = w.stream := by
  cases io <;> simp [flushBuf]

theorem writePieces_ok_iff (w : Wal) (ps : List Bytes) (io : List WriteOutcome) :
    (w.writePieces ps io).1 = true ↔ ∀ o ∈ io.take ps.length, o.isOk = true := by
  induction ps generalizing w io with
  | nil => simp [writePieces]
  | cons p ps ih =>
    cases io with
    | nil => simpa [writePieces] using (ih (w.push p 0) []).mpr (by simp)
    | cons o io =>
      cases o with
      | ok out => simpa [writePieces, WriteOutcome.isOk] using ih (w.push p out) io
      | err taken out => simp [writePieces, WriteOutcome.isOk]

theorem stream_writePieces_ok {w : Wal} {ps : List Bytes} {io : List WriteOutcome}
    (h : (w.writePieces ps io).1 = true) :
    (w.writePieces ps io).2.stream = w.stream ++ ps.flatten := by
  induction ps generalizing w io with
  | nil => simp [writePieces]
  | cons p ps ih =>
    simp only [writePieces] at h ⊢
    cases hio : io.headD (.ok 0) with
    | ok out =>
      simp only [hio] at h ⊢
      rw [ih h]
      simp
    | err taken out =>
      simp only [hio] at h
      cases h

/-- What a failed frame took stays in the stream. -/
theorem stream_writePieces (w : Wal) (ps : List Bytes) (io : List WriteOutcome) :
    ∃ extra, (w.writePieces ps io).2.stream = w.stream ++ extra := by
  induction ps generalizing w io with
  | nil => exact ⟨[], by simp [writePieces]⟩
  | cons p ps ih =>
    simp only [writePieces]
    cases io.headD (.ok 0) with
    | ok out =>
      obtain ⟨extra, hextra⟩ := ih (w.push p out) io.tail
      exact ⟨p ++ extra, by simp [hextra]⟩
    | err taken out => exact ⟨p.take taken, by simp⟩

/-- A frame that fails later than in its first call leaves bytes. -/
theorem stream_writePieces_err {w : Wal} {p : Bytes} {ps : List Bytes} {io : List WriteOutcome}
    (hp : p ≠ []) (hfail : (w.writePieces (p :: ps) io).1 = false) :
    ∃ extra, (w.writePieces (p :: ps) io).2.stream = w.stream ++ extra ∧
      (extra = [] ↔ failsAtOnce io = true) := by
  cases io with
  | nil =>
    obtain ⟨extra, hextra⟩ := stream_writePieces (w.push p 0) ps []
    refine ⟨p ++ extra, ?_, by simp [failsAtOnce, hp]⟩
    simpa [writePieces] using hextra
  | cons o io =>
    cases o with
    | ok out =>
      obtain ⟨extra, hextra⟩ := stream_writePieces (w.push p out) ps io
      refine ⟨p ++ extra, ?_, by simp [failsAtOnce, hp]⟩
      simpa [writePieces] using hextra
    | err taken out =>
      cases taken with
      | zero => exact ⟨[], by simp [writePieces], by simp [failsAtOnce]⟩
      | succ taken => exact ⟨p.take (taken + 1), by simp [writePieces], by simp [failsAtOnce, hp]⟩

/-! ## One step -/

/-- The batch at hand has requests. -/
def NonEmpty (w : Wal) : Prop :=
  match w.phase with
  | .batching batch => batch ≠ []
  | .writing rest toIndex => rest ≠ [] ∨ toIndex ≠ []
  | .syncing toIndex => toIndex ≠ []
  | _ => True

/-- The buffer is empty from the flush of a batch to its end. -/
def Drained (w : Wal) : Prop :=
  match w.phase with
  | .boot | .syncing _ | .rotating _ | .responding _ | .forwarding _ _ => w.buf = []
  | .waiting => ∀ r, w.past.getLast? = some r → r.synced = true → w.buf = []
  | _ => True

theorem step_nonEmpty {w t : Wal} {l : Label} (h : Step w l t) (hne : NonEmpty w) :
    NonEmpty t := by
  unfold NonEmpty at hne
  cases h with
  | send => exact hne
  | @boot dirOk openOk metadataOk =>
    obtain heq | ⟨handle, disk, size, -, -, heq⟩ := boot_cases w dirOk openOk metadataOk <;>
      rw [heq] <;> trivial
  | recv => exact List.cons_ne_nil _ _
  | tryRecv => simp [NonEmpty]
  | closeBatch hphase =>
    rw [hphase] at hne
    exact Or.inl hne
  | @frame req rest toIndex io =>
    obtain ⟨v, -, -, ⟨-, heq⟩ | ⟨-, heq⟩⟩ := writeFrame_cases w req rest toIndex io <;> rw [heq]
    · exact Or.inr (by simp)
    · trivial
  | @flush toIndex io hphase =>
    rw [hphase] at hne
    cases io with
    | ok => simpa [NonEmpty, flush, flushBuf] using hne
    | err out => simp [NonEmpty, flush, flushBuf]
  | @sync toIndex ok => cases ok <;> trivial
  | @rotate toIndex flush syncOk openOk =>
    obtain ⟨path, disk, handle, buf, size, written, heq⟩ := rotate_eq w toIndex flush syncOk openOk
    rw [heq]
    trivial
  | respond | forward | fail | finishOk | finishFailed | shutdown => trivial

theorem step_drained {w t : Wal} {l : Label} (h : Step w l t) (hb : Books w) (hdry : Drained w) :
    Drained t := by
  have hcur := hb.current
  unfold Drained at hdry
  cases h with
  | send => exact hdry
  | @boot dirOk openOk metadataOk =>
    obtain heq | ⟨handle, disk, size, -, -, heq⟩ := boot_cases w dirOk openOk metadataOk <;> rw [heq]
    · trivial
    · exact fun _ _ _ => rfl
  | recv | tryRecv | closeBatch | fail | shutdown => trivial
  | @frame req rest toIndex io =>
    obtain ⟨v, -, -, ⟨-, heq⟩ | ⟨-, heq⟩⟩ := writeFrame_cases w req rest toIndex io <;>
      rw [heq] <;> trivial
  | @flush toIndex io =>
    cases io with
    | ok => simp [Drained, flush, flushBuf, push]
    | err out => simp [Drained, flush, flushBuf]
  | @sync toIndex ok hphase =>
    rw [hphase] at hdry
    cases ok with
    | true => exact hdry
    | false => trivial
  | @rotate toIndex flush syncOk openOk hphase =>
    rw [hphase] at hdry
    obtain ⟨-, heq⟩ | ⟨-, d, -, heq | ⟨handle, disk, -, heq⟩⟩ :=
      rotate_cases hdry toIndex flush syncOk openOk <;>
      rw [heq] <;> exact hdry
  | respond hphase | forward hphase =>
    rw [hphase] at hdry
    exact hdry
  | finishOk hphase =>
    rw [hphase] at hdry
    exact fun _ _ _ => hdry
  | finishFailed hphase =>
    simp only [InProgress, hphase] at hcur
    intro r hlast hsync
    simp only [finish, List.getLast?_concat, Option.some.injEq] at hlast
    rw [← hlast, hcur.1] at hsync
    cases hsync

/-- What is known of every state of a run, besides its bytes. -/
structure Flow (w : Wal) : Prop where
  books : Books w
  nonEmpty : NonEmpty w
  drained : Drained w

theorem start_flow (disk : Disk) (offset : Nat) : Flow (start disk offset) :=
  ⟨start_books disk offset, trivial, rfl⟩

theorem step_flow {w t : Wal} {l : Label} (h : Step w l t) (hf : Flow w) : Flow t :=
  ⟨step_books h hf.books, step_nonEmpty h hf.nonEmpty, step_drained h hf.books hf.drained⟩

/-- The stream, the frames that ought to be in it and the offset grow alike. -/
def InStep (w t : Wal) : Prop :=
  ∃ bs, t.stream = w.stream ++ bs ∧ t.expected = w.expected ++ bs ∧
    t.currentOffset = w.currentOffset + bs.length

/-- The stream gets bytes that ought not to be in it, or keeps them. -/
def Diverges (w t : Wal) : Prop :=
  ∃ bs lost, t.stream = w.stream ++ bs ∧ w.expected = t.expected ++ lost ∧
    0 < bs.length + lost.length

/-- A step that moves no frame. -/
theorem InStep.still {w t : Wal} (hstream : t.stream = w.stream)
    (hreq : t.acknowledged ++ t.inFlight = w.acknowledged ++ w.inFlight)
    (hoffset : t.currentOffset = w.currentOffset) : InStep w t := by
  refine ⟨[], by simpa using hstream, ?_, hoffset⟩
  rw [expected, hreq]
  simp [expected]

/-- Giving up written requests leaves their frames in the stream. -/
theorem Diverges.give_up {w t : Wal} (extra : Bytes) (hstream : t.stream = w.stream ++ extra)
    (hack : t.acknowledged = w.acknowledged) (hflight : t.inFlight = [])
    (hmore : extra ≠ [] ∨ w.inFlight ≠ []) : Diverges w t := by
  refine ⟨extra, frames (w.inFlight.map WalRequest.event), hstream, ?_, ?_⟩
  · simp [expected, hack, hflight]
  · rcases hmore with hextra | hreq
    · have hpos := List.length_pos_iff.mpr hextra
      omega
    · have hne : w.inFlight.map WalRequest.event ≠ [] := by simpa using hreq
      have hpos := List.length_pos_iff.mpr (frames_ne_nil hne)
      omega

/-- Giving up requests, with some bytes of another, is in step if there are neither. -/
theorem given_up {w t : Wal} {extra : Bytes} (hstream : t.stream = w.stream ++ extra)
    (hack : t.acknowledged = w.acknowledged) (hflight : t.inFlight = [])
    (hoffset : t.currentOffset = w.currentOffset) :
    (InStep w t ∧ w.inFlight = [] ∧ extra = []) ∨
      (Diverges w t ∧ ¬ (w.inFlight = [] ∧ extra = [])) := by
  by_cases hnone : w.inFlight = [] ∧ extra = []
  · refine Or.inl ⟨InStep.still ?_ ?_ hoffset, hnone⟩
    · simpa [hnone.2] using hstream
    · rw [hack, hflight, hnone.1]
  · refine Or.inr ⟨Diverges.give_up extra hstream hack hflight ?_, hnone⟩
    tauto

theorem frame_stream {w : Wal} {req : WalRequest} {rest : List WalRequest}
    {toIndex : List (WalRequest × Nat)} {io : List WriteOutcome}
    (hphase : w.phase = .writing (req :: rest) toIndex) :
    (InStep w (w.writeFrame req rest toIndex io) ∧ LeavesNothing w (.frame io)) ∨
    (Diverges w (w.writeFrame req rest toIndex io) ∧ ¬ LeavesNothing w (.frame io)) := by
  have hok := writePieces_ok_iff w req.event.pieces io
  obtain ⟨v, ⟨buf, disk, written, hv⟩, hres, ⟨htrue, heq⟩ | ⟨hfalse, heq⟩⟩ :=
    writeFrame_cases w req rest toIndex io
  · have hstream := stream_writePieces_ok htrue
    rw [hres] at hstream
    refine Or.inl ⟨⟨req.event.frame, ?_, ?_, ?_⟩, ?_⟩
    · rw [heq]
      exact hstream
    · rw [heq, hv]
      simp [expected, acknowledged, inFlight, hphase]
    · rw [heq]
      simp
    · simp only [LeavesNothing, hphase]
      exact Or.inl (hok.mp htrue)
  · have hnot : ¬ FrameOk io := fun h => by simp [hok.mpr h] at hfalse
    have hp : toLE 2 (utf8 req.event.index).length ≠ [] := by
      intro hnil
      have hlen := congrArg List.length hnil
      simp at hlen
    obtain ⟨extra, hstream, hextra⟩ := stream_writePieces_err hp hfalse
    have hguard : LeavesNothing w (.frame io) ↔ w.inFlight = [] ∧ extra = [] := by
      simp [LeavesNothing, inFlight, hphase, hnot, hextra]
    have hkept : (w.writeFrame req rest toIndex io).stream = w.stream ++ extra := by
      have hsame : v.stream = w.stream ++ extra := by
        rw [← hres]
        exact hstream
      rw [heq]
      exact hsame
    rw [hguard]
    apply given_up hkept
    · rw [heq, hv]
      rfl
    · rw [heq]
      rfl
    · rw [heq, hv]

theorem step_stream {w t : Wal} {l : Label} (h : Step w l t) (hf : Flow w) :
    (InStep w t ∧ LeavesNothing w l) ∨ (Diverges w t ∧ ¬ LeavesNothing w l) := by
  have hne := hf.nonEmpty
  have hdry := hf.drained
  have hcur := hf.books.current
  unfold NonEmpty at hne
  unfold Drained at hdry
  cases h with
  | send =>
    refine Or.inl ⟨InStep.still rfl rfl rfl, ?_⟩
    unfold LeavesNothing
    split <;> simp_all
  | @boot dirOk openOk metadataOk hphase =>
    rw [hphase] at hdry
    refine Or.inl ⟨?_, by simp [LeavesNothing, hphase]⟩
    obtain heq | ⟨handle, disk, size, -, -, heq⟩ := boot_cases w dirOk openOk metadataOk <;> rw [heq]
    · exact InStep.still rfl (by simp [acknowledged, inFlight, hphase]) rfl
    · exact InStep.still (by simp [stream, hdry]) (by simp [acknowledged, inFlight, hphase]) rfl
  | recv hphase | tryRecv hphase | closeBatch hphase =>
    simp only [InProgress, hphase] at hcur
    refine Or.inl ⟨InStep.still rfl ?_ rfl, by simp [LeavesNothing, hphase]⟩
    simp [closeBatch, acknowledged, inFlight, hphase, hcur, BatchRecord.start]
  | frame hphase => exact frame_stream hphase
  | @flush toIndex io hphase =>
    rw [hphase] at hne
    simp only [InProgress, hphase] at hcur
    cases io with
    | ok =>
      refine Or.inl ⟨InStep.still ?_ ?_ ?_, by simp [LeavesNothing, hphase]⟩
      · simp [flush, flushBuf, push, stream]
      · simp [flush, flushBuf, push, acknowledged, inFlight, hphase]
      · simp [flush, flushBuf, push]
    | err out =>
      refine Or.inr ⟨Diverges.give_up [] ?_ ?_ rfl (Or.inr ?_), by simp [LeavesNothing, hphase]⟩
      · simp [flush, flushBuf, push, stream]
      · rfl
      · simpa [inFlight, hphase] using hne
  | @sync toIndex ok hphase =>
    rw [hphase] at hne
    cases ok with
    | true =>
      refine Or.inl ⟨InStep.still rfl ?_ rfl, by simp [LeavesNothing, hphase]⟩
      simp [sync, acknowledged, inFlight, hphase]
    | false =>
      refine Or.inr ⟨Diverges.give_up [] ?_ rfl rfl (Or.inr ?_), by simp [LeavesNothing, hphase]⟩
      · simp [sync, stream]
      · simpa [inFlight, hphase] using hne
  | @rotate toIndex flush syncOk openOk hphase =>
    rw [hphase] at hdry
    refine Or.inl ⟨?_, by simp [LeavesNothing, hphase]⟩
    obtain ⟨-, heq⟩ | ⟨-, d, -, heq | ⟨handle, disk, -, heq⟩⟩ :=
      rotate_cases hdry toIndex flush syncOk openOk <;> rw [heq]
    all_goals exact InStep.still rfl (by simp [acknowledged, inFlight, hphase]) rfl
  | @respond req offset rest hphase =>
    refine Or.inl ⟨InStep.still rfl ?_ rfl, by simp [LeavesNothing, hphase]⟩
    rw [acknowledged_respond]
    simp [respond, inFlight, hphase]
  | forward hphase =>
    refine Or.inl ⟨InStep.still rfl ?_ rfl, by simp [LeavesNothing, hphase]⟩
    simp [forward, acknowledged, inFlight, hphase]
  | fail hphase =>
    refine Or.inl ⟨InStep.still rfl ?_ rfl, by simp [LeavesNothing, hphase]⟩
    rw [acknowledged_fail]
    simp [fail, inFlight, hphase]
  | finishOk hphase | finishFailed hphase =>
    refine Or.inl ⟨InStep.still rfl ?_ rfl, by simp [LeavesNothing, hphase]⟩
    rw [acknowledged_finish]
    simp [finish, inFlight, hphase]
  | @shutdown io hphase =>
    obtain ⟨buf, disk, written, heq⟩ := sameBooks_flushBuf w io
    have hstr := stream_flushBuf w io
    refine Or.inl ⟨InStep.still hstr ?_ ?_, by simp [LeavesNothing, hphase]⟩
    · simp [shutdown, heq, acknowledged, inFlight, hphase]
    · simp [shutdown, heq]

/-! ## Whole runs -/

/-- The stream is what ought to be in it, and the offset counts it. -/
def Exact (offset : Nat) (w : Wal) : Prop :=
  w.stream = w.expected ∧ w.currentOffset = offset + w.stream.length

theorem InStep.exact {offset : Nat} {w t : Wal} (h : InStep w t) (hw : Exact offset w) :
    Exact offset t := by
  obtain ⟨bs, hstream, hexpected, hoffset⟩ := h
  obtain ⟨heq, hcount⟩ := hw
  refine ⟨by rw [hstream, hexpected, heq], ?_⟩
  rw [hoffset, hcount, hstream, List.length_append]
  omega

theorem InStep.excess {w t : Wal} (h : InStep w t) (hw : w.expected.length < w.stream.length) :
    t.expected.length < t.stream.length := by
  obtain ⟨bs, hstream, hexpected, -⟩ := h
  rw [hstream, hexpected, List.length_append, List.length_append]
  omega

theorem Diverges.excess {w t : Wal} (h : Diverges w t) (hw : w.expected.length ≤ w.stream.length) :
    t.expected.length < t.stream.length := by
  obtain ⟨bs, lost, hstream, hexpected, hpos⟩ := h
  rw [hexpected, List.length_append] at hw
  rw [hstream, List.length_append]
  omega

/-- Either no step of the run left anything, or the stream is too long for good. -/
theorem run_stream {disk : Disk} {offset : Nat} {ls : List Label} {w : Wal}
    (h : Machine.run step (start disk offset) ls = some w) :
    Flow w ∧ ((Machine.Along step LeavesNothing (start disk offset) ls ∧ Exact offset w) ∨
      (¬ Machine.Along step LeavesNothing (start disk offset) ls ∧
        w.expected.length < w.stream.length)) := by
  apply Machine.run_history (I := fun ls w => Flow w ∧
    ((Machine.Along step LeavesNothing (start disk offset) ls ∧ Exact offset w) ∨
      (¬ Machine.Along step LeavesNothing (start disk offset) ls ∧
        w.expected.length < w.stream.length)))
    (G := fun _ _ => True) _ _ (Machine.along_of_labels fun _ _ => trivial) h
  · exact ⟨start_flow disk offset, Or.inl ⟨trivial, rfl, rfl⟩⟩
  · rintro pre u l v hrun - hl ⟨hf, hbytes⟩
    have hstep := step_cases hl
    refine ⟨step_flow hstep hf, ?_⟩
    rcases hbytes with ⟨halong, hexact⟩ | ⟨halong, hexcess⟩
    · rcases step_stream hstep hf with ⟨hin, hguard⟩ | ⟨hdiv, hguard⟩
      · exact Or.inl ⟨Machine.along_concat halong hrun hguard, hin.exact hexact⟩
      · have hle : u.expected.length ≤ u.stream.length := by rw [hexact.1]
        exact Or.inr ⟨fun h => hguard (Machine.along_append h hrun).2.1, hdiv.excess hle⟩
    · refine Or.inr ⟨fun h => halong (Machine.along_append h hrun).1, ?_⟩
      rcases step_stream hstep hf with ⟨hin, -⟩ | ⟨hdiv, -⟩
      · exact hin.excess hexcess
      · exact hdiv.excess (Nat.le_of_lt hexcess)

/-- **A failed batch leaves no trace, when it fails at once.** At the end of a
successful batch, the bytes written since the start are the frames of the requests
answered Ok, and the offset counts them, exactly when every batch that failed so
far did so in its first `write_all`, which took no byte. -/
theorem no_trace_iff {disk : Disk} {offset : Nat} {ls : List Label} {w : Wal} {r : BatchRecord}
    (h : Machine.run step (start disk offset) ls = some w) (hphase : w.phase = .waiting)
    (hlast : w.past.getLast? = some r) (hsync : r.synced = true) :
    NoTrace offset w ↔ Machine.Along step LeavesNothing (start disk offset) ls := by
  obtain ⟨hf, hbytes⟩ := run_stream h
  have hdry := hf.drained
  simp only [Drained, hphase] at hdry
  have hstream : w.stream = w.written := by simp [stream, hdry r hlast hsync]
  have hexpected : w.expected = frames (w.acknowledged.map WalRequest.event) := by
    simp [expected, inFlight, hphase]
  rw [NoTrace, ← hstream, ← hexpected]
  constructor
  · rintro ⟨heq, -⟩
    rcases hbytes with ⟨halong, -⟩ | ⟨-, hexcess⟩
    · exact halong
    · rw [heq] at hexcess
      exact absurd hexcess (Nat.lt_irrefl _)
  · intro halong
    rcases hbytes with ⟨-, hexact⟩ | ⟨hnot, -⟩
    · exact hexact
    · exact absurd halong hnot

/-- Then every event acknowledged can be read back from those bytes. -/
theorem NoTrace.readable {offset : Nat} {w : Wal} (h : NoTrace offset w)
    (hevs : ∀ req ∈ w.acknowledged, req.event.Frameable) :
    (WalReader.scan (.new w.written 0)).events =
      WalReader.withOffsets 0 (w.acknowledged.map WalRequest.event) := by
  rw [h.1]
  refine (WalReader.scan_frames ?_).1
  simpa using hevs

/-- The sync of a first batch fails, a second batch succeeds. -/
def syncFailure : List Label :=
  [.boot true true true, .send ⟨"a", [1]⟩, .recv, .closeBatch, .frame [], .flush .ok, .sync false,
    .fail, .finish, .send ⟨"b", [2]⟩, .recv, .closeBatch, .frame [], .flush .ok, .sync true,
    .rotate .ok true true, .respond, .forward, .finish]

/-- The event reported as failed is in the log, in front of the acknowledged one. -/
theorem failed_event_logged : ∃ w r, Machine.run step (start .empty 0) syncFailure = some w ∧
    w.phase = .waiting ∧ w.past.getLast? = some r ∧ r.synced = true ∧ ¬ NoTrace 0 w := by
  have hrun : (Machine.run step (start .empty 0) syncFailure).map
      (fun w => (w.phase, w.past.getLast?.map (·.synced), w.written.length,
        (frames (w.acknowledged.map WalRequest.event)).length)) =
      some (.waiting, some true, 24, 12) := by
    decide +kernel
  obtain ⟨w, hw, heq⟩ := Option.map_eq_some_iff.mp hrun
  simp only [Prod.mk.injEq, Option.map_eq_some_iff] at heq
  obtain ⟨hphase, ⟨r, hlast, hsync⟩, hwritten, hframes⟩ := heq
  refine ⟨w, r, hw, hphase, hlast, hsync, ?_⟩
  intro hno
  rw [← hno.1, hwritten] at hframes
  omega

/-- The first call for a first batch fails and takes nothing, a second batch
succeeds. -/
def firstCallFailure : List Label :=
  [.boot true true true, .send ⟨"a", [1]⟩, .recv, .closeBatch, .frame [.err 0 0], .finish,
    .send ⟨"b", [2]⟩, .recv, .closeBatch, .frame [], .flush .ok, .sync true,
    .rotate .ok true true, .respond, .forward, .finish]

theorem no_trace_example : ∃ w, Machine.run step (start .empty 0) firstCallFailure = some w ∧
    NoTrace 0 w ∧ w.written.length = 12 := by
  have hrun : (Machine.run step (start .empty 0) firstCallFailure).map
      (fun w => (w.phase, w.past.getLast?.map (·.synced), w.written.length)) =
      some (.waiting, some true, 12) := by
    decide +kernel
  obtain ⟨w, hw, heq⟩ := Option.map_eq_some_iff.mp hrun
  simp only [Prod.mk.injEq, Option.map_eq_some_iff] at heq
  obtain ⟨hphase, ⟨r, hlast, hsync⟩, hwritten⟩ := heq
  exact ⟨w, hw, (no_trace_iff hw hphase hlast hsync).mpr (by decide +kernel), hwritten⟩

end Edgewit.Wal
