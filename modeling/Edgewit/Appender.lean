import Edgewit.Disk
import Edgewit.Machine

/-!
# The WAL appender

`WalAppender::run` as a machine over the data directory. A label is one action
of the worker, or a request arriving on its channel, together with what the
operating system answered. The worker's place in its loop is its `Phase`.

A `BufWriter` is its buffer and the open file. How many buffered bytes a call
passes on to the file is part of the outcome, so every buffer capacity and every
partial write is covered: the bytes that did not get through stay in the buffer.

Byte counts are `u64` in the source and naturals here; no device holds the 2^64
bytes a wrap would take.
-/

namespace Edgewit

/-- A request to the WAL worker: the event, and the oneshot channel on which its
sender waits. -/
structure WalRequest where
  event : IngestEvent
  responder : Nat
  deriving DecidableEq, Repr

/-- The value sent on a oneshot channel. -/
abbrev Answer := Except String Unit

def writeError : String := "Failed to safely write to WAL"

/-- The result of one `write_all` on the `BufWriter`, with the number of bytes
of the buffered stream that reached the file. A failed call took the first
`taken` bytes of its argument. -/
inductive WriteOutcome where
  | ok (out : Nat)
  | err (taken out : Nat)
  deriving DecidableEq, Repr

def WriteOutcome.isOk : WriteOutcome → Bool
  | .ok _ => true
  | .err _ _ => false

/-- The result of a `flush`; a failed one got the first `out` bytes through. -/
inductive FlushOutcome where
  | ok
  | err (out : Nat)
  deriving DecidableEq, Repr

/-- What the worker is about to do. `toIndex` holds the requests written so far
with the offset after each. -/
inductive Phase where
  | boot
  | waiting
  | batching (batch : List WalRequest)
  | writing (rest : List WalRequest) (toIndex : List (WalRequest × Nat))
  | syncing (toIndex : List (WalRequest × Nat))
  | rotating (toIndex : List (WalRequest × Nat))
  | responding (toIndex : List (WalRequest × Nat))
  | forwarding (event : IndexerEvent) (toIndex : List (WalRequest × Nat))
  | failing (toIndex : List (WalRequest × Nat))
  | stopped
  deriving DecidableEq, Repr

/-- History of one batch: its requests, the operations on it that succeeded, the
answers given and the requests whose responder was dropped. -/
structure BatchRecord where
  requests : List WalRequest
  flushed : Bool
  synced : Bool
  answers : List (WalRequest × Answer)
  dropped : List WalRequest
  deriving DecidableEq

def BatchRecord.start (requests : List WalRequest) : BatchRecord :=
  ⟨requests, false, false, [], []⟩

/-- Where a frame was put: the open file, and the position in it after the
frame. -/
structure Placement where
  request : WalRequest
  walOffset : Nat
  handle : Nat
  position : Nat
  deriving DecidableEq, Repr

structure Wal where
  phase : Phase
  queue : List WalRequest
  currentOffset : Nat
  walPath : String
  currentFileSize : Nat
  handle : Nat
  buf : Bytes
  disk : Disk
  /-- History: the requests received on the channel, the finished batches and
  the present one, the events sent to the indexer, the bytes passed to files. -/
  arrived : List WalRequest
  past : List BatchRecord
  cur : BatchRecord
  sent : List IndexerEvent
  written : Bytes
  placed : List Placement

inductive Label where
  | send (event : IngestEvent)
  | boot (dirOk openOk metadataOk : Bool)
  | recv
  | tryRecv
  | closeBatch
  | frame (io : List WriteOutcome)
  | flush (io : FlushOutcome)
  | sync (ok : Bool)
  | rotate (flush : FlushOutcome) (syncOk openOk : Bool)
  | respond
  | forward
  | fail
  | finish
  | shutdown (flush : FlushOutcome)
  deriving DecidableEq, Repr

/-- The most requests one batch takes. -/
def maxBatch : Nat := 5000

/-- The file size from which the WAL is rotated. -/
def rotateBytes : Nat := 32 * 1024 * 1024

namespace Wal

/-- A new appender over a data directory. -/
def start (disk : Disk) (currentOffset : Nat) : Wal where
  phase := .boot
  queue := []
  currentOffset := currentOffset
  walPath := ""
  currentFileSize := 0
  handle := 0
  buf := []
  disk := disk
  arrived := []
  past := []
  cur := .start []
  sent := []
  written := []
  placed := []

/-! ## The buffered writer -/

/-- Adds bytes to the buffered stream and passes the first `out` bytes of it on
to the file. -/
def push (w : Wal) (bytes : Bytes) (out : Nat) : Wal :=
  { w with
    buf := (w.buf ++ bytes).drop out
    disk := w.disk.append w.handle ((w.buf ++ bytes).take out)
    written := w.written ++ (w.buf ++ bytes).take out }

def flushBuf (w : Wal) : FlushOutcome → Bool × Wal
  | .ok => (true, w.push [] w.buf.length)
  | .err out => (false, w.push [] out)

/-- The `write_all` calls of one frame, up to the first that fails. -/
def writePieces (w : Wal) : List Bytes → List WriteOutcome → Bool × Wal
  | [], _ => (true, w)
  | p :: ps, io =>
    match io.headD (.ok 0) with
    | .ok out => writePieces (w.push p out) ps io.tail
    | .err taken out => (false, w.push (p.take taken) out)

/-! ## The actions -/

/-- A handler's request reaches the channel. -/
def send (w : Wal) (event : IngestEvent) : Wal :=
  let req : WalRequest := ⟨event, w.arrived.length⟩
  { w with queue := w.queue ++ [req], arrived := w.arrived ++ [req] }

/-- Creates the directory and opens the file of the current offset. -/
def boot (w : Wal) (dirOk openOk metadataOk : Bool) : Wal :=
  let path := walName w.currentOffset
  match if dirOk && openOk then w.disk.openAppend path else none with
  | none => { w with phase := .stopped, walPath := path }
  | some (handle, disk) =>
    { w with
      phase := .waiting
      walPath := path
      disk := disk
      handle := handle
      buf := []
      currentFileSize := if metadataOk then disk.len handle else 0 }

def closeBatch (w : Wal) (batch : List WalRequest) : Wal :=
  { w with phase := .writing batch [], cur := .start batch }

/-- One iteration of the write loop. A failed frame ends the loop: its request
and the rest of the batch are dropped. -/
def writeFrame (w : Wal) (req : WalRequest) (rest : List WalRequest)
    (toIndex : List (WalRequest × Nat)) (io : List WriteOutcome) : Wal :=
  match w.writePieces req.event.pieces io with
  | (true, v) =>
    let offset := v.currentOffset + req.event.frameLen
    { v with
      phase := .writing rest (toIndex ++ [(req, offset)])
      currentOffset := offset
      currentFileSize := v.currentFileSize + req.event.frameLen
      placed := v.placed ++ [⟨req, offset, v.handle, v.disk.len v.handle + v.buf.length⟩] }
  | (false, v) => { v with phase := .failing toIndex, cur := { v.cur with dropped := req :: rest } }

def flush (w : Wal) (toIndex : List (WalRequest × Nat)) (io : FlushOutcome) : Wal :=
  match w.flushBuf io with
  | (true, v) => { v with phase := .syncing toIndex, cur := { v.cur with flushed := true } }
  | (false, v) => { v with phase := .failing toIndex }

def sync (w : Wal) (toIndex : List (WalRequest × Nat)) (ok : Bool) : Wal :=
  if ok then
    { w with
      phase := .rotating toIndex
      disk := w.disk.syncData w.handle
      cur := { w.cur with synced := true } }
  else { w with phase := .failing toIndex }

/-- Rotation after a successful batch. The flush and the sync before it have
nothing left to do, and their results are ignored; if the new file cannot be
opened, the old writer stays. -/
def rotate (w : Wal) (toIndex : List (WalRequest × Nat)) (flush : FlushOutcome)
    (syncOk openOk : Bool) : Wal :=
  if rotateBytes ≤ w.currentFileSize then
    let v := (w.flushBuf flush).2
    let disk := if syncOk then v.disk.syncData v.handle else v.disk
    let path := walName v.currentOffset
    match if openOk then disk.openAppend path else none with
    | some (handle, disk) =>
      { v with
        phase := .responding toIndex
        walPath := path
        disk := disk
        handle := handle
        buf := []
        currentFileSize := 0 }
    | none => { v with phase := .responding toIndex, walPath := path, disk := disk }
  else { w with phase := .responding toIndex }

def respond (w : Wal) (req : WalRequest) (offset : Nat) (rest : List (WalRequest × Nat)) : Wal :=
  { w with
    phase := .forwarding ⟨req.event, offset⟩ rest
    cur := { w.cur with answers := w.cur.answers ++ [(req, .ok ())] } }

def forward (w : Wal) (event : IndexerEvent) (rest : List (WalRequest × Nat)) : Wal :=
  { w with phase := .responding rest, sent := w.sent ++ [event] }

def fail (w : Wal) (req : WalRequest) (rest : List (WalRequest × Nat)) : Wal :=
  { w with
    phase := .failing rest
    cur := { w.cur with answers := w.cur.answers ++ [(req, .error writeError)] } }

def finish (w : Wal) : Wal :=
  { w with phase := .waiting, past := w.past ++ [w.cur], cur := .start [] }

/-- The channel is closed: the worker ends and the writer is dropped, which
flushes it. -/
def shutdown (w : Wal) (io : FlushOutcome) : Wal :=
  { (w.flushBuf io).2 with phase := .stopped }

/-- The action of a label, where the worker is at the place for it. A batch can
be closed at any length, since a request may arrive just after the channel was
seen empty. -/
def step (w : Wal) : Label → Option Wal
  | .send event => if w.phase = .stopped then none else some (w.send event)
  | .boot dirOk openOk metadataOk =>
    match w.phase with
    | .boot => some (w.boot dirOk openOk metadataOk)
    | _ => none
  | .recv =>
    match w.phase, w.queue with
    | .waiting, req :: queue => some { w with phase := .batching [req], queue := queue }
    | _, _ => none
  | .tryRecv =>
    match w.phase, w.queue with
    | .batching batch, req :: queue =>
      if batch.length < maxBatch then
        some { w with phase := .batching (batch ++ [req]), queue := queue }
      else none
    | _, _ => none
  | .closeBatch =>
    match w.phase with
    | .batching batch => some (w.closeBatch batch)
    | _ => none
  | .frame io =>
    match w.phase with
    | .writing (req :: rest) toIndex => some (w.writeFrame req rest toIndex io)
    | _ => none
  | .flush io =>
    match w.phase with
    | .writing [] toIndex => some (w.flush toIndex io)
    | _ => none
  | .sync ok =>
    match w.phase with
    | .syncing toIndex => some (w.sync toIndex ok)
    | _ => none
  | .rotate flush syncOk openOk =>
    match w.phase with
    | .rotating toIndex => some (w.rotate toIndex flush syncOk openOk)
    | _ => none
  | .respond =>
    match w.phase with
    | .responding ((req, offset) :: rest) => some (w.respond req offset rest)
    | _ => none
  | .forward =>
    match w.phase with
    | .forwarding event rest => some (w.forward event rest)
    | _ => none
  | .fail =>
    match w.phase with
    | .failing ((req, _) :: rest) => some (w.fail req rest)
    | _ => none
  | .finish =>
    match w.phase with
    | .responding [] | .failing [] => some w.finish
    | _ => none
  | .shutdown io =>
    match w.phase, w.queue with
    | .waiting, [] => some (w.shutdown io)
    | _, _ => none

/-- The same actions as a relation, one rule for each. -/
inductive Step : Wal → Label → Wal → Prop
  | send {w : Wal} {event : IngestEvent} (alive : w.phase ≠ .stopped) :
      Step w (.send event) (w.send event)
  | boot {w : Wal} {dirOk openOk metadataOk : Bool} (phase : w.phase = .boot) :
      Step w (.boot dirOk openOk metadataOk) (w.boot dirOk openOk metadataOk)
  | recv {w : Wal} {req : WalRequest} {queue : List WalRequest} (phase : w.phase = .waiting)
      (next : w.queue = req :: queue) :
      Step w .recv { w with phase := .batching [req], queue := queue }
  | tryRecv {w : Wal} {batch : List WalRequest} {req : WalRequest} {queue : List WalRequest}
      (phase : w.phase = .batching batch) (next : w.queue = req :: queue)
      (room : batch.length < maxBatch) :
      Step w .tryRecv { w with phase := .batching (batch ++ [req]), queue := queue }
  | closeBatch {w : Wal} {batch : List WalRequest} (phase : w.phase = .batching batch) :
      Step w .closeBatch (w.closeBatch batch)
  | frame {w : Wal} {req : WalRequest} {rest : List WalRequest}
      {toIndex : List (WalRequest × Nat)} {io : List WriteOutcome}
      (phase : w.phase = .writing (req :: rest) toIndex) :
      Step w (.frame io) (w.writeFrame req rest toIndex io)
  | flush {w : Wal} {toIndex : List (WalRequest × Nat)} {io : FlushOutcome}
      (phase : w.phase = .writing [] toIndex) : Step w (.flush io) (w.flush toIndex io)
  | sync {w : Wal} {toIndex : List (WalRequest × Nat)} {ok : Bool}
      (phase : w.phase = .syncing toIndex) : Step w (.sync ok) (w.sync toIndex ok)
  | rotate {w : Wal} {toIndex : List (WalRequest × Nat)} {flush : FlushOutcome}
      {syncOk openOk : Bool} (phase : w.phase = .rotating toIndex) :
      Step w (.rotate flush syncOk openOk) (w.rotate toIndex flush syncOk openOk)
  | respond {w : Wal} {req : WalRequest} {offset : Nat} {rest : List (WalRequest × Nat)}
      (phase : w.phase = .responding ((req, offset) :: rest)) :
      Step w .respond (w.respond req offset rest)
  | forward {w : Wal} {event : IndexerEvent} {rest : List (WalRequest × Nat)}
      (phase : w.phase = .forwarding event rest) : Step w .forward (w.forward event rest)
  | fail {w : Wal} {req : WalRequest} {offset : Nat} {rest : List (WalRequest × Nat)}
      (phase : w.phase = .failing ((req, offset) :: rest)) : Step w .fail (w.fail req rest)
  | finishOk {w : Wal} (phase : w.phase = .responding []) : Step w .finish w.finish
  | finishFailed {w : Wal} (phase : w.phase = .failing []) : Step w .finish w.finish
  | shutdown {w : Wal} {io : FlushOutcome} (phase : w.phase = .waiting) (empty : w.queue = []) :
      Step w (.shutdown io) (w.shutdown io)

theorem step_cases {w t : Wal} {l : Label} (h : w.step l = some t) : Step w l t := by
  cases l <;> simp only [step] at h <;> split at h
  all_goals first
    | (cases h; done)
    | (cases h; exact .finishOk ‹_›)
    | (cases h; exact .finishFailed ‹_›)
    | (cases h; constructor <;> assumption)
    | skip
  · rename_i hphase hqueue
    simp only [Option.ite_none_right_eq_some, Option.some.injEq] at h
    obtain ⟨room, rfl⟩ := h
    exact .tryRecv hphase hqueue room

/-! ## What the I/O leaves alone -/

/-- `v` differs from `w` only in the buffer, the disk and the bytes written. -/
def SameBooks (w v : Wal) : Prop :=
  ∃ buf disk written, v = { w with buf := buf, disk := disk, written := written }

theorem sameBooks_push (w : Wal) (bytes : Bytes) (out : Nat) : SameBooks w (w.push bytes out) :=
  ⟨_, _, _, rfl⟩

theorem sameBooks_flushBuf (w : Wal) (io : FlushOutcome) : SameBooks w (w.flushBuf io).2 := by
  cases io <;> exact sameBooks_push w _ _

theorem SameBooks.trans {u v w : Wal} (huv : SameBooks u v) (hvw : SameBooks v w) :
    SameBooks u w := by
  obtain ⟨_, _, _, rfl⟩ := huv
  obtain ⟨buf, disk, written, rfl⟩ := hvw
  exact ⟨buf, disk, written, rfl⟩

theorem sameBooks_writePieces (w : Wal) (ps : List Bytes) (io : List WriteOutcome) :
    SameBooks w (w.writePieces ps io).2 := by
  induction ps generalizing w io with
  | nil => exact ⟨_, _, _, rfl⟩
  | cons p ps ih =>
    simp only [writePieces]
    cases io.headD (.ok 0) with
    | ok out => exact (sameBooks_push w p out).trans (ih _ _)
    | err taken out => exact sameBooks_push w _ _

/-- A frame is written whole and numbered, or it ends the batch. -/
theorem writeFrame_cases (w : Wal) (req : WalRequest) (rest : List WalRequest)
    (toIndex : List (WalRequest × Nat)) (io : List WriteOutcome) :
    ∃ v, SameBooks w v ∧ (w.writePieces req.event.pieces io).2 = v ∧
      (((w.writePieces req.event.pieces io).1 = true ∧ w.writeFrame req rest toIndex io =
        { v with
          phase := .writing rest (toIndex ++ [(req, w.currentOffset + req.event.frameLen)])
          currentOffset := w.currentOffset + req.event.frameLen
          currentFileSize := w.currentFileSize + req.event.frameLen
          placed := w.placed ++ [⟨req, w.currentOffset + req.event.frameLen, w.handle,
            v.disk.len w.handle + v.buf.length⟩] }) ∨
      ((w.writePieces req.event.pieces io).1 = false ∧ w.writeFrame req rest toIndex io =
        { v with phase := .failing toIndex, cur := { w.cur with dropped := req :: rest } })) := by
  have hbooks := sameBooks_writePieces w req.event.pieces io
  refine ⟨_, hbooks, rfl, ?_⟩
  unfold writeFrame
  obtain ⟨buf, disk, written, heq⟩ := hbooks
  cases hres : w.writePieces req.event.pieces io with
  | mk ok v =>
    rw [hres] at heq
    subst heq
    cases ok with
    | true => exact Or.inl ⟨rfl, rfl⟩
    | false => exact Or.inr ⟨rfl, rfl⟩

/-- Starting up opens the file of the current offset, or stops the worker. -/
theorem boot_cases (w : Wal) (dirOk openOk metadataOk : Bool) :
    w.boot dirOk openOk metadataOk =
      { w with phase := .stopped, walPath := walName w.currentOffset } ∨
    ∃ handle disk size, w.disk.openAppend (walName w.currentOffset) = some (handle, disk) ∧
      size = (if metadataOk then disk.len handle else 0) ∧
      w.boot dirOk openOk metadataOk =
        { w with
          phase := .waiting
          walPath := walName w.currentOffset
          disk := disk
          handle := handle
          buf := []
          currentFileSize := size } := by
  unfold boot
  dsimp only
  cases dirOk && openOk with
  | false => exact Or.inl rfl
  | true =>
    cases hopen : w.disk.openAppend (walName w.currentOffset) with
    | none => exact Or.inl rfl
    | some p => exact Or.inr ⟨p.1, p.2, _, rfl, rfl, rfl⟩

/-- Rotation changes the open file and its name, size and buffer. -/
theorem rotate_eq (w : Wal) (toIndex : List (WalRequest × Nat)) (flush : FlushOutcome)
    (syncOk openOk : Bool) :
    ∃ path disk handle buf size written, w.rotate toIndex flush syncOk openOk =
      { w with
        phase := .responding toIndex
        walPath := path
        disk := disk
        handle := handle
        buf := buf
        currentFileSize := size
        written := written } := by
  obtain ⟨buf, disk, written, hflush⟩ := sameBooks_flushBuf w flush
  unfold rotate
  split
  · rw [hflush]
    dsimp only
    split <;> exact ⟨_, _, _, _, _, _, rfl⟩
  · exact ⟨_, _, _, _, _, _, rfl⟩

/-- Nothing is left to flush. -/
theorem flushBuf_empty {w : Wal} (hbuf : w.buf = []) (io : FlushOutcome) : (w.flushBuf io).2 = w := by
  cases io <;> cases w <;> simp_all [flushBuf, push]

/-- With an empty buffer, rotation writes nothing: it opens the file of the
current offset when the present one is large and the open succeeds. -/
theorem rotate_cases {w : Wal} (hbuf : w.buf = []) (toIndex : List (WalRequest × Nat))
    (flush : FlushOutcome) (syncOk openOk : Bool) :
    (w.currentFileSize < rotateBytes ∧
      w.rotate toIndex flush syncOk openOk = { w with phase := .responding toIndex }) ∨
    (rotateBytes ≤ w.currentFileSize ∧ ∃ d, (d = w.disk ∨ d = w.disk.syncData w.handle) ∧
      (w.rotate toIndex flush syncOk openOk =
        { w with phase := .responding toIndex, walPath := walName w.currentOffset, disk := d } ∨
      ∃ handle disk, d.openAppend (walName w.currentOffset) = some (handle, disk) ∧
        w.rotate toIndex flush syncOk openOk =
          { w with
            phase := .responding toIndex
            walPath := walName w.currentOffset
            disk := disk
            handle := handle
            currentFileSize := 0 })) := by
  have hflush := flushBuf_empty hbuf flush
  have hsync : (if syncOk then w.disk.syncData w.handle else w.disk) = w.disk ∨
      (if syncOk then w.disk.syncData w.handle else w.disk) = w.disk.syncData w.handle := by
    cases syncOk <;> simp
  unfold rotate
  split
  · rename_i hlarge
    refine Or.inr ⟨hlarge, _, hsync, ?_⟩
    simp only [hflush]
    cases openOk with
    | false => exact Or.inl rfl
    | true =>
      cases hopen : Disk.openAppend (if syncOk then w.disk.syncData w.handle else w.disk)
          (walName w.currentOffset) with
      | none => exact Or.inl (by simp)
      | some p => exact Or.inr ⟨p.1, p.2, rfl, by simp [hbuf]⟩
  · rename_i hsmall
    exact Or.inl ⟨Nat.lt_of_not_le hsmall, rfl⟩

/-- Requests arrive by `send` alone. -/
theorem step_arrived {w t : Wal} {l : Label} (h : Step w l t) :
    t.arrived = w.arrived ∨
    ∃ event, l = .send event ∧ t.arrived = w.arrived ++ [⟨event, w.arrived.length⟩] := by
  cases h with
  | @send event => exact Or.inr ⟨event, rfl, rfl⟩
  | @boot dirOk openOk metadataOk =>
    left
    obtain heq | ⟨handle, disk, size, -, -, heq⟩ := boot_cases w dirOk openOk metadataOk <;> rw [heq]
  | @frame req rest toIndex io =>
    left
    obtain ⟨v, ⟨buf, disk, written, rfl⟩, -, ⟨-, heq⟩ | ⟨-, heq⟩⟩ :=
      writeFrame_cases w req rest toIndex io <;> rw [heq]
  | @flush toIndex io => cases io <;> exact Or.inl rfl
  | @sync toIndex ok => cases ok <;> exact Or.inl rfl
  | @rotate toIndex flush syncOk openOk =>
    left
    obtain ⟨path, disk, handle, buf, size, written, heq⟩ := rotate_eq w toIndex flush syncOk openOk
    rw [heq]
  | @shutdown io => cases io <;> exact Or.inl rfl
  | _ => exact Or.inl rfl

end Wal
end Edgewit
