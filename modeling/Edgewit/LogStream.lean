import Edgewit.Placement
import Edgewit.Retention
import Edgewit.Tiling

/-!
# The log and the live stream

Without a write, flush or sync failure the WAL files tile the offsets given so
far, each holds whole frames, and reading them back gives the events sent to the
indexer (`live_stream_eq_log`). Opening a new file may fail at any rotation.

`Log` links the three counters: the offset, the size of the open file and the
start in its name.
-/

namespace Edgewit
open Tiling

def Node.segment? (n : Node) : Option (Segment UInt8) := n.walStart?.map (⟨·, n.content⟩)

/-- The WAL files by the offset in their names. -/
def Disk.segments (d : Disk) : List (Segment UInt8) :=
  (d.nodes.filterMap Node.segment?).insertionSort fun s t => s.start ≤ t.start

/-- Reads the files one after the other, each from position 0. -/
def readBack (segs : List (Segment UInt8)) : List (IngestEvent × Nat) :=
  segs.flatMap fun s => (WalReader.scan (.new s.items 0)).events.map fun e => (e.1, s.start + e.2)

/-- The bytes of a segment of events. -/
def frameSegment (s : Segment IngestEvent) : Segment UInt8 := ⟨s.start, frames s.items⟩

@[simp] theorem start_frameSegment (s : Segment IngestEvent) : (frameSegment s).start = s.start := rfl

@[simp] theorem items_frameSegment (s : Segment IngestEvent) :
    (frameSegment s).items = frames s.items := rfl

theorem flatMap_frameSegment (segs : List (Segment IngestEvent)) :
    (segs.map frameSegment).flatMap Segment.items = frames (segs.flatMap Segment.items) := by
  induction segs with
  | nil => rfl
  | cons s segs ih => simp [ih]

open WalReader

/-- Files that tile a range read back as the events of the whole range. -/
theorem readBack_tiles {a b : Nat} {segs : List (Segment IngestEvent)}
    (h : Tiles a (segs.map frameSegment) b)
    (hevs : ∀ ev ∈ segs.flatMap Segment.items, ev.Frameable) :
    readBack (segs.map frameSegment) = withOffsets a (segs.flatMap Segment.items) := by
  induction segs generalizing a with
  | nil => rfl
  | cons s segs ih =>
    obtain ⟨rfl, hrest⟩ := h
    simp only [List.flatMap_cons, List.mem_append] at hevs
    have hscan := (scan_frames fun ev hev => hevs ev (Or.inl hev)).1
    have hread := ih hrest fun ev hev => hevs ev (Or.inr hev)
    unfold readBack at hread ⊢
    rw [List.map_cons, List.flatMap_cons, hread, items_frameSegment, hscan, withOffsets_shift,
      List.flatMap_cons, withOffsets_append]
    rfl

namespace Wal

/-- The events sent and to be sent, with their offsets. -/
def streamed (w : Wal) : List (IngestEvent × Nat) :=
  (w.sent ++ w.pending).map (fun e => (e.event, e.walOffset)) ++
    w.unanswered.map fun x => (x.1.event, x.2)

/-- No batch fails, and the buffer is empty but while a batch is written. -/
structure Tidy (w : Wal) : Prop where
  succeeding : ∀ toIndex, w.phase ≠ .failing toIndex
  drained : (∀ rest toIndex, w.phase ≠ .writing rest toIndex) → w.buf = []

/-- No batch is at hand. -/
def Idle (w : Wal) : Prop :=
  match w.phase with
  | .waiting | .batching _ | .stopped => True
  | _ => False

/-- The WAL files on the disk: older ones, then the open one, whose bytes are partly
in the buffer. -/
def Layout (w : Wal) (older : List (Segment UInt8)) (last : Segment UInt8) : Prop :=
  ∃ before n after, w.disk.nodes = before ++ n :: after ∧ w.handle = before.length ∧
    before.filterMap Node.segment? = older ∧ after.filterMap Node.segment? = [] ∧
    n.walStart? = some last.start ∧ n.content ++ w.buf = last.items

/-- The files of a run hold whole frames, those of the events streamed. -/
structure Log (w : Wal) (older : List (Segment IngestEvent)) (last : Segment IngestEvent) : Prop where
  layout : Layout w (older.map frameSegment) (frameSegment last)
  tiles : Tiles 0 ((older ++ [last]).map frameSegment) w.currentOffset
  size : w.currentFileSize = (frames last.items).length
  stream : withOffsets 0 ((older ++ [last]).flatMap Segment.items) = w.streamed
  booted : w.phase ≠ .boot

/-- Any WAL file is the empty one of offset 0. -/
def Fresh (d : Disk) : Prop :=
  ∀ n ∈ d.nodes, ∀ start, n.walStart? = some start → n.name = walName 0 ∧ n.content = []

/-- An appender that has not opened a file. -/
structure Blank (w : Wal) : Prop where
  phase : w.phase = .boot ∨ w.phase = .stopped
  disk : Fresh w.disk
  offset : w.currentOffset = 0
  stream : w.streamed = []
  buf : w.buf = []

def Laid (w : Wal) : Prop := Blank w ∨ ∃ older last, Log w older last

/-- The step does not fail a write, flush or sync of a batch. -/
def Clean : Label → Prop
  | .frame io => FrameOk io
  | .flush io => io = .ok
  | .sync ok => ok = true
  | _ => True

/-! ## The opened file -/

theorem walStart?_eq_some {n : Node} {start : Nat} (h : n.walStart? = some start) :
    n.linked = true ∧ n.isFile = true := by
  unfold Node.walStart? at h
  split at h
  · rename_i hcond
    simp only [Bool.and_eq_true] at hcond
    exact hcond.1
  · cases h

theorem segment?_some {n : Node} {start : Nat} (h : n.walStart? = some start) :
    n.segment? = some ⟨start, n.content⟩ := by
  simp [Node.segment?, h]

theorem filterMap_fresh {nodes : List Node} (h : ∀ n ∈ nodes, n.walStart? = none) :
    nodes.filterMap Node.segment? = [] := by
  rw [List.filterMap_eq_nil_iff]
  intro n hn
  simp [Node.segment?, h n hn]

/-- On a fresh directory the file of offset 0 is opened empty, and it is the only
WAL file. -/
theorem open_fresh {d e : Disk} {i : Nat} (hfresh : Fresh d)
    (h : d.openAppend (walName 0) = some (i, e)) :
    ∃ before n after, e.nodes = before ++ n :: after ∧ i = before.length ∧
      before.filterMap Node.segment? = [] ∧ after.filterMap Node.segment? = [] ∧
      n.walStart? = some 0 ∧ n.content = [] := by
  obtain ⟨rfl, n, hn, hlinked, hfile, hname⟩ | ⟨hfree, rfl, hnodes⟩ := Disk.openAppend_cases h
  · have hstart := walStart?_walName hlinked hfile hname
    obtain ⟨hlt, hget⟩ := List.getElem?_eq_some_iff.mp hn
    have hother : ∀ (j : Nat) (m : Node), e.nodes[j]? = some m → j ≠ i → m.walStart? = none := by
      intro j m hm hne
      cases hstart : m.walStart? with
      | none => rfl
      | some start =>
        have hname' := (hfresh m (List.mem_of_getElem? hm) start hstart).1
        have hlinked' := (walStart?_eq_some hstart).1
        exact absurd (linked_unique e.distinct hm hn hlinked' hlinked (hname'.trans hname.symm)) hne
    refine ⟨e.nodes.take i, n, e.nodes.drop (i + 1), ?_, ?_, ?_, ?_, hstart, ?_⟩
    · rw [← hget, ← List.drop_eq_getElem_cons hlt, List.take_append_drop]
    · rw [List.length_take, Nat.min_eq_left (Nat.le_of_lt hlt)]
    · apply filterMap_fresh
      intro m hm
      obtain ⟨j, hj⟩ := List.mem_iff_getElem?.mp hm
      simp only [List.getElem?_take, Option.ite_none_right_eq_some] at hj
      exact hother j m hj.2 (Nat.ne_of_lt hj.1)
    · apply filterMap_fresh
      intro m hm
      obtain ⟨j, hj⟩ := List.mem_iff_getElem?.mp hm
      rw [List.getElem?_drop] at hj
      exact hother _ m hj (by omega)
    · exact (hfresh n (List.mem_of_getElem? hn) 0 hstart).2
  · refine ⟨d.nodes, Disk.newFile (walName 0), [], hnodes, rfl, ?_, rfl, ?_, rfl⟩
    · apply filterMap_fresh
      intro n hn
      cases hstart : n.walStart? with
      | none => rfl
      | some start =>
        have hname := (hfresh n hn start hstart).1
        exact absurd (mem_linkedNames.mpr ⟨n, hn, (walStart?_eq_some hstart).1, hname⟩) hfree
    · exact walStart?_walName rfl rfl rfl

/-- A name whose offset is above all starts is new. -/
theorem open_new {d e : Disk} {i offset : Nat}
    (hbelow : ∀ n ∈ d.nodes, ∀ start, n.walStart? = some start → start < offset)
    (h : d.openAppend (walName offset) = some (i, e)) :
    i = d.nodes.length ∧ e.nodes = d.nodes ++ [Disk.newFile (walName offset)] := by
  obtain ⟨rfl, n, hn, hlinked, hfile, hname⟩ | ⟨-, rfl, hnodes⟩ := Disk.openAppend_cases h
  · have hstart := walStart?_walName hlinked hfile hname
    exact absurd (hbelow n (List.mem_of_getElem? hn) offset hstart) (Nat.lt_irrefl _)
  · exact ⟨rfl, hnodes⟩

/-! ## The layout under the writer's operations -/

theorem modify_middle {α : Type} (before after : List α) (a : α) (f : α → α) :
    (before ++ a :: after).modify before.length f = before ++ f a :: after := by
  induction before with
  | nil => rfl
  | cons b before ih => simp [ih]

theorem Layout.of_eq {w t : Wal} {older : List (Segment UInt8)} {last : Segment UInt8}
    (h : Layout w older last) (hdisk : t.disk = w.disk) (hhandle : t.handle = w.handle)
    (hbuf : t.buf = w.buf) : Layout t older last := by
  unfold Layout at h ⊢
  rw [hdisk, hhandle, hbuf]
  exact h

theorem Layout.push {w : Wal} {older : List (Segment UInt8)} {last : Segment UInt8}
    (h : Layout w older last) (bytes : Bytes) (out : Nat) :
    Layout (w.push bytes out) older ⟨last.start, last.items ++ bytes⟩ := by
  obtain ⟨before, n, after, hnodes, hhandle, hbefore, hafter, hstart, hitems⟩ := h
  refine ⟨before, { n with content := n.content ++ (w.buf ++ bytes).take out }, after, ?_, hhandle,
    hbefore, hafter, hstart, ?_⟩
  · simp only [Wal.push, Disk.nodes_append, hnodes, hhandle, modify_middle]
  · simp only [Wal.push, List.append_assoc, List.take_append_drop]
    rw [← List.append_assoc, hitems]

theorem Layout.syncData {w : Wal} {older : List (Segment UInt8)} {last : Segment UInt8}
    (h : Layout w older last) : Layout { w with disk := w.disk.syncData w.handle } older last := by
  obtain ⟨before, n, after, hnodes, hhandle, hbefore, hafter, hstart, hitems⟩ := h
  refine ⟨before, { n with synced := n.content.length }, after, ?_, hhandle, hbefore, hafter, hstart,
    hitems⟩
  simp only [Disk.nodes_syncData, hnodes, hhandle, modify_middle]

theorem Layout.writePieces {w : Wal} {older : List (Segment UInt8)} {last : Segment UInt8}
    {ps : List Bytes} {io : List WriteOutcome} (h : Layout w older last)
    (hok : (w.writePieces ps io).1 = true) :
    Layout (w.writePieces ps io).2 older ⟨last.start, last.items ++ ps.flatten⟩ := by
  induction ps generalizing w io last with
  | nil => simpa [Wal.writePieces] using h
  | cons p ps ih =>
    simp only [Wal.writePieces] at hok ⊢
    cases hio : io.headD (.ok 0) with
    | ok out =>
      simp only [hio] at hok ⊢
      simpa using ih (h.push p out) hok
    | err taken out =>
      simp only [hio] at hok
      cases hok

/-- With an empty buffer the layout is all there is on the disk. -/
theorem Layout.entries {w : Wal} {older : List (Segment UInt8)} {last : Segment UInt8}
    (h : Layout w older last) (hbuf : w.buf = []) :
    w.disk.nodes.filterMap Node.segment? = older ++ [last] := by
  obtain ⟨before, n, after, hnodes, -, hbefore, hafter, hstart, hitems⟩ := h
  rw [hbuf, List.append_nil] at hitems
  rw [hnodes, List.filterMap_append, hbefore, List.filterMap_cons_some (segment?_some hstart), hafter,
    hitems]

/-! ## One step -/

/-- A step that moves no bytes and no offset. -/
theorem Log.still {w t : Wal} {older : List (Segment IngestEvent)} {last : Segment IngestEvent}
    (h : Log w older last) (hlayout : Layout t (older.map frameSegment) (frameSegment last))
    (hoffset : t.currentOffset = w.currentOffset) (hsize : t.currentFileSize = w.currentFileSize)
    (hstream : t.streamed = w.streamed) (hbooted : t.phase ≠ .boot) : Log t older last :=
  ⟨hlayout, hoffset ▸ h.tiles, hsize ▸ h.size, hstream ▸ h.stream, hbooted⟩

/-- All starts on the disk lie below the offset, once the open file has bytes. -/
theorem Log.starts_lt {w : Wal} {older : List (Segment IngestEvent)} {last : Segment IngestEvent}
    (h : Log w older last) (hbuf : w.buf = []) (hpos : 0 < w.currentFileSize) {n : Node}
    (hn : n ∈ w.disk.nodes) {start : Nat} (hstart : n.walStart? = some start) :
    start < w.currentOffset := by
  have htiles := h.tiles
  rw [List.map_append, List.map_cons, List.map_nil] at htiles
  obtain ⟨holder, hstop⟩ := tiles_concat.mp htiles
  have hmem : ⟨start, n.content⟩ ∈ older.map frameSegment ++ [frameSegment last] := by
    rw [← h.layout.entries hbuf]
    exact List.mem_filterMap.mpr ⟨n, hn, segment?_some hstart⟩
  have hsize := h.size
  rw [Segment.stop, start_frameSegment, items_frameSegment] at hstop
  rcases List.mem_append.mp hmem with hmem | hmem
  · have hle := (holder.within.2 _ hmem).2
    rw [Segment.stop, start_frameSegment] at hle
    dsimp only at hle
    omega
  · have heq : start = last.start := congrArg Segment.start (List.mem_singleton.mp hmem)
    omega

theorem boot_laid {w : Wal} {dirOk openOk metadataOk : Bool} (hphase : w.phase = .boot)
    (h : Blank w) : Laid (w.boot dirOk openOk metadataOk) := by
  have hstream := h.stream
  simp only [streamed, pending, unanswered, hphase, List.append_nil, List.map_nil] at hstream
  obtain heq | ⟨handle, disk, size, hopen, hsize, heq⟩ := boot_cases w dirOk openOk metadataOk <;>
    rw [heq]
  · refine Or.inl ⟨Or.inr rfl, h.disk, h.offset, ?_, h.buf⟩
    simpa [streamed, pending, unanswered] using hstream
  · rw [h.offset] at hopen
    obtain ⟨before, n, after, hnodes, hhandle, hbefore, hafter, hstart, hcontent⟩ :=
      open_fresh h.disk hopen
    have hlen : disk.len handle = 0 := by simp [Disk.len, hnodes, hhandle, hcontent]
    refine Or.inr ⟨[], ⟨0, []⟩, ⟨before, n, after, hnodes, hhandle, hbefore, hafter, hstart, ?_⟩, ?_,
      ?_, ?_, by simp⟩
    · simp [hcontent]
    · simp [h.offset, Segment.stop, frameSegment]
    · cases metadataOk <;> simp [hsize, hlen]
    · simpa [streamed, pending, unanswered, withOffsets] using hstream.symm

theorem frame_laid {w : Wal} {req : WalRequest} {rest : List WalRequest}
    {toIndex : List (WalRequest × Nat)} {io : List WriteOutcome} (hclean : FrameOk io)
    (hphase : w.phase = .writing (req :: rest) toIndex) {older : List (Segment IngestEvent)}
    {last : Segment IngestEvent} (h : Log w older last) :
    Log (w.writeFrame req rest toIndex io) older ⟨last.start, last.items ++ [req.event]⟩ := by
  have hok := (writePieces_ok_iff w req.event.pieces io).mpr hclean
  have hlayout := h.layout.writePieces hok
  have htiles := h.tiles
  rw [List.map_append, List.map_cons, List.map_nil, tiles_concat] at htiles
  have hstop := htiles.2
  rw [Segment.stop, start_frameSegment, items_frameSegment] at hstop
  obtain ⟨v, ⟨buf, disk, written, rfl⟩, hv, ⟨-, heq⟩ | ⟨hfail, -⟩⟩ :=
    writeFrame_cases w req rest toIndex io
  · rw [hv] at hlayout
    rw [heq]
    refine ⟨?_, ?_, ?_, ?_, by simp⟩
    · obtain ⟨before, n, after, hnodes, hhandle, hbefore, hafter, hstart, hitems⟩ := hlayout
      refine ⟨before, n, after, hnodes, hhandle, hbefore, hafter, hstart, ?_⟩
      simpa [IngestEvent.frame] using hitems
    · rw [List.map_append, List.map_cons, List.map_nil, tiles_concat]
      refine ⟨htiles.1, ?_⟩
      simp only [Segment.stop, start_frameSegment, items_frameSegment, frames_append,
        frames_singleton, List.length_append, length_frame]
      omega
    · have hsize := h.size
      simp only [frames_append, frames_singleton, List.length_append, length_frame]
      omega
    · have hstream := h.stream
      have htotal := h.tiles.length
      rw [flatMap_frameSegment, Nat.zero_add] at htotal
      simp only [streamed, pending, unanswered, hphase] at hstream
      have hall : (older ++ [Segment.mk last.start (last.items ++ [req.event])]).flatMap
          Segment.items = (older ++ [last]).flatMap Segment.items ++ [req.event] := by simp
      rw [hall, withOffsets_append, hstream, ← htotal]
      simp [streamed, pending, unanswered, withOffsets]
  · rw [hok] at hfail
    cases hfail

theorem rotate_laid {w : Wal} {toIndex : List (WalRequest × Nat)} {flush : FlushOutcome}
    {syncOk openOk : Bool} (hphase : w.phase = .rotating toIndex) (hbuf : w.buf = [])
    {older : List (Segment IngestEvent)} {last : Segment IngestEvent} (h : Log w older last) :
    ∃ older last, Log (w.rotate toIndex flush syncOk openOk) older last := by
  obtain ⟨-, heq⟩ | ⟨hlarge, d, hd, hnext⟩ := rotate_cases hbuf toIndex flush syncOk openOk
  · rw [heq]
    refine ⟨older, last, h.still (h.layout.of_eq rfl rfl rfl) rfl rfl ?_ (by simp)⟩
    simp [streamed, pending, unanswered, hphase]
  · have hlayout : Layout { w with disk := d } (older.map frameSegment) (frameSegment last) := by
      rcases hd with rfl | rfl
      · exact h.layout
      · exact h.layout.syncData
    have hlog : Log { w with disk := d } older last :=
      h.still hlayout rfl rfl rfl h.booted
    obtain heq | ⟨handle, disk, hopen, heq⟩ := hnext <;> rw [heq]
    · refine ⟨older, last, hlog.still (hlayout.of_eq rfl rfl rfl) rfl rfl ?_ (by simp)⟩
      simp [streamed, pending, unanswered, hphase]
    · have hpos : 0 < w.currentFileSize := Nat.lt_of_lt_of_le (by decide) hlarge
      obtain ⟨rfl, hnodes⟩ :=
        open_new (fun n hn start hstart => hlog.starts_lt hbuf hpos hn hstart) hopen
      refine ⟨older ++ [last], ⟨w.currentOffset, []⟩,
        ⟨d.nodes, Disk.newFile (walName w.currentOffset), [], hnodes, rfl, ?_, rfl, ?_, ?_⟩, ?_, rfl,
        ?_, by simp⟩
      · simpa using hlayout.entries hbuf
      · exact walStart?_walName rfl rfl rfl
      · simpa [Disk.newFile] using hbuf
      · rw [List.map_append, List.map_cons, List.map_nil, tiles_concat]
        exact ⟨h.tiles, rfl⟩
      · have hstream := h.stream
        simp only [streamed, pending, unanswered, hphase] at hstream
        simpa [streamed, pending, unanswered] using hstream

theorem Blank.step {w t : Wal} {l : Label} (hstep : Step w l t) (h : Blank w) : Laid t := by
  cases hstep with
  | send => exact Or.inl ⟨h.phase, h.disk, h.offset, h.stream, h.buf⟩
  | boot hphase => exact boot_laid hphase h
  | recv hphase | tryRecv hphase | closeBatch hphase | frame hphase | flush hphase | sync hphase
  | rotate hphase | respond hphase | forward hphase | fail hphase | finishOk hphase
  | finishFailed hphase | shutdown hphase =>
    rcases h.phase with hphase' | hphase' <;> rw [hphase] at hphase' <;> cases hphase'

theorem Log.step {w t : Wal} {l : Label} (hstep : Step w l t) (hclean : Clean l) (ht : Tidy w)
    {older : List (Segment IngestEvent)} {last : Segment IngestEvent} (h : Log w older last) :
    ∃ older last, Log t older last := by
  have hdry := ht.drained
  cases hstep with
  | send => exact ⟨older, last, h.still (h.layout.of_eq rfl rfl rfl) rfl rfl rfl h.booted⟩
  | boot hphase => exact absurd hphase h.booted
  | recv hphase | tryRecv hphase | closeBatch hphase =>
    refine ⟨older, last, h.still (h.layout.of_eq rfl rfl rfl) rfl rfl ?_ (by simp [closeBatch])⟩
    simp [closeBatch, streamed, pending, unanswered, hphase]
  | frame hphase => exact ⟨_, _, frame_laid hclean hphase h⟩
  | @flush toIndex io hphase =>
    obtain rfl : io = .ok := hclean
    have hlayout := h.layout.push [] w.buf.length
    rw [List.append_nil] at hlayout
    refine ⟨older, last, h.still (hlayout.of_eq rfl rfl rfl) rfl rfl ?_
      (by simp [Wal.flush, flushBuf])⟩
    simp [Wal.flush, flushBuf, Wal.push, streamed, pending, unanswered, hphase]
  | @sync toIndex ok hphase =>
    obtain rfl : ok = true := hclean
    refine ⟨older, last, h.still (h.layout.syncData.of_eq rfl rfl rfl) rfl rfl ?_ (by simp [sync])⟩
    simp [sync, streamed, pending, unanswered, hphase]
  | rotate hphase => exact rotate_laid hphase (hdry (by simp [hphase])) h
  | respond hphase | forward hphase =>
    refine ⟨older, last, h.still (h.layout.of_eq rfl rfl rfl) rfl rfl ?_
      (by simp [respond, forward])⟩
    simp [respond, forward, streamed, pending, unanswered, hphase]
  | fail hphase | finishFailed hphase => exact absurd hphase (ht.succeeding _)
  | finishOk hphase =>
    refine ⟨older, last, h.still (h.layout.of_eq rfl rfl rfl) rfl rfl ?_ (by simp [finish])⟩
    simp [finish, streamed, pending, unanswered, hphase]
  | shutdown hphase =>
    unfold shutdown
    rw [flushBuf_empty (hdry (by simp [hphase]))]
    refine ⟨older, last, h.still (h.layout.of_eq rfl rfl rfl) rfl rfl ?_ (by simp)⟩
    simp [streamed, pending, unanswered, hphase]

theorem step_tidy {w t : Wal} {l : Label} (hstep : Step w l t) (hclean : Clean l) (h : Tidy w) :
    Tidy t := by
  have hdry := h.drained
  cases hstep with
  | send => exact ⟨h.succeeding, h.drained⟩
  | @boot dirOk openOk metadataOk hphase =>
    obtain heq | ⟨handle, disk, size, -, -, heq⟩ := boot_cases w dirOk openOk metadataOk <;> rw [heq]
    · exact ⟨by simp, fun _ => hdry (by simp [hphase])⟩
    · exact ⟨by simp, fun _ => rfl⟩
  | recv hphase | tryRecv hphase => exact ⟨by simp, fun _ => hdry (by simp [hphase])⟩
  | closeBatch => exact ⟨by simp [closeBatch], fun hne => absurd rfl (hne _ _)⟩
  | @frame req rest toIndex io hphase =>
    obtain ⟨v, -, -, ⟨-, heq⟩ | ⟨hfail, -⟩⟩ := writeFrame_cases w req rest toIndex io
    · rw [heq]
      exact ⟨by simp, fun hne => absurd rfl (hne _ _)⟩
    · rw [(writePieces_ok_iff w req.event.pieces io).mpr hclean] at hfail
      cases hfail
  | @flush toIndex io hphase =>
    obtain rfl : io = .ok := hclean
    exact ⟨by simp [Wal.flush, flushBuf], fun _ => by simp [Wal.flush, flushBuf, Wal.push]⟩
  | @sync toIndex ok hphase =>
    obtain rfl : ok = true := hclean
    exact ⟨by simp [sync], fun _ => hdry (by simp [hphase])⟩
  | @rotate toIndex flush syncOk openOk hphase =>
    have hbuf := hdry (by simp [hphase])
    obtain ⟨-, heq⟩ | ⟨-, d, -, heq | ⟨handle, disk, -, heq⟩⟩ :=
      rotate_cases hbuf toIndex flush syncOk openOk <;> rw [heq] <;> exact ⟨by simp, fun _ => hbuf⟩
  | respond hphase | forward hphase | finishOk hphase =>
    exact ⟨by simp [respond, forward, finish], fun _ => hdry (by simp [hphase])⟩
  | fail hphase | finishFailed hphase => exact absurd hphase (h.succeeding _)
  | shutdown hphase =>
    have hbuf := hdry (by simp [hphase])
    unfold shutdown
    rw [flushBuf_empty hbuf]
    exact ⟨by simp, fun _ => hbuf⟩

theorem step_laid {w t : Wal} {l : Label} (hstep : Step w l t) (hclean : Clean l) (ht : Tidy w)
    (h : Laid w) : Laid t := by
  rcases h with hblank | ⟨older, last, hlog⟩
  · exact hblank.step hstep
  · exact Or.inr (hlog.step hstep hclean ht)

/-! ## Whole runs -/

theorem run_tidy {disk : Disk} {offset : Nat} {ls : List Label} {w : Wal}
    (hclean : ∀ l ∈ ls, Clean l) (h : Machine.run step (start disk offset) ls = some w) : Tidy w := by
  have hstart : Tidy (start disk offset) := ⟨by simp [start], fun _ => rfl⟩
  refine Machine.run_guarded hstart ?_ (Machine.along_of_labels hclean) h
  exact fun u l v hl hstep => step_tidy (step_cases hstep) hl

theorem run_laid {disk : Disk} {ls : List Label} {w : Wal} (hfresh : Fresh disk)
    (hclean : ∀ l ∈ ls, Clean l) (h : Machine.run step (start disk 0) ls = some w) : Laid w := by
  have hstart : Tidy (start disk 0) ∧ Laid (start disk 0) :=
    ⟨⟨by simp [start], fun _ => rfl⟩, Or.inl ⟨Or.inl rfl, hfresh, rfl, rfl, rfl⟩⟩
  have hend : Tidy w ∧ Laid w := by
    refine Machine.run_guarded (I := fun w => Tidy w ∧ Laid w) hstart ?_
      (Machine.along_of_labels hclean) h
    rintro u l v hl hstep ⟨htidy, hlaid⟩
    exact ⟨step_tidy (step_cases hstep) hl htidy, step_laid (step_cases hstep) hl htidy hlaid⟩
  exact hend.2

theorem run_arrived {disk : Disk} {offset : Nat} {ls : List Label} {w : Wal}
    (h : Machine.run step (start disk offset) ls = some w) :
    ∀ req ∈ w.arrived, Label.send req.event ∈ ls := by
  apply Machine.run_history (I := fun ls w => ∀ req ∈ w.arrived, Label.send req.event ∈ ls)
    (G := fun _ _ => True) _ _ (Machine.along_of_labels fun _ _ => trivial) h
  · simp [start]
  · intro pre u l v _ _ hstep hu req hreq
    have hkeep : req ∈ u.arrived → Label.send req.event ∈ pre ++ [l] :=
      fun hmem => List.mem_append_left _ (hu req hmem)
    rcases step_arrived (step_cases hstep) with harrived | ⟨event, rfl, harrived⟩
    · rw [harrived] at hreq
      exact hkeep hreq
    · rw [harrived] at hreq
      rcases List.mem_append.mp hreq with hreq | hreq
      · exact hkeep hreq
      · obtain rfl := List.mem_singleton.mp hreq
        simp

/-- The empty file of offset 0, if it is there, tiles nothing. -/
theorem Blank.segments {w : Wal} (h : Blank w) : ∃ segs : List (Segment IngestEvent),
    w.disk.nodes.filterMap Node.segment? = segs.map frameSegment ∧
    Tiles 0 (segs.map frameSegment) w.currentOffset ∧
    withOffsets 0 (segs.flatMap Segment.items) = w.streamed := by
  have hall : ∀ s ∈ w.disk.nodes.filterMap Node.segment?, s = ⟨0, []⟩ := by
    intro s hs
    obtain ⟨n, hn, hs⟩ := List.mem_filterMap.mp hs
    obtain ⟨start, hstart, rfl⟩ := Option.map_eq_some_iff.mp hs
    obtain ⟨hname, hcontent⟩ := h.disk n hn start hstart
    obtain ⟨hlinked, hfile⟩ := walStart?_eq_some hstart
    rw [walStart?_walName hlinked hfile hname] at hstart
    rw [hcontent, ← Option.some.inj hstart]
  refine ⟨List.replicate (w.disk.nodes.filterMap Node.segment?).length ⟨0, []⟩, ?_, ?_, ?_⟩
  · rw [List.map_replicate]
    exact List.eq_replicate_of_mem hall
  · rw [h.offset]
    generalize (w.disk.nodes.filterMap Node.segment?).length = k
    induction k with
    | zero => rfl
    | succ k ih => exact ⟨rfl, ih⟩
  · rw [h.stream]
    generalize (w.disk.nodes.filterMap Node.segment?).length = k
    induction k with
    | zero => rfl
    | succ k ih => exact ih

theorem Laid.segments {w : Wal} (h : Laid w) (hbuf : w.buf = []) :
    ∃ segs : List (Segment IngestEvent), w.disk.segments = segs.map frameSegment ∧
      Tiles 0 (segs.map frameSegment) w.currentOffset ∧
      withOffsets 0 (segs.flatMap Segment.items) = w.streamed := by
  have hsegs : ∃ segs : List (Segment IngestEvent),
      w.disk.nodes.filterMap Node.segment? = segs.map frameSegment ∧
      Tiles 0 (segs.map frameSegment) w.currentOffset ∧
      withOffsets 0 (segs.flatMap Segment.items) = w.streamed := by
    rcases h with hblank | ⟨older, last, hlog⟩
    · exact hblank.segments
    · refine ⟨older ++ [last], ?_, hlog.tiles, hlog.stream⟩
      simpa using hlog.layout.entries hbuf
  obtain ⟨segs, hnodes, htiles, hstream⟩ := hsegs
  refine ⟨segs, ?_, htiles, hstream⟩
  rw [Disk.segments, hnodes]
  exact htiles.sorted.insertionSort_eq

/-- The log says what the indexer was told. -/
structure LiveStream (w : Wal) : Prop where
  tiles : Tiles 0 w.disk.segments w.currentOffset
  /-- No frame straddles two files. -/
  whole : ∀ s ∈ w.disk.segments, (∃ evs, s.items = frames evs) ∧
    (WalReader.scan (.new s.items 0)).ending = .ok ()
  stream : readBack w.disk.segments = w.sent.map fun e => (e.event, e.walOffset)
  /-- The first pass of a cleanup tries no file with an event above the committed
  offset. -/
  pruned : ∀ committedOffset canRemove entries, entries.Perm w.disk.entries →
    ∀ f ∈ (firstPass canRemove committedOffset ⟨totalSize (walFiles entries), []⟩
      (walFiles entries)).1.tried,
    ∀ n ∈ w.disk.nodes, n.linked = true → n.name = f.name →
      ∀ e ∈ (WalReader.scan (.new n.content 0)).events, f.start + e.2 ≤ committedOffset

/-- A file the cleanup sees is the node of that name. -/
theorem node_of_walFile {d : Disk} {entries : List DirEntry} (hentries : entries.Perm d.entries)
    {f : WalFile} (hf : f ∈ walFiles entries) {n : Node} (hn : n ∈ d.nodes) (hlinked : n.linked = true)
    (hname : n.name = f.name) : n.walStart? = some f.start ∧ f.size = n.content.length := by
  have hperm := List.perm_insertionSort (fun a b : WalFile => a.start ≤ b.start)
    (entries.filterMap walFile?)
  obtain ⟨e, he, hfile⟩ := List.mem_filterMap.mp (hperm.subset hf)
  obtain ⟨m, hm, he⟩ := List.mem_filterMap.mp (hentries.subset he)
  simp only [Option.ite_none_right_eq_some, Option.some.injEq] at he
  obtain ⟨hmlinked, rfl⟩ := he
  unfold walFile? at hfile
  simp only [Option.ite_none_right_eq_some, Option.map_eq_some_iff] at hfile
  obtain ⟨hwal, start, hstart, rfl⟩ := hfile
  obtain ⟨i, hi⟩ := List.mem_iff_getElem?.mp hn
  obtain ⟨j, hj⟩ := List.mem_iff_getElem?.mp hm
  obtain rfl := linked_unique d.distinct hi hj hlinked hmlinked hname
  obtain rfl := Option.some.inj (hi.symm.trans hj)
  refine ⟨?_, rfl⟩
  obtain ⟨stem, hstem, hradix⟩ := Option.bind_eq_some_iff.mp hstart
  simp only [Bool.and_eq_true, decide_eq_true_eq] at hwal
  simp [Node.walStart?, hlinked, hwal.1, hwal.2, hstem, (Option.filter_eq_some_iff.mp hradix).1]

/-- **The live event stream equals the log.** A run on a directory without WAL
files, in which no write, flush or sync fails and every event is frameable: between
two batches the files tile the offsets given so far, in whole frames, and read back
as the events sent. -/
theorem live_stream_eq_log {disk : Disk} {ls : List Label} {w : Wal}
    (hnone : ∀ n ∈ disk.nodes, n.walStart? = none) (hclean : ∀ l ∈ ls, Clean l)
    (hevents : ∀ event, .send event ∈ ls → event.Frameable)
    (h : Machine.run step (start disk 0) ls = some w) (hidle : Idle w) : LiveStream w := by
  have hfresh : Fresh disk := by
    intro n hn start hstart
    rw [hnone n hn] at hstart
    cases hstart
  have hbooks := run_books h
  have hbuf : w.buf = [] := by
    apply (run_tidy hclean h).drained
    intro rest toIndex hphase
    simp [Idle, hphase] at hidle
  obtain ⟨segs, hsegs, htiles, hstream⟩ := (run_laid hfresh hclean h).segments hbuf
  have hsent : w.streamed = w.sent.map fun e => (e.event, e.walOffset) := by
    unfold Idle at hidle
    unfold streamed pending unanswered
    split at hidle <;> simp_all
  have hframeable : ∀ ev ∈ segs.flatMap Segment.items, ev.Frameable := by
    intro ev hev
    rw [← map_fst_withOffsets 0 (segs.flatMap Segment.items), hstream, hsent, List.map_map] at hev
    obtain ⟨e, he, rfl⟩ := List.mem_map.mp hev
    have hack : e.event ∈ w.acknowledged.map WalRequest.event := by
      rw [hbooks.forwarded]
      exact List.mem_map_of_mem (List.mem_append_left _ he)
    obtain ⟨req, hreq, heq⟩ := List.mem_map.mp hack
    have hsend := run_arrived h req (hbooks.acknowledged_sublist.subset hreq)
    rw [heq] at hsend
    exact hevents e.event hsend
  have hitem : ∀ s ∈ segs, ∀ ev ∈ s.items, ev.Frameable :=
    fun s hs ev hev => hframeable ev (List.mem_flatMap.mpr ⟨s, hs, hev⟩)
  refine ⟨hsegs ▸ htiles, ?_, ?_, ?_⟩
  · intro s hs
    rw [hsegs] at hs
    obtain ⟨part, hpart, rfl⟩ := List.mem_map.mp hs
    exact ⟨⟨part.items, rfl⟩, (scan_frames (hitem part hpart)).2⟩
  · rw [hsegs, readBack_tiles htiles hframeable, hstream, hsent]
  · intro committedOffset canRemove entries hentries f hf n hn hlinked hname e he
    rw [firstPass_tried, List.nil_append] at hf
    obtain ⟨hfile, hdone⟩ := List.mem_filter.mp hf
    obtain ⟨hstart, hsize⟩ := node_of_walFile hentries hfile hn hlinked hname
    have hmem : ⟨f.start, n.content⟩ ∈ w.disk.segments := by
      rw [Disk.segments, (List.perm_insertionSort _ _).mem_iff]
      exact List.mem_filterMap.mpr ⟨n, hn, segment?_some hstart⟩
    rw [hsegs] at hmem
    obtain ⟨s, hs, heq⟩ := List.mem_map.mp hmem
    obtain ⟨-, hcontent⟩ := Segment.mk.inj heq
    rw [← hcontent, (scan_frames (hitem s hs)).1] at he
    have hle := withOffsets_le he
    rw [← hcontent] at hsize
    simp only [decide_eq_true_eq] at hdone
    omega

/-- Two batches of one event each; the file is too small to be rotated. -/
def twoBatches : List Label :=
  [.boot true true true, .send ⟨"a", [1]⟩, .send ⟨"b", []⟩, .recv, .closeBatch, .frame [.ok 1],
    .flush .ok, .sync true, .rotate .ok true false, .respond, .forward, .finish, .recv, .closeBatch,
    .frame [], .flush .ok, .sync true, .rotate (.err 0) false true, .respond, .forward, .finish]

instance : (l : Label) → Decidable (Clean l)
  | .frame io => inferInstanceAs (Decidable (∀ o ∈ io.take 5, o.isOk = true))
  | .flush io => inferInstanceAs (Decidable (io = .ok))
  | .sync ok => inferInstanceAs (Decidable (ok = true))
  | .send _ | .boot _ _ _ | .recv | .tryRecv | .closeBatch | .rotate _ _ _ | .respond | .forward
  | .fail | .finish | .shutdown _ => isTrue trivial

theorem live_stream_eq_log_example : ∃ w, Machine.run step (start .empty 0) twoBatches = some w ∧
    w.sent.map IndexerEvent.walOffset = [12, 23] ∧ LiveStream w := by
  have hrun : (Machine.run step (start .empty 0) twoBatches).map
      (fun w => (w.phase, w.sent.map IndexerEvent.walOffset)) = some (.waiting, [12, 23]) := by
    decide +kernel
  obtain ⟨w, hw, heq⟩ := Option.map_eq_some_iff.mp hrun
  obtain ⟨hphase, hsent⟩ := Prod.mk.inj heq
  have hevents : ∀ event, .send event ∈ twoBatches → event.Frameable := by
    intro event hevent
    simp only [twoBatches, List.mem_cons, Label.send.injEq, List.not_mem_nil, reduceCtorEq, false_or,
      or_false] at hevent
    rcases hevent with rfl | rfl <;> decide +kernel
  refine ⟨w, hw, hsent, live_stream_eq_log (by simp [Disk.empty]) (by decide +kernel) hevents hw ?_⟩
  simp [Idle, hphase]

end Wal
end Edgewit
