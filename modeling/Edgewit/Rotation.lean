import Edgewit.LogStream
import Mathlib.Algebra.Order.BigOperators.Group.List

/-!
# File sizes under rotation

The appender goes on to a new file when a batch leaves the open one with 32 MiB or more.

* `rotated_full`: without failures of writing, all files but the newest hold at least that
  much, which bounds their number, also if some new file cannot be opened;
* `files_bounded`: if every new file can be opened, no file grows past 32 MiB and one batch.
-/

namespace Edgewit
open Tiling

namespace Wal

/-- The WAL files created before the open one. -/
def olderSegments (w : Wal) : List (Segment UInt8) :=
  (w.disk.nodes.take w.handle).filterMap Node.segment?

/-! ## Older files stay as they are -/

/-- `t` has the same open file as `w`, and the same files before it. -/
structure KeepsOlder (w t : Wal) : Prop where
  handle : t.handle = w.handle
  nodes : t.disk.nodes.take w.handle = w.disk.nodes.take w.handle

theorem KeepsOlder.trans {u v w : Wal} (huv : KeepsOlder u v) (hvw : KeepsOlder v w) :
    KeepsOlder u w := by
  refine ⟨hvw.handle.trans huv.handle, ?_⟩
  have hnodes := hvw.nodes
  rw [huv.handle] at hnodes
  exact hnodes.trans huv.nodes

theorem KeepsOlder.segments {w t : Wal} (h : KeepsOlder w t) : t.olderSegments = w.olderSegments := by
  rw [olderSegments, h.handle, h.nodes]
  rfl

theorem take_modify_self {α : Type} (f : α → α) (l : List α) (i : Nat) :
    (l.modify i f).take i = l.take i := by
  rw [List.take_modify]
  exact List.modify_eq_self (by simp)

theorem keepsOlder_push (w : Wal) (bytes : Bytes) (out : Nat) : KeepsOlder w (w.push bytes out) :=
  ⟨rfl, by simp [push, take_modify_self]⟩

theorem keepsOlder_flushBuf (w : Wal) (io : FlushOutcome) : KeepsOlder w (w.flushBuf io).2 := by
  cases io <;> exact keepsOlder_push w _ _

theorem keepsOlder_writePieces (w : Wal) (ps : List Bytes) (io : List WriteOutcome) :
    KeepsOlder w (w.writePieces ps io).2 := by
  induction ps generalizing w io with
  | nil => exact ⟨rfl, rfl⟩
  | cons p ps ih =>
    simp only [writePieces]
    cases io.headD (.ok 0) with
    | ok out => exact (keepsOlder_push w p out).trans (ih _ _)
    | err taken out => exact keepsOlder_push w _ _

/-- The open file is the last one, and it lies behind the older ones. -/
theorem Layout.olderSegments {w : Wal} {older : List (Segment UInt8)} {last : Segment UInt8}
    (h : Layout w older last) : w.olderSegments = older := by
  obtain ⟨before, n, after, hnodes, hhandle, hbefore, -, -, -⟩ := h
  rw [Wal.olderSegments, hnodes, hhandle, List.take_left, hbefore]

/-- Only a rotation makes an older file of the open one, once that is large enough. -/
theorem step_older {w t : Wal} {l : Label} (hstep : Step w l t) (ht : Tidy w)
    {older : List (Segment IngestEvent)} {last : Segment IngestEvent} (h : Log w older last) :
    t.olderSegments = w.olderSegments ∨
    (rotateBytes ≤ w.currentFileSize ∧
      ∃ s, t.olderSegments = w.olderSegments ++ [s] ∧ s.items.length = w.currentFileSize) := by
  cases hstep with
  | boot hphase => exact absurd hphase h.booted
  | @frame req rest toIndex io =>
    left
    have hkeeps := (keepsOlder_writePieces w req.event.pieces io).segments
    obtain ⟨v, -, rfl, ⟨-, heq⟩ | ⟨-, heq⟩⟩ := writeFrame_cases w req rest toIndex io <;>
      rw [heq] <;> exact hkeeps
  | @flush toIndex io =>
    left
    have hkeeps := (keepsOlder_flushBuf w io).segments
    cases io <;> exact hkeeps
  | @sync toIndex ok =>
    left
    cases ok with
    | true => simp [sync, olderSegments, take_modify_self]
    | false => rfl
  | @rotate toIndex flush syncOk openOk hphase =>
    have hbuf := ht.drained (by simp [hphase])
    obtain ⟨-, heq⟩ | ⟨hlarge, d, hd, hnext⟩ := rotate_cases hbuf toIndex flush syncOk openOk
    · rw [heq]
      exact Or.inl rfl
    · have hlayout : Layout { w with disk := d } (older.map frameSegment) (frameSegment last) := by
        rcases hd with rfl | rfl
        · exact h.layout
        · exact h.layout.syncData
      have hsame : (d.nodes.take w.handle).filterMap Node.segment? = w.olderSegments :=
        hlayout.olderSegments.trans h.layout.olderSegments.symm
      obtain heq | ⟨handle, disk, hopen, heq⟩ := hnext <;> rw [heq]
      · exact Or.inl hsame
      · have hlog : Log { w with disk := d } older last := h.still hlayout rfl rfl rfl h.booted
        have hpos : 0 < w.currentFileSize := Nat.lt_of_lt_of_le (by decide) hlarge
        obtain ⟨rfl, hnodes⟩ :=
          open_new (fun n hn start hstart => hlog.starts_lt hbuf hpos hn hstart) hopen
        refine Or.inr ⟨hlarge, frameSegment last, ?_, h.size.symm⟩
        rw [h.layout.olderSegments]
        simp only [olderSegments, hnodes, List.take_left]
        exact hlayout.entries hbuf
  | @shutdown io =>
    left
    have hkeeps := (keepsOlder_flushBuf w io).segments
    cases io <;> exact hkeeps
  | _ => exact Or.inl rfl

/-! ## Sizes of the older files -/

/-- An appender that has not opened a file in a directory without WAL files, or one whose
older files all have a size that `P` allows. -/
def Rolled (P : Nat → Prop) (w : Wal) : Prop :=
  (Blank w ∧ ∀ n ∈ w.disk.nodes, n.walStart? = none) ∨
  ∃ older last, Log w older last ∧ ∀ s ∈ w.olderSegments, P s.items.length

/-- The first file has none before it. -/
theorem boot_rolled {P : Nat → Prop} {w : Wal} {dirOk openOk metadataOk : Bool}
    (hphase : w.phase = .boot) (hblank : Blank w)
    (hnone : ∀ n ∈ w.disk.nodes, n.walStart? = none) :
    Rolled P (w.boot dirOk openOk metadataOk) := by
  have hlaid : Laid (w.boot dirOk openOk metadataOk) := boot_laid hphase hblank
  obtain heq | ⟨handle, disk, size, hopen, -, heq⟩ := boot_cases w dirOk openOk metadataOk <;>
    rw [heq] at hlaid ⊢
  · rcases hlaid with hblank' | ⟨older, last, hlog⟩
    · exact Or.inl ⟨hblank', hnone⟩
    · refine Or.inr ⟨older, last, hlog, ?_⟩
      intro s hs
      obtain ⟨n, hn, hseg⟩ := List.mem_filterMap.mp hs
      simp [Node.segment?, hnone n (List.mem_of_mem_take hn)] at hseg
  · rcases hlaid with hblank' | ⟨older, last, hlog⟩
    · rcases hblank'.phase with hphase' | hphase' <;> cases hphase'
    · refine Or.inr ⟨older, last, hlog, ?_⟩
      intro s hs
      obtain ⟨n, hn, hseg⟩ := List.mem_filterMap.mp hs
      have hold : n ∈ w.disk.nodes := by
        obtain ⟨rfl, -⟩ | ⟨-, rfl, hnodes⟩ := Disk.openAppend_cases hopen
        · exact List.mem_of_mem_take hn
        · dsimp only at hn
          rw [hnodes, List.take_left] at hn
          exact hn
      simp [Node.segment?, hnone n hold] at hseg

theorem step_rolled {P : Nat → Prop} {w t : Wal} {l : Label} (hstep : Step w l t)
    (hclean : Clean l) (ht : Tidy w) (hnew : rotateBytes ≤ w.currentFileSize → P w.currentFileSize)
    (h : Rolled P w) : Rolled P t := by
  rcases h with ⟨hblank, hnone⟩ | ⟨older, last, hlog, hsizes⟩
  · cases hstep with
    | send => exact Or.inl ⟨⟨hblank.phase, hblank.disk, hblank.offset, hblank.stream, hblank.buf⟩, hnone⟩
    | boot hphase => exact boot_rolled hphase hblank hnone
    | recv hphase | tryRecv hphase | closeBatch hphase | frame hphase | flush hphase | sync hphase
    | rotate hphase | respond hphase | forward hphase | fail hphase | finishOk hphase
    | finishFailed hphase | shutdown hphase =>
      rcases hblank.phase with hphase' | hphase' <;> rw [hphase] at hphase' <;> cases hphase'
  · obtain ⟨older', last', hlog'⟩ := hlog.step hstep hclean ht
    refine Or.inr ⟨older', last', hlog', ?_⟩
    obtain hsame | ⟨hlarge, s, hadds, hsize⟩ := step_older hstep ht hlog
    · rw [hsame]
      exact hsizes
    · rw [hadds, List.forall_mem_append]
      refine ⟨hsizes, ?_⟩
      simpa [hsize] using hnew hlarge

/-- Everything a file holds or will hold is in it or buffered. -/
theorem Log.entries {w : Wal} {older : List (Segment IngestEvent)} {last : Segment IngestEvent}
    (h : Log w older last) :
    ∃ s : Segment UInt8, w.disk.segments = w.olderSegments ++ [s] ∧
      s.items.length ≤ w.currentFileSize := by
  obtain ⟨before, n, after, hnodes, hhandle, hbefore, hafter, hstart, hitems⟩ := id h.layout
  have hlength := congrArg List.length hitems
  rw [List.length_append, items_frameSegment, ← h.size] at hlength
  have hall : w.disk.nodes.filterMap Node.segment? = w.olderSegments ++ [⟨last.start, n.content⟩] := by
    rw [h.layout.olderSegments, hnodes, List.filterMap_append, hbefore,
      List.filterMap_cons_some (segment?_some hstart), hafter]
    rfl
  refine ⟨⟨last.start, n.content⟩, ?_, by dsimp only; omega⟩
  have htiles := h.tiles.sorted
  rw [List.map_append, ← h.layout.olderSegments, List.pairwise_append] at htiles
  have hsorted : (w.olderSegments ++ [Segment.mk last.start n.content]).Pairwise
      fun s t => s.start ≤ t.start := by
    rw [List.pairwise_append]
    refine ⟨htiles.1, List.pairwise_singleton _ _, ?_⟩
    intro s hs t ht
    rw [List.mem_singleton.mp ht]
    exact htiles.2.2 s hs (frameSegment last) (by simp)
  rw [Disk.segments, hall]
  exact hsorted.insertionSort_eq

theorem Rolled.segments {P : Nat → Prop} {w : Wal} (h : Rolled P w) :
    w.disk.segments = [] ∨ ∃ older s, w.disk.segments = older ++ [s] ∧
      (∀ r ∈ older, P r.items.length) ∧ s.items.length ≤ w.currentFileSize ∧
      ∃ whole, Tiles 0 (older ++ [whole]) w.currentOffset := by
  rcases h with ⟨-, hnone⟩ | ⟨older, last, hlog, hsizes⟩
  · left
    rw [Disk.segments, filterMap_fresh hnone]
    rfl
  · obtain ⟨s, hsegments, hle⟩ := hlog.entries
    have htiles := hlog.tiles
    rw [List.map_append, ← hlog.layout.olderSegments] at htiles
    exact Or.inr ⟨w.olderSegments, s, hsegments, hsizes, hle, frameSegment last, htiles⟩

/-- The invariant rule for the sizes: `I` says what is known of the open file. -/
theorem run_rolled {Q : Label → Prop} {I : Wal → Prop} {P : Nat → Prop} {disk : Disk}
    {ls : List Label} {w : Wal} (hnone : ∀ n ∈ disk.nodes, n.walStart? = none)
    (hlabels : ∀ l ∈ ls, Clean l ∧ Q l) (h0 : I (start disk 0))
    (hstep : ∀ u l v, Clean l → Q l → Tidy u → Step u l v → I u → I v)
    (hP : ∀ u, I u → rotateBytes ≤ u.currentFileSize → P u.currentFileSize)
    (h : Machine.run step (start disk 0) ls = some w) : I w ∧ Tidy w ∧ Rolled P w := by
  have hfresh : Fresh disk := by
    intro n hn start hstart
    rw [hnone n hn] at hstart
    cases hstart
  refine Machine.run_guarded (I := fun u => I u ∧ Tidy u ∧ Rolled P u) ?_ ?_
    (Machine.along_of_labels hlabels) h
  · refine ⟨h0, ⟨by simp [start], fun _ => rfl⟩, Or.inl ⟨?_, hnone⟩⟩
    exact ⟨Or.inl rfl, hfresh, rfl, rfl, rfl⟩
  · rintro u l v ⟨hclean, hl⟩ hmoves ⟨hI, htidy, hrolled⟩
    have hmoves' := step_cases hmoves
    exact ⟨hstep u l v hclean hl htidy hmoves' hI, step_tidy hmoves' hclean htidy,
      step_rolled hmoves' hclean htidy (hP u hI) hrolled⟩

/-- The files behind the newest one are few. -/
theorem count_le {older : List (Segment UInt8)} {s : Segment UInt8} {a b n : Nat}
    (h : Tiles a (older ++ [s]) b) (hsize : ∀ r ∈ older, n ≤ r.items.length) :
    older.length * n ≤ b := by
  have hcount : older.length * n ≤ (older.flatMap Segment.items).length := by
    induction older generalizing a with
    | nil => simp
    | cons r older ih =>
      obtain ⟨hr, holder⟩ := List.forall_mem_cons.mp hsize
      have hrest := ih h.2 holder
      rw [List.length_cons, List.flatMap_cons, List.length_append, Nat.succ_mul]
      omega
  have hlength := h.length
  rw [List.flatMap_append, List.length_append] at hlength
  omega

/-! ## The open file -/

/-- The frames written to the open file since the last rotation was due. -/
def filling (w : Wal) : List (WalRequest × Nat) :=
  match w.phase with
  | .writing _ toIndex | .syncing toIndex | .rotating toIndex => toIndex
  | _ => []

def fillingBytes (w : Wal) : Nat := (w.filling.map fun x => x.1.event.frameLen).sum

/-- No directory is in the way of a WAL file. -/
def Unobstructed (d : Disk) : Prop :=
  ∀ n ∈ d.nodes, n.linked = true → ∀ start, n.name = walName start → n.isFile = true

/-- The new file of a rotation can be opened. -/
def Opening : Label → Prop
  | .rotate _ _ openOk => openOk = true
  | _ => True

theorem Unobstructed.modify {d : Disk} (h : Unobstructed d) {handle : Nat} {f : Node → Node}
    (hf : ∀ n, (f n).linked = n.linked ∧ (f n).name = n.name) (hfile : ∀ n, (f n).isFile = n.isFile) :
    Unobstructed (d.modify handle f hf) := by
  intro n hn hlinked start hname
  obtain ⟨i, hi⟩ := List.mem_iff_getElem?.mp hn
  simp only [Disk.modify, List.getElem?_modify] at hi
  cases hm : d.nodes[i]? with
  | none => simp [hm] at hi
  | some m =>
    have hmem := List.mem_of_getElem? hm
    by_cases hhandle : handle = i
    · simp only [hm, hhandle, if_true, Option.map_eq_map, Option.map_some, Option.some.injEq] at hi
      subst hi
      rw [hfile]
      exact h m hmem ((hf m).1 ▸ hlinked) start ((hf m).2 ▸ hname)
    · simp only [hm, hhandle, if_false, Option.map_eq_map, Option.map_some, Option.some.injEq] at hi
      subst hi
      exact h m hmem hlinked start hname

theorem Unobstructed.append {d : Disk} (h : Unobstructed d) (handle : Nat) (bytes : Bytes) :
    Unobstructed (d.append handle bytes) := by
  unfold Disk.append
  exact h.modify _ fun _ => rfl

theorem Unobstructed.syncData {d : Disk} (h : Unobstructed d) (handle : Nat) :
    Unobstructed (d.syncData handle) := by
  unfold Disk.syncData
  exact h.modify _ fun _ => rfl

theorem Unobstructed.openAppend {d e : Disk} (h : Unobstructed d) {name : String} {i : Nat}
    (hopen : d.openAppend name = some (i, e)) : Unobstructed e := by
  obtain ⟨rfl, -⟩ | ⟨-, -, hnodes⟩ := Disk.openAppend_cases hopen
  · exact h
  · intro n hn hlinked start hname
    rw [hnodes, List.mem_append] at hn
    rcases hn with hn | hn
    · exact h n hn hlinked start hname
    · rw [List.mem_singleton.mp hn]
      rfl

theorem Unobstructed.opens {d : Disk} (h : Unobstructed d) (start : Nat) :
    (d.openAppend (walName start)).isSome = true := by
  unfold Disk.openAppend
  split
  · rename_i hmem
    obtain ⟨m, hm, hl, hname⟩ := mem_linkedNames.mp hmem
    have hlt : d.nodes.findIdx (fun n => n.linked && n.name = walName start) < d.nodes.length :=
      List.findIdx_lt_length_of_exists ⟨m, hm, by simp [hl, hname]⟩
    have hp := List.findIdx_getElem (w := hlt)
    simp only [Bool.and_eq_true, decide_eq_true_eq] at hp
    have hfile := h _ (List.getElem_mem hlt) hp.1 start hp.2
    simp [List.getElem?_eq_getElem hlt, hfile]
  · rfl

theorem Unobstructed.push {w : Wal} (h : Unobstructed w.disk) (bytes : Bytes) (out : Nat) :
    Unobstructed (w.push bytes out).disk := h.append _ _

theorem Unobstructed.writePieces {w : Wal} (h : Unobstructed w.disk) (ps : List Bytes)
    (io : List WriteOutcome) : Unobstructed (w.writePieces ps io).2.disk := by
  induction ps generalizing w io with
  | nil => exact h
  | cons p ps ih =>
    simp only [Wal.writePieces]
    cases io.headD (.ok 0) with
    | ok out => exact ih (h.push p out) _
    | err taken out => exact h.push _ _

/-- A rotation that is due and can open the new file starts it. -/
theorem rotate_starts {w : Wal} (hbuf : w.buf = []) (hlarge : rotateBytes ≤ w.currentFileSize)
    (hfree : Unobstructed w.disk) (toIndex : List (WalRequest × Nat)) (flush : FlushOutcome)
    (syncOk : Bool) : (w.rotate toIndex flush syncOk true).currentFileSize = 0 ∧
      Unobstructed (w.rotate toIndex flush syncOk true).disk := by
  have hfree' : Unobstructed (if syncOk then w.disk.syncData w.handle else w.disk) := by
    cases syncOk with
    | true => exact hfree.syncData _
    | false => exact hfree
  obtain ⟨p, hp⟩ := Option.isSome_iff_exists.mp (hfree'.opens w.currentOffset)
  unfold rotate
  rw [if_pos hlarge]
  simp only [flushBuf_empty hbuf, if_true, hp]
  exact ⟨trivial, hfree'.openAppend hp⟩

/-- The open file is below the size of rotation, but for the frames of the batch at hand. -/
structure Fits (w : Wal) : Prop where
  unopened : w.phase = .boot → ∀ n ∈ w.disk.nodes, n.walStart? = none
  free : Unobstructed w.disk
  size : w.currentFileSize < rotateBytes + w.fillingBytes

theorem Fits.move {w t : Wal} (h : Fits w) (hbooted : t.phase ≠ .boot)
    (hdisk : Unobstructed t.disk) (hsize : t.currentFileSize = w.currentFileSize)
    (hbytes : w.fillingBytes ≤ t.fillingBytes) : Fits t := by
  have hfits := h.size
  exact ⟨fun hboot => absurd hboot hbooted, hdisk, by omega⟩

theorem step_fits {w t : Wal} {l : Label} (hclean : Clean l) (hopening : Opening l) (ht : Tidy w)
    (hstep : Step w l t) (h : Fits w) : Fits t := by
  have hdry := ht.drained
  have hfits := h.size
  cases hstep with
  | send => exact ⟨h.unopened, h.free, h.size⟩
  | @boot dirOk openOk metadataOk hphase =>
    obtain heq | ⟨handle, disk, size, hopen, hsize, heq⟩ := boot_cases w dirOk openOk metadataOk <;>
      rw [heq]
    · refine h.move (by simp) h.free rfl ?_
      simp [fillingBytes, filling, hphase]
    · refine ⟨by simp, h.free.openAppend hopen, ?_⟩
      -- No WAL file was there, so the file of the offset is a new one.
      have hlen : disk.len handle = 0 := by
        obtain ⟨rfl, n, hn, hlinked, hfile, hname⟩ | ⟨-, rfl, hnodes⟩ := Disk.openAppend_cases hopen
        · have hnone := h.unopened hphase n (List.mem_of_getElem? hn)
          rw [walStart?_walName hlinked hfile hname] at hnone
          cases hnone
        · simp [Disk.len, hnodes, Disk.newFile]
      have hzero : size = 0 := by cases metadataOk <;> simp [hsize, hlen]
      simp [hzero, rotateBytes]
  | recv hphase => exact h.move (by simp) h.free rfl (by simp [fillingBytes, filling, hphase])
  | tryRecv hphase => exact h.move (by simp) h.free rfl (by simp [fillingBytes, filling, hphase])
  | closeBatch hphase =>
    exact h.move (by simp [closeBatch]) h.free rfl (by simp [fillingBytes, filling, hphase])
  | @frame req rest toIndex io hphase =>
    have hfree := h.free.writePieces req.event.pieces io
    obtain ⟨v, ⟨buf, disk, written, rfl⟩, hv, ⟨-, heq⟩ | ⟨hfail, -⟩⟩ :=
      writeFrame_cases w req rest toIndex io
    · rw [hv] at hfree
      rw [heq]
      refine ⟨by simp, hfree, ?_⟩
      simp only [fillingBytes, filling, hphase, List.map_append, List.sum_append, List.map_cons,
        List.map_nil, List.sum_cons, List.sum_nil] at hfits ⊢
      omega
    · rw [(writePieces_ok_iff w req.event.pieces io).mpr hclean] at hfail
      cases hfail
  | @flush toIndex io hphase =>
    obtain rfl : io = .ok := hclean
    exact h.move (by simp [Wal.flush, flushBuf]) (h.free.push _ _) rfl
      (by simp [Wal.flush, flushBuf, fillingBytes, filling, hphase])
  | @sync toIndex ok hphase =>
    obtain rfl : ok = true := hclean
    exact h.move (by simp [sync]) (h.free.syncData _) rfl
      (by simp [sync, fillingBytes, filling, hphase])
  | @rotate toIndex flush syncOk openOk hphase =>
    obtain rfl : openOk = true := hopening
    have hbuf := hdry (by simp [hphase])
    by_cases hlarge : rotateBytes ≤ w.currentFileSize
    · obtain ⟨hsize, hfree⟩ := rotate_starts hbuf hlarge h.free toIndex flush syncOk
      obtain ⟨path, disk, handle, buf, size, written, heq⟩ := rotate_eq w toIndex flush syncOk true
      rw [heq] at hsize hfree ⊢
      refine ⟨by simp, hfree, ?_⟩
      have hzero : size = 0 := hsize
      simp [hzero, rotateBytes]
    · rw [rotate, if_neg hlarge]
      refine ⟨by simp, h.free, ?_⟩
      dsimp only
      omega
  | respond hphase =>
    exact h.move (by simp [respond]) h.free rfl (by simp [fillingBytes, filling, hphase])
  | forward hphase =>
    exact h.move (by simp [forward]) h.free rfl (by simp [fillingBytes, filling, hphase])
  | fail hphase | finishFailed hphase => exact absurd hphase (ht.succeeding _)
  | finishOk hphase =>
    exact h.move (by simp [finish]) h.free rfl (by simp [fillingBytes, filling, hphase])
  | shutdown hphase =>
    unfold shutdown
    rw [flushBuf_empty (hdry (by simp [hphase]))]
    exact h.move (by simp) h.free rfl (by simp [fillingBytes, filling, hphase])

/-- The frames of `filling` are those of requests of the batch. -/
theorem filling_sublist {w : Wal} (h : InProgress w.phase w.cur) :
    (w.filling.map Prod.fst).Sublist w.cur.requests := by
  cases hphase : w.phase <;> simp only [InProgress, hphase] at h <;>
    simp [filling, hphase, h, BatchRecord.start]

theorem fillingBytes_le {w : Wal} {m : Nat} (hb : Books w) (hheld : w.held ≤ maxBatch)
    (hframes : ∀ req ∈ w.arrived, req.event.frameLen ≤ m) : w.fillingBytes ≤ maxBatch * m := by
  have hsub := filling_sublist hb.current
  have hall : ∀ n ∈ w.filling.map fun x => x.1.event.frameLen, n ≤ m := by
    intro n hn
    obtain ⟨x, hx, rfl⟩ := List.mem_map.mp hn
    apply hframes
    rw [← hb.arrival]
    have hcur := hsub.subset (List.mem_map_of_mem hx)
    simp [hcur]
  have hsum := List.sum_le_card_nsmul _ _ hall
  have hlength := hsub.length_le
  rw [List.length_map] at hlength
  simp only [held] at hheld
  rw [List.length_map, Nat.nsmul_eq_mul] at hsum
  exact Nat.le_trans hsum (Nat.mul_le_mul_right m (by omega))

/-! ## A run that rotates

The frame of `largeEvent` alone fills a file. It stays in the buffer until the flush, which
leaves its bytes unevaluated: a run of this size cannot be decided. -/

def largeEvent : IngestEvent := ⟨"a", List.replicate rotateBytes 0⟩

theorem frameLen_largeEvent : largeEvent.frameLen = rotateBytes + 11 := by
  have hname : (utf8 largeEvent.index).length = 1 := by decide
  have hpayload : largeEvent.payload.length = rotateBytes := List.length_replicate
  rw [IngestEvent.frameLen, hname, hpayload]
  omega

/-- One batch with the one event. -/
def oneBatch (ev : IngestEvent) : List Label :=
  [.boot true true true, .send ev, .recv, .closeBatch, .frame [], .flush .ok, .sync true,
    .rotate .ok true true, .respond, .forward, .finish]

theorem boot_empty : (start .empty 0).boot true true true =
    { start .empty 0 with
      phase := .waiting
      walPath := walName 0
      disk := ⟨[Disk.newFile (walName 0)], by simp [Disk.linkedNames_newFile]⟩ } := by
  simp [boot, start, Disk.openAppend, Disk.empty, linkedNames, Disk.len, Disk.newFile]

theorem writePieces_buffered (w : Wal) (ps : List Bytes) :
    w.writePieces ps [] = (true, { w with buf := w.buf ++ ps.flatten }) := by
  induction ps generalizing w with
  | nil => simp [writePieces]
  | cons p ps ih => simp [writePieces, push, ih]

theorem walName_injective {a b : Nat} (h : walName a = walName b) : a = b := by
  have ha := walStart?_walName (n := Disk.newFile (walName a)) rfl rfl rfl
  have hb := walStart?_walName (n := Disk.newFile (walName a)) rfl rfl h
  exact Option.some.inj (ha.symm.trans hb)

/-- A batch that fills the file leaves it to a new one. -/
theorem run_oneBatch {ev : IngestEvent} (hlarge : rotateBytes ≤ ev.frameLen) :
    ∃ w, Machine.run step (start .empty 0) (oneBatch ev) = some w ∧ w.phase = .waiting ∧
      w.disk.nodes = [⟨walName 0, true, true, ev.frame, ev.frame.length⟩,
        Disk.newFile (walName ev.frameLen)] := by
  have hname : walName 0 ≠ walName ev.frameLen := by
    intro heq
    have hpos := frameLen_pos ev
    have hzero := walName_injective heq
    omega
  simp only [oneBatch, Machine.run, step, boot_empty]
  simp [start, send, closeBatch, writeFrame, writePieces_buffered, flush, flushBuf, push, sync,
    rotate, hlarge, hname, respond, forward, finish, Disk.openAppend, Disk.newFile, Disk.syncData,
    Disk.append, Disk.modify, linkedNames, IngestEvent.frame]

theorem run_large : ∃ w, Machine.run step (start .empty 0) (oneBatch largeEvent) = some w ∧
    w.phase = .waiting ∧ w.disk.segments.length = 2 := by
  have hlarge : rotateBytes ≤ largeEvent.frameLen := by simp [frameLen_largeEvent]
  obtain ⟨w, hw, hphase, hnodes⟩ := run_oneBatch hlarge
  refine ⟨w, hw, hphase, ?_⟩
  rw [Disk.segments, List.length_insertionSort, hnodes]
  have hfirst : (Node.mk (walName 0) true true largeEvent.frame largeEvent.frame.length).segment? =
      some ⟨0, largeEvent.frame⟩ := segment?_some (walStart?_walName rfl rfl rfl)
  have hsecond : (Disk.newFile (walName largeEvent.frameLen)).segment? =
      some ⟨largeEvent.frameLen, []⟩ := segment?_some (walStart?_walName rfl rfl rfl)
  rw [List.filterMap_cons_some hfirst, List.filterMap_cons_some hsecond]
  rfl

theorem clean_oneBatch (ev : IngestEvent) : ∀ l ∈ oneBatch ev, Clean l := by
  simp [oneBatch, Clean, FrameOk]

/-! ## Whole runs -/

/-- **Every rotated file is full.** In a run without failures of writing, from a directory
without WAL files, all WAL files but the newest hold at least 32 MiB, so that their number is
bounded by the bytes logged. A new file that cannot be opened does no harm here. -/
theorem rotated_full {disk : Disk} {ls : List Label} {w : Wal}
    (hnone : ∀ n ∈ disk.nodes, n.walStart? = none) (hclean : ∀ l ∈ ls, Clean l)
    (h : Machine.run step (start disk 0) ls = some w) :
    (∀ s ∈ w.disk.segments.dropLast, rotateBytes ≤ s.items.length) ∧
    (w.disk.segments.length - 1) * rotateBytes ≤ w.currentOffset := by
  obtain ⟨-, -, hrolled⟩ := run_rolled (Q := fun _ => True) (I := fun _ => True)
    (P := fun n => rotateBytes ≤ n) hnone (fun l hl => ⟨hclean l hl, trivial⟩) trivial
    (fun _ _ _ _ _ _ _ _ => trivial) (fun _ _ hlarge => hlarge) h
  obtain hnil | ⟨older, s, hsegments, hsizes, -, whole, htiles⟩ := hrolled.segments
  · simp [hnil]
  · rw [hsegments, List.dropLast_concat, List.length_append, List.length_singleton,
      Nat.add_sub_cancel]
    exact ⟨hsizes, count_le htiles hsizes⟩

theorem rotated_full_example : ∃ w,
    Machine.run step (start .empty 0) (oneBatch largeEvent) = some w ∧
    w.disk.segments.length = 2 ∧ ∀ s ∈ w.disk.segments.dropLast, rotateBytes ≤ s.items.length := by
  obtain ⟨w, hw, -, htwo⟩ := run_large
  exact ⟨w, hw, htwo, (rotated_full (by simp [Disk.empty]) (clean_oneBatch largeEvent) hw).1⟩

/-- What a step brings, if no write fails, new files can be opened and no frame is longer
than `m`. -/
def Sound (m : Nat) (l : Label) : Prop :=
  Opening l ∧ ∀ event, l = .send event → event.frameLen ≤ m

/-- **No file outgrows a batch.** If in addition every rotation can open its file, no WAL file
reaches 32 MiB and the frames of one batch. Between two batches the open one is below 32 MiB. -/
theorem files_bounded {disk : Disk} {ls : List Label} {w : Wal} {m : Nat}
    (hnone : ∀ n ∈ disk.nodes, n.walStart? = none) (hfree : Unobstructed disk)
    (hclean : ∀ l ∈ ls, Clean l) (hsound : ∀ l ∈ ls, Sound m l)
    (h : Machine.run step (start disk 0) ls = some w) :
    (∀ s ∈ w.disk.segments, s.items.length < rotateBytes + maxBatch * m) ∧
    (Idle w → ∀ s, w.disk.segments.getLast? = some s → s.items.length < rotateBytes) := by
  let I (u : Wal) : Prop := Fits u ∧ Books u ∧ u.held ≤ maxBatch ∧
    ∀ req ∈ u.arrived, req.event.frameLen ≤ m
  have hstart : I (start disk 0) := by
    refine ⟨⟨fun _ => hnone, hfree, by simp [start, rotateBytes]⟩, start_books disk 0, ?_, ?_⟩
    · simp [start, held, batched, BatchRecord.start]
    · simp [start]
  have hstep : ∀ u l v, Clean l → Sound m l → Tidy u → Step u l v → I u → I v := by
    rintro u l v hl ⟨hopening, hsend⟩ htidy hmoves ⟨hfits, hb, hheld, hframes⟩
    refine ⟨step_fits hl hopening htidy hmoves hfits, step_books hmoves hb,
      step_held hmoves hb hheld, ?_⟩
    rcases step_arrived hmoves with harrived | ⟨event, rfl, harrived⟩ <;> rw [harrived]
    · exact hframes
    · rw [List.forall_mem_append]
      refine ⟨hframes, ?_⟩
      simpa using hsend event rfl
  have hbound : ∀ u, I u → u.currentFileSize < rotateBytes + maxBatch * m := by
    rintro u ⟨hfits, hb, hheld, hframes⟩
    have hsize := hfits.size
    have hbytes := fillingBytes_le hb hheld hframes
    omega
  obtain ⟨hI, htidy, hrolled⟩ := run_rolled (P := fun n => n < rotateBytes + maxBatch * m) hnone
    (fun l hl => ⟨hclean l hl, hsound l hl⟩) hstart hstep (fun u hu _ => hbound u hu) h
  obtain hnil | ⟨older, s, hsegments, hsizes, hle, -⟩ := hrolled.segments
  · simp [hnil]
  · rw [hsegments]
    constructor
    · rw [List.forall_mem_append]
      refine ⟨hsizes, ?_⟩
      have hlast := hbound w hI
      simp only [List.mem_singleton, forall_eq]
      omega
    · intro hidle r hr
      rw [List.getLast?_concat, Option.some.injEq] at hr
      subst hr
      have hsize := hI.1.size
      have hempty : w.fillingBytes = 0 := by
        unfold Idle at hidle
        unfold fillingBytes filling
        split at hidle <;> simp_all
      omega

theorem files_bounded_example : ∃ w,
    Machine.run step (start .empty 0) (oneBatch largeEvent) = some w ∧
    w.disk.segments.length = 2 ∧
    ∀ s, w.disk.segments.getLast? = some s → s.items.length < rotateBytes := by
  obtain ⟨w, hw, hphase, htwo⟩ := run_large
  refine ⟨w, hw, htwo, (files_bounded (m := rotateBytes + 11) ?_ ?_ (clean_oneBatch largeEvent) ?_
    hw).2 (by simp [Idle, hphase])⟩
  · simp [Disk.empty]
  · simp [Unobstructed, Disk.empty]
  · simp [oneBatch, Sound, Opening, frameLen_largeEvent]

end Wal
end Edgewit
