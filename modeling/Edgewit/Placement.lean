import Edgewit.Failure

/-!
# Where frames lie

An appender step only adds to files, and the present and buffered bytes of a file
only grow. So a frame stays where it was put, in a file with the name of a WAL
file (`run_filed`).
-/

namespace Edgewit

/-- The content of a node; an unknown node has none. -/
def Disk.bytes (d : Disk) (i : Nat) : Bytes := (d.nodes[i]?.map Node.content).getD []

/-- The same directory entry with more content. -/
structure Node.Grows (n m : Node) : Prop where
  name : m.name = n.name
  isFile : m.isFile = n.isFile
  linked : m.linked = n.linked
  content : n.content <+: m.content

/-- Every node of `d` is still there in `e`, with more content. -/
def Disk.Grows (d e : Disk) : Prop :=
  ∀ (i : Nat) (n : Node), d.nodes[i]? = some n → ∃ m, e.nodes[i]? = some m ∧ n.Grows m

theorem Node.Grows.refl (n : Node) : n.Grows n := ⟨rfl, rfl, rfl, List.prefix_refl _⟩

namespace Disk

theorem bytes_of_get {d : Disk} {i : Nat} {n : Node} (h : d.nodes[i]? = some n) :
    d.bytes i = n.content := by
  simp [bytes, h]

theorem len_eq (d : Disk) (i : Nat) : d.len i = (d.bytes i).length := by
  unfold len bytes
  cases d.nodes[i]? <;> rfl

theorem Grows.refl (d : Disk) : d.Grows d := fun _ n h => ⟨n, h, .refl n⟩

theorem Grows.trans {c d e : Disk} (hcd : c.Grows d) (hde : d.Grows e) : c.Grows e := by
  intro i n hn
  obtain ⟨m, hm, hnm⟩ := hcd i n hn
  obtain ⟨k, hk, hmk⟩ := hde i m hm
  exact ⟨k, hk, hmk.name.trans hnm.name, hmk.isFile.trans hnm.isFile, hmk.linked.trans hnm.linked,
    hnm.content.trans hmk.content⟩

theorem grows_modify {d : Disk} {handle : Nat} {f : Node → Node} {hf}
    (h : ∀ n : Node, n.Grows (f n)) : d.Grows (d.modify handle f hf) := by
  intro i n hn
  simp only [modify, List.getElem?_modify, hn]
  by_cases hi : handle = i
  · exact ⟨f n, by simp [hi], h n⟩
  · exact ⟨n, by simp [hi], .refl n⟩

theorem grows_append (d : Disk) (handle : Nat) (bytes : Bytes) : d.Grows (d.append handle bytes) :=
  grows_modify fun _ => ⟨rfl, rfl, rfl, List.prefix_append _ _⟩

theorem grows_syncData (d : Disk) (handle : Nat) : d.Grows (d.syncData handle) :=
  grows_modify fun _ => ⟨rfl, rfl, rfl, List.prefix_refl _⟩

theorem grows_openAppend {d e : Disk} {name : String} {i : Nat}
    (h : d.openAppend name = some (i, e)) : d.Grows e := by
  obtain ⟨rfl, -⟩ | ⟨-, -, hnodes⟩ := openAppend_cases h
  · exact Grows.refl _
  · intro j n hn
    have hlt := (List.getElem?_eq_some_iff.mp hn).1
    exact ⟨n, by rw [hnodes, List.getElem?_append_left hlt, hn], .refl n⟩

/-- The file just opened. -/
theorem openAppend_file {d e : Disk} {name : String} {i : Nat}
    (h : d.openAppend name = some (i, e)) :
    ∃ n, e.nodes[i]? = some n ∧ n.linked = true ∧ n.isFile = true ∧ n.name = name := by
  obtain ⟨rfl, hn⟩ | ⟨-, rfl, hnodes⟩ := openAppend_cases h
  · exact hn
  · exact ⟨newFile name, by simp [hnodes], rfl, rfl, rfl⟩

theorem bytes_append {d : Disk} {handle : Nat} (h : handle < d.nodes.length) (bytes : Bytes)
    (i : Nat) : (d.append handle bytes).bytes i = d.bytes i ++ if i = handle then bytes else [] := by
  simp only [Disk.bytes, nodes_append, List.getElem?_modify]
  by_cases hi : handle = i
  · subst hi
    simp [List.getElem?_eq_getElem h]
  · simp [hi, Ne.symm hi]

@[simp] theorem bytes_syncData (d : Disk) (handle i : Nat) :
    (d.syncData handle).bytes i = d.bytes i := by
  simp only [bytes, nodes_syncData, List.getElem?_modify]
  cases d.nodes[i]? with
  | none => rfl
  | some n => by_cases hi : handle = i <;> simp [hi]

theorem bytes_openAppend {d e : Disk} {name : String} {i : Nat}
    (h : d.openAppend name = some (i, e)) (j : Nat) : e.bytes j = d.bytes j := by
  obtain ⟨rfl, -⟩ | ⟨-, -, hnodes⟩ := openAppend_cases h
  · rfl
  · simp only [bytes, hnodes, List.getElem?_append]
    split
    · rfl
    · rename_i hlt
      rw [List.getElem?_eq_none (Nat.le_of_not_lt hlt)]
      cases j - d.nodes.length with
      | zero => rfl
      | succ k => rfl

end Disk

namespace Wal

/-- The bytes of a file, with those still buffered for it. -/
def view (w : Wal) (i : Nat) : Bytes := w.disk.bytes i ++ if i = w.handle then w.buf else []

/-- A regular file with the name of a WAL file. -/
def IsWal (n : Node) : Prop := n.isFile = true ∧ ∃ start, n.name = walName start

/-- The worker runs. -/
def Live (w : Wal) : Prop := w.phase ≠ .boot ∧ w.phase ≠ .stopped

instance (w : Wal) : Decidable w.Live := inferInstanceAs (Decidable (_ ∧ _))

/-- Requests written but not answered, with their offsets. -/
def unanswered (w : Wal) : List (WalRequest × Nat) :=
  match w.phase with
  | .writing _ toIndex | .syncing toIndex | .rotating toIndex | .responding toIndex
  | .forwarding _ toIndex => toIndex
  | _ => []

/-- The frame of a placement ends at its position in a WAL file. -/
structure Held (w : Wal) (p : Placement) : Prop where
  file : ∃ n, w.disk.nodes[p.handle]? = some n ∧ IsWal n
  within : p.position ≤ (w.view p.handle).length
  frame : p.request.event.frame <:+ (w.view p.handle).take p.position

/-- Every frame is where it was put, and every request to be answered was put
somewhere. -/
structure Filed (w : Wal) : Prop where
  opened : Live w → ∃ n, w.disk.nodes[w.handle]? = some n ∧ IsWal n
  held : ∀ p ∈ w.placed, Held w p
  entered : ∀ x ∈ w.unanswered, ∃ p ∈ w.placed, (p.request, p.walOffset) = x
  numbered : ∀ p ∈ w.placed, p.walOffset ≤ w.currentOffset

theorem view_push {w : Wal} (h : w.handle < w.disk.nodes.length) (bytes : Bytes) (out i : Nat) :
    (w.push bytes out).view i = w.view i ++ if i = w.handle then bytes else [] := by
  simp only [view, push, Disk.bytes_append h]
  by_cases hi : i = w.handle <;> simp [hi, List.append_assoc]

theorem grows_push (w : Wal) (bytes : Bytes) (out : Nat) : w.disk.Grows (w.push bytes out).disk :=
  Disk.grows_append _ _ _

theorem push_handle (w : Wal) (bytes : Bytes) (out : Nat) :
    (w.push bytes out).handle = w.handle ∧
    (w.push bytes out).disk.nodes.length = w.disk.nodes.length := by
  simp [push]

theorem view_flushBuf {w : Wal} (h : w.handle < w.disk.nodes.length) (io : FlushOutcome) (i : Nat) :
    (w.flushBuf io).2.view i = w.view i := by
  cases io <;> simp [flushBuf, view_push h]

theorem grows_flushBuf (w : Wal) (io : FlushOutcome) : w.disk.Grows (w.flushBuf io).2.disk := by
  cases io <;> exact grows_push _ _ _

theorem grows_writePieces (w : Wal) (ps : List Bytes) (io : List WriteOutcome) :
    w.disk.Grows (w.writePieces ps io).2.disk := by
  induction ps generalizing w io with
  | nil => exact Disk.Grows.refl _
  | cons p ps ih =>
    simp only [writePieces]
    cases io.headD (.ok 0) with
    | ok out => exact (grows_push w p out).trans (ih _ _)
    | err taken out => exact grows_push _ _ _

/-- The pieces of a frame go to the end of the open file; all of them, if no call
fails. -/
theorem view_writePieces {w : Wal} (h : w.handle < w.disk.nodes.length) (ps : List Bytes)
    (io : List WriteOutcome) :
    ∃ taken, (∀ i, (w.writePieces ps io).2.view i = w.view i ++ if i = w.handle then taken else []) ∧
      ((w.writePieces ps io).1 = true → taken = ps.flatten) := by
  induction ps generalizing w io with
  | nil => exact ⟨[], by simp [writePieces]⟩
  | cons p ps ih =>
    simp only [writePieces]
    cases io.headD (.ok 0) with
    | ok out =>
      obtain ⟨hhandle, hlength⟩ := push_handle w p out
      obtain ⟨taken, hview, hall⟩ := ih (w := w.push p out) (by rw [hhandle, hlength]; exact h) io.tail
      refine ⟨p ++ taken, ?_, fun hok => by rw [hall hok, List.flatten_cons]⟩
      intro i
      rw [hview, view_push h, hhandle]
      by_cases hi : i = w.handle <;> simp [hi]
    | err taken out =>
      refine ⟨p.take taken, fun i => view_push h _ _ i, ?_⟩
      simp

/-! ## One step -/

/-- Files and buffered bytes only grow. -/
def Extends (w t : Wal) : Prop := w.disk.Grows t.disk ∧ ∀ i, w.view i <+: t.view i

theorem Extends.of_eq {w t : Wal} (hdisk : t.disk = w.disk) (hhandle : t.handle = w.handle)
    (hbuf : t.buf = w.buf) : Extends w t := by
  refine ⟨by rw [hdisk]; exact .refl _, fun i => ?_⟩
  simp only [view, hdisk, hhandle, hbuf]
  exact List.prefix_refl _

/-- Opening a file with an empty buffer changes no bytes. -/
theorem Extends.open {w t : Wal} {d : Disk} {name : String} (hbuf : w.buf = []) (hbuf' : t.buf = [])
    (hd : d = w.disk ∨ d = w.disk.syncData w.handle)
    (hopen : d.openAppend name = some (t.handle, t.disk)) : Extends w t := by
  have hgrow : w.disk.Grows d := by
    rcases hd with rfl | rfl
    · exact .refl _
    · exact Disk.grows_syncData _ _
  refine ⟨hgrow.trans (Disk.grows_openAppend hopen), fun i => ?_⟩
  have hbytes : t.disk.bytes i = w.disk.bytes i := by
    rw [Disk.bytes_openAppend hopen]
    rcases hd with rfl | rfl <;> simp
  simp [view, hbuf, hbuf', hbytes]

theorem writeFrame_extends {w : Wal} (h : w.handle < w.disk.nodes.length) (req : WalRequest)
    (rest : List WalRequest) (toIndex : List (WalRequest × Nat)) (io : List WriteOutcome) :
    Extends w (w.writeFrame req rest toIndex io) := by
  have hgrow := grows_writePieces w req.event.pieces io
  obtain ⟨taken, hview, -⟩ := view_writePieces h req.event.pieces io
  obtain ⟨v, -, rfl, ⟨-, heq⟩ | ⟨-, heq⟩⟩ := writeFrame_cases w req rest toIndex io <;>
    rw [heq] <;> refine ⟨hgrow, fun i => ?_⟩
  all_goals
    have hprefix : w.view i <+: (w.writePieces req.event.pieces io).2.view i := by
      rw [hview]
      exact List.prefix_append _ _
    exact hprefix

theorem Filed.handle_lt {w : Wal} (hw : Filed w) (hlive : Live w) :
    w.handle < w.disk.nodes.length := by
  obtain ⟨n, hn, -⟩ := hw.opened hlive
  exact (List.getElem?_eq_some_iff.mp hn).1

theorem step_extends {w t : Wal} {l : Label} (h : Step w l t) (hf : Flow w) (hw : Filed w) :
    Extends w t := by
  have hdry := hf.drained
  unfold Drained at hdry
  cases h with
  | send | recv | tryRecv | closeBatch | respond | forward | fail | finishOk | finishFailed =>
    exact Extends.of_eq rfl rfl rfl
  | @boot dirOk openOk metadataOk hphase =>
    rw [hphase] at hdry
    obtain heq | ⟨handle, disk, size, hopen, -, heq⟩ := boot_cases w dirOk openOk metadataOk <;> rw [heq]
    · exact Extends.of_eq rfl rfl rfl
    · exact Extends.open hdry rfl (Or.inl rfl) hopen
  | frame hphase =>
    have hlive : Live w := by simp [Live, hphase]
    exact writeFrame_extends (hw.handle_lt hlive) _ _ _ _
  | @flush toIndex io hphase =>
    have hlt := hw.handle_lt (by simp [Live, hphase])
    have hgrow := grows_flushBuf w io
    have hview := view_flushBuf hlt io
    cases io <;> exact ⟨hgrow, fun i => by rw [← hview i]; exact List.prefix_refl _⟩
  | @sync toIndex ok hphase =>
    cases ok with
    | false => exact Extends.of_eq rfl rfl rfl
    | true =>
      refine ⟨Disk.grows_syncData _ _, fun i => ?_⟩
      simp [view, sync]
  | @rotate toIndex flush syncOk openOk hphase =>
    rw [hphase] at hdry
    obtain ⟨-, heq⟩ | ⟨-, d, hd, heq | ⟨handle, disk, hopen, heq⟩⟩ :=
      rotate_cases hdry toIndex flush syncOk openOk <;> rw [heq]
    · exact Extends.of_eq rfl rfl rfl
    · rcases hd with rfl | rfl
      · exact Extends.of_eq rfl rfl rfl
      · refine ⟨Disk.grows_syncData _ _, fun i => ?_⟩
        simp [view]
    · exact Extends.open hdry hdry hd hopen
  | @shutdown io hphase =>
    have hlt := hw.handle_lt (by simp [Live, hphase])
    exact ⟨grows_flushBuf w io, fun i => by rw [← view_flushBuf hlt io i]; exact List.prefix_refl _⟩

theorem IsWal.grows {n m : Node} (h : IsWal n) (hnm : n.Grows m) : IsWal m := by
  obtain ⟨hfile, start, hname⟩ := h
  exact ⟨hnm.isFile.trans hfile, start, hnm.name.trans hname⟩

theorem Held.extends {w t : Wal} {p : Placement} (h : Held w p) (hext : Extends w t) : Held t p := by
  obtain ⟨n, hn, hwal⟩ := h.file
  obtain ⟨m, hm, hnm⟩ := hext.1 _ n hn
  obtain ⟨more, hmore⟩ := hext.2 p.handle
  refine ⟨⟨m, hm, hwal.grows hnm⟩, ?_, ?_⟩
  · have hle := h.within
    rw [← hmore, List.length_append]
    omega
  · rw [← hmore, List.take_append_of_le_length h.within]
    exact h.frame

/-- A step that places nothing. It may open another WAL file. -/
structure Opens (w t : Wal) : Prop where
  placed : t.placed = w.placed
  offset : t.currentOffset = w.currentOffset
  unanswered : ∀ x ∈ t.unanswered, x ∈ w.unanswered
  opened : Live t → (Live w ∧ t.handle = w.handle) ∨
    ∃ n, t.disk.nodes[t.handle]? = some n ∧ n.linked = true ∧ IsWal n

/-- A step that writes the frame of a request at the end of the open file. -/
structure Places (w t : Wal) (req : WalRequest) : Prop where
  live : Live w
  handle : t.handle = w.handle
  view : t.view w.handle = w.view w.handle ++ req.event.frame
  offset : t.currentOffset = w.currentOffset + req.event.frameLen
  placed : t.placed = w.placed ++ [⟨req, t.currentOffset, w.handle, (t.view w.handle).length⟩]
  unanswered : t.unanswered = w.unanswered ++ [(req, t.currentOffset)]

/-- A step that stays on the open file. -/
theorem Opens.stay {w t : Wal} (hlive : Live w) (hhandle : t.handle = w.handle)
    (hplaced : t.placed = w.placed) (hoffset : t.currentOffset = w.currentOffset)
    (hunanswered : ∀ x ∈ t.unanswered, x ∈ w.unanswered) : Opens w t :=
  ⟨hplaced, hoffset, hunanswered, fun _ => Or.inl ⟨hlive, hhandle⟩⟩

theorem Opens.open {w t : Wal} {d : Disk} {name : Nat} (hplaced : t.placed = w.placed)
    (hoffset : t.currentOffset = w.currentOffset)
    (hunanswered : ∀ x ∈ t.unanswered, x ∈ w.unanswered)
    (hopen : d.openAppend (walName name) = some (t.handle, t.disk)) : Opens w t := by
  refine ⟨hplaced, hoffset, hunanswered, fun _ => Or.inr ?_⟩
  obtain ⟨n, hn, hlinked, hfile, hname⟩ := Disk.openAppend_file hopen
  exact ⟨n, hn, hlinked, hfile, name, hname⟩

/-- A frame whose calls all succeed is placed; otherwise nothing is. -/
theorem frame_places {w : Wal} {req : WalRequest} {rest : List WalRequest}
    {toIndex : List (WalRequest × Nat)} {io : List WriteOutcome}
    (hphase : w.phase = .writing (req :: rest) toIndex) (hlt : w.handle < w.disk.nodes.length) :
    (FrameOk io ∧ Places w (w.writeFrame req rest toIndex io) req) ∨
    (¬ FrameOk io ∧ Opens w (w.writeFrame req rest toIndex io)) := by
  have hlive : Live w := by simp [Live, hphase]
  have hok : _ ↔ FrameOk io := writePieces_ok_iff w req.event.pieces io
  obtain ⟨taken, hview, hall⟩ := view_writePieces hlt req.event.pieces io
  obtain ⟨v, ⟨buf, disk, written, rfl⟩, hv, ⟨htrue, heq⟩ | ⟨hfalse, heq⟩⟩ :=
    writeFrame_cases w req rest toIndex io <;> rw [heq]
  · rw [hv, hall htrue] at hview
    have hend : disk.bytes w.handle ++ buf = w.view w.handle ++ req.event.frame := by
      simpa [view, IngestEvent.frame] using hview w.handle
    refine Or.inl ⟨hok.mp htrue, hlive, rfl, ?_, rfl, ?_, ?_⟩
    · simpa [view] using hend
    · simp [view, Disk.len_eq]
    · simp [unanswered, hphase]
  · refine Or.inr ⟨fun h => ?_, Opens.stay hlive rfl rfl rfl (by simp [unanswered])⟩
    rw [hok.mpr h] at hfalse
    cases hfalse

/-- What a step does to the files: a frame that is written is placed, and nothing
else is. -/
def Files (w : Wal) (l : Label) (t : Wal) : Prop :=
  (Opens w t ∧ ∀ io, l = .frame io → ¬ FrameOk io) ∨
  ∃ req io, l = .frame io ∧ FrameOk io ∧ Places w t req

theorem Files.opens {w t : Wal} {l : Label} (h : Opens w t) (hl : ∀ io, l ≠ .frame io) :
    Files w l t :=
  Or.inl ⟨h, fun io hio => absurd hio (hl io)⟩

theorem step_files {w t : Wal} {l : Label} (h : Step w l t) (hf : Flow w) (hw : Filed w) :
    Files w l t := by
  have hdry := hf.drained
  unfold Drained at hdry
  cases h with
  | send =>
    exact Files.opens ⟨rfl, rfl, fun x hx => hx, fun hlive => Or.inl ⟨hlive, rfl⟩⟩ (by simp)
  | @boot dirOk openOk metadataOk hphase =>
    obtain heq | ⟨handle, disk, size, hopen, -, heq⟩ := boot_cases w dirOk openOk metadataOk <;> rw [heq]
    · exact Files.opens ⟨rfl, rfl, by simp [unanswered], fun hlive => absurd hlive (by simp [Live])⟩
        (by simp)
    · exact Files.opens (Opens.open rfl rfl (by simp [unanswered]) hopen) (by simp)
  | recv hphase | tryRecv hphase | closeBatch hphase | fail hphase | finishOk hphase
  | finishFailed hphase =>
    have hlive : Live w := by simp [Live, hphase]
    exact Files.opens (Opens.stay hlive rfl rfl rfl
      (by simp [unanswered, closeBatch, fail, finish])) (by simp)
  | frame hphase =>
    have hlt := hw.handle_lt (by simp [Live, hphase])
    rcases frame_places hphase hlt with ⟨hok, hplaces⟩ | ⟨hfail, hopens⟩
    · exact Or.inr ⟨_, _, rfl, hok, hplaces⟩
    · refine Or.inl ⟨hopens, fun io hio => ?_⟩
      obtain rfl := Label.frame.inj hio
      exact hfail
  | @flush toIndex io hphase =>
    have hlive : Live w := by simp [Live, hphase]
    cases io with
    | ok =>
      exact Files.opens (Opens.stay hlive rfl rfl rfl
        (by simp [unanswered, flush, flushBuf, hphase])) (by simp)
    | err out =>
      exact Files.opens (Opens.stay hlive rfl rfl rfl (by simp [unanswered, flush, flushBuf]))
        (by simp)
  | @sync toIndex ok hphase =>
    have hlive : Live w := by simp [Live, hphase]
    cases ok with
    | true =>
      exact Files.opens (Opens.stay hlive rfl rfl rfl (by simp [unanswered, sync, hphase]))
        (by simp)
    | false =>
      exact Files.opens (Opens.stay hlive rfl rfl rfl (by simp [unanswered, sync]))
        (by simp)
  | @rotate toIndex flush syncOk openOk hphase =>
    have hlive : Live w := by simp [Live, hphase]
    rw [hphase] at hdry
    obtain ⟨-, heq⟩ | ⟨-, d, -, heq | ⟨handle, disk, hopen, heq⟩⟩ :=
      rotate_cases hdry toIndex flush syncOk openOk <;> rw [heq]
    · exact Files.opens (Opens.stay hlive rfl rfl rfl (by simp [unanswered, hphase])) (by simp)
    · exact Files.opens (Opens.stay hlive rfl rfl rfl (by simp [unanswered, hphase])) (by simp)
    · exact Files.opens (Opens.open rfl rfl (by simp [unanswered, hphase]) hopen) (by simp)
  | respond hphase | forward hphase =>
    have hlive : Live w := by simp [Live, hphase]
    exact Files.opens (Opens.stay hlive rfl rfl rfl
      (by simp +contextual [unanswered, respond, forward, hphase])) (by simp)
  | @shutdown io hphase =>
    refine Files.opens ⟨?_, ?_, by simp [unanswered, shutdown], ?_⟩ (by simp)
    · cases io <;> rfl
    · cases io <;> rfl
    · exact fun hlive => absurd hlive (by simp [Live, shutdown])

/-! ## The invariant -/

theorem Opens.filed {w t : Wal} (h : Opens w t) (hext : Extends w t) (hw : Filed w) : Filed t := by
  refine ⟨?_, ?_, ?_, ?_⟩
  · intro hlive
    rcases h.opened hlive with ⟨hlive, hhandle⟩ | ⟨n, hn, -, hwal⟩
    · obtain ⟨n, hn, hwal⟩ := hw.opened hlive
      obtain ⟨m, hm, hnm⟩ := hext.1 _ n hn
      exact ⟨m, by rw [hhandle]; exact hm, hwal.grows hnm⟩
    · exact ⟨n, hn, hwal⟩
  · intro p hp
    rw [h.placed] at hp
    exact (hw.held p hp).extends hext
  · intro x hx
    rw [h.placed]
    exact hw.entered x (h.unanswered x hx)
  · rw [h.placed, h.offset]
    exact hw.numbered

theorem Places.filed {w t : Wal} {req : WalRequest} (h : Places w t req) (hext : Extends w t)
    (hw : Filed w) : Filed t := by
  obtain ⟨n, hn, hwal⟩ := hw.opened h.live
  obtain ⟨m, hm, hnm⟩ := hext.1 _ n hn
  have hfile : ∃ m, t.disk.nodes[w.handle]? = some m ∧ IsWal m := ⟨m, hm, hwal.grows hnm⟩
  refine ⟨?_, ?_, ?_, ?_⟩
  · intro _
    rw [h.handle]
    exact hfile
  · intro p hp
    rw [h.placed] at hp
    rcases List.mem_append.mp hp with hp | hp
    · exact (hw.held p hp).extends hext
    · obtain rfl := List.mem_singleton.mp hp
      refine ⟨hfile, Nat.le_refl _, ?_⟩
      dsimp only
      rw [List.take_length, h.view]
      exact List.suffix_append _ _
  · intro x hx
    rw [h.unanswered] at hx
    rw [h.placed]
    rcases List.mem_append.mp hx with hx | hx
    · obtain ⟨p, hp, hx⟩ := hw.entered x hx
      exact ⟨p, List.mem_append_left _ hp, hx⟩
    · obtain rfl := List.mem_singleton.mp hx
      exact ⟨_, List.mem_append_right _ List.mem_cons_self, rfl⟩
  · intro p hp
    rw [h.placed] at hp
    rcases List.mem_append.mp hp with hp | hp
    · have hle := hw.numbered p hp
      rw [h.offset]
      omega
    · obtain rfl := List.mem_singleton.mp hp
      exact Nat.le_refl _

theorem step_filed {w t : Wal} {l : Label} (h : Step w l t) (hf : Flow w) (hw : Filed w) :
    Filed t := by
  have hext := step_extends h hf hw
  rcases step_files h hf hw with ⟨hopens, -⟩ | ⟨req, io, -, -, hplaces⟩
  · exact hopens.filed hext hw
  · exact hplaces.filed hext hw

theorem start_filed (disk : Disk) (offset : Nat) : Filed (start disk offset) := by
  refine ⟨?_, ?_, ?_, ?_⟩
  · intro hlive
    simp [Live, start] at hlive
  · simp [start]
  · simp [start, unanswered]
  · simp [start]

theorem run_filed {disk : Disk} {offset : Nat} {ls : List Label} {w : Wal}
    (h : Machine.run step (start disk offset) ls = some w) : Flow w ∧ Filed w :=
  Machine.run_invariant (I := fun w => Flow w ∧ Filed w)
    ⟨start_flow disk offset, start_filed disk offset⟩
    (fun _ _ _ hstep hw =>
      ⟨step_flow (step_cases hstep) hw.1, step_filed (step_cases hstep) hw.1 hw.2⟩) h

end Wal
end Edgewit
