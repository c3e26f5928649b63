import Edgewit.Pruning

/-!
# The space that the log takes

`EDGEWIT_MAX_WAL_BYTES` against the appender: after a cleanup cycle whose total does not wrap, the
WAL files present take no more than the limit, or what could not be removed. Until the next cycle
they grow by what was not yet written at the cycle and by the frames of the requests sent since:
`space_bounded`.
-/

namespace Edgewit

/-! ## The bytes of the WAL files -/

/-- The bytes of the WAL files present. -/
def Disk.walBytes (d : Disk) : Nat := totalSize (walFiles d.entries)

def Node.walBytes (n : Node) : Nat :=
  if n.linked && (walFile? ⟨n.name, n.isFile, 0⟩).isSome then n.content.length else 0

theorem totalSize_perm {as bs : List WalFile} (h : as.Perm bs) : totalSize as = totalSize bs :=
  (h.map WalFile.size).sum_eq

theorem totalSize_walFiles (entries : List DirEntry) :
    totalSize (walFiles entries) = totalSize (entries.filterMap walFile?) :=
  totalSize_perm (List.perm_insertionSort _ _)

/-- The size of a WAL file is that of its entry. -/
theorem walFile?_size (name : String) (isFile : Bool) (len : Nat) :
    totalSize (walFile? ⟨name, isFile, len⟩).toList =
      if (walFile? ⟨name, isFile, 0⟩).isSome then len else 0 := by
  unfold walFile?
  split
  · cases (fileStem name.toList).bind fromStrRadix16 <;> simp
  · simp

theorem walBytes_eq (d : Disk) : d.walBytes = (d.nodes.map Node.walBytes).sum := by
  rw [Disk.walBytes, totalSize_walFiles, Disk.entries]
  induction d.nodes with
  | nil => rfl
  | cons n nodes ih =>
    rw [List.map_cons, List.sum_cons, ← ih, List.filterMap_cons]
    cases hlinked : n.linked with
    | false => simp [Node.walBytes, hlinked]
    | true =>
      have hsize := walFile?_size n.name n.isFile n.content.length
      rw [Node.walBytes, hlinked, Bool.true_and, ← hsize]
      simp only [if_true, List.filterMap_cons]
      cases walFile? ⟨n.name, n.isFile, n.content.length⟩ <;> simp

theorem sum_modify_le {α : Type} {f : α → α} {size : α → Nat} {k : Nat}
    (h : ∀ a, size (f a) ≤ size a + k) (l : List α) (i : Nat) :
    ((l.modify i f).map size).sum ≤ (l.map size).sum + k := by
  induction l generalizing i with
  | nil => simp
  | cons a l ih =>
    cases i with
    | zero =>
      have ha := h a
      simp only [List.modify_zero_cons, List.map_cons, List.sum_cons]
      omega
    | succ i =>
      have hrest := ih i
      simp only [List.modify_succ_cons, List.map_cons, List.sum_cons]
      omega

namespace Disk

theorem walBytes_append (d : Disk) (handle : Nat) (bytes : Bytes) :
    (d.append handle bytes).walBytes ≤ d.walBytes + bytes.length := by
  rw [walBytes_eq, walBytes_eq, nodes_append]
  apply sum_modify_le
  intro n
  simp only [Node.walBytes, List.length_append]
  split <;> omega

theorem walBytes_syncData (d : Disk) (handle : Nat) :
    (d.syncData handle).walBytes ≤ d.walBytes := by
  rw [walBytes_eq, walBytes_eq, nodes_syncData]
  apply sum_modify_le (k := 0)
  intro n
  exact Nat.le_refl _

/-- A file that is opened is there already, or empty. -/
theorem walBytes_openAppend {d e : Disk} {name : String} {i : Nat}
    (h : d.openAppend name = some (i, e)) : e.walBytes = d.walBytes := by
  obtain ⟨rfl, -⟩ | ⟨-, -, hnodes⟩ := openAppend_cases h
  · rfl
  · rw [walBytes_eq, walBytes_eq, hnodes]
    simp [newFile, Node.walBytes]

end Disk

/-! ## The appender -/

namespace Wal

/-- The requests whose frames have not been written. -/
def unwritten (w : Wal) : List WalRequest :=
  (match w.phase with
  | .batching batch => batch
  | .writing rest _ => rest
  | _ => []) ++ w.queue

def frameBytes (reqs : List WalRequest) : Nat := (reqs.map fun req => req.event.frameLen).sum

/-- The bytes on disk and those still to come there. -/
def footprint (w : Wal) : Nat := w.disk.walBytes + w.buf.length + frameBytes w.unwritten

@[simp] theorem frameBytes_nil : frameBytes [] = 0 := rfl

@[simp] theorem frameBytes_cons (req : WalRequest) (reqs : List WalRequest) :
    frameBytes (req :: reqs) = req.event.frameLen + frameBytes reqs := rfl

@[simp] theorem frameBytes_append (as bs : List WalRequest) :
    frameBytes (as ++ bs) = frameBytes as + frameBytes bs := by
  simp [frameBytes]

end Wal

/-- The bytes that a request brings. -/
def Label.frameBytes : Label → Nat
  | .send event => event.frameLen
  | _ => 0

namespace Wal

theorem push_bytes (w : Wal) (bytes : Bytes) (out : Nat) :
    (w.push bytes out).disk.walBytes + (w.push bytes out).buf.length ≤
      w.disk.walBytes + w.buf.length + bytes.length := by
  have happend := w.disk.walBytes_append w.handle ((w.buf ++ bytes).take out)
  simp only [push, List.length_drop, List.length_take, List.length_append] at happend ⊢
  omega

theorem flushBuf_bytes (w : Wal) (io : FlushOutcome) :
    (w.flushBuf io).2.disk.walBytes + (w.flushBuf io).2.buf.length ≤
      w.disk.walBytes + w.buf.length := by
  cases io <;> exact push_bytes w [] _

theorem writePieces_bytes (w : Wal) (ps : List Bytes) (io : List WriteOutcome) :
    (w.writePieces ps io).2.disk.walBytes + (w.writePieces ps io).2.buf.length ≤
      w.disk.walBytes + w.buf.length + ps.flatten.length := by
  induction ps generalizing w io with
  | nil => exact Nat.le_add_right _ _
  | cons p ps ih =>
    simp only [writePieces, List.flatten_cons, List.length_append]
    cases io.headD (.ok 0) with
    | ok out =>
      have hhead := push_bytes w p out
      have htail := ih (w.push p out) io.tail
      dsimp only
      omega
    | err taken out =>
      have hhead := push_bytes w (p.take taken) out
      rw [List.length_take] at hhead
      dsimp only
      omega

theorem rotate_bytes (w : Wal) (toIndex : List (WalRequest × Nat)) (flush : FlushOutcome)
    (syncOk openOk : Bool) :
    (w.rotate toIndex flush syncOk openOk).disk.walBytes +
      (w.rotate toIndex flush syncOk openOk).buf.length ≤ w.disk.walBytes + w.buf.length := by
  have hflush := flushBuf_bytes w flush
  have hsync := (w.flushBuf flush).2.disk.walBytes_syncData (w.flushBuf flush).2.handle
  unfold rotate
  split
  · dsimp only
    split
    · rename_i handle disk hopen
      rw [Option.ite_none_right_eq_some] at hopen
      have hsame := Disk.walBytes_openAppend hopen.2
      cases syncOk <;> simp at hsame ⊢ <;> omega
    · cases syncOk <;> simp <;> omega
  · exact Nat.le_refl _

/-- A step that writes no frame. -/
theorem footprint_le {w t : Wal} (hbytes : t.disk.walBytes + t.buf.length ≤
    w.disk.walBytes + w.buf.length) (hsame : frameBytes t.unwritten ≤ frameBytes w.unwritten) :
    t.footprint ≤ w.footprint := by
  unfold footprint
  omega

/-- Only a new request adds to the footprint. -/
theorem step_footprint {w t : Wal} {l : Label} (h : Step w l t) :
    t.footprint ≤ w.footprint + l.frameBytes := by
  cases h with
  | @send event =>
    have hnew : frameBytes (w.send event).unwritten =
        frameBytes w.unwritten + event.frameLen := by
      simp only [send, unwritten, frameBytes_append, frameBytes_cons, frameBytes_nil]
      omega
    unfold footprint
    rw [hnew]
    simp only [send, Label.frameBytes]
    omega
  | @boot dirOk openOk metadataOk hphase =>
    obtain heq | ⟨handle, disk, size, hopen, -, heq⟩ := boot_cases w dirOk openOk metadataOk
    · rw [heq]
      exact footprint_le (Nat.le_refl _) (by simp [unwritten, hphase])
    · have hsame := Disk.walBytes_openAppend hopen
      rw [heq]
      refine footprint_le ?_ (by simp [unwritten, hphase])
      simp only [hsame, List.length_nil]
      omega
  | recv hphase hnext =>
    exact footprint_le (Nat.le_refl _) (by simp [unwritten, hphase, hnext])
  | tryRecv hphase hnext =>
    exact footprint_le (Nat.le_refl _) (by simp [unwritten, hphase, hnext])
  | closeBatch hphase =>
    exact footprint_le (Nat.le_refl _) (by simp [closeBatch, unwritten, hphase])
  | @frame req rest toIndex io hphase =>
    have hpieces := writePieces_bytes w req.event.pieces io
    have hlength : req.event.pieces.flatten.length = req.event.frameLen := length_frame req.event
    obtain ⟨v, ⟨buf, disk, written, rfl⟩, hv, ⟨-, heq⟩ | ⟨-, heq⟩⟩ :=
      writeFrame_cases w req rest toIndex io <;>
      rw [hv, hlength] at hpieces <;> rw [heq] <;>
      simp only [footprint, unwritten, hphase, frameBytes_append, frameBytes_cons, frameBytes_nil,
        Label.frameBytes] at hpieces ⊢ <;> omega
  | @flush toIndex io hphase =>
    have hbytes := flushBuf_bytes w io
    cases io <;> exact footprint_le hbytes (by simp [Wal.flush, flushBuf, push, unwritten, hphase])
  | @sync toIndex ok hphase =>
    cases ok with
    | true =>
      have hbytes := w.disk.walBytes_syncData w.handle
      exact footprint_le (Nat.add_le_add_right hbytes _) (by simp [sync, unwritten, hphase])
    | false => exact footprint_le (Nat.le_refl _) (by simp [sync, unwritten, hphase])
  | @rotate toIndex flush syncOk openOk hphase =>
    have hbytes := rotate_bytes w toIndex flush syncOk openOk
    obtain ⟨path, disk, handle, buf, size, written, heq⟩ := rotate_eq w toIndex flush syncOk openOk
    rw [heq] at hbytes ⊢
    exact footprint_le hbytes (by simp [unwritten, hphase])
  | respond hphase => exact footprint_le (Nat.le_refl _) (by simp [respond, unwritten, hphase])
  | forward hphase => exact footprint_le (Nat.le_refl _) (by simp [forward, unwritten, hphase])
  | fail hphase => exact footprint_le (Nat.le_refl _) (by simp [fail, unwritten, hphase])
  | finishOk hphase => exact footprint_le (Nat.le_refl _) (by simp [finish, unwritten, hphase])
  | finishFailed hphase => exact footprint_le (Nat.le_refl _) (by simp [finish, unwritten, hphase])
  | @shutdown io hphase empty =>
    have hbytes := flushBuf_bytes w io
    cases io <;>
      exact footprint_le hbytes (by simp [shutdown, flushBuf, push, unwritten, hphase, empty])

end Wal

/-! ## A cleanup cycle -/

namespace Pruning
open Wal

theorem entries_unlink (d : Disk) (name : String) :
    (d.unlink name).entries = d.entries.filter fun e => e.name ≠ name := by
  simp only [Disk.entries, Disk.nodes_unlink]
  induction d.nodes with
  | nil => rfl
  | cons n nodes ih =>
    rw [List.map_cons, List.filterMap_cons, ih, List.filterMap_cons]
    cases hlinked : n.linked with
    | false => simp [Disk.unlinkNode, hlinked]
    | true =>
      by_cases hname : n.name = name
      · simp [Disk.unlinkNode, hlinked, hname]
      · simp [Disk.unlinkNode, hlinked, hname]

theorem entries_removeAll (d : Disk) (files : List WalFile) :
    (removeAll d files).entries = d.entries.filter fun e => ∀ f ∈ files, e.name ≠ f.name := by
  induction files generalizing d with
  | nil => simp [removeAll]
  | cons f files ih =>
    have hrest := ih (d.unlink f.name)
    rw [entries_unlink, List.filter_filter] at hrest
    rw [show removeAll d (f :: files) = removeAll (d.unlink f.name) files from rfl, hrest]
    apply List.filter_congr
    intro e _
    simp [Bool.and_comm]

/-- The files that go are found by their names. -/
theorem filterMap_walFile? (entries : List DirEntry) (p : String → Bool) :
    (entries.filter fun e => p e.name).filterMap walFile? =
      (entries.filterMap walFile?).filter fun f => p f.name := by
  induction entries with
  | nil => rfl
  | cons e entries ih =>
    cases hfile : walFile? e with
    | none =>
      rw [List.filterMap_cons_none hfile, ← ih, List.filter_cons]
      split
      · rw [List.filterMap_cons_none hfile]
      · rfl
    | some f =>
      have hname := walFile?_name hfile
      rw [List.filterMap_cons_some hfile, List.filter_cons, List.filter_cons, hname, ← ih]
      split
      · rw [List.filterMap_cons_some hfile]
      · rfl

theorem totalSize_filter_le (p : WalFile → Bool) (files : List WalFile) :
    totalSize (files.filter p) ≤ totalSize files := by
  induction files with
  | nil => exact Nat.le_refl _
  | cons f files ih =>
    rw [List.filter_cons]
    split <;> simp <;> omega

/-- What is left of the files that were tried. -/
theorem totalSize_stuck {canRemove : String → Bool} {tried removed : List WalFile}
    (h : ∀ f ∈ tried, canRemove f.name = true → f ∈ removed) :
    totalSize (tried.filter fun f => ∀ g ∈ removed, f.name ≠ g.name) ≤
      stuckSize canRemove tried := by
  induction tried with
  | nil => exact Nat.le_refl _
  | cons f tried ih =>
    obtain ⟨hf, hrest⟩ := List.forall_mem_cons.mp h
    have hle := ih hrest
    rw [List.filter_cons, stuckSize_cons]
    cases hcan : canRemove f.name with
    | true =>
      have hgone : ¬ ∀ g ∈ removed, f.name ≠ g.name := fun hall => hall f (hf hcan) rfl
      simp only [hgone, decide_false, Bool.false_eq_true, if_false, if_true]
      omega
    | false =>
      split <;> simp only [totalSize_cons, Bool.false_eq_true, if_false] <;> omega

/-- After a cycle, the WAL files are within the limit, or could not be removed. -/
theorem cleanup_walBytes {maxWalBytes : Nat} {w : Wal} {entries : List DirEntry}
    {canRemove : String → Bool} (hfits : w.disk.walBytes < 2 ^ 64)
    (hperm : entries.Perm w.disk.entries) :
    (cleanup maxWalBytes w entries canRemove).disk.walBytes ≤
      max maxWalBytes (stuckSize canRemove (walFiles entries)) := by
  obtain ⟨tried, kept, hsplit, htried, hkept, -⟩ :=
    cleanupWalsU64_tried canRemove entries 0 maxWalBytes
  let removed := (cleanupWalsU64 canRemove entries 0 maxWalBytes).removed canRemove
  let stays (f : WalFile) : Bool := decide (∀ g ∈ removed, f.name ≠ g.name)
  let first := (walFiles entries).filter fun f => f.stopU64 ≤ 0
  have hall : (walFiles entries).Perm (first ++ (tried ++ kept)) := by
    rw [← hsplit]
    refine (List.filter_append_perm (fun f : WalFile => f.stopU64 ≤ 0) _).symm.trans ?_
    have hrest : (walFiles entries).filter (fun f => !decide (f.stopU64 ≤ 0)) =
        (walFiles entries).filter fun f => 0 < f.stopU64 :=
      List.filter_congr fun f _ => by simp [Nat.pos_iff_ne_zero]
    rw [hrest]
  have hfiles : (w.disk.entries.filterMap walFile?).Perm (walFiles entries) :=
    (hperm.symm.filterMap walFile?).trans (List.perm_insertionSort _ _).symm
  have hleft : (cleanup maxWalBytes w entries canRemove).disk.walBytes =
      totalSize (first.filter stays) + totalSize (tried.filter stays) +
        totalSize (kept.filter stays) := by
    calc (cleanup maxWalBytes w entries canRemove).disk.walBytes
        = totalSize ((w.disk.entries.filterMap walFile?).filter stays) := by
          rw [Disk.walBytes, totalSize_walFiles, cleanup, entries_removeAll]
          exact congrArg totalSize
            (filterMap_walFile? w.disk.entries fun name => decide (∀ g ∈ removed, name ≠ g.name))
      _ = totalSize ((walFiles entries).filter stays) := totalSize_perm (hfiles.filter stays)
      _ = totalSize ((first ++ (tried ++ kept)).filter stays) := totalSize_perm (hall.filter stays)
      _ = _ := by
          rw [List.filter_append, List.filter_append, totalSize_append, totalSize_append]
          omega
  have hremoved : ∀ f ∈ first ++ tried, canRemove f.name = true → f ∈ removed := by
    intro f hf hcan
    exact List.mem_filter.mpr ⟨by rw [htried]; exact hf, hcan⟩
  have hfirst : totalSize (first.filter stays) ≤ stuckSize canRemove first :=
    totalSize_stuck fun f hf => hremoved f (List.mem_append_left _ hf)
  have htried' : totalSize (tried.filter stays) ≤ stuckSize canRemove tried :=
    totalSize_stuck fun f hf => hremoved f (List.mem_append_right _ hf)
  have hkeptle := totalSize_filter_le stays kept
  rw [hleft]
  by_cases hnil : kept = []
  · have hnone : totalSize (kept.filter stays) = 0 := by simp [hnil]
    have hsum : stuckSize canRemove first + stuckSize canRemove tried =
        stuckSize canRemove (walFiles entries) := by
      have hperm' := totalSize_perm (hall.filter fun f => !canRemove f.name)
      rw [hnil, List.append_nil, List.filter_append, totalSize_append] at hperm'
      exact hperm'.symm
    omega
  · -- The total that the worker knows is what there is.
    have htotal : totalSize (walFiles entries) % 2 ^ 64 =
        totalSize first + totalSize tried + totalSize kept := by
      have hsame := (totalSize_walFiles w.disk.entries).trans (totalSize_perm hfiles)
      rw [Nat.mod_eq_of_lt (hsame ▸ hfits), totalSize_perm hall, totalSize_append,
        totalSize_append, Nat.add_assoc]
    have hlimit : totalSize (walFiles entries) % 2 ^ 64 -
        (goneSize canRemove first + goneSize canRemove tried) ≤ maxWalBytes := hkept hnil
    have hgone := gone_add_stuck canRemove first
    have hgone' := gone_add_stuck canRemove tried
    omega

/-- A cycle takes no space. -/
theorem cleanup_le (maxWalBytes : Nat) (w : Wal) (entries : List DirEntry)
    (canRemove : String → Bool) :
    (cleanup maxWalBytes w entries canRemove).disk.walBytes ≤ w.disk.walBytes := by
  rw [Disk.walBytes, Disk.walBytes, totalSize_walFiles, totalSize_walFiles, cleanup,
    entries_removeAll]
  have hfilter := filterMap_walFile? w.disk.entries fun name =>
    decide (∀ g ∈ (cleanupWalsU64 canRemove entries 0 maxWalBytes).removed canRemove, name ≠ g.name)
  rw [hfilter]
  exact totalSize_filter_le _ _

def Label.frameBytes : Label → Nat
  | .appender l => l.frameBytes
  | .cleanup _ _ => 0

theorem step_footprint {maxWalBytes : Nat} {w t : Wal} {l : Label}
    (h : step maxWalBytes w l = some t) : t.footprint ≤ w.footprint + l.frameBytes := by
  cases l with
  | appender l => exact Wal.step_footprint (step_cases h)
  | cleanup entries canRemove =>
    obtain ⟨-, heq⟩ := Option.ite_none_right_eq_some.mp h
    cases heq
    exact footprint_le (Nat.add_le_add_right (cleanup_le _ _ _ _) _) (Nat.le_refl _)

/-- **The limit holds from cycle to cycle.** If the WAL files that a cleanup cycle finds take less
than 2^64 bytes, and however the appender and further cycles go on after it: the WAL files present
take no more than the limit, or what the cycle could not remove, and what was buffered or not yet
written at the cycle, and the frames of the requests sent since. -/
theorem space_bounded {maxWalBytes : Nat} {u v w : Wal} {entries : List DirEntry}
    {canRemove : String → Bool} {ls : List Label} (hfits : u.disk.walBytes < 2 ^ 64)
    (hcycle : step maxWalBytes u (.cleanup entries canRemove) = some v)
    (hrun : Machine.run (step maxWalBytes) v ls = some w) :
    w.disk.walBytes ≤ max maxWalBytes (stuckSize canRemove (walFiles entries)) + u.buf.length +
      frameBytes u.unwritten + (ls.map Label.frameBytes).sum := by
  obtain ⟨hperm, heq⟩ := Option.ite_none_right_eq_some.mp hcycle
  have hlimit : (cleanup maxWalBytes u entries canRemove).disk.walBytes ≤
      max maxWalBytes (stuckSize canRemove (walFiles entries)) := cleanup_walBytes hfits hperm
  have hrest : 0 * ls.length + w.footprint ≤ v.footprint + (ls.map Label.frameBytes).sum :=
    Machine.run_amortized (fun _ _ _ hstep => step_footprint hstep) hrun
  cases heq
  have hspace : (cleanup maxWalBytes u entries canRemove).footprint =
      (cleanup maxWalBytes u entries canRemove).disk.walBytes + u.buf.length +
        frameBytes u.unwritten := rfl
  have hlast : w.disk.walBytes ≤ w.footprint := by
    unfold footprint
    omega
  omega

/-- A batch of 12 bytes, a cycle with a limit of 5 bytes, and another batch. -/
theorem space_bounded_example : ∃ u v w : Wal, u.disk.walBytes = 12 ∧
    step 5 u (.cleanup [⟨walName 0, true, 12⟩] fun _ => true) = some v ∧ w.disk.walBytes ≤ 17 := by
  let batch : List Label := [.appender (.send ⟨"a", [1]⟩), .appender .recv, .appender .closeBatch,
    .appender (.frame []), .appender (.flush .ok), .appender (.sync true),
    .appender (.rotate .ok true true), .appender .respond, .appender .forward, .appender .finish]
  have hseen : (Machine.run (step 5) (start .empty 0) (.appender (.boot true true true) :: batch)).bind
      (fun u => (step 5 u (.cleanup [⟨walName 0, true, 12⟩] fun _ => true)).bind fun v =>
        (Machine.run (step 5) v batch).map fun _ =>
          (u.disk.walBytes, u.buf.length, frameBytes u.unwritten)) = some (12, 0, 0) := by
    decide +kernel
  obtain ⟨u, -, hu⟩ := Option.bind_eq_some_iff.mp hseen
  obtain ⟨v, hcycle, hv⟩ := Option.bind_eq_some_iff.mp hu
  obtain ⟨w, hrun, heq⟩ := Option.map_eq_some_iff.mp hv
  simp only [Prod.mk.injEq] at heq
  obtain ⟨hbytes, hbuf, hunwritten⟩ := heq
  have hbound := space_bounded (by rw [hbytes]; decide) hcycle hrun
  rw [hbuf, hunwritten] at hbound
  exact ⟨u, v, w, hbytes, hcycle, hbound⟩

end Pruning
end Edgewit
