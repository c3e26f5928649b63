import Edgewit.LogStream

/-!
# Offsets across restarts

Process lifetimes on one data directory, each with batches that succeed, each ended
by a crash when no batch is half written. `main` starts every appender at offset 0,
so a second lifetime that writes anything appends to the file of offset 0 and numbers
its events from 0 again: `offsets_iff`.
-/

namespace Edgewit

/-- A frame that is in a WAL file where its offset says. -/
def Located (d : Disk) (p : Placement) : Prop :=
  ∃ n start, d.nodes[p.handle]? = some n ∧ n.walStart? = some start ∧
    p.position ≤ n.content.length ∧ p.request.event.frame <:+ n.content.take p.position ∧
    p.walOffset = start + p.position

def Label.isFrame : Label → Bool
  | .frame _ => true
  | _ => false

namespace Wal
open Tiling

/-- No batch is half written. -/
def Synced (w : Wal) : Prop :=
  match w.phase with
  | .writing _ _ | .syncing _ | .failing _ => False
  | _ => True

/-- The lifetimes on a directory, each given by the labels of its appender: the
states in which they end, and the directory they leave. -/
def lifetimes : Disk → List (List Label) → Option (List Wal × Disk)
  | d, [] => some ([], d)
  | d, ls :: lives =>
    match Machine.run step (start d 0) ls with
    | none => none
    | some w => (lifetimes w.disk lives).map fun (ws, e) => (w :: ws, e)

/-- A lifetime that writes an event. -/
def writes (ls : List Label) : Bool := ls.any Label.isFrame

/-- What offsets are for, over all lifetimes. -/
structure Offsets (ws : List Wal) (e : Disk) : Prop where
  increasing : ws.Pairwise fun u v => ∀ p ∈ u.placed, ∀ q ∈ v.placed, p.walOffset < q.walOffset
  located : ∀ w ∈ ws, ∀ p ∈ w.placed, Located e p
  apart : e.segments.Pairwise Segment.Apart

theorem lifetimes_cons {d e : Disk} {ls : List Label} {lives : List (List Label)} {ws : List Wal} :
    lifetimes d (ls :: lives) = some (ws, e) ↔ ∃ w rest, Machine.run step (start d 0) ls = some w ∧
      lifetimes w.disk lives = some (rest, e) ∧ ws = w :: rest := by
  simp only [lifetimes]
  cases Machine.run step (start d 0) ls with
  | none => simp
  | some w =>
    simp only [Option.map_eq_some_iff, Prod.exists, Prod.mk.injEq, Option.some.injEq]
    constructor
    · rintro ⟨rest, e', hrest, rfl, rfl⟩
      exact ⟨w, rest, rfl, hrest, rfl⟩
    · rintro ⟨v, rest, rfl, hrest, rfl⟩
      exact ⟨rest, e, hrest, rfl, rfl⟩

/-! ## One lifetime -/

/-- A lifetime on `d` that has written nothing: at most, it opened the file of
offset 0. -/
structure Unwritten (d : Disk) (w : Wal) : Prop where
  placed : w.placed = []
  offset : w.currentOffset = 0
  buf : w.buf = []
  disk : (w.disk = d ∧ ¬ Live w) ∨
    ∃ i, d.openAppend (walName 0) = some (i, w.disk) ∧ (Live w → w.handle = i)
  booting : w.phase = .boot → w.disk = d
  phase : match w.phase with
    | .boot | .waiting | .batching _ | .stopped => True
    | .writing _ toIndex => toIndex = []
    | _ => False

/-- The first frame of a lifetime on `d` went behind what was in the file of offset
0, and got the offset of a first frame. -/
def First (d : Disk) (w : Wal) : Prop :=
  ∃ p rest, w.placed = p :: rest ∧ p.walOffset = p.request.event.frameLen ∧
    p.position = (d.bytes p.handle).length + p.request.event.frameLen ∧
    ∃ n, w.disk.nodes[p.handle]? = some n ∧ n.linked = true ∧ n.isFile = true ∧ n.name = walName 0

theorem start_unwritten (d : Disk) : Unwritten d (start d 0) :=
  ⟨rfl, rfl, rfl, Or.inl ⟨rfl, by simp [Live, start]⟩, fun _ => rfl, trivial⟩

theorem Unwritten.first {d : Disk} {w t : Wal} {req : WalRequest} (h : Unwritten d w)
    (hext : Extends w t) (hplaces : Places w t req) : First d t := by
  have hlive := hplaces.live
  rcases h.disk with ⟨-, hdead⟩ | ⟨i, hopen, hhandle⟩
  · exact absurd hlive hdead
  · obtain ⟨n, hn, hlinked, hfile, hname⟩ := Disk.openAppend_file hopen
    rw [← hhandle hlive] at hn hopen
    obtain ⟨m, hm, hnm⟩ := hext.1 _ n hn
    have hview : w.view w.handle = d.bytes w.handle := by
      simp [view, h.buf, Disk.bytes_openAppend hopen]
    have hoffset := hplaces.offset
    rw [h.offset, Nat.zero_add] at hoffset
    refine ⟨_, [], by rw [hplaces.placed, h.placed, List.nil_append], hoffset, ?_, m, hm,
      hnm.linked.trans hlinked, hnm.isFile.trans hfile, hnm.name.trans hname⟩
    rw [hplaces.view, hview, List.length_append, length_frame]

theorem First.extends {d : Disk} {w t : Wal} {l : Label} (h : First d w) (hext : Extends w t)
    (hfiles : Files w l t) : First d t := by
  obtain ⟨p, rest, hplaced, hoffset, hposition, n, hn, hlinked, hfile, hname⟩ := h
  obtain ⟨m, hm, hnm⟩ := hext.1 _ n hn
  have hmore : ∃ more, t.placed = p :: more := by
    rcases hfiles with ⟨hopens, -⟩ | ⟨req, io, -, -, hplaces⟩
    · exact ⟨rest, by rw [hopens.placed, hplaced]⟩
    · exact ⟨_, by rw [hplaces.placed, hplaced, List.cons_append]⟩
  obtain ⟨more, hmore⟩ := hmore
  exact ⟨p, more, hmore, hoffset, hposition, m, hm, hnm.linked.trans hlinked,
    hnm.isFile.trans hfile, hnm.name.trans hname⟩

theorem Unwritten.step {d : Disk} {w t : Wal} {l : Label} (h : Unwritten d w) (hne : NonEmpty w)
    (hstep : Step w l t) (hl : l.isFrame = false) : Unwritten d t := by
  have hphase := h.phase
  unfold NonEmpty at hne
  cases hstep with
  | send => exact ⟨h.placed, h.offset, h.buf, h.disk, h.booting, h.phase⟩
  | @boot dirOk openOk metadataOk hboot =>
    have hdisk := h.booting hboot
    obtain heq | ⟨handle, disk, size, hopen, -, heq⟩ := boot_cases w dirOk openOk metadataOk <;> rw [heq]
    · exact ⟨h.placed, h.offset, h.buf, Or.inl ⟨hdisk, by simp [Live]⟩, fun _ => hdisk, trivial⟩
    · rw [h.offset, hdisk] at hopen
      exact ⟨h.placed, h.offset, rfl, Or.inr ⟨handle, hopen, fun _ => rfl⟩, by simp, trivial⟩
  | recv hwait | tryRecv hwait | closeBatch hwait =>
    have hlive : Live w := by simp [Live, hwait]
    have hdisk : ∃ i, d.openAppend (walName 0) = some (i, w.disk) ∧ w.handle = i := by
      rcases h.disk with ⟨-, hdead⟩ | ⟨i, hopen, hhandle⟩
      · exact absurd hlive hdead
      · exact ⟨i, hopen, hhandle hlive⟩
    obtain ⟨i, hopen, hhandle⟩ := hdisk
    exact ⟨h.placed, h.offset, h.buf, Or.inr ⟨i, hopen, fun _ => hhandle⟩, by simp [closeBatch],
      by simp [closeBatch]⟩
  | frame => cases hl
  | flush hwrite =>
    rw [hwrite] at hphase hne
    rcases hne with hne | hne
    · exact absurd rfl hne
    · exact absurd hphase hne
  | sync hwait | rotate hwait | respond hwait | forward hwait | fail hwait | finishOk hwait
  | finishFailed hwait =>
    rw [hwait] at hphase
    exact hphase.elim
  | @shutdown io hwait =>
    unfold shutdown
    rw [flushBuf_empty h.buf]
    have hdisk : ∃ i, d.openAppend (walName 0) = some (i, w.disk) := by
      rcases h.disk with ⟨-, hdead⟩ | ⟨i, hopen, -⟩
      · exact absurd (by simp [Live, hwait]) hdead
      · exact ⟨i, hopen⟩
    obtain ⟨i, hopen⟩ := hdisk
    exact ⟨h.placed, h.offset, h.buf, Or.inr ⟨i, hopen, by simp [Live]⟩, by simp, trivial⟩

/-- A lifetime writes its first frame, or nothing. -/
theorem run_first {d : Disk} {ls : List Label} {w : Wal} (hclean : ∀ l ∈ ls, Clean l)
    (h : Machine.run step (start d 0) ls = some w) :
    (writes ls = false ∧ Unwritten d w) ∨ (writes ls = true ∧ First d w) := by
  apply Machine.run_history (I := fun ls w => (writes ls = false ∧ Unwritten d w) ∨
    (writes ls = true ∧ First d w)) (G := fun _ l => Clean l) _ _ (Machine.along_of_labels hclean) h
  · exact Or.inl ⟨rfl, start_unwritten d⟩
  · intro pre u l v hu hl hstep hfirst
    obtain ⟨hflow, hfiled⟩ := run_filed hu
    have hstep := step_cases hstep
    have hext := step_extends hstep hflow hfiled
    have hfiles := step_files hstep hflow hfiled
    rcases hfirst with ⟨hnone, hunwritten⟩ | ⟨hsome, hfirst⟩
    · cases hframe : l.isFrame with
      | false =>
        have hnone' : writes (pre ++ [l]) = false := by simp_all [writes]
        exact Or.inl ⟨hnone', hunwritten.step hflow.nonEmpty hstep hframe⟩
      | true =>
        right
        rcases hfiles with ⟨-, hfail⟩ | ⟨req, io, -, -, hplaces⟩
        · cases l with
          | frame io => exact absurd hl (hfail io rfl)
          | _ => cases hframe
        · exact ⟨by simp [writes, hframe], hunwritten.first hext hplaces⟩
    · exact Or.inr ⟨by simp_all [writes], hfirst.extends hext hfiles⟩

theorem run_grows {d : Disk} {ls : List Label} {w : Wal}
    (h : Machine.run step (start d 0) ls = some w) : d.Grows w.disk := by
  apply Machine.run_history (I := fun _ w => d.Grows w.disk) (G := fun _ _ => True) _ _
    (Machine.along_of_labels fun _ _ => trivial) h
  · exact Disk.Grows.refl d
  · intro pre u l v hu _ hstep hgrow
    obtain ⟨hflow, hfiled⟩ := run_filed hu
    exact hgrow.trans (step_extends (step_cases hstep) hflow hfiled).1

theorem Located.grows {d e : Disk} {p : Placement} (h : Located d p) (hgrow : d.Grows e) :
    Located e p := by
  obtain ⟨n, start, hn, hstart, hwithin, hframe, hoffset⟩ := h
  obtain ⟨m, hm, hnm⟩ := hgrow _ n hn
  obtain ⟨more, hmore⟩ := hnm.content
  refine ⟨m, start, hm, ?_, ?_, ?_, hoffset⟩
  · rw [← hstart]
    simp only [Node.walStart?, hnm.linked, hnm.isFile, hnm.name]
  · rw [← hmore, List.length_append]
    omega
  · rw [← hmore, List.take_append_of_le_length hwithin]
    exact hframe

/-- Each frame is placed where its offset says, from a fresh directory on. -/
def Numbered (w : Wal) : Prop :=
  ∀ p ∈ w.placed, ∃ n start, w.disk.nodes[p.handle]? = some n ∧ n.walStart? = some start ∧
    p.walOffset = start + p.position

theorem Log.numbered {w : Wal} {older : List (Segment IngestEvent)} {last : Segment IngestEvent}
    (h : Log w older last) : ∃ n, w.disk.nodes[w.handle]? = some n ∧
      n.walStart? = some last.start ∧ w.currentOffset = last.start + (w.view w.handle).length := by
  obtain ⟨before, n, after, hnodes, hhandle, -, -, hstart, hitems⟩ := h.layout
  have hget : w.disk.nodes[w.handle]? = some n := by simp [hnodes, hhandle]
  have hview : w.view w.handle = frames last.items := by
    simpa [view, Disk.bytes_of_get hget] using hitems
  have htiles := h.tiles
  rw [List.map_append, List.map_cons, List.map_nil, tiles_concat] at htiles
  refine ⟨n, hget, hstart, ?_⟩
  rw [hview, ← htiles.2]
  rfl

theorem step_numbered {w t : Wal} {l : Label} (hfiles : Files w l t) (hext : Extends w t)
    (hlaid : Laid t) (h : Numbered w) : Numbered t := by
  have hkeep : ∀ p ∈ w.placed, ∃ n start, t.disk.nodes[p.handle]? = some n ∧
      n.walStart? = some start ∧ p.walOffset = start + p.position := by
    intro p hp
    obtain ⟨n, start, hn, hstart, hoffset⟩ := h p hp
    obtain ⟨m, hm, hnm⟩ := hext.1 _ n hn
    refine ⟨m, start, hm, ?_, hoffset⟩
    rw [← hstart]
    simp only [Node.walStart?, hnm.linked, hnm.isFile, hnm.name]
  intro p hp
  rcases hfiles with ⟨hopens, -⟩ | ⟨req, io, -, -, hplaces⟩
  · rw [hopens.placed] at hp
    exact hkeep p hp
  · rw [hplaces.placed] at hp
    rcases List.mem_append.mp hp with hp | hp
    · exact hkeep p hp
    · obtain rfl := List.mem_singleton.mp hp
      rcases hlaid with hblank | ⟨older, last, hlog⟩
      · have hstream := hblank.stream
        simp [streamed, hplaces.unanswered] at hstream
      · obtain ⟨n, hn, hstart, hoffset⟩ := hlog.numbered
        rw [hplaces.handle] at hn hoffset
        exact ⟨n, last.start, hn, hstart, hoffset⟩

theorem run_numbered {d : Disk} {ls : List Label} {w : Wal} (hfresh : Fresh d)
    (hclean : ∀ l ∈ ls, Clean l) (h : Machine.run step (start d 0) ls = some w) : Numbered w := by
  apply Machine.run_history (I := fun ls w => (∀ l ∈ ls, Clean l) ∧ Numbered w)
    (G := fun _ l => Clean l) _ _ (Machine.along_of_labels hclean) h |>.2
  · exact ⟨by simp, by simp [Numbered, start]⟩
  · rintro pre u l v hu hl hstep ⟨hpre, hnumbered⟩
    have hpre' : ∀ l' ∈ pre ++ [l], Clean l' := by
      intro l' hl'
      rcases List.mem_append.mp hl' with hl' | hl'
      · exact hpre l' hl'
      · exact List.mem_singleton.mp hl' ▸ hl
    obtain ⟨hflow, hfiled⟩ := run_filed hu
    have hlaid := run_laid hfresh hpre' (Machine.run_concat.mpr ⟨u, hu, hstep⟩)
    have hstep := step_cases hstep
    exact ⟨hpre', step_numbered (step_files hstep hflow hfiled) (step_extends hstep hflow hfiled)
      hlaid hnumbered⟩

theorem synced_drained {w : Wal} (htidy : Tidy w) (hsynced : Synced w) : w.buf = [] := by
  apply htidy.drained
  intro rest toIndex hphase
  simp [Synced, hphase] at hsynced

/-- A lifetime that starts on a fresh directory numbers its frames rightly. -/
theorem run_located {d : Disk} {ls : List Label} {w : Wal} (hfresh : Fresh d)
    (hclean : ∀ l ∈ ls, Clean l) (h : Machine.run step (start d 0) ls = some w)
    (hsynced : Synced w) : ∀ p ∈ w.placed, Located w.disk p := by
  have hbuf := synced_drained (run_tidy hclean h) hsynced
  intro p hp
  obtain ⟨n, start, hn, hstart, hoffset⟩ := run_numbered hfresh hclean h p hp
  obtain ⟨-, hwithin, hframe⟩ := (run_filed h).2.held p hp
  have hview : w.view p.handle = n.content := by simp [view, hbuf, Disk.bytes_of_get hn]
  rw [hview] at hwithin hframe
  exact ⟨n, start, hn, hstart, hwithin, hframe, hoffset⟩

/-! ## The file of offset 0 -/

/-- The file of offset 0 holds bytes. -/
def Used (d : Disk) : Prop :=
  ∃ (i : Nat) (n : Node), d.nodes[i]? = some n ∧ n.linked = true ∧ n.isFile = true ∧
    n.name = walName 0 ∧ n.content ≠ []

theorem Used.grows {d e : Disk} (h : Used d) (hgrow : d.Grows e) : Used e := by
  obtain ⟨i, n, hn, hlinked, hfile, hname, hcontent⟩ := h
  obtain ⟨m, hm, hnm⟩ := hgrow i n hn
  refine ⟨i, m, hm, hnm.linked.trans hlinked, hnm.isFile.trans hfile, hnm.name.trans hname, ?_⟩
  intro hnil
  have hpre := hnm.content
  rw [hnil] at hpre
  exact hcontent (List.prefix_nil.mp hpre)

/-- A lifetime that writes leaves bytes in the file of offset 0. -/
theorem First.used {d : Disk} {w : Wal} (h : First d w) (hfiled : Filed w) (hbuf : w.buf = []) :
    Used w.disk := by
  obtain ⟨p, rest, hplaced, -, hposition, n, hn, hlinked, hfile, hname⟩ := h
  refine ⟨p.handle, n, hn, hlinked, hfile, hname, ?_⟩
  have hwithin := (hfiled.held p (by simp [hplaced])).within
  have hpos := frameLen_pos p.request.event
  have hview : w.view p.handle = n.content := by simp [view, hbuf, Disk.bytes_of_get hn]
  intro hnil
  rw [hview, hnil, List.length_nil] at hwithin
  omega

/-- A first frame behind other bytes is not where its offset says. -/
theorem First.not_located {d e : Disk} {w : Wal} (hused : Used d) (h : First d w)
    (hgrow : d.Grows w.disk) (hlater : w.disk.Grows e) : ∃ p ∈ w.placed, ¬ Located e p := by
  obtain ⟨p, rest, hplaced, hoffset, hposition, n, hn, hlinked, hfile, hname⟩ := h
  refine ⟨p, by simp [hplaced], ?_⟩
  rintro ⟨m, start, hm, hstart, -, -, hwhere⟩
  obtain ⟨m', hm', hnm⟩ := hlater _ n hn
  obtain rfl := Option.some.inj (hm.symm.trans hm')
  have hzero := walStart?_walName (hnm.linked.trans hlinked) (hnm.isFile.trans hfile)
    (hnm.name.trans hname)
  rw [hzero] at hstart
  obtain rfl := Option.some.inj hstart
  obtain ⟨i, k, hk, hklinked, -, hkname, hcontent⟩ := hused
  obtain ⟨k', hk', hkk⟩ := hgrow i k hk
  have hsame := linked_unique w.disk.distinct hk' hn (hkk.linked.trans hklinked) hlinked
    ((hkk.name.trans hkname).trans hname.symm)
  rw [← hsame, Disk.bytes_of_get hk] at hposition
  have hpos := List.length_pos_iff.mpr hcontent
  omega

/-- Opening the file of offset 0 and writing nothing leaves a fresh directory
fresh, and one in use as it is. -/
theorem Unwritten.fresh {d : Disk} {w : Wal} (h : Unwritten d w) (hfresh : Fresh d) :
    Fresh w.disk := by
  rcases h.disk with ⟨hdisk, -⟩ | ⟨i, hopen, -⟩
  · rw [hdisk]
    exact hfresh
  · obtain ⟨hdisk, -⟩ | ⟨-, -, hnodes⟩ := Disk.openAppend_cases hopen
    · rw [hdisk]
      exact hfresh
    · intro n hn start hstart
      rw [hnodes] at hn
      rcases List.mem_append.mp hn with hn | hn
      · exact hfresh n hn start hstart
      · obtain rfl := List.mem_singleton.mp hn
        exact ⟨rfl, rfl⟩

theorem Unwritten.used {d : Disk} {w : Wal} (h : Unwritten d w) (hused : Used d) : w.disk = d := by
  rcases h.disk with ⟨hdisk, -⟩ | ⟨i, hopen, -⟩
  · exact hdisk
  · obtain ⟨hdisk, -⟩ | ⟨hfree, -, -⟩ := Disk.openAppend_cases hopen
    · exact hdisk
    · obtain ⟨j, n, hn, hlinked, -, hname, -⟩ := hused
      exact absurd (mem_linkedNames.mpr ⟨n, List.mem_of_getElem? hn, hlinked, hname⟩) hfree

/-! ## All lifetimes -/

section Lifetimes

variable {lives : List (List Label)}

theorem lifetimes_grows {d e : Disk} {ws : List Wal} (h : lifetimes d lives = some (ws, e)) :
    d.Grows e := by
  induction lives generalizing d ws with
  | nil =>
    cases h
    exact Disk.Grows.refl _
  | cons ls lives ih =>
    obtain ⟨w, rest, hrun, hrest, -⟩ := lifetimes_cons.mp h
    exact (run_grows hrun).trans (ih hrest)

/-- Lifetimes that write nothing leave a directory in use as it is. -/
theorem lifetimes_idle {d e : Disk} {ws : List Wal} (h : lifetimes d lives = some (ws, e))
    (hclean : ∀ ls ∈ lives, ∀ l ∈ ls, Clean l) (hused : Used d)
    (hnone : ∀ ls ∈ lives, writes ls = false) : e = d ∧ ∀ w ∈ ws, w.placed = [] := by
  induction lives generalizing d ws with
  | nil =>
    cases h
    exact ⟨rfl, by simp⟩
  | cons ls lives ih =>
    obtain ⟨w, rest, hrun, hrest, rfl⟩ := lifetimes_cons.mp h
    rcases run_first (hclean ls List.mem_cons_self) hrun with ⟨-, hun⟩ | ⟨hwrites, -⟩
    · have hdisk := hun.used hused
      rw [hdisk] at hrest
      obtain ⟨he, hplaced⟩ := ih hrest (fun ls hls => hclean ls (List.mem_cons_of_mem _ hls)) hused
        fun ls hls => hnone ls (List.mem_cons_of_mem _ hls)
      refine ⟨he, fun v hv => ?_⟩
      rcases List.mem_cons.mp hv with rfl | hv
      · exact hun.placed
      · exact hplaced v hv
    · rw [hnone ls List.mem_cons_self] at hwrites
      cases hwrites

/-- A lifetime that writes on a directory in use numbers a frame wrongly. -/
theorem lifetimes_used {d e : Disk} {ws : List Wal} (h : lifetimes d lives = some (ws, e))
    (hclean : ∀ ls ∈ lives, ∀ l ∈ ls, Clean l) (hused : Used d)
    (hsome : ∃ ls ∈ lives, writes ls = true) : ∃ w ∈ ws, ∃ p ∈ w.placed, ¬ Located e p := by
  induction lives generalizing d ws with
  | nil => simp at hsome
  | cons ls lives ih =>
    obtain ⟨w, rest, hrun, hrest, rfl⟩ := lifetimes_cons.mp h
    have hgrow := run_grows hrun
    rcases run_first (hclean ls List.mem_cons_self) hrun with ⟨hnone, -⟩ | ⟨-, hfirst⟩
    · obtain ⟨ls', hls', hwrites⟩ := hsome
      have hlater : ∃ ls ∈ lives, writes ls = true := by
        rcases List.mem_cons.mp hls' with rfl | hls'
        · rw [hnone] at hwrites
          cases hwrites
        · exact ⟨ls', hls', hwrites⟩
      obtain ⟨v, hv, hp⟩ := ih hrest (fun ls hls => hclean ls (List.mem_cons_of_mem _ hls))
        (hused.grows hgrow) hlater
      exact ⟨v, List.mem_cons_of_mem _ hv, hp⟩
    · exact ⟨w, List.mem_cons_self, hfirst.not_located hused hgrow (lifetimes_grows hrest)⟩

theorem lifetimes_twice {d e : Disk} {ws : List Wal} (h : lifetimes d lives = some (ws, e))
    (hclean : ∀ ls ∈ lives, ∀ l ∈ ls, Clean l) (hsynced : ∀ w ∈ ws, Synced w)
    (htwice : 1 < (lives.filter writes).length) : ∃ w ∈ ws, ∃ p ∈ w.placed, ¬ Located e p := by
  induction lives generalizing d ws with
  | nil => simp at htwice
  | cons ls lives ih =>
    obtain ⟨w, rest, hrun, hrest, rfl⟩ := lifetimes_cons.mp h
    have hclean' : ∀ ls ∈ lives, ∀ l ∈ ls, Clean l :=
      fun ls hls => hclean ls (List.mem_cons_of_mem _ hls)
    have hlater : ∃ v ∈ rest, ∃ p ∈ v.placed, ¬ Located e p := by
      rcases run_first (hclean ls List.mem_cons_self) hrun with ⟨hnone, -⟩ | ⟨hwrites, hfirst⟩
      · rw [List.filter_cons_of_neg (by simp [hnone])] at htwice
        exact ih hrest hclean' (fun v hv => hsynced v (List.mem_cons_of_mem _ hv)) htwice
      · rw [List.filter_cons_of_pos hwrites, List.length_cons] at htwice
        have htidy := run_tidy (hclean ls List.mem_cons_self) hrun
        have hused := hfirst.used (run_filed hrun).2
          (synced_drained htidy (hsynced w List.mem_cons_self))
        obtain ⟨ls', hls'⟩ := List.exists_mem_of_length_pos (Nat.lt_of_succ_lt_succ htwice)
        obtain ⟨hmem, hwrites'⟩ := List.mem_filter.mp hls'
        exact lifetimes_used hrest hclean' hused ⟨ls', hmem, hwrites'⟩
    obtain ⟨v, hv, hp⟩ := hlater
    exact ⟨v, List.mem_cons_of_mem _ hv, hp⟩

theorem fresh_apart {d : Disk} (hfresh : Fresh d) : d.segments.Pairwise Segment.Apart := by
  have hlaid : Laid (start d 0) := Or.inl ⟨Or.inl rfl, hfresh, rfl, rfl, rfl⟩
  obtain ⟨segs, hsegs, htiles, -⟩ := hlaid.segments rfl
  have hapart := htiles.apart
  rw [← hsegs] at hapart
  exact hapart

theorem offsets_of_once {d e : Disk} {ws : List Wal} (h : lifetimes d lives = some (ws, e))
    (hclean : ∀ ls ∈ lives, ∀ l ∈ ls, Clean l) (hsynced : ∀ w ∈ ws, Synced w) (hfresh : Fresh d)
    (honce : (lives.filter writes).length ≤ 1) : Offsets ws e := by
  induction lives generalizing d ws with
  | nil =>
    cases h
    exact ⟨List.Pairwise.nil, by simp, fresh_apart hfresh⟩
  | cons ls lives ih =>
    obtain ⟨w, rest, hrun, hrest, rfl⟩ := lifetimes_cons.mp h
    have hls := hclean ls List.mem_cons_self
    have hclean' : ∀ ls ∈ lives, ∀ l ∈ ls, Clean l :=
      fun ls hls => hclean ls (List.mem_cons_of_mem _ hls)
    have hsynced' : ∀ v ∈ rest, Synced v := fun v hv => hsynced v (List.mem_cons_of_mem _ hv)
    rcases run_first hls hrun with ⟨hnone, hun⟩ | ⟨hwrites, hfirst⟩
    · rw [List.filter_cons_of_neg (by simp [hnone])] at honce
      obtain ⟨hinc, hloc, hapart⟩ := ih hrest hclean' hsynced' (hun.fresh hfresh) honce
      refine ⟨List.Pairwise.cons (by simp [hun.placed]) hinc, ?_, hapart⟩
      intro v hv
      rcases List.mem_cons.mp hv with rfl | hv
      · simp [hun.placed]
      · exact hloc v hv
    · rw [List.filter_cons_of_pos hwrites, List.length_cons] at honce
      have hsync := hsynced w List.mem_cons_self
      have hbuf := synced_drained (run_tidy hls hrun) hsync
      have hidle : ∀ ls ∈ lives, writes ls = false := by
        have hzero : lives.filter writes = [] := List.eq_nil_of_length_eq_zero (by omega)
        simpa using hzero
      obtain ⟨rfl, hplaced⟩ := lifetimes_idle hrest hclean'
        (hfirst.used (run_filed hrun).2 hbuf) hidle
      refine ⟨List.Pairwise.cons ?_ ?_, ?_, ?_⟩
      · intro v hv p _ q hq
        rw [hplaced v hv] at hq
        cases hq
      · apply List.pairwise_of_forall_mem_list
        intro u hu v _ p hp
        rw [hplaced u hu] at hp
        cases hp
      · intro v hv
        rcases List.mem_cons.mp hv with rfl | hv
        · exact run_located hfresh hls hrun hsync
        · simp [hplaced v hv]
      · obtain ⟨segs, hsegs, htiles, -⟩ := (run_laid hfresh hls hrun).segments hbuf
        rw [hsegs]
        exact htiles.apart

/-- **Offsets across restarts.** For lifetimes on a directory without WAL files, each
ended when no batch is half written: offsets grow from lifetime to lifetime, say where
each frame is, and the files' ranges are disjoint, exactly when at most one lifetime
writes an event. -/
theorem offsets_iff {disk e : Disk} {ws : List Wal}
    (hnone : ∀ n ∈ disk.nodes, n.walStart? = none) (hclean : ∀ ls ∈ lives, ∀ l ∈ ls, Clean l)
    (h : lifetimes disk lives = some (ws, e)) (hsynced : ∀ w ∈ ws, Synced w) :
    Offsets ws e ↔ (lives.filter writes).length ≤ 1 := by
  have hfresh : Fresh disk := by
    intro n hn start hstart
    rw [hnone n hn] at hstart
    cases hstart
  constructor
  · intro hoffsets
    by_contra htwice
    obtain ⟨w, hw, p, hp, hnot⟩ := lifetimes_twice h hclean hsynced (Nat.lt_of_not_le htwice)
    exact hnot (hoffsets.located w hw p hp)
  · exact offsets_of_once h hclean hsynced hfresh

/-- A lifetime that acknowledges one event. -/
def oneEvent : List Label :=
  [.boot true true true, .send ⟨"a", [1]⟩, .recv, .closeBatch, .frame [], .flush .ok, .sync true,
    .rotate .ok true true, .respond, .forward, .finish]

instance (w : Wal) : Decidable (Synced w) :=
  let decide : (phase : Phase) → Decidable
      (match phase with
      | .writing _ _ | .syncing _ | .failing _ => False
      | _ => True)
    | .writing _ _ | .syncing _ | .failing _ => isFalse id
    | .boot | .waiting | .batching _ | .rotating _ | .responding _ | .forwarding _ _ | .stopped =>
      isTrue trivial
  decide w.phase

theorem offsets_iff_example : ∃ ws e, lifetimes .empty [[.boot true true true], oneEvent] =
    some (ws, e) ∧ Offsets ws e := by
  have hrun : (lifetimes .empty [[.boot true true true], oneEvent]).map
      (fun r => decide (∀ w ∈ r.1, Synced w)) = some true := by
    decide +kernel
  obtain ⟨⟨ws, e⟩, hlives, hsynced⟩ := Option.map_eq_some_iff.mp hrun
  refine ⟨ws, e, hlives, (offsets_iff (by simp [Disk.empty]) (by decide +kernel) hlives ?_).mpr ?_⟩
  · simpa using hsynced
  · decide

/-- Each of two lifetimes acknowledges one event: both get the offset 12, and the
second frame ends at position 24 of the file of offset 0. -/
theorem offsets_repeat : ∃ ws e, lifetimes .empty [oneEvent, oneEvent] = some (ws, e) ∧
    (∀ w ∈ ws, Synced w) ∧ ws.map (fun w => w.placed.map fun p => (p.walOffset, p.position)) =
      [[(12, 12)], [(12, 24)]] ∧ ¬ Offsets ws e := by
  have hrun : (lifetimes .empty [oneEvent, oneEvent]).map (fun r =>
      (decide (∀ w ∈ r.1, Synced w),
        r.1.map fun w => w.placed.map fun p => (p.walOffset, p.position))) =
      some (true, [[(12, 12)], [(12, 24)]]) := by
    decide +kernel
  obtain ⟨⟨ws, e⟩, hlives, heq⟩ := Option.map_eq_some_iff.mp hrun
  obtain ⟨hsynced, hplaced⟩ := Prod.mk.inj heq
  refine ⟨ws, e, hlives, by simpa using hsynced, hplaced, ?_⟩
  intro hoffsets
  have hinc : (ws.map fun w => w.placed.map fun p => (p.walOffset, p.position)).Pairwise
      fun as bs => ∀ a ∈ as, ∀ b ∈ bs, a.1 < b.1 := by
    rw [List.pairwise_map]
    refine hoffsets.increasing.imp fun hlt a ha b hb => ?_
    obtain ⟨p, hp, rfl⟩ := List.mem_map.mp ha
    obtain ⟨q, hq, rfl⟩ := List.mem_map.mp hb
    exact hlt p hp q hq
  rw [hplaced] at hinc
  revert hinc
  decide

end Lifetimes

end Wal
end Edgewit
