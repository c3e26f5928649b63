import Edgewit.BulkBody
import Edgewit.Ingest
import Edgewit.Replay

/-!
# Events too long for a frame

Several clients at one WAL worker: each handler sends the events of its request, in
order, and the sends of the handlers interleave. `legible_iff`: without I/O failure
every acknowledged event is frameable and read back, in every run, exactly when the
requests hold frameable events only. No handler looks at the lengths.
-/

namespace Edgewit
open Numerals WalReader Tiling

/-! ## Reading a cut log -/

/-- Frames that lie within the cut are whole. -/
theorem prefix_whole {events evs : List IngestEvent} (h : events <+: evs) {c : Nat}
    (hc : (frames events).length ≤ c) : events <+: whole c evs := by
  induction evs generalizing events c with
  | nil => exact h
  | cons ev evs ih =>
    rcases List.prefix_cons_iff.mp h with rfl | ⟨rest, rfl, hrest⟩
    · exact List.nil_prefix
    · rw [frames_cons, List.length_append, length_frame] at hc
      rw [whole, if_pos (by omega)]
      exact List.cons_prefix_cons.mpr ⟨rfl, ih hrest (by omega)⟩

theorem whole_append (c : Nat) (as bs : List IngestEvent) :
    whole ((frames as).length + c) (as ++ bs) = as ++ whole c bs := by
  induction as with
  | nil => simp
  | cons ev as ih =>
    have hrest : (frames (ev :: as)).length + c - ev.frameLen = (frames as).length + c := by
      simp only [frames_cons, List.length_append, length_frame]
      omega
    rw [List.cons_append, whole, if_pos (by simp; omega), hrest, ih]
    rfl

/-- The rest of a log may still be in the buffer. -/
theorem scan_whole {evs : List IngestEvent} (hevs : ∀ ev ∈ evs, ev.Frameable) {bytes buf : Bytes}
    (h : bytes ++ buf = frames evs) :
    (scan (new bytes 0)).events.map Prod.fst = whole bytes.length evs := by
  have hcut : (frames evs).take bytes.length = bytes := by rw [← h, List.take_left]
  have hlen : bytes.length ≤ (frames evs).length := by
    rw [← h, List.length_append]
    omega
  obtain ⟨ending, hscan, -⟩ := scanN_take hevs (bytes.length + 1) 0 bytes.length (by omega) hlen
  rw [hcut] at hscan
  have hevents : (scan (new bytes 0)).events = withOffsets 0 (whole bytes.length evs) :=
    congrArg Scan.events hscan
  rw [hevents, map_fst_withOffsets]

/-- The casts of the two lengths keep them exactly when the event is frameable. -/
theorem frameable_iff (ev : IngestEvent) :
    ev.Frameable ↔ ofLE (toLE 2 (utf8 ev.index).length) = (utf8 ev.index).length ∧
      ofLE (toLE 4 ev.payload.length) = ev.payload.length := by
  rw [ofLE_toLE, ofLE_toLE, IngestEvent.Frameable]
  have hindex := Nat.mod_lt (utf8 ev.index).length (show 0 < 256 ^ 2 by decide)
  have hpayload := Nat.mod_lt ev.payload.length (show 0 < 256 ^ 4 by decide)
  constructor
  · rintro ⟨hidx, hpay⟩
    exact ⟨Nat.mod_eq_of_lt (by omega), Nat.mod_eq_of_lt (by omega)⟩
  · rintro ⟨hidx, hpay⟩
    omega

/-- Where the cast leaves nothing of the index length, the reader takes the first four
bytes of the index for the length of the payload. If fewer bytes follow, neither this
event nor any after it is read. -/
theorem scan_truncated {ev : IngestEvent} {rest : Bytes}
    (hcast : (utf8 ev.index).length % 65536 = 0) (hfour : 4 ≤ (utf8 ev.index).length)
    (hshort : (ev.frame ++ rest).length < ofLE ((utf8 ev.index).take 4)) :
    (scan (new (ev.frame ++ rest) 0)).events = [] := by
  obtain ⟨tail, htail⟩ : ∃ tail, ev.frame ++ rest =
      toLE 2 (utf8 ev.index).length ++ ([] ++ ((utf8 ev.index).take 4 ++ tail)) := by
    refine ⟨(utf8 ev.index).drop 4 ++ (toLE 4 ev.payload.length ++ ev.payload ++
      toLE 4 ev.checksum.toNat ++ rest), ?_⟩
    simp [IngestEvent.frame, IngestEvent.pieces, ← List.append_assoc]
  have hzero : ofLE (toLE 2 (utf8 ev.index).length) = 0 := by
    rw [ofLE_toLE]
    exact hcast
  have hempty : String.fromUTF8? ⟨([] : Bytes).toArray⟩ = some "" := fromUTF8?_utf8 ""
  have htaken : ((utf8 ev.index).take 4).length = 4 := by simp [hfour]
  have hpast : ¬ ofLE ((utf8 ev.index).take 4) ≤ tail.length := by
    rw [htail] at hshort
    simp only [List.length_append] at hshort
    omega
  have hnext : (nextFrame (new (ev.frame ++ rest) 0)).1 =
      .error (.unexpectedEof "failed to fill whole buffer") := by
    have hunread : (new (ev.frame ++ rest) 0).unread =
        toLE 2 (utf8 ev.index).length ++ ([] ++ ((utf8 ev.index).take 4 ++ tail)) := htail
    simp only [nextFrame, read_append hunread (length_toLE 2 _), length_toLE, hzero]
    rw [readExact_append (n := 0) rfl rfl]
    simp only [hempty]
    rw [readExact_append rfl htaken]
    simp [readExact, hpast]
  rw [scan, scanN]
  split
  · rename_i heq
    rw [heq] at hnext
    cases hnext
  · rfl
  · rfl

namespace Wal

/-! ## What is still in the buffer -/

/-- While a batch is written, the buffer holds frames of this batch only. -/
def Covered (w : Wal) : Prop :=
  ∀ rest toIndex, w.phase = .writing rest toIndex →
    w.buf.length ≤ (frames (toIndex.map fun p => p.1.event)).length

theorem length_buf_writePieces (w : Wal) (ps : List Bytes) (io : List WriteOutcome) :
    (w.writePieces ps io).2.buf.length ≤ w.buf.length + ps.flatten.length := by
  induction ps generalizing w io with
  | nil => simp [writePieces]
  | cons p ps ih =>
    simp only [writePieces]
    cases io.headD (.ok 0) with
    | ok out =>
      have hrest := ih (w.push p out) io.tail
      simp only [push, List.length_drop, List.length_append, List.flatten_cons] at hrest ⊢
      omega
    | err taken out =>
      simp only [push, List.length_drop, List.length_append, List.length_take, List.flatten_cons]
      omega

theorem step_covered {w t : Wal} {l : Label} (hstep : Step w l t) (hclean : Clean l) (ht : Tidy w)
    (h : Covered w) : Covered t := by
  intro rest' toIndex' hphase'
  cases hstep with
  | send => exact h rest' toIndex' hphase'
  | @boot dirOk openOk metadataOk =>
    obtain heq | ⟨handle, disk, size, -, -, heq⟩ := boot_cases w dirOk openOk metadataOk <;>
      rw [heq] at hphase' <;> cases hphase'
  | recv | tryRecv | respond | forward | fail | finishOk | finishFailed | shutdown => cases hphase'
  | closeBatch hphase =>
    have hbuf : w.buf = [] := ht.drained (by simp [hphase])
    simp [closeBatch, hbuf]
  | @frame req rest toIndex io hphase =>
    have hold := h _ _ hphase
    have hlen := length_buf_writePieces w req.event.pieces io
    have hframe := length_frame req.event
    obtain ⟨v, -, rfl, ⟨-, heq⟩ | ⟨hfail, -⟩⟩ := writeFrame_cases w req rest toIndex io
    · rw [heq] at hphase' ⊢
      cases hphase'
      rw [IngestEvent.frame] at hframe
      rw [List.map_append, frames_append, List.length_append, List.map_singleton, frames_singleton,
        length_frame]
      dsimp only
      omega
    · rw [(writePieces_ok_iff w req.event.pieces io).mpr hclean] at hfail
      cases hfail
  | @flush toIndex io =>
    obtain rfl : io = .ok := hclean
    cases hphase'
  | @sync toIndex ok =>
    obtain rfl : ok = true := hclean
    cases hphase'
  | @rotate toIndex flush syncOk openOk =>
    obtain ⟨path, disk, handle, buf, size, written, heq⟩ := rotate_eq w toIndex flush syncOk openOk
    rw [heq] at hphase'
    cases hphase'

theorem run_covered {disk : Disk} {offset : Nat} {ls : List Label} {w : Wal}
    (hclean : ∀ l ∈ ls, Clean l) (h : Machine.run step (start disk offset) ls = some w) :
    Covered w := by
  have hstart : Tidy (start disk offset) ∧ Covered (start disk offset) :=
    ⟨⟨by simp [start], fun _ => rfl⟩, fun _ _ hphase => by cases hphase⟩
  have hend : Tidy w ∧ Covered w := by
    refine Machine.run_guarded (I := fun w => Tidy w ∧ Covered w) hstart ?_
      (Machine.along_of_labels hclean) h
    rintro u l v hl hstep ⟨htidy, hcovered⟩
    exact ⟨step_tidy (step_cases hstep) hl htidy, step_covered (step_cases hstep) hl htidy hcovered⟩
  exact hend.2

/-- The events whose frames have been handed to the writer. -/
def handed (w : Wal) : List IngestEvent :=
  w.acknowledged.map WalRequest.event ++ w.unanswered.map fun p => p.1.event

theorem inFlight_eq (w : Wal) : w.inFlight = w.unanswered.map Prod.fst := by
  unfold inFlight unanswered
  split <;> simp_all

theorem expected_eq (w : Wal) : w.expected = frames w.handed := by
  rw [expected, handed, inFlight_eq, List.map_append, List.map_map]
  rfl

theorem Covered.length_buf {w : Wal} (h : Covered w) (ht : Tidy w) :
    w.buf.length ≤ (frames (w.unanswered.map fun p => p.1.event)).length := by
  by_cases hwriting : ∃ rest toIndex, w.phase = .writing rest toIndex
  · obtain ⟨rest, toIndex, hphase⟩ := hwriting
    have hbuf := h rest toIndex hphase
    simpa [unanswered, hphase] using hbuf
  · have hbuf : w.buf = [] := ht.drained fun rest toIndex hphase => hwriting ⟨rest, toIndex, hphase⟩
    simp [hbuf]

/-- All frames but those of requests still to be answered have left the buffer. -/
theorem acknowledged_whole {w : Wal} (hcovered : Covered w) (ht : Tidy w) {c : Nat}
    (hc : c + w.buf.length = (frames w.handed).length) :
    w.acknowledged.map WalRequest.event <+: whole c w.handed := by
  have hbuf := hcovered.length_buf ht
  apply prefix_whole (List.prefix_append _ _)
  rw [handed, frames_append, List.length_append] at hc
  omega

theorem unanswered_requests {w : Wal} (hb : Books w) :
    ∀ p ∈ w.unanswered, p.1 ∈ w.cur.requests := by
  intro p hp
  have hcur := hb.current
  cases hphase : w.phase <;> simp only [unanswered, hphase, List.not_mem_nil] at hp <;>
    simp only [InProgress, hphase] at hcur
  case writing => simp [hcur, BatchRecord.start, List.mem_map_of_mem hp]
  case syncing | rotating => simp [hcur, List.mem_map_of_mem hp]
  case responding =>
    obtain ⟨done, hcur⟩ := hcur
    simp [hcur, List.mem_map_of_mem hp]
  case forwarding =>
    obtain ⟨done, req, -, hcur⟩ := hcur
    simp [hcur, List.mem_map_of_mem hp]

theorem handed_arrived {w : Wal} (hb : Books w) {ev : IngestEvent} (hev : ev ∈ w.handed) :
    ∃ req ∈ w.arrived, req.event = ev := by
  rcases List.mem_append.mp hev with hev | hev
  · obtain ⟨req, hreq, heq⟩ := List.mem_map.mp hev
    exact ⟨req, hb.acknowledged_sublist.subset hreq, heq⟩
  · obtain ⟨p, hp, rfl⟩ := List.mem_map.mp hev
    refine ⟨p.1, ?_, rfl⟩
    rw [← hb.arrival]
    simp [unanswered_requests hb p hp]

/-! ## What is read back -/

/-- Every acknowledged event is described by its frame, and read back by a reader of
all bytes that reached files. In a directory that had no WAL file with bytes, the
replay of the files returns it. -/
structure Legible (disk : Disk) (offset : Nat) (w : Wal) : Prop where
  frameable : ∀ req ∈ w.acknowledged, req.event.Frameable
  lossless : ∀ req ∈ w.acknowledged,
    ofLE (toLE 2 (utf8 req.event.index).length) = (utf8 req.event.index).length ∧
    ofLE (toLE 4 req.event.payload.length) = req.event.payload.length
  readable : w.acknowledged.map WalRequest.event <+: (scan (new w.written 0)).events.map Prod.fst
  replayed : Fresh disk → offset = 0 →
    w.acknowledged.map WalRequest.event <+: (readBack w.disk.segments).map Prod.fst

theorem clean_leavesNothing {w : Wal} {l : Label} (h : Clean l) : LeavesNothing w l := by
  unfold LeavesNothing
  split
  · exact Or.inl h
  · exact h
  · exact h
  · trivial

theorem run_exact {disk : Disk} {offset : Nat} {ls : List Label} {w : Wal}
    (hclean : ∀ l ∈ ls, Clean l) (h : Machine.run step (start disk offset) ls = some w) :
    Exact offset w := by
  have hend : Flow w ∧ Exact offset w := by
    refine Machine.run_guarded (I := fun w => Flow w ∧ Exact offset w)
      ⟨start_flow disk offset, rfl, rfl⟩ ?_ (Machine.along_of_labels hclean) h
    rintro u l v hl hstep ⟨hf, hexact⟩
    rcases step_stream (step_cases hstep) hf with ⟨hin, -⟩ | ⟨-, hleft⟩
    · exact ⟨step_flow (step_cases hstep) hf, hin.exact hexact⟩
    · exact absurd (clean_leavesNothing hl) hleft
  exact hend.2

/-- The files hold the frames handed to the writer, but for the bytes in the buffer. -/
theorem Log.replay {w : Wal} {older : List (Segment IngestEvent)} {last : Segment IngestEvent}
    (h : Log w older last) (hevs : ∀ ev ∈ (older ++ [last]).flatMap Segment.items, ev.Frameable) :
    ∃ c, c + w.buf.length = (frames ((older ++ [last]).flatMap Segment.items)).length ∧
      (readBack w.disk.segments).map Prod.fst = whole c ((older ++ [last]).flatMap Segment.items) := by
  obtain ⟨before, n, after, hnodes, -, hbefore, hafter, hstart, hitems⟩ := h.layout
  have htiles := h.tiles
  rw [List.map_append, List.map_singleton] at htiles
  obtain ⟨holder, -⟩ := tiles_concat.mp htiles
  rw [start_frameSegment] at holder hstart
  rw [items_frameSegment] at hitems
  simp only [List.flatMap_append, List.flatMap_cons, List.flatMap_nil, List.append_nil,
    List.mem_append] at hevs ⊢
  have hentries : w.disk.nodes.filterMap Node.segment? =
      older.map frameSegment ++ [⟨last.start, n.content⟩] := by
    rw [hnodes, List.filterMap_append, hbefore, List.filterMap_cons_some (segment?_some hstart),
      hafter]
  have hsorted : w.disk.segments = older.map frameSegment ++ [⟨last.start, n.content⟩] := by
    rw [Disk.segments, hentries]
    exact (tiles_concat.mpr ⟨holder, rfl⟩).sorted.insertionSort_eq
  have hfirst := readBack_tiles holder fun ev hev => hevs ev (Or.inl hev)
  have hlast := scan_whole (fun ev hev => hevs ev (Or.inr hev)) hitems
  refine ⟨(frames (older.flatMap Segment.items)).length + n.content.length, ?_, ?_⟩
  · rw [frames_append, List.length_append, ← hitems, List.length_append]
    omega
  · unfold readBack at hfirst ⊢
    rw [hsorted, List.flatMap_append, hfirst, whole_append, List.map_append, map_fst_withOffsets,
      List.flatMap_singleton, List.map_map, ← hlast]
    rfl

/-- **What is acknowledged is read back**, where only frameable events are sent. -/
theorem run_legible {disk : Disk} {offset : Nat} {ls : List Label} {w : Wal}
    (hclean : ∀ l ∈ ls, Clean l) (hevents : ∀ event, .send event ∈ ls → event.Frameable)
    (h : Machine.run step (start disk offset) ls = some w) : Legible disk offset w := by
  have hb := run_books h
  have ht := run_tidy hclean h
  have hcovered := run_covered hclean h
  have hframeable : ∀ ev ∈ w.handed, ev.Frameable := by
    intro ev hev
    obtain ⟨req, hreq, rfl⟩ := handed_arrived hb hev
    exact hevents _ (run_arrived h req hreq)
  have hack : ∀ req ∈ w.acknowledged, req.event.Frameable := fun req hreq =>
    hframeable _ (List.mem_append_left _ (List.mem_map_of_mem hreq))
  refine ⟨hack, fun req hreq => (frameable_iff _).mp (hack req hreq), ?_, ?_⟩
  · have hstream : w.written ++ w.buf = frames w.handed := by
      rw [← expected_eq]
      exact (run_exact hclean h).1
    rw [scan_whole hframeable hstream]
    apply acknowledged_whole hcovered ht
    rw [← hstream, List.length_append]
  · rintro hfresh rfl
    have hhanded : w.streamed.map Prod.fst = w.handed := by
      rw [handed, hb.forwarded]
      simp [streamed, Function.comp_def]
    rcases run_laid hfresh hclean h with hblank | ⟨older, last, hlog⟩
    · rw [hblank.stream] at hhanded
      have hnone : w.acknowledged.map WalRequest.event = [] :=
        (List.append_eq_nil_iff.mp hhanded.symm).1
      rw [hnone]
      exact List.nil_prefix
    · have hitems : (older ++ [last]).flatMap Segment.items = w.handed := by
        rw [← hhanded, ← hlog.stream, map_fst_withOffsets]
      obtain ⟨c, hc, hread⟩ := hlog.replay (by rwa [hitems])
      rw [hitems] at hc hread
      rw [hread]
      exact acknowledged_whole hcovered ht hc

end Wal

/-! ## The handlers and the worker -/

/-- A request of a client. -/
inductive IngestRequest where
  | ingestDoc (index body : String)
  | bulk (body : String)
  deriving DecidableEq, Repr

/-- The events its handler sends, in order. -/
def IngestRequest.events (x : Externals) : IngestRequest → List IngestEvent
  | ingestDoc index body => [ingestDocEvent index body]
  | bulk body => bulkEvents x body

/-- The WAL worker, and what the handler of each request has still to send. -/
structure IngestService where
  wal : Wal
  outbox : List (List IngestEvent)

inductive IngestLabel where
  | handler (k : Nat)
  | wal (l : Label)
  deriving DecidableEq, Repr

namespace IngestService

def start (x : Externals) (disk : Disk) (offset : Nat) (requests : List IngestRequest) :
    IngestService :=
  ⟨.start disk offset, requests.map fun req => req.events x⟩

/-- A handler sends its next event, or the worker goes on. -/
def step (s : IngestService) : IngestLabel → Option IngestService
  | .handler k =>
    match s.outbox[k]? with
    | some (event :: rest) => (s.wal.step (.send event)).map fun wal => ⟨wal, s.outbox.set k rest⟩
    | _ => none
  | .wal (.send _) => none
  | .wal l => (s.wal.step l).map fun wal => ⟨wal, s.outbox⟩

inductive Step : IngestService → IngestLabel → IngestService → Prop
  | handler {s : IngestService} {k : Nat} {event : IngestEvent} {rest : List IngestEvent} {wal : Wal}
      (next : s.outbox[k]? = some (event :: rest)) (moves : s.wal.step (.send event) = some wal) :
      Step s (.handler k) ⟨wal, s.outbox.set k rest⟩
  | wal {s : IngestService} {l : Label} {wal : Wal} (own : ∀ event, l ≠ .send event)
      (moves : s.wal.step l = some wal) : Step s (.wal l) ⟨wal, s.outbox⟩

theorem step_cases {s t : IngestService} {l : IngestLabel} (h : s.step l = some t) : Step s l t := by
  unfold step at h
  split at h
  · split at h
    · obtain ⟨wal, hwal, rfl⟩ := Option.map_eq_some_iff.mp h
      exact .handler ‹_› hwal
    · cases h
  · cases h
  · obtain ⟨wal, hwal, rfl⟩ := Option.map_eq_some_iff.mp h
    exact .wal ‹_› hwal

theorem step_wal {s : IngestService} {l : Label} (own : ∀ event, l ≠ .send event) :
    s.step (.wal l) = (s.wal.step l).map fun wal => ⟨wal, s.outbox⟩ := by
  cases l with
  | send event => exact absurd rfl (own event)
  | _ => rfl

/-- The step fails no write, flush or sync. -/
def Clean : IngestLabel → Prop
  | .handler _ => True
  | .wal l => Wal.Clean l

/-- A run without I/O failure leads from `s` to `t`. -/
def Reaches (s t : IngestService) : Prop :=
  ∃ ls, (∀ l ∈ ls, Clean l) ∧ Machine.run step s ls = some t

theorem Reaches.refl (s : IngestService) : Reaches s s := ⟨[], by simp, rfl⟩

theorem Reaches.trans {s t u : IngestService} (hst : Reaches s t) (htu : Reaches t u) :
    Reaches s u := by
  obtain ⟨as, has, hst⟩ := hst
  obtain ⟨bs, hbs, htu⟩ := htu
  exact ⟨as ++ bs, List.forall_mem_append.mpr ⟨has, hbs⟩, Machine.run_append.mpr ⟨t, hst, htu⟩⟩

/-- One of the requests asks for the event to be stored. -/
def Requested (x : Externals) (requests : List IngestRequest) (event : IngestEvent) : Prop :=
  ∃ req ∈ requests, event ∈ req.events x

/-- The worker of a run runs on its own, with events of the requests sent to it. -/
theorem run_wal {x : Externals} {requests : List IngestRequest} {s t : IngestService}
    {ls : List IngestLabel} (houtbox : ∀ evs ∈ s.outbox, ∀ event ∈ evs, Requested x requests event)
    (hclean : ∀ l ∈ ls, Clean l) (h : Machine.run step s ls = some t) :
    ∃ ls', Machine.run Wal.step s.wal ls' = some t.wal ∧
      ∀ l ∈ ls', Wal.Clean l ∧ ∀ event, l = .send event → Requested x requests event := by
  have hstep : ∀ u l v, (∀ evs ∈ u.outbox, ∀ event ∈ evs, Requested x requests event) →
      l ∈ ls → step u l = some v →
      (∀ evs ∈ v.outbox, ∀ event ∈ evs, Requested x requests event) ∧
        ∃ ls', Machine.run Wal.step u.wal ls' = some v.wal ∧
          ∀ l ∈ ls', Wal.Clean l ∧ ∀ event, l = .send event → Requested x requests event := by
    intro u l v hrequested hl hstep
    cases step_cases hstep with
    | @handler k event rest wal next moves =>
      have hevs := hrequested _ (List.mem_of_getElem? next)
      constructor
      · intro evs hmem e he
        rcases List.mem_or_eq_of_mem_set hmem with hmem | rfl
        · exact hrequested evs hmem e he
        · exact hevs e (List.mem_cons_of_mem event he)
      · refine ⟨[.send event], Machine.run_cons.mpr ⟨wal, moves, rfl⟩, ?_⟩
        rw [List.forall_mem_singleton]
        refine ⟨trivial, ?_⟩
        rintro e heq
        cases heq
        exact hevs event List.mem_cons_self
    | @wal l wal own moves =>
      refine ⟨hrequested, [l], Machine.run_cons.mpr ⟨wal, moves, rfl⟩, ?_⟩
      rw [List.forall_mem_singleton]
      exact ⟨hclean _ hl, fun e heq => absurd heq (own e)⟩
  obtain ⟨ls', hrun, hlabels⟩ := Machine.run_simulates houtbox hstep h
  refine ⟨ls', hrun, ?_⟩
  intro l hl
  obtain ⟨_, _, hgood⟩ := hlabels l hl
  exact hgood

theorem Reaches.wal {x : Externals} {disk : Disk} {offset : Nat} {requests : List IngestRequest}
    {t : IngestService} (h : Reaches (start x disk offset requests) t) :
    ∃ ls, Machine.run Wal.step (.start disk offset) ls = some t.wal ∧ (∀ l ∈ ls, Wal.Clean l) ∧
      ∀ event, .send event ∈ ls → Requested x requests event := by
  obtain ⟨ls, hclean, hrun⟩ := h
  have houtbox : ∀ evs ∈ (start x disk offset requests).outbox, ∀ event ∈ evs,
      Requested x requests event := by
    intro evs hevs event hevent
    obtain ⟨req, hreq, rfl⟩ := List.mem_map.mp hevs
    exact ⟨req, hreq, hevent⟩
  obtain ⟨ls', hwal, hsends⟩ := run_wal houtbox hclean hrun
  exact ⟨ls', hwal, fun l hl => (hsends l hl).1, fun event hsend => (hsends _ hsend).2 event rfl⟩

/-- Whatever order the handlers send in, frameable events are read back. -/
theorem Reaches.legible {x : Externals} {disk : Disk} {offset : Nat} {requests : List IngestRequest}
    {t : IngestService} (h : Reaches (start x disk offset requests) t)
    (hevents : ∀ req ∈ requests, ∀ ev ∈ req.events x, ev.Frameable) : t.wal.Legible disk offset := by
  obtain ⟨ls, hrun, hclean, hsends⟩ := h.wal
  apply Wal.run_legible hclean _ hrun
  intro event hsend
  obtain ⟨req, hreq, hevent⟩ := hsends event hsend
  exact hevents req hreq event hevent

/-! ## A worker that serves one event at a time -/

/-- The worker waits, and nothing has been sent to it. -/
structure Resting (w : Wal) : Prop where
  waiting : w.phase = .waiting
  empty : w.queue = []
  books : Wal.Books w

/-- A batch of one request, from its arrival to its end. -/
def oneBatch : List Label :=
  [.recv, .closeBatch, .frame [], .flush .ok, .sync true, .rotate .ok true true, .respond, .forward,
    .finish]

open Wal in
theorem serve {w : Wal} (h : Resting w) (event : IngestEvent) :
    ∃ t, Machine.run Wal.step (w.send event) oneBatch = some t ∧ Resting t ∧
      t.acknowledged = w.acknowledged ++ [⟨event, w.arrived.length⟩] := by
  let req : WalRequest := ⟨event, w.arrived.length⟩
  have hcur : w.cur = .start [] := by
    have hcur := h.books.current
    simpa [InProgress, h.waiting] using hcur
  obtain ⟨u, htaken, huphase, huqueue, hupast, hucur⟩ : ∃ u, Machine.run Wal.step (w.send event)
      [.recv, .closeBatch] = some u ∧ u.phase = .writing [req] [] ∧ u.queue = [] ∧
      u.past = w.past ∧ u.cur = .start [req] := by
    simp [Machine.run, Wal.step, Wal.send, closeBatch, h.waiting, h.empty, req]
  obtain ⟨v, ⟨buf, disk, written, hv⟩, -, ⟨-, hframe⟩ | ⟨hfail, -⟩⟩ := writeFrame_cases u req [] [] []
  swap
  · rw [(writePieces_ok_iff u req.event.pieces []).mpr (by simp)] at hfail
    cases hfail
  obtain ⟨r, hsynced, hphase, hqueue, hpast, hcur'⟩ : ∃ r, Machine.run Wal.step u
      [.frame [], .flush .ok, .sync true] = some r ∧
      r.phase = .rotating [(req, u.currentOffset + event.frameLen)] ∧ r.queue = [] ∧
      r.past = w.past ∧ r.cur = ⟨[req], true, true, [], []⟩ := by
    simp [Machine.run, Wal.step, huphase, hframe, hv, flush, flushBuf, push, sync, huqueue, hupast,
      hucur, BatchRecord.start, req]
  obtain ⟨path, disk', handle, buf', size, written', hrotate⟩ :=
    rotate_eq r [(req, u.currentOffset + event.frameLen)] .ok true true
  obtain ⟨t, hended, hwaiting, hempty, hack⟩ : ∃ t, Machine.run Wal.step r
      [.rotate .ok true true, .respond, .forward, .finish] = some t ∧ t.phase = .waiting ∧
      t.queue = [] ∧ t.acknowledged = w.acknowledged ++ [req] := by
    simp [Machine.run, Wal.step, hphase, hrotate, respond, forward, finish, hqueue, acknowledged,
      hpast, hcur, hcur', BatchRecord.start, acknowledgedOf]
  have hrun : Machine.run Wal.step (w.send event) oneBatch = some t :=
    Machine.run_append.mpr ⟨u, htaken, Machine.run_append.mpr ⟨r, hsynced, hended⟩⟩
  refine ⟨t, hrun, ⟨hwaiting, hempty, ?_⟩, hack⟩
  exact Machine.run_invariant (send_books h.books)
    (fun a l b hstep => step_books (Wal.step_cases hstep)) hrun

/-- The worker's own steps, with the handlers left where they are. -/
theorem run_own {w t : Wal} {ls : List Label} (hown : ∀ l ∈ ls, ∀ event, l ≠ .send event)
    (h : Machine.run Wal.step w ls = some t) (outbox : List (List IngestEvent)) :
    Machine.run step ⟨w, outbox⟩ (ls.map .wal) = some ⟨t, outbox⟩ := by
  induction ls generalizing w with
  | nil =>
    cases h
    rfl
  | cons l ls ih =>
    obtain ⟨u, hu, hrun⟩ := Machine.run_cons.mp h
    obtain ⟨hl, hls⟩ := List.forall_mem_cons.mp hown
    refine Machine.run_cons.mpr ⟨⟨u, outbox⟩, ?_, ih hls hrun⟩
    rw [step_wal hl, hu]
    rfl

theorem serve_next {s : IngestService} (h : Resting s.wal) {k : Nat} {event : IngestEvent}
    {rest : List IngestEvent} (hnext : s.outbox[k]? = some (event :: rest)) :
    ∃ t, Reaches s t ∧ Resting t.wal ∧ t.outbox = s.outbox.set k rest ∧
      t.wal.acknowledged.map WalRequest.event =
        s.wal.acknowledged.map WalRequest.event ++ [event] := by
  obtain ⟨w, hrun, hresting, hack⟩ := serve h event
  have hsend : s.step (.handler k) = some ⟨s.wal.send event, s.outbox.set k rest⟩ := by
    simp [step, hnext, Wal.step, h.waiting]
  have hown := run_own (by simp [oneBatch]) hrun (s.outbox.set k rest)
  refine ⟨⟨w, s.outbox.set k rest⟩, ⟨_, ?_, Machine.run_cons.mpr ⟨_, hsend, hown⟩⟩, hresting, rfl, ?_⟩
  · simp [oneBatch, Clean, Wal.Clean, Wal.FrameOk]
  · simp [hack]

/-- The worker serves what a handler has still to send, event by event. -/
theorem serve_all {s : IngestService} (h : Resting s.wal) {k : Nat} {evs : List IngestEvent}
    (hnext : s.outbox[k]? = some evs) :
    ∃ t, Reaches s t ∧ Resting t.wal ∧ t.outbox = s.outbox.set k [] ∧
      t.wal.acknowledged.map WalRequest.event = s.wal.acknowledged.map WalRequest.event ++ evs := by
  have hk := (List.getElem?_eq_some_iff.mp hnext).1
  induction evs generalizing s with
  | nil =>
    have hself := List.set_getElem_self hk
    rw [(List.getElem?_eq_some_iff.mp hnext).2] at hself
    exact ⟨s, .refl s, h, hself.symm, by simp⟩
  | cons event rest ih =>
    obtain ⟨u, hu, hresting, houtbox, hack⟩ := serve_next h hnext
    have hrest : u.outbox[k]? = some rest := by simp [houtbox, hk]
    obtain ⟨t, ht, hend, houtbox', hack'⟩ := ih hresting hrest (by simpa [houtbox] using hk)
    refine ⟨t, hu.trans ht, hend, ?_, ?_⟩
    · rw [houtbox', houtbox, List.set_set]
    · rw [hack', hack, List.append_assoc, List.singleton_append]

theorem boot_resting (x : Externals) (requests : List IngestRequest) :
    ∃ s, Reaches (start x .empty 0 requests) s ∧ Resting s.wal ∧
      s.outbox = requests.map (fun req => req.events x) ∧ s.wal.acknowledged = [] := by
  have hboot : Machine.run step (start x .empty 0 requests) [.wal (.boot true true true)] =
      some ⟨(Wal.start .empty 0).boot true true true, requests.map fun req => req.events x⟩ := rfl
  have hbooks : Wal.Books ((Wal.start .empty 0).boot true true true) :=
    Wal.boot_books rfl (Wal.start_books .empty 0)
  exact ⟨_, ⟨_, by simp [Clean, Wal.Clean], hboot⟩, ⟨rfl, rfl, hbooks⟩, rfl, rfl⟩

/-- **Only frameable events are acknowledged** by a worker whose clients send no others.
Nothing else keeps an event out of the log: each event a handler sends is acknowledged
in some run. -/
theorem legible_iff (x : Externals) (requests : List IngestRequest) :
    (∀ disk offset t, Reaches (start x disk offset requests) t → t.wal.Legible disk offset) ↔
      ∀ req ∈ requests, ∀ ev ∈ req.events x, ev.Frameable := by
  constructor
  · intro hlegible req hreq ev hev
    obtain ⟨s, hs, hresting, houtbox, -⟩ := boot_resting x requests
    obtain ⟨k, hk⟩ := List.mem_iff_getElem?.mp hreq
    have hnext : s.outbox[k]? = some (req.events x) := by simp [houtbox, hk]
    obtain ⟨t, ht, -, -, hack⟩ := serve_all hresting hnext
    have hmem : ev ∈ t.wal.acknowledged.map WalRequest.event := by
      rw [hack]
      exact List.mem_append_right _ hev
    obtain ⟨r, hr, rfl⟩ := List.mem_map.mp hmem
    exact (hlegible .empty 0 t (hs.trans ht)).frameable r hr
  · intro hevents disk offset t ht
    exact ht.legible hevents

/-! ## An index name of 65536 bytes -/

/-- The name of `n` letters. -/
def longName (n : Nat) : String := String.ofList (List.replicate n 'a')

/-- One empty document for the index of that name. -/
def longBody (n : Nat) : String := actionText (longName n) ++ "\n\x7b\x7d\n"

theorem utf8_longName (n : Nat) : utf8 (longName n) = List.replicate n 97 := by
  have hbytes : (List.replicate n 'a').utf8Encode = (List.replicate n (97 : UInt8)).toByteArray := by
    induction n with
    | zero => rfl
    | succ n ih =>
      have hhead : ['a'].utf8Encode = [(97 : UInt8)].toByteArray := by decide
      rw [List.replicate_succ, List.replicate_succ, List.utf8Encode_cons, ih, hhead,
        ← List.toByteArray_append, List.singleton_append]
  simp [utf8, longName, hbytes]

theorem toList_actionText (name : String) : (actionText name).toList =
    "\x7b\"index\":\x7b\"_index\":\"".toList ++ name.toList ++ "\"\x7d\x7d".toList := by
  have happend : ∀ a b c : String, (a ++ b ++ c).toList = a.toList ++ b.toList ++ c.toList := by simp
  exact happend _ _ _

theorem oneLine_actionText {name : String} (hnewline : '\n' ∉ name.toList)
    (hreturn : '\r' ∉ name.toList) : OneLine (actionText name) := by
  have hvisible : isBlank "\x7b\"index\":\x7b\"_index\":\"".toList = false := by decide
  rw [isBlank] at hvisible
  constructor
  · rw [isBlank, toList_actionText, List.append_assoc, List.all_append, hvisible, Bool.false_and]
  · rw [toList_actionText]
    simp only [List.mem_append, not_or]
    exact ⟨⟨by decide, hnewline⟩, by decide⟩
  · rw [toList_actionText]
    simp only [List.mem_append, not_or]
    exact ⟨⟨by decide, hreturn⟩, by decide⟩

theorem longBody_events (n : Nat) :
    bulkEvents (.ofAction (longName n)) (longBody n) = [⟨longName n, utf8 "\x7b\x7d"⟩] := by
  have haction : OneLine (actionText (longName n)) := by
    have hother : ∀ c : Char, c ≠ 'a' → c ∉ (longName n).toList := by
      intro c hc hmem
      rw [longName, String.toList_ofList] at hmem
      exact hc (List.eq_of_mem_replicate hmem)
    exact oneLine_actionText (hother _ (by decide)) (hother _ (by decide))
  have hdoc : OneLine "\x7b\x7d" := ⟨by decide, by decide, by decide⟩
  let b : BodyLines := ⟨[((actionText (longName n)).toList, .lf), ("\x7b\x7d".toList, .lf)], [], by
    simp [haction.newline]⟩
  have hbody : b.body = longBody n := by
    apply String.toList_injective
    simp [b, BodyLines.body, longBody, LineEnding.chars]
  have hwrites : ∀ p ∈ [(longName n, Json.object [])], (Externals.ofAction (longName n)).Writes p := by
    intro p hp
    obtain rfl := List.mem_singleton.mp hp
    exact ⟨haction, hdoc, if_pos rfl⟩
  have hrenders : Renders (.ofAction (longName n)) [(longName n, .object [])] b := by
    have hlines : pairLines (.ofAction (longName n)) [(longName n, .object [])] =
        [(actionText (longName n)).toList, "\x7b\x7d".toList] := rfl
    have htexts : b.texts = [(actionText (longName n)).toList, "\x7b\x7d".toList, []] := rfl
    rw [Renders, hlines, htexts, List.filter_cons_of_pos (by simp [haction.nonblank]),
      List.filter_cons_of_pos (by decide)]
    rfl
  rw [← hbody, bulkEvents_rendered hrenders hwrites]
  rfl

/-- Between two batches the files have the frames of all acknowledged events. -/
theorem Reaches.written {x : Externals} {disk : Disk} {offset : Nat} {requests : List IngestRequest}
    {t : IngestService} (h : Reaches (start x disk offset requests) t) (hresting : Resting t.wal) :
    t.wal.written = frames (t.wal.acknowledged.map WalRequest.event) := by
  obtain ⟨ls, hrun, hclean, -⟩ := h.wal
  have hbuf : t.wal.buf = [] := (Wal.run_tidy hclean hrun).drained (by simp [hresting.waiting])
  have hstream := (Wal.run_exact hclean hrun).1
  rw [Wal.expected_eq] at hstream
  simpa [Wal.stream, hbuf, Wal.handed, Wal.unanswered, hresting.waiting] using hstream

/-- The first frame claims a payload longer than the log. -/
theorem scan_longName {n : Nat} (hcast : n % 65536 = 0) (hpos : 0 < n) (hlimit : n ≤ 2 ^ 21) :
    (scan (new (frames [⟨longName n, utf8 "\x7b\x7d"⟩, ⟨"b", utf8 "\x7b\x7d"⟩]) 0)).events = [] := by
  have hlength : (utf8 (longName n)).length = n := by rw [utf8_longName, List.length_replicate]
  have hdoc : (utf8 "\x7b\x7d").length = 2 := by decide
  have hindex : (utf8 "b").length = 1 := by decide
  have hclaimed : ofLE ((utf8 (longName n)).take 4) = 1633771873 := by
    rw [utf8_longName, List.take_replicate, Nat.min_eq_left (by omega)]
    decide
  rw [frames_cons]
  apply scan_truncated
  · rw [hlength, hcast]
  · rw [hlength]
    omega
  · rw [hclaimed, frames_singleton, List.length_append, length_frame, length_frame]
    simp only [IngestEvent.frameLen, hlength, hdoc, hindex]
    omega

/-- A bulk request for an index whose name has a multiple of 65536 letters, and a document
of another client. Both are acknowledged, and then no event of the log is read. -/
theorem longName_hides {n : Nat} (hcast : n % 65536 = 0) (hpos : 0 < n) (hlimit : n ≤ 2 ^ 21) :
    ∃ t, Reaches (start (.ofAction (longName n)) .empty 0
        [.bulk (longBody n), .ingestDoc "b" "\x7b\x7d"]) t ∧
      t.wal.acknowledged.map WalRequest.event =
        [⟨longName n, utf8 "\x7b\x7d"⟩, ⟨"b", utf8 "\x7b\x7d"⟩] ∧
      (scan (new t.wal.written 0)).events = [] := by
  obtain ⟨s, hs, hresting, houtbox, hack⟩ :=
    boot_resting (.ofAction (longName n)) [.bulk (longBody n), .ingestDoc "b" "\x7b\x7d"]
  have hbulk : s.outbox[0]? = some [⟨longName n, utf8 "\x7b\x7d"⟩] := by
    rw [houtbox, ← longBody_events n]
    rfl
  obtain ⟨u, hu, hresting, houtbox', hack'⟩ := serve_all hresting hbulk
  have hdoc : u.outbox[1]? = some [⟨"b", utf8 "\x7b\x7d"⟩] := by
    rw [houtbox', houtbox]
    rfl
  obtain ⟨t, ht, hresting, -, hack''⟩ := serve_all hresting hdoc
  have hreached := (hs.trans hu).trans ht
  have hacked : t.wal.acknowledged.map WalRequest.event =
      [⟨longName n, utf8 "\x7b\x7d"⟩, ⟨"b", utf8 "\x7b\x7d"⟩] := by
    rw [hack'', hack', hack]
    rfl
  refine ⟨t, hreached, hacked, ?_⟩
  rw [hreached.written hresting, hacked]
  exact scan_longName hcast hpos hlimit

/-- The shortest such name. -/
theorem long_name_not_legible :
    bulkEvents (.ofAction (longName 65536)) (longBody 65536) =
      [⟨longName 65536, utf8 "\x7b\x7d"⟩] ∧
    ∃ t, Reaches (start (.ofAction (longName 65536)) .empty 0
        [.bulk (longBody 65536), .ingestDoc "b" "\x7b\x7d"]) t ∧
      t.wal.acknowledged.map WalRequest.event =
        [⟨longName 65536, utf8 "\x7b\x7d"⟩, ⟨"b", utf8 "\x7b\x7d"⟩] ∧
      (scan (new t.wal.written 0)).events = [] ∧ ¬ t.wal.Legible .empty 0 := by
  obtain ⟨t, ht, hack, hscan⟩ := longName_hides (n := 65536) (by decide) (by decide) (by decide)
  refine ⟨longBody_events 65536, t, ht, hack, hscan, fun hlegible => ?_⟩
  have hread := hlegible.readable
  rw [hscan, hack] at hread
  cases List.prefix_nil.mp hread

end IngestService
end Edgewit
