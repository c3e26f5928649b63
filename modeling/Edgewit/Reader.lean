import Edgewit.Frame

/-!
# Reading the WAL back

`WalReader::next_frame` over the bytes of one file. A read of a regular file
returns all bytes available up to the requested length; a `read_exact` that runs
into the end of the file consumes what is left and fails.

* `nextFrame_frame`: at the start of a frame of a frameable event, the reader
  returns that event with the offset after the frame;
* `scan_frames`: a file of whole frames is read to its end.
-/

namespace Edgewit
open Numerals

/-- The kinds of `io::Error` a reader returns. -/
inductive ReadError where
  | unexpectedEof (message : String)
  | invalidData
  deriving DecidableEq, Repr

/-- An open WAL file: the bytes after the file cursor, and the offset reported
to the caller. -/
structure WalReader where
  unread : Bytes
  currentOffset : Nat
  deriving DecidableEq, Repr

namespace WalReader

/-- Opens a file and seeks to `startOffset`. -/
def new (file : Bytes) (startOffset : Nat) : WalReader :=
  ⟨file.drop startOffset, startOffset⟩

/-- `File::read` into a buffer of `n` bytes. -/
def read (r : WalReader) (n : Nat) : Bytes × WalReader :=
  (r.unread.take n, { r with unread := r.unread.drop n })

def readExact (r : WalReader) (n : Nat) : Except ReadError Bytes × WalReader :=
  if n ≤ r.unread.length then (.ok (r.unread.take n), { r with unread := r.unread.drop n })
  else (.error (.unexpectedEof "failed to fill whole buffer"), { r with unread := [] })

def nextFrame (r : WalReader) : Except ReadError (Option (IngestEvent × Nat)) × WalReader :=
  let (lenBuf, r) := r.read 2
  if lenBuf.length = 0 then (.ok none, r)
  else if lenBuf.length < 2 then (.error (.unexpectedEof "Partial frame"), r)
  else
    let idxLen := ofLE lenBuf
    match r.readExact idxLen with
    | (.error e, r) => (.error e, r)
    | (.ok idxBuf, r) =>
      match String.fromUTF8? ⟨idxBuf.toArray⟩ with
      | none => (.error .invalidData, r)
      | some index =>
        match r.readExact 4 with
        | (.error e, r) => (.error e, r)
        | (.ok plenBuf, r) =>
          let pLen := ofLE plenBuf
          match r.readExact pLen with
          | (.error e, r) => (.error e, r)
          | (.ok payload, r) =>
            -- the checksum is read and not compared
            match r.readExact 4 with
            | (.error e, r) => (.error e, r)
            | (.ok _, r) =>
              let frameSize := 2 + idxLen + 4 + pLen + 4
              let r := { r with currentOffset := r.currentOffset + frameSize }
              (.ok (some (⟨index, payload⟩, r.currentOffset)), r)

/-- What a scan returns: the events read, how it ended, and the reader left. -/
structure Scan where
  events : List (IngestEvent × Nat)
  ending : Except ReadError Unit
  reader : WalReader

/-- Calls `nextFrame` until it first returns something other than an event, at
most `fuel` times. -/
def scanN : Nat → WalReader → Scan
  | 0, r => ⟨[], .ok (), r⟩
  | fuel + 1, r =>
    match r.nextFrame with
    | (.ok (some e), r) =>
      let rest := scanN fuel r
      { rest with events := e :: rest.events }
    | (.ok none, r) => ⟨[], .ok (), r⟩
    | (.error e, r) => ⟨[], .error e, r⟩

/-- A frame takes bytes from the file, so the bytes left bound the calls. -/
def scan (r : WalReader) : Scan := scanN (r.unread.length + 1) r

theorem readExact_append {r : WalReader} {bs rest : Bytes} {n : Nat}
    (h : r.unread = bs ++ rest) (hn : bs.length = n) :
    r.readExact n = (.ok bs, { r with unread := rest }) := by
  subst hn
  simp [readExact, h]

theorem read_append {r : WalReader} {bs rest : Bytes} {n : Nat}
    (h : r.unread = bs ++ rest) (hn : bs.length = n) :
    r.read n = (bs, { r with unread := rest }) := by
  subst hn
  simp [read, h]

theorem fromUTF8?_utf8 (s : String) : String.fromUTF8? ⟨(utf8 s).toArray⟩ = some s := by
  have hbytes : (⟨(utf8 s).toArray⟩ : ByteArray) = s.toByteArray := by
    simp [utf8]
  rw [hbytes, String.fromUTF8?, dif_pos s.isValidUTF8]
  rfl

/-- Whatever its last four bytes are, a frame is read as the event of its body. -/
theorem nextFrame_body {r : WalReader} {ev : IngestEvent} {stored rest : Bytes} (hev : ev.Frameable)
    (hstored : stored.length = 4) (h : r.unread = ev.body ++ stored ++ rest) :
    r.nextFrame = (.ok (some (ev, r.currentOffset + ev.frameLen)),
      ⟨rest, r.currentOffset + ev.frameLen⟩) := by
  obtain ⟨hidx, hpay⟩ := hev
  have hi : ofLE (toLE 2 (utf8 ev.index).length) = (utf8 ev.index).length :=
    ofLE_toLE_of_lt (by omega)
  have hp : ofLE (toLE 4 ev.payload.length) = ev.payload.length := ofLE_toLE_of_lt (by omega)
  simp only [IngestEvent.body, List.append_assoc] at h
  simp only [nextFrame, read_append h (length_toLE 2 _), length_toLE, hi]
  rw [readExact_append rfl rfl]
  simp only [fromUTF8?_utf8]
  rw [readExact_append rfl (length_toLE 4 _)]
  simp only [hp]
  rw [readExact_append rfl rfl]
  dsimp only
  rw [readExact_append rfl hstored]
  rfl

/-- **A frame is read back as its event.** -/
theorem nextFrame_frame {r : WalReader} {ev : IngestEvent} {rest : Bytes} (hev : ev.Frameable)
    (h : r.unread = ev.frame ++ rest) :
    r.nextFrame = (.ok (some (ev, r.currentOffset + ev.frameLen)),
      ⟨rest, r.currentOffset + ev.frameLen⟩) := by
  rw [frame_eq_body] at h
  exact nextFrame_body hev (length_toLE 4 _) h

theorem nextFrame_eof {r : WalReader} (h : r.unread = []) : r.nextFrame = (.ok none, r) := by
  cases r
  simp_all [nextFrame, read]

/-- The events of a log with the offset after each frame, from `offset` on. -/
def withOffsets : Nat → List IngestEvent → List (IngestEvent × Nat)
  | _, [] => []
  | offset, ev :: evs =>
    (ev, offset + ev.frameLen) :: withOffsets (offset + ev.frameLen) evs

theorem withOffsets_append (offset : Nat) (as bs : List IngestEvent) :
    withOffsets offset (as ++ bs) = withOffsets offset as ++ withOffsets (offset + (frames as).length) bs := by
  induction as generalizing offset with
  | nil => rfl
  | cons ev as ih =>
    simp only [List.cons_append, withOffsets, ih, frames_cons, List.length_append, length_frame,
      Nat.add_assoc]

theorem withOffsets_shift (start offset : Nat) (evs : List IngestEvent) :
    (withOffsets offset evs).map (fun e => (e.1, start + e.2)) = withOffsets (start + offset) evs := by
  induction evs generalizing offset with
  | nil => rfl
  | cons ev evs ih => simp only [withOffsets, List.map_cons, ih, Nat.add_assoc]

theorem withOffsets_le {offset : Nat} {evs : List IngestEvent} {e : IngestEvent × Nat}
    (h : e ∈ withOffsets offset evs) : e.2 ≤ offset + (frames evs).length := by
  induction evs generalizing offset with
  | nil => simp [withOffsets] at h
  | cons ev evs ih =>
    simp only [frames_cons, List.length_append, length_frame]
    rcases List.mem_cons.mp h with rfl | h
    · dsimp only
      omega
    · have hle := ih h
      omega

@[simp] theorem map_fst_withOffsets (offset : Nat) (evs : List IngestEvent) :
    (withOffsets offset evs).map Prod.fst = evs := by
  induction evs generalizing offset with
  | nil => rfl
  | cons ev evs ih => simp [withOffsets, ih]

theorem scanN_frames {evs : List IngestEvent} (hevs : ∀ ev ∈ evs, ev.Frameable)
    (fuel offset : Nat) (hfuel : evs.length < fuel) :
    scanN fuel ⟨frames evs, offset⟩ =
      ⟨withOffsets offset evs, .ok (), ⟨[], offset + (frames evs).length⟩⟩ := by
  induction evs generalizing fuel offset with
  | nil =>
    obtain ⟨fuel, rfl⟩ := Nat.exists_eq_succ_of_ne_zero (Nat.ne_of_gt hfuel)
    simp [scanN, nextFrame_eof, withOffsets]
  | cons ev evs ih =>
    obtain ⟨fuel, rfl⟩ := Nat.exists_eq_succ_of_ne_zero (Nat.ne_of_gt (Nat.zero_lt_of_lt hfuel))
    have hnext := nextFrame_frame (r := ⟨frames (ev :: evs), offset⟩) (hevs ev List.mem_cons_self)
      (frames_cons ev evs)
    have hrest := ih (fun e he => hevs e (List.mem_cons_of_mem ev he)) fuel
      (offset + ev.frameLen) (by simpa using hfuel)
    rw [scanN, hnext]
    simp only [hrest, withOffsets, frames_cons, List.length_append, length_frame, Nat.add_assoc]

/-- A file of whole frames is read to its end, event by event. -/
theorem scan_frames {evs : List IngestEvent} (hevs : ∀ ev ∈ evs, ev.Frameable) :
    (scan (new (frames evs) 0)).events = withOffsets 0 evs ∧
    (scan (new (frames evs) 0)).ending = .ok () := by
  have hlen := length_le_frames evs
  simp [scan, new, scanN_frames hevs ((frames evs).length + 1) 0 (by omega)]

end WalReader
end Edgewit
