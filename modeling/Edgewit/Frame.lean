import Edgewit.Numerals

/-!
# WAL frames

An event is written as one frame, all numbers little-endian:

`[index length : u16] [index] [payload length : u32] [payload] [CRC32 : u32]`

The lengths are cast to their width, so a frame describes its event only when
the event is `Frameable`.

`Hasher` follows the CRC-32 that crc32fast documents, whose code is not part of the
sources. The results about frames use only that a checksum has four bytes.
-/

namespace Edgewit
open Numerals

abbrev Bytes := List UInt8

/-- An event to be appended to the WAL. -/
structure IngestEvent where
  index : String
  payload : Bytes
  deriving DecidableEq, Repr

/-- An event forwarded to the indexer, with the WAL byte offset after it. -/
structure IndexerEvent where
  event : IngestEvent
  walOffset : Nat
  deriving DecidableEq, Repr

def utf8 (s : String) : Bytes := s.toUTF8.data.toList

/-! ## The checksum -/

/-- The running state of crc32fast's hasher (CRC-32, reflected polynomial). -/
structure Hasher where
  state : UInt32
  deriving DecidableEq, Repr

namespace Hasher

def new : Hasher := ⟨0xFFFFFFFF⟩

def shiftBit (c : UInt32) : UInt32 :=
  if c &&& 1 = 1 then (c >>> 1) ^^^ 0xEDB88320 else c >>> 1

def feed (c : UInt32) (b : UInt8) : UInt32 := shiftBit^[8] (c ^^^ b.toUInt32)

def update (h : Hasher) (bytes : Bytes) : Hasher := ⟨bytes.foldl feed h.state⟩

def finalize (h : Hasher) : UInt32 := h.state ^^^ 0xFFFFFFFF

/-- The check value of CRC-32: the digits 1 to 9. -/
example : (new.update (utf8 "123456789")).finalize = 0xCBF43926 := by decide +kernel

end Hasher

/-! ## The frame -/

def IngestEvent.checksum (ev : IngestEvent) : UInt32 :=
  ((Hasher.new.update (utf8 ev.index)).update ev.payload).finalize

/-- The arguments of the five `write_all` calls of a frame, in order. -/
def IngestEvent.pieces (ev : IngestEvent) : List Bytes :=
  [toLE 2 (utf8 ev.index).length, utf8 ev.index, toLE 4 ev.payload.length, ev.payload,
    toLE 4 ev.checksum.toNat]

def IngestEvent.frame (ev : IngestEvent) : Bytes := ev.pieces.flatten

/-- The frame without its checksum. -/
def IngestEvent.body (ev : IngestEvent) : Bytes :=
  toLE 2 (utf8 ev.index).length ++ utf8 ev.index ++ toLE 4 ev.payload.length ++ ev.payload

theorem frame_eq_body (ev : IngestEvent) : ev.frame = ev.body ++ toLE 4 ev.checksum.toNat := by
  simp [IngestEvent.frame, IngestEvent.pieces, IngestEvent.body]

def IngestEvent.frameLen (ev : IngestEvent) : Nat :=
  2 + (utf8 ev.index).length + 4 + ev.payload.length + 4

/-- Both lengths fit the width they are cast to. -/
def IngestEvent.Frameable (ev : IngestEvent) : Prop :=
  (utf8 ev.index).length ≤ 65535 ∧ ev.payload.length ≤ 2 ^ 32 - 1

instance (ev : IngestEvent) : Decidable ev.Frameable := inferInstanceAs (Decidable (_ ∧ _))

@[simp] theorem length_frame (ev : IngestEvent) : ev.frame.length = ev.frameLen := by
  simp only [IngestEvent.frame, IngestEvent.pieces, IngestEvent.frameLen, List.flatten_cons,
    List.flatten_nil, List.length_append, length_toLE, List.length_nil]
  omega

theorem frameLen_pos (ev : IngestEvent) : 10 ≤ ev.frameLen := by
  unfold IngestEvent.frameLen; omega

/-- The frames of a list of events, one after the other. -/
def frames (evs : List IngestEvent) : Bytes := evs.flatMap IngestEvent.frame

@[simp] theorem frames_nil : frames [] = [] := rfl

@[simp] theorem frames_append (as bs : List IngestEvent) :
    frames (as ++ bs) = frames as ++ frames bs := by
  simp [frames]

@[simp] theorem frames_singleton (ev : IngestEvent) : frames [ev] = ev.frame := by
  simp [frames]

@[simp] theorem frames_cons (ev : IngestEvent) (evs : List IngestEvent) :
    frames (ev :: evs) = ev.frame ++ frames evs := rfl

theorem length_le_frames (evs : List IngestEvent) : evs.length ≤ (frames evs).length := by
  induction evs with
  | nil => simp
  | cons ev evs ih =>
    have := frameLen_pos ev
    simp only [frames_cons, List.length_cons, List.length_append, length_frame]
    omega

theorem frames_ne_nil {evs : List IngestEvent} (h : evs ≠ []) : frames evs ≠ [] := by
  intro hnil
  have hlen := length_le_frames evs
  rw [hnil] at hlen
  exact h (List.eq_nil_of_length_eq_zero (Nat.le_zero.mp hlen))

end Edgewit
