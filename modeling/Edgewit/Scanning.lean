import Edgewit.Replay

/-!
# Scanning any bytes

`next_frame` until it returns something other than an event, over bytes that no one has
vouched for. `scan_within`: the scan ends, its frames lie one after the other in the file,
and the offset it reports stays in the file.

The sizes and offsets are natural numbers; with a 64-bit `usize` no sum of them wraps before
the end of the file.
-/

namespace Edgewit
namespace WalReader

/-- Calls of `nextFrame` that return one event each. -/
inductive Reads : WalReader → List (IngestEvent × Nat) → WalReader → Prop where
  | nil {r : WalReader} : Reads r [] r
  | cons {r s t : WalReader} {e : IngestEvent × Nat} {es : List (IngestEvent × Nat)}
      (hnext : r.nextFrame = (.ok (some e), s)) (hrest : Reads s es t) : Reads r (e :: es) t

/-- The next call returns no event: the end of the file, or an error. -/
def Stops (r r' : WalReader) : Prop :=
  ∃ result, r.nextFrame = (result, r') ∧ ∀ e, result ≠ .ok (some e)

/-- Each event is a frame of the file, from the offset before it to its own. The last four
bytes of the frame are not looked at. -/
def Consecutive (file : Bytes) : Nat → List (IngestEvent × Nat) → Prop
  | _, [] => True
  | start, (ev, offset) :: rest =>
    offset ≤ file.length ∧
      (∃ stored : Bytes, stored.length = 4 ∧
        (file.take offset).drop start = ev.body ++ stored ∧ offset = start + ev.frameLen) ∧
      Consecutive file offset rest

/-- The cursor of the file is at the reported offset. -/
structure Within (file : Bytes) (r : WalReader) : Prop where
  unread : r.unread = file.drop r.currentOffset
  inside : r.currentOffset ≤ file.length

theorem new_within {file : Bytes} {start : Nat} (h : start ≤ file.length) :
    Within file (new file start) :=
  ⟨rfl, h⟩

/-! ## One call -/

theorem length_body_add (ev : IngestEvent) : ev.body.length + 4 = ev.frameLen := by
  have hframe := congrArg List.length (frame_eq_body ev)
  simpa using hframe.symm

/-- A call that returns no event leaves the offset alone. -/
theorem Stops.offset {r r' : WalReader} (h : r.Stops r') : r'.currentOffset = r.currentOffset := by
  obtain ⟨result, hnext, hnot⟩ := h
  rcases nextFrame_cases hnext with ⟨-, hsame⟩ | ⟨ev, stored, heq, -⟩
  · exact hsame
  · exact absurd heq (hnot _)

/-- An event moves the reader over its frame, which is in the file. -/
theorem Within.next {file : Bytes} {r r' : WalReader} {ev : IngestEvent} {offset : Nat}
    (hwithin : Within file r) (hnext : r.nextFrame = (.ok (some (ev, offset)), r')) :
    Within file r' ∧ r'.currentOffset = offset ∧ offset = r.currentOffset + ev.frameLen ∧
      ∃ stored : Bytes, stored.length = 4 ∧
        (file.take offset).drop r.currentOffset = ev.body ++ stored := by
  obtain ⟨-, stored, hstored, hunread, hoffset, hcurrent⟩ := nextFrame_some hnext
  have hframe : (ev.body ++ stored).length = ev.frameLen := by
    rw [List.length_append, hstored, length_body_add]
  have hdrop : file.drop r.currentOffset = (ev.body ++ stored) ++ r'.unread := by
    rw [← hwithin.unread, hunread]
  have hlength := congrArg List.length hdrop
  rw [List.length_drop, List.length_append, hframe] at hlength
  have hinside := hwithin.inside
  have hpos := frameLen_pos ev
  refine ⟨⟨?_, by omega⟩, hcurrent, hoffset, stored, hstored, ?_⟩
  · rw [hcurrent, hoffset, ← List.drop_drop, hdrop, ← hframe, List.drop_left]
  · rw [List.drop_take, hdrop, hoffset, Nat.add_sub_cancel_left, ← hframe, List.take_left]

/-! ## Runs -/

theorem Reads.consecutive {file : Bytes} {r t : WalReader} {es : List (IngestEvent × Nat)}
    (hreads : Reads r es t) (hwithin : Within file r) :
    Consecutive file r.currentOffset es ∧ Within file t ∧
      r.currentOffset + 10 * es.length ≤ t.currentOffset := by
  induction hreads with
  | nil => exact ⟨trivial, hwithin, Nat.le_refl _⟩
  | @cons r s t e es hnext _ ih =>
    obtain ⟨ev, offset⟩ := e
    obtain ⟨hs, hcurrent, hoffset, stored, hstored, hbytes⟩ := hwithin.next hnext
    obtain ⟨hrest, ht, hle⟩ := ih hs
    have hpos := frameLen_pos ev
    have hinside := hs.inside
    rw [hcurrent] at hrest hle hinside
    refine ⟨⟨hinside, ⟨stored, hstored, hbytes, hoffset⟩, hrest⟩, ht, ?_⟩
    rw [List.length_cons]
    omega

/-- A frame takes bytes from the file, so the fuel is not used up. -/
theorem scanN_reads {fuel : Nat} {r : WalReader} (hfuel : r.unread.length < fuel) :
    ∃ last, Reads r (scanN fuel r).events last ∧ last.Stops (scanN fuel r).reader := by
  induction fuel generalizing r with
  | zero => omega
  | succ fuel ih =>
    unfold scanN
    split
    · rename_i e r' hnext
      obtain ⟨-, stored, -, hunread, -, -⟩ := nextFrame_some hnext
      have hlength := congrArg List.length hunread
      have hbody := length_body_add e.1
      have hpos := frameLen_pos e.1
      simp only [List.length_append] at hlength
      obtain ⟨last, hreads, hstops⟩ := @ih r' (by omega)
      exact ⟨last, .cons hnext hreads, hstops⟩
    · rename_i r' hnext
      exact ⟨r, .nil, _, hnext, by simp⟩
    · rename_i e r' hnext
      exact ⟨r, .nil, _, hnext, by simp⟩

/-- **Scanning any bytes ends within the file.** Every run of calls returns at most one
event for ten bytes; its frames lie one after the other from the start on, and the offset
reported never goes back and never leaves the file. The scan is such a run, up to a call
that returns no event. -/
theorem scan_within {file : Bytes} {start : Nat} (hstart : start ≤ file.length) :
    (∀ es r, Reads (new file start) es r →
      es.length ≤ (file.length - start) / 10 ∧ Consecutive file start es ∧
        start ≤ r.currentOffset ∧ r.currentOffset ≤ file.length ∧
        r.unread = file.drop r.currentOffset ∧
        ∀ result r', r.nextFrame = (result, r') →
          r.currentOffset ≤ r'.currentOffset ∧ r'.currentOffset ≤ file.length) ∧
    (let s := scan (new file start)
      ∃ last, Reads (new file start) s.events last ∧ last.Stops s.reader) := by
  constructor
  · intro es r hreads
    obtain ⟨hconsecutive, hwithin, hle⟩ := hreads.consecutive (new_within hstart)
    have hinside := hwithin.inside
    change start + 10 * es.length ≤ r.currentOffset at hle
    refine ⟨by omega, hconsecutive, by omega, hinside, hwithin.unread, ?_⟩
    intro result r' hnext
    by_cases hevent : ∃ e, result = .ok (some e)
    · obtain ⟨⟨ev, offset⟩, rfl⟩ := hevent
      obtain ⟨hnew, hcurrent, hoffset, -⟩ := hwithin.next hnext
      exact ⟨by omega, hnew.inside⟩
    · have hsame := Stops.offset ⟨result, hnext, fun e he => hevent ⟨e, he⟩⟩
      omega
  · exact scanN_reads (Nat.lt_succ_self _)

/-- Eleven bytes that no writer wrote: an empty event with a wrong checksum, and one byte. -/
theorem scan_within_example :
    let file : Bytes := [0, 0, 0, 0, 0, 0, 9, 9, 9, 9, 7]
    (scan (new file 0)).events = [(⟨"", []⟩, 10)] ∧
      (scan (new file 0)).events.length ≤ 11 / 10 ∧
      Consecutive file 0 (scan (new file 0)).events := by
  intro file
  obtain ⟨hruns, last, hreads, -⟩ := @scan_within file 0 (Nat.zero_le _)
  obtain ⟨hlength, hconsecutive, -⟩ := hruns _ _ hreads
  exact ⟨by decide +kernel, hlength, hconsecutive⟩

end WalReader
end Edgewit
