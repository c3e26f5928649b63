import Edgewit.Reader

/-!
# Replaying a WAL file

What repeated calls of `next_frame` make of the bytes of a file:

* `resume`: from the end of any frame on, the rest of the events;
* `torn_tail`: of a file cut anywhere, the whole frames;
* `accepts_iff`: of any bytes, frames, but for the checksum that no one compares.
-/

namespace Edgewit
open Numerals

/-! ## One call -/

theorem utf8_of_fromUTF8? {bs : Bytes} {s : String} (h : String.fromUTF8? ⟨bs.toArray⟩ = some s) :
    utf8 s = bs := by
  unfold String.fromUTF8? at h
  split at h
  · cases h
    simp [utf8, String.fromUTF8]
  · cases h

namespace WalReader

theorem read_eq {r r' : WalReader} {bs : Bytes} {n : Nat} (h : r.read n = (bs, r')) :
    r.unread = bs ++ r'.unread ∧ r'.currentOffset = r.currentOffset := by
  cases h
  simp

theorem readExact_ok {r r' : WalReader} {bs : Bytes} {n : Nat} (h : r.readExact n = (.ok bs, r')) :
    r.unread = bs ++ r'.unread ∧ bs.length = n ∧ r'.currentOffset = r.currentOffset := by
  unfold readExact at h
  split at h
  · cases h
    simp
    omega
  · cases h

theorem readExact_offset {r r' : WalReader} {n : Nat} {result : Except ReadError Bytes}
    (h : r.readExact n = (result, r')) : r'.currentOffset = r.currentOffset := by
  unfold readExact at h
  split at h <;> cases h <;> rfl

/-- What the first four reads of a frame return is the body of an event. -/
theorem body_of_reads {lenBuf idxBuf plenBuf payload : Bytes} {index : String}
    (htwo : lenBuf.length = 2) (hidx : idxBuf.length = ofLE lenBuf)
    (hutf8 : String.fromUTF8? ⟨idxBuf.toArray⟩ = some index) (hfour : plenBuf.length = 4)
    (hpay : payload.length = ofLE plenBuf) :
    IngestEvent.Frameable ⟨index, payload⟩ ∧
      IngestEvent.body ⟨index, payload⟩ = lenBuf ++ idxBuf ++ plenBuf ++ payload ∧
      IngestEvent.frameLen ⟨index, payload⟩ = 2 + ofLE lenBuf + 4 + ofLE plenBuf + 4 := by
  obtain rfl := utf8_of_fromUTF8? hutf8
  have hlenBuf := toLE_ofLE lenBuf
  have hplenBuf := toLE_ofLE plenBuf
  have hidxlt := ofLE_lt lenBuf
  have hpaylt := ofLE_lt plenBuf
  rw [htwo] at hlenBuf hidxlt
  rw [hfour] at hplenBuf hpaylt
  refine ⟨⟨by dsimp only; omega, by dsimp only; omega⟩, ?_, ?_⟩
  · simp only [IngestEvent.body, hidx, hlenBuf, hpay, hplenBuf, List.append_assoc]
  · simp only [IngestEvent.frameLen, hidx, hpay]

/-- A call leaves the offset alone, or it returns an event, whose body it has read and four
more bytes. -/
theorem nextFrame_cases {r r' : WalReader} {result : Except ReadError (Option (IngestEvent × Nat))}
    (h : r.nextFrame = (result, r')) :
    ((∀ e, result ≠ .ok (some e)) ∧ r'.currentOffset = r.currentOffset) ∨
    ∃ ev stored, result = .ok (some (ev, r'.currentOffset)) ∧ ev.Frameable ∧ stored.length = 4 ∧
      r.unread = ev.body ++ stored ++ r'.unread ∧
      r'.currentOffset = r.currentOffset + ev.frameLen := by
  unfold nextFrame at h
  cases hlen : r.read 2 with
  | mk lenBuf r₁ =>
    obtain ⟨hr₁, ho₁⟩ := read_eq hlen
    have hle : lenBuf.length ≤ 2 := by
      cases hlen
      simp
    simp only [hlen] at h
    split at h
    · cases h
      exact Or.inl ⟨by simp, ho₁⟩
    split at h
    · cases h
      exact Or.inl ⟨by simp, ho₁⟩
    have htwo : lenBuf.length = 2 := by omega
    -- Each `read_exact` ends the call or is followed by the next one.
    split at h
    · rename_i hidx
      cases h
      exact Or.inl ⟨by simp, (readExact_offset hidx).trans ho₁⟩
    rename_i idxBuf r₂ hidx
    obtain ⟨hr₂, hidxlen, ho₂⟩ := readExact_ok hidx
    split at h
    · cases h
      exact Or.inl ⟨by simp, ho₂.trans ho₁⟩
    rename_i index hutf8
    split at h
    · rename_i hplen
      cases h
      exact Or.inl ⟨by simp, (readExact_offset hplen).trans (ho₂.trans ho₁)⟩
    rename_i plenBuf r₃ hplen
    obtain ⟨hr₃, hfour, ho₃⟩ := readExact_ok hplen
    split at h
    · rename_i hpayload
      cases h
      exact Or.inl ⟨by simp, (readExact_offset hpayload).trans (ho₃.trans (ho₂.trans ho₁))⟩
    rename_i payload r₄ hpayload
    obtain ⟨hr₄, hpaylen, ho₄⟩ := readExact_ok hpayload
    split at h
    · rename_i hstored
      cases h
      refine Or.inl ⟨by simp, (readExact_offset hstored).trans ?_⟩
      exact ho₄.trans (ho₃.trans (ho₂.trans ho₁))
    rename_i stored r₅ hstored
    obtain ⟨hr₅, hcrc, ho₅⟩ := readExact_ok hstored
    cases h
    obtain ⟨hev, hbody, hframeLen⟩ := body_of_reads htwo hidxlen hutf8 hfour hpaylen
    refine Or.inr ⟨⟨index, payload⟩, stored, rfl, hev, hcrc, ?_, ?_⟩
    · simp only [hbody, hr₁, hr₂, hr₃, hr₄, hr₅, List.append_assoc]
    · simp only [hframeLen]
      omega

/-- A call that returns an event has read its body and four more bytes. -/
theorem nextFrame_some {r r' : WalReader} {ev : IngestEvent} {o : Nat}
    (h : r.nextFrame = (.ok (some (ev, o)), r')) :
    ev.Frameable ∧ ∃ stored, stored.length = 4 ∧ r.unread = ev.body ++ stored ++ r'.unread ∧
      o = r.currentOffset + ev.frameLen ∧ r'.currentOffset = o := by
  rcases nextFrame_cases h with ⟨hnot, -⟩ | ⟨ev', stored, heq, hev, hstored, hunread, hoffset⟩
  · exact absurd rfl (hnot _)
  · cases heq
    exact ⟨hev, stored, hstored, hunread, hoffset, rfl⟩

/-! ## Resuming -/

/-- An event read in a log is followed by the offset at which its frame ends. -/
theorem getElem?_withOffsets (offset : Nat) (evs : List IngestEvent) (k : Nat) :
    (withOffsets offset evs)[k]? =
      (evs[k]?).map fun ev => (ev, offset + (frames (evs.take (k + 1))).length) := by
  induction evs generalizing offset k with
  | nil => rfl
  | cons ev evs ih =>
    cases k with
    | zero => simp [withOffsets]
    | succ k =>
      simp only [withOffsets, List.getElem?_cons_succ, ih, List.take_succ_cons, frames_cons,
        List.length_append, length_frame, Nat.add_assoc]

/-- **Every frame end is a place to resume.** From there the rest of the events is read,
each with the offset at which its frame ends, and then the end of the file. -/
theorem resume {evs : List IngestEvent} (hevs : ∀ ev ∈ evs, ev.Frameable) (i : Nat) :
    let s := scan (new (frames evs) (frames (evs.take i)).length)
    s.events = withOffsets (frames (evs.take i)).length (evs.drop i) ∧
      s.ending = .ok () ∧ s.reader.nextFrame = (.ok none, s.reader) ∧
      ∀ k e, s.events[k]? = some e → evs[i + k]? = some e.1 ∧
        e.2 = (frames (evs.take (i + k + 1))).length := by
  have hsplit : frames evs = frames (evs.take i) ++ frames (evs.drop i) := by
    rw [← frames_append, List.take_append_drop]
  have hnew : new (frames evs) (frames (evs.take i)).length =
      ⟨frames (evs.drop i), (frames (evs.take i)).length⟩ := by
    simp [new, hsplit]
  have hfuel := length_le_frames (evs.drop i)
  have hdrop : ∀ ev ∈ evs.drop i, ev.Frameable := fun ev hev => hevs ev (List.mem_of_mem_drop hev)
  have hscan := scanN_frames hdrop ((frames (evs.drop i)).length + 1)
    (frames (evs.take i)).length (by omega)
  rw [hnew, scan, hscan]
  refine ⟨rfl, rfl, nextFrame_eof rfl, ?_⟩
  intro k e he
  rw [getElem?_withOffsets, List.getElem?_drop, Option.map_eq_some_iff] at he
  obtain ⟨ev, hev, rfl⟩ := he
  refine ⟨hev, ?_⟩
  have htake : evs.take (i + k + 1) = evs.take i ++ (evs.drop i).take (k + 1) := by
    rw [Nat.add_assoc, List.take_add]
  simp [htake]

/-- The second frame of two, the first of them an empty event. -/
theorem resume_example :
    let s := scan (new (frames [⟨"", []⟩, ⟨"a", [1]⟩]) 10)
    s.events = [(⟨"a", [1]⟩, 22)] ∧ s.ending = .ok () := by
  have hevs : ∀ ev ∈ ([⟨"", []⟩, ⟨"a", [1]⟩] : List IngestEvent), ev.Frameable := by decide
  obtain ⟨hevents, hending, -⟩ := resume hevs 1
  exact ⟨hevents, hending⟩

/-! ## A torn tail -/

/-- A read of a whole part from a cut file: the cut is in the part, or after it. -/
theorem readExact_cut {as bs : Bytes} {c offset n : Nat} (hn : as.length = n) :
    (∃ e, readExact ⟨(as ++ bs).take c, offset⟩ n = (.error e, ⟨[], offset⟩)) ∨
    (n ≤ c ∧ readExact ⟨(as ++ bs).take c, offset⟩ n = (.ok as, ⟨bs.take (c - n), offset⟩)) := by
  subst hn
  by_cases h : c < as.length
  · left
    refine ⟨_, if_neg ?_⟩
    simp only [List.length_take, List.length_append]
    omega
  · right
    have htake : (as ++ bs).take c = as ++ bs.take (c - as.length) := by
      rw [List.take_append, List.take_of_length_le (by omega)]
    rw [htake]
    exact ⟨by omega, readExact_append rfl rfl⟩

/-- A frame that is cut short is an error, and nothing is left of it. -/
theorem nextFrame_torn {ev : IngestEvent} {c : Nat} (hev : ev.Frameable) (hpos : 0 < c)
    (hc : c < ev.frameLen) (offset : Nat) :
    ∃ e, nextFrame ⟨ev.frame.take c, offset⟩ = (.error e, ⟨[], offset⟩) := by
  obtain ⟨hidx, hpay⟩ := hev
  have hi : ofLE (toLE 2 (utf8 ev.index).length) = (utf8 ev.index).length :=
    ofLE_toLE_of_lt (by omega)
  have hp : ofLE (toLE 4 ev.payload.length) = ev.payload.length := ofLE_toLE_of_lt (by omega)
  unfold IngestEvent.frameLen at hc
  simp only [IngestEvent.frame, IngestEvent.pieces, List.flatten_cons, List.flatten_nil]
  -- The cut is in one of the five parts.
  by_cases htwo : c < 2
  · have hone : c = 1 := by omega
    subst hone
    exact ⟨.unexpectedEof "Partial frame", rfl⟩
  have hread : ∀ rest : Bytes, read ⟨(toLE 2 (utf8 ev.index).length ++ rest).take c, offset⟩ 2 =
      (toLE 2 (utf8 ev.index).length, ⟨rest.take (c - 2), offset⟩) := by
    intro rest
    rw [List.take_append, List.take_of_length_le (by rw [length_toLE]; omega), length_toLE]
    exact read_append rfl (length_toLE 2 _)
  simp only [nextFrame, hread, length_toLE, hi]
  obtain ⟨e, heq⟩ | ⟨hle₁, heq⟩ := readExact_cut rfl
  · rw [heq]
    exact ⟨e, rfl⟩
  rw [heq]
  simp only [fromUTF8?_utf8]
  obtain ⟨e, heq⟩ | ⟨hle₂, heq⟩ := readExact_cut (length_toLE 4 _)
  · rw [heq]
    exact ⟨e, rfl⟩
  rw [heq]
  simp only [hp]
  obtain ⟨e, heq⟩ | ⟨hle₃, heq⟩ := readExact_cut rfl
  · rw [heq]
    exact ⟨e, rfl⟩
  rw [heq]
  dsimp only
  obtain ⟨e, heq⟩ | ⟨hle₄, heq⟩ := readExact_cut (length_toLE 4 _)
  · rw [heq]
    exact ⟨e, rfl⟩
  · omega

/-- The events whose frames are whole in the first `c` bytes of a log. -/
def whole : Nat → List IngestEvent → List IngestEvent
  | _, [] => []
  | c, ev :: evs => if ev.frameLen ≤ c then ev :: whole (c - ev.frameLen) evs else []

theorem whole_prefix (c : Nat) (evs : List IngestEvent) : whole c evs <+: evs := by
  induction evs generalizing c with
  | nil => exact List.prefix_refl []
  | cons ev evs ih =>
    unfold whole
    split
    · exact List.cons_prefix_cons.mpr ⟨rfl, ih _⟩
    · exact List.nil_prefix

theorem whole_take {evs : List IngestEvent} (i : Nat) :
    whole (frames (evs.take i)).length evs = evs.take i := by
  induction evs generalizing i with
  | nil => simp [whole]
  | cons ev evs ih =>
    cases i with
    | zero =>
      have hpos := frameLen_pos ev
      rw [whole, if_neg]
      · rfl
      · simp only [List.take_zero, frames_nil, List.length_nil]
        omega
    | succ i =>
      rw [List.take_succ_cons, whole, if_pos]
      · simp [ih]
      · simp

/-- A cut at the end of a frame, or before the first. -/
def Boundary (evs : List IngestEvent) (c : Nat) : Prop :=
  ∃ i ≤ evs.length, c = (frames (evs.take i)).length

theorem boundary_iff {evs : List IngestEvent} {c : Nat} :
    Boundary evs c ↔ (frames (whole c evs)).length = c := by
  constructor
  · rintro ⟨i, -, rfl⟩
    rw [whole_take]
  · intro h
    have hprefix := whole_prefix c evs
    refine ⟨(whole c evs).length, hprefix.length_le, ?_⟩
    rw [← List.prefix_iff_eq_take.mp hprefix, h]

theorem withOffsets_gt {offset : Nat} {evs : List IngestEvent} {e : IngestEvent × Nat}
    (h : e ∈ withOffsets offset evs) : offset < e.2 := by
  induction evs generalizing offset with
  | nil => cases h
  | cons ev evs ih =>
    have hpos := frameLen_pos ev
    rcases List.mem_cons.mp h with rfl | h
    · dsimp only
      omega
    · have hlt := ih h
      omega

theorem filter_withOffsets (offset c : Nat) (evs : List IngestEvent) :
    (withOffsets offset evs).filter (fun e => e.2 ≤ offset + c) = withOffsets offset (whole c evs) := by
  induction evs generalizing offset c with
  | nil => rfl
  | cons ev evs ih =>
    unfold whole
    by_cases h : ev.frameLen ≤ c
    · have heq : offset + c = offset + ev.frameLen + (c - ev.frameLen) := by omega
      rw [if_pos h, heq]
      simp only [withOffsets]
      rw [List.filter_cons_of_pos (by simp), ih]
    · rw [if_neg h]
      simp only [withOffsets]
      rw [List.filter_cons_of_neg (by simpa using h), List.filter_eq_nil_iff]
      -- All later frames end behind this one.
      intro e he
      have hlt := withOffsets_gt he
      simp only [decide_eq_true_eq]
      omega

theorem getLast_withOffsets (offset : Nat) (evs : List IngestEvent) :
    ((withOffsets offset evs).getLast?.map Prod.snd).getD offset = offset + (frames evs).length := by
  induction evs generalizing offset with
  | nil => rfl
  | cons ev evs ih =>
    have hrest := ih (offset + ev.frameLen)
    rw [withOffsets, List.getLast?_cons, frames_cons, List.length_append, length_frame,
      ← Nat.add_assoc, ← hrest]
    cases (withOffsets (offset + ev.frameLen) evs).getLast? <;> rfl

/-- A scan of a cut log: the whole frames, then the end of the file or an error. -/
theorem scanN_take {evs : List IngestEvent} (hevs : ∀ ev ∈ evs, ev.Frameable)
    (fuel offset c : Nat) (hfuel : c < fuel) (hc : c ≤ (frames evs).length) :
    ∃ ending, scanN fuel ⟨(frames evs).take c, offset⟩ =
        ⟨withOffsets offset (whole c evs), ending, ⟨[], offset + (frames (whole c evs)).length⟩⟩ ∧
      (ending = .ok () ↔ (frames (whole c evs)).length = c) := by
  induction evs generalizing fuel offset c with
  | nil =>
    obtain ⟨fuel, rfl⟩ := Nat.exists_eq_succ_of_ne_zero (Nat.ne_of_gt (Nat.zero_lt_of_lt hfuel))
    have hzero : c = 0 := by simpa using hc
    exact ⟨.ok (), by simp [scanN, nextFrame_eof, withOffsets, whole], by simp [whole, hzero]⟩
  | cons ev evs ih =>
    obtain ⟨fuel, rfl⟩ := Nat.exists_eq_succ_of_ne_zero (Nat.ne_of_gt (Nat.zero_lt_of_lt hfuel))
    have hev := hevs ev List.mem_cons_self
    unfold whole
    by_cases hwhole : ev.frameLen ≤ c
    · have htake : (frames (ev :: evs)).take c = ev.frame ++ (frames evs).take (c - ev.frameLen) := by
        rw [frames_cons, List.take_append, List.take_of_length_le (by simpa using hwhole), length_frame]
      have hnext := nextFrame_frame (r := ⟨(frames (ev :: evs)).take c, offset⟩) hev htake
      obtain ⟨ending, hscan, hending⟩ := ih (fun e he => hevs e (List.mem_cons_of_mem ev he)) fuel
        (offset + ev.frameLen) (c - ev.frameLen) (by have := frameLen_pos ev; omega)
        (by simp only [frames_cons, List.length_append, length_frame] at hc; omega)
      refine ⟨ending, ?_, ?_⟩
      · rw [scanN, hnext, if_pos hwhole]
        simp only [hscan, withOffsets, frames_cons, List.length_append, length_frame, Nat.add_assoc]
      · rw [hending, if_pos hwhole, frames_cons, List.length_append, length_frame]
        omega
    · rw [if_neg hwhole]
      by_cases hzero : c = 0
      · subst hzero
        exact ⟨.ok (), by simp [scanN, nextFrame_eof, withOffsets], by simp⟩
      · have htake : (frames (ev :: evs)).take c = ev.frame.take c := by
          rw [frames_cons, List.take_append_of_le_length (by simp; omega)]
        obtain ⟨e, htorn⟩ := nextFrame_torn hev (Nat.pos_of_ne_zero hzero) (by omega) offset
        refine ⟨.error e, ?_, ?_⟩
        · rw [htake, scanN, htorn]
          rfl
        · simp [Ne.symm hzero]

/-- **A torn tail.** The first `c` bytes of a log are read up to the last whole frame.
The scan ends well at a boundary and with an error elsewhere; after the error the offset
is that of the last whole frame, and no later call returns an event. -/
theorem torn_tail {evs : List IngestEvent} (hevs : ∀ ev ∈ evs, ev.Frameable) {c : Nat}
    (hc : c ≤ (frames evs).length) :
    let s := scan (new ((frames evs).take c) 0)
    s.events = (withOffsets 0 evs).filter (fun e => e.2 ≤ c) ∧
      (Boundary evs c → s.ending = .ok () ∧ s.reader.nextFrame = (.ok none, s.reader)) ∧
      (¬ Boundary evs c → (∃ e, s.ending = .error e) ∧
        s.reader.currentOffset = (s.events.getLast?.map Prod.snd).getD 0 ∧
        ∀ n e, ((fun r => (nextFrame r).2)^[n] s.reader).nextFrame.1 ≠ .ok (some e)) := by
  have hfuel : c < ((frames evs).take c).length + 1 := by
    rw [List.length_take]
    omega
  obtain ⟨ending, hscan, hending⟩ := scanN_take hevs (((frames evs).take c).length + 1) 0 c hfuel hc
  have hnew : scan (new ((frames evs).take c) 0) = ⟨withOffsets 0 (whole c evs), ending,
      ⟨[], 0 + (frames (whole c evs)).length⟩⟩ := hscan
  have hfilter := filter_withOffsets 0 c evs
  rw [Nat.zero_add] at hfilter
  rw [hnew, boundary_iff, ← hending]
  refine ⟨hfilter.symm, fun hok => ⟨hok, nextFrame_eof rfl⟩, fun hfails => ⟨?_, ?_, ?_⟩⟩
  · cases ending with
    | ok u => exact absurd rfl hfails
    | error e => exact ⟨e, rfl⟩
  · exact (getLast_withOffsets 0 (whole c evs)).symm
  · intro n e
    have hfixed : (nextFrame ⟨[], 0 + (frames (whole c evs)).length⟩).2 =
        ⟨[], 0 + (frames (whole c evs)).length⟩ := by
      rw [nextFrame_eof rfl]
    rw [Function.iterate_fixed hfixed, nextFrame_eof rfl]
    simp

/-- Cuts in a log of two frames: inside the second, in its length field, and between the two. -/
theorem torn_tail_example :
    let log := frames [⟨"", []⟩, ⟨"a", [1]⟩]
    (scan (new (log.take 21) 0)).events = [(⟨"", []⟩, 10)] ∧
      (scan (new (log.take 11) 0)).ending ≠ .ok () ∧ (scan (new (log.take 10) 0)).ending = .ok () := by
  have hevs : ∀ ev ∈ ([⟨"", []⟩, ⟨"a", [1]⟩] : List IngestEvent), ev.Frameable := by decide
  have hnot : ¬ Boundary [⟨"", []⟩, ⟨"a", [1]⟩] 11 := by
    rw [boundary_iff]
    decide
  have hat : Boundary [⟨"", []⟩, ⟨"a", [1]⟩] 10 := by
    rw [boundary_iff]
    decide
  obtain ⟨e, he⟩ := ((torn_tail hevs (c := 11) (by decide)).2.2 hnot).1
  refine ⟨(torn_tail hevs (c := 21) (by decide)).1, ?_,
    ((torn_tail hevs (c := 10) (by decide)).2.1 hat).1⟩
  rw [he]
  simp

/-! ## What is accepted -/

/-- The checksum after each frame body that the bytes start with is that of the body. -/
def Intact (bytes : Bytes) : Prop :=
  ∀ (ev : IngestEvent) (stored rest : Bytes), ev.Frameable → stored.length = 4 →
    bytes = ev.body ++ stored ++ rest → stored = toLE 4 ev.checksum.toNat

/-- **What the reader accepts is a frame exactly when the stored checksum is right**,
which the reader does not look at. -/
theorem accepts_iff (r : WalReader) :
    (∀ ev o r', r.nextFrame = (.ok (some (ev, o)), r') → r.unread = ev.frame ++ r'.unread) ↔
      Intact r.unread := by
  constructor
  · intro h ev stored rest hev hstored hunread
    have hframe := h ev _ _ (nextFrame_body hev hstored hunread)
    rw [hunread, frame_eq_body, List.append_assoc, List.append_assoc, List.append_cancel_left_eq,
      List.append_cancel_right_eq] at hframe
    exact hframe
  · intro h ev o r' hnext
    obtain ⟨hev, stored, hstored, hunread, -, -⟩ := nextFrame_some hnext
    rw [frame_eq_body, ← h ev stored r'.unread hev hstored hunread]
    exact hunread

/-- A frame whose payload byte was changed. -/
theorem altered_frame_accepted :
    ¬ ∀ (r r' : WalReader) (ev : IngestEvent) (o : Nat),
      r.nextFrame = (.ok (some (ev, o)), r') → r.unread = ev.frame ++ r'.unread := by
  intro halways
  let bytes : Bytes := (frames [⟨"a", [1]⟩]).set 7 2
  have hnext : (new bytes 0).nextFrame = (.ok (some (⟨"a", [2]⟩, 12)), ⟨[], 12⟩) := by decide +kernel
  have hframe := halways _ _ _ _ hnext
  have hdiff : (new bytes 0).unread ≠ (⟨"a", [2]⟩ : IngestEvent).frame ++ [] := by decide +kernel
  exact hdiff hframe

end WalReader
end Edgewit
