import Edgewit.Appender
import Mathlib.Data.List.Nodup

/-!
# The acknowledge and forward protocol

What the appender's books say after every run, for every split of the request
sequence into batches and every outcome of every write, flush, sync and open.
-/

namespace Edgewit.Wal

/-- The requests of a batch answered Ok, in the order of the answers. -/
def acknowledgedOf (answers : List (WalRequest × Answer)) : List WalRequest :=
  answers.filterMap fun a => match a.2 with
    | .ok _ => some a.1
    | .error _ => none

/-- All requests answered Ok so far. -/
def acknowledged (w : Wal) : List WalRequest :=
  w.past.flatMap (fun r => acknowledgedOf r.answers) ++ acknowledgedOf w.cur.answers

/-- Requests received into a batch that is not closed yet. -/
def batched (w : Wal) : List WalRequest :=
  match w.phase with
  | .batching batch => batch
  | _ => []

/-- The event answered Ok whose send to the indexer is under way. -/
def pending (w : Wal) : List IndexerEvent :=
  match w.phase with
  | .forwarding event _ => [event]
  | _ => []

/-- Offsets of written frames that may still be sent to the indexer. -/
def unsent (w : Wal) : List Nat :=
  match w.phase with
  | .writing _ toIndex | .syncing toIndex | .rotating toIndex | .responding toIndex
  | .forwarding _ toIndex => toIndex.map Prod.snd
  | _ => []

/-- The books of the batch at hand, phase by phase. -/
def InProgress : Phase → BatchRecord → Prop
  | .writing rest toIndex, r => r = .start (toIndex.map Prod.fst ++ rest)
  | .syncing toIndex, r => r = ⟨toIndex.map Prod.fst, true, false, [], []⟩
  | .rotating toIndex, r => r = ⟨toIndex.map Prod.fst, true, true, [], []⟩
  | .responding toIndex, r =>
    ∃ done, r = ⟨done ++ toIndex.map Prod.fst, true, true, done.map (·, .ok ()), []⟩
  | .forwarding event toIndex, r => ∃ done req, event.event = req.event ∧
    r = ⟨done ++ req :: toIndex.map Prod.fst, true, true, (done ++ [req]).map (·, .ok ()), []⟩
  | .failing toIndex, r => r.synced = false ∧ ∃ done,
    r.requests = done ++ toIndex.map Prod.fst ++ r.dropped ∧
    r.answers = done.map (·, .error writeError)
  | _, r => r = .start []

/-- A finished batch: synced and answered Ok as a whole, or some first requests
answered with an error and the responders of the others dropped. -/
def Settled (r : BatchRecord) : Prop :=
  (r.flushed = true ∧ r.synced = true ∧ r.answers = r.requests.map (·, .ok ()) ∧ r.dropped = []) ∨
  (r.synced = false ∧ ∃ done, r.requests = done ++ r.dropped ∧
    r.answers = done.map (·, .error writeError))

structure Books (w : Wal) : Prop where
  arrival : w.past.flatMap BatchRecord.requests ++ w.cur.requests ++ w.batched ++ w.queue = w.arrived
  responders : w.arrived.map WalRequest.responder = List.range w.arrived.length
  current : InProgress w.phase w.cur
  settled : ∀ r ∈ w.past, Settled r
  forwarded : w.acknowledged.map WalRequest.event = (w.sent ++ w.pending).map IndexerEvent.event
  increasing : ((w.sent ++ w.pending).map IndexerEvent.walOffset ++ w.unsent).Pairwise (· < ·)
  bounded : ∀ o ∈ (w.sent ++ w.pending).map IndexerEvent.walOffset ++ w.unsent, o ≤ w.currentOffset

@[simp] theorem acknowledgedOf_nil : acknowledgedOf [] = [] := rfl

@[simp] theorem acknowledgedOf_ok (rs : List WalRequest) : acknowledgedOf (rs.map (·, .ok ())) = rs := by
  induction rs with
  | nil => rfl
  | cons r rs ih => simp [acknowledgedOf]

@[simp] theorem acknowledgedOf_error (rs : List WalRequest) (e : String) :
    acknowledgedOf (rs.map (·, .error e)) = [] := by
  simp [acknowledgedOf]

theorem acknowledged_respond (w : Wal) (req : WalRequest) (offset : Nat)
    (rest : List (WalRequest × Nat)) :
    (w.respond req offset rest).acknowledged = w.acknowledged ++ [req] := by
  simp only [acknowledged, respond, List.append_assoc]
  simp [acknowledgedOf]

theorem acknowledged_fail (w : Wal) (req : WalRequest) (rest : List (WalRequest × Nat)) :
    (w.fail req rest).acknowledged = w.acknowledged := by
  simp [acknowledged, fail, acknowledgedOf]

theorem acknowledged_finish (w : Wal) : w.finish.acknowledged = w.acknowledged := by
  simp [acknowledged, finish, BatchRecord.start]

theorem start_books (disk : Disk) (offset : Nat) : Books (start disk offset) where
  arrival := rfl
  responders := rfl
  current := rfl
  settled := by simp [start]
  forwarded := rfl
  increasing := List.Pairwise.nil
  bounded := by simp [start, pending, unsent]

theorem send_books {w : Wal} {event : IngestEvent} (hb : Books w) : Books (w.send event) where
  arrival := by
    have harr := hb.arrival
    simp only [send, batched, ← List.append_assoc] at harr ⊢
    rw [harr]
  responders := by simp [send, hb.responders, List.range_succ]
  current := hb.current
  settled := hb.settled
  forwarded := hb.forwarded
  increasing := hb.increasing
  bounded := hb.bounded

theorem frame_books {w : Wal} {req : WalRequest} {rest : List WalRequest}
    {toIndex : List (WalRequest × Nat)} {io : List WriteOutcome}
    (hphase : w.phase = .writing (req :: rest) toIndex) (hb : Books w) :
    Books (w.writeFrame req rest toIndex io) := by
  obtain ⟨harr, hresp, hcur, hset, hfwd, hinc, hbnd⟩ := hb
  simp only [InProgress, batched, pending, unsent, hphase] at harr hcur hfwd hinc hbnd
  obtain ⟨v, ⟨buf, disk, written, rfl⟩, -, ⟨-, heq⟩ | ⟨-, heq⟩⟩ :=
    writeFrame_cases w req rest toIndex io
  · rw [heq]
    have hpos := frameLen_pos req.event
    refine ⟨by simpa [batched] using harr, hresp, by simp [InProgress, hcur], hset, hfwd, ?_, ?_⟩
    · simp only [pending, unsent, List.map_append, List.map_cons, List.map_nil]
      rw [← List.append_assoc, List.pairwise_append]
      refine ⟨by simpa using hinc, by simp, ?_⟩
      intro a ha b hb
      have hle := hbnd a (by simpa using ha)
      simp only [List.mem_singleton] at hb
      omega
    · intro o ho
      simp only [pending, unsent, List.map_append, List.map_cons, List.map_nil] at ho
      rw [← List.append_assoc, List.mem_append] at ho
      rcases ho with ho | ho
      · have hle := hbnd o (by simpa using ho)
        dsimp only
        omega
      · simp only [List.mem_singleton] at ho
        exact Nat.le_of_eq ho
  · rw [heq]
    refine ⟨by simpa [batched] using harr, hresp, ⟨?_, [], ?_, ?_⟩, hset, hfwd, ?_, ?_⟩
    · simp [hcur, BatchRecord.start]
    · simp [hcur, BatchRecord.start]
    · simp [hcur, BatchRecord.start]
    · simpa [pending, unsent] using (List.pairwise_append.mp hinc).1
    · intro o ho
      exact hbnd o (List.mem_append_left _ (by simpa [pending, unsent] using ho))

/-- Moving on without an answer or a send keeps the books, if the requests stay
where they are and no offset is added. -/
theorem Books.move {w t : Wal} (hb : Books w) (hpast : t.past = w.past)
    (harrived : t.arrived = w.arrived) (hsent : t.sent = w.sent)
    (hoffset : t.currentOffset = w.currentOffset)
    (hreq : t.cur.requests ++ t.batched ++ t.queue = w.cur.requests ++ w.batched ++ w.queue)
    (hcur : InProgress t.phase t.cur)
    (hack : acknowledgedOf t.cur.answers = acknowledgedOf w.cur.answers)
    (hpend : t.pending = w.pending) (hunsent : t.unsent.Sublist w.unsent) : Books t := by
  have hsub : ((t.sent ++ t.pending).map IndexerEvent.walOffset ++ t.unsent).Sublist
      ((w.sent ++ w.pending).map IndexerEvent.walOffset ++ w.unsent) := by
    rw [hsent, hpend]
    exact hunsent.append_left _
  refine ⟨?_, ?_, hcur, ?_, ?_, hb.increasing.sublist hsub, ?_⟩
  · have harr := hb.arrival
    rw [List.append_assoc, List.append_assoc] at harr ⊢
    rw [List.append_assoc, List.append_assoc] at hreq
    rw [hpast, harrived, hreq, harr]
  · rw [harrived]
    exact hb.responders
  · rw [hpast]
    exact hb.settled
  · rw [acknowledged, hack, hpast, hsent, hpend]
    exact hb.forwarded
  · intro o ho
    rw [hoffset]
    exact hb.bounded o (hsub.subset ho)

theorem boot_books {w : Wal} {dirOk openOk metadataOk : Bool} (hphase : w.phase = .boot)
    (hb : Books w) : Books (w.boot dirOk openOk metadataOk) := by
  have hcur := hb.current
  simp only [InProgress, hphase] at hcur
  obtain heq | ⟨handle, disk, size, -, -, heq⟩ := boot_cases w dirOk openOk metadataOk <;> rw [heq]
  all_goals
    exact hb.move rfl rfl rfl rfl (by simp [batched, hphase]) hcur rfl (by simp [pending, hphase])
      (by simp [unsent])

theorem flush_books {w : Wal} {toIndex : List (WalRequest × Nat)} {io : FlushOutcome}
    (hphase : w.phase = .writing [] toIndex) (hb : Books w) : Books (w.flush toIndex io) := by
  have hcur := hb.current
  simp only [InProgress, hphase, List.append_nil] at hcur
  cases io with
  | ok =>
    refine hb.move rfl rfl rfl rfl (by simp [flush, flushBuf, push, batched, hphase]) ?_ rfl
      (by simp [flush, flushBuf, pending, hphase]) (by simp [flush, flushBuf, unsent, hphase])
    simp [flush, flushBuf, push, InProgress, hcur, BatchRecord.start]
  | err out =>
    refine hb.move rfl rfl rfl rfl (by simp [flush, flushBuf, push, batched, hphase]) ?_ rfl
      (by simp [flush, flushBuf, pending, hphase]) (by simp [flush, flushBuf, unsent, hphase])
    exact ⟨by simp [flush, flushBuf, push, hcur, BatchRecord.start], [],
      by simp [flush, flushBuf, push, hcur, BatchRecord.start]⟩

theorem sync_books {w : Wal} {toIndex : List (WalRequest × Nat)} {ok : Bool}
    (hphase : w.phase = .syncing toIndex) (hb : Books w) : Books (w.sync toIndex ok) := by
  have hcur := hb.current
  simp only [InProgress, hphase] at hcur
  cases ok with
  | true =>
    refine hb.move rfl rfl rfl rfl (by simp [sync, batched, hphase]) ?_ rfl
      (by simp [sync, pending, hphase]) (by simp [sync, unsent, hphase])
    simp [sync, InProgress, hcur]
  | false =>
    refine hb.move rfl rfl rfl rfl (by simp [sync, batched, hphase]) ?_ rfl
      (by simp [sync, pending, hphase]) (by simp [sync, unsent])
    exact ⟨by simp [sync, hcur], [], by simp [sync, hcur]⟩

theorem rotate_books {w : Wal} {toIndex : List (WalRequest × Nat)} {flush : FlushOutcome}
    {syncOk openOk : Bool} (hphase : w.phase = .rotating toIndex) (hb : Books w) :
    Books (w.rotate toIndex flush syncOk openOk) := by
  obtain ⟨path, disk, handle, buf, size, written, heq⟩ := rotate_eq w toIndex flush syncOk openOk
  have hcur := hb.current
  simp only [InProgress, hphase] at hcur
  rw [heq]
  exact hb.move rfl rfl rfl rfl (by simp [batched, hphase]) ⟨[], by simp [hcur]⟩ rfl
    (by simp [pending, hphase]) (by simp [unsent, hphase])

theorem respond_books {w : Wal} {req : WalRequest} {offset : Nat} {rest : List (WalRequest × Nat)}
    (hphase : w.phase = .responding ((req, offset) :: rest)) (hb : Books w) :
    Books (w.respond req offset rest) := by
  obtain ⟨harr, hresp, hcur, hset, hfwd, hinc, hbnd⟩ := hb
  simp only [InProgress, batched, pending, unsent, hphase] at harr hcur hfwd hinc hbnd
  obtain ⟨done, hcur⟩ := hcur
  refine ⟨by simpa [batched, respond] using harr, hresp, ⟨done, req, rfl, ?_⟩, hset, ?_, ?_, ?_⟩
  · simp [respond, hcur]
  · rw [acknowledged_respond]
    simpa [pending, respond] using hfwd
  · simpa [pending, unsent, respond] using hinc
  · simpa [pending, unsent, respond] using hbnd

theorem forward_books {w : Wal} {event : IndexerEvent} {rest : List (WalRequest × Nat)}
    (hphase : w.phase = .forwarding event rest) (hb : Books w) : Books (w.forward event rest) := by
  obtain ⟨harr, hresp, hcur, hset, hfwd, hinc, hbnd⟩ := hb
  simp only [InProgress, batched, pending, unsent, hphase] at harr hcur hfwd hinc hbnd
  obtain ⟨done, req, -, hcur⟩ := hcur
  refine ⟨by simpa [batched, forward] using harr, hresp, ⟨done ++ [req], ?_⟩, hset, ?_, ?_, ?_⟩
  · simp [forward, hcur]
  · simpa [pending, forward, acknowledged] using hfwd
  · simpa [pending, unsent, forward] using hinc
  · simpa [pending, unsent, forward] using hbnd

theorem fail_books {w : Wal} {req : WalRequest} {offset : Nat} {rest : List (WalRequest × Nat)}
    (hphase : w.phase = .failing ((req, offset) :: rest)) (hb : Books w) :
    Books (w.fail req rest) := by
  have hcur := hb.current
  simp only [InProgress, hphase] at hcur
  obtain ⟨hsync, done, hreq, hans⟩ := hcur
  refine hb.move rfl rfl rfl rfl (by simp [fail, batched, hphase]) ⟨hsync, done ++ [req], ?_⟩ ?_
    (by simp [fail, pending, hphase]) (by simp [fail, unsent])
  · simp [fail, hreq, hans]
  · simp [fail, hans, acknowledgedOf]

theorem finish_books {w : Wal} (hphase : w.phase = .responding [] ∨ w.phase = .failing [])
    (hb : Books w) : Books w.finish := by
  obtain ⟨harr, hresp, hcur, hset, hfwd, hinc, hbnd⟩ := hb
  have hsettled : Settled w.cur := by
    rcases hphase with hphase | hphase <;> simp only [InProgress, hphase] at hcur
    · obtain ⟨done, hcur⟩ := hcur
      exact Or.inl (by simp [hcur])
    · obtain ⟨hsync, done, hreq, hans⟩ := hcur
      exact Or.inr ⟨hsync, done, by simpa using hreq, hans⟩
  have hplace : w.batched = [] ∧ w.pending = [] ∧ w.unsent = [] := by
    rcases hphase with hphase | hphase <;> simp [batched, pending, unsent, hphase]
  obtain ⟨hbat, hpend, huns⟩ := hplace
  rw [hbat] at harr
  rw [hpend] at hfwd hinc hbnd
  rw [huns] at hinc hbnd
  refine ⟨by simpa [batched, finish, BatchRecord.start] using harr, hresp, rfl, ?_, ?_, ?_, ?_⟩
  · intro r hr
    rcases List.mem_append.mp hr with hr | hr
    · exact hset r hr
    · rw [List.mem_singleton.mp hr]
      exact hsettled
  · rw [acknowledged_finish]
    simpa [pending, finish] using hfwd
  · simpa [pending, unsent, finish] using hinc
  · simpa [pending, unsent, finish] using hbnd

theorem step_books {w t : Wal} {l : Label} (h : Step w l t) (hb : Books w) : Books t := by
  cases h with
  | send => exact send_books hb
  | boot hphase => exact boot_books hphase hb
  | recv hphase hnext =>
    have hcur := hb.current
    simp only [InProgress, hphase] at hcur
    exact hb.move rfl rfl rfl rfl (by simp [batched, hphase, hnext]) hcur rfl
      (by simp [pending, hphase]) (by simp [unsent])
  | tryRecv hphase hnext =>
    have hcur := hb.current
    simp only [InProgress, hphase] at hcur
    exact hb.move rfl rfl rfl rfl (by simp [batched, hphase, hnext]) hcur rfl
      (by simp [pending, hphase]) (by simp [unsent])
  | closeBatch hphase =>
    have hcur := hb.current
    simp only [InProgress, hphase] at hcur
    exact hb.move rfl rfl rfl rfl (by simp [closeBatch, batched, hphase, hcur, BatchRecord.start])
      (by simp [closeBatch, InProgress]) (by rw [hcur]; rfl) (by simp [closeBatch, pending, hphase])
      (by simp [closeBatch, unsent])
  | frame hphase => exact frame_books hphase hb
  | flush hphase => exact flush_books hphase hb
  | sync hphase => exact sync_books hphase hb
  | rotate hphase => exact rotate_books hphase hb
  | respond hphase => exact respond_books hphase hb
  | forward hphase => exact forward_books hphase hb
  | fail hphase => exact fail_books hphase hb
  | finishOk hphase => exact finish_books (Or.inl hphase) hb
  | finishFailed hphase => exact finish_books (Or.inr hphase) hb
  | @shutdown io hphase =>
    have hcur := hb.current
    simp only [InProgress, hphase] at hcur
    obtain ⟨buf, disk, written, heq⟩ := sameBooks_flushBuf w io
    rw [shutdown, heq]
    exact hb.move rfl rfl rfl rfl (by simp [batched, hphase]) hcur rfl (by simp [pending, hphase])
      (by simp [unsent])

theorem run_books {disk : Disk} {offset : Nat} {ls : List Label} {w : Wal}
    (h : Machine.run step (start disk offset) ls = some w) : Books w :=
  Machine.run_invariant (start_books disk offset)
    (fun _ _ _ hstep hb => step_books (step_cases hstep) hb) h

/-! ## The protocol -/

/-- The requests that got an answer, in the order of the answers. -/
def answered (w : Wal) : List WalRequest :=
  w.past.flatMap (fun r => r.answers.map Prod.fst) ++ w.cur.answers.map Prod.fst

/-- What the senders and the indexer may rely on. -/
structure Protocol (w : Wal) : Prop where
  /-- Batches partition what arrived, in order; the rest waits in the channel. -/
  batches : w.past.flatMap BatchRecord.requests ++ w.cur.requests ++ w.batched ++ w.queue = w.arrived
  distinct : w.arrived.Nodup
  oneAnswer : w.answered.Nodup
  /-- In a finished batch the first requests were answered and the responders of
  all others dropped. -/
  settled : ∀ r ∈ w.past, r.requests = r.answers.map Prod.fst ++ r.dropped
  durable : ∀ r ∈ w.past ++ [w.cur], (∃ req, (req, .ok ()) ∈ r.answers) →
    r.flushed = true ∧ r.synced = true
  wholeBatch : ∀ r ∈ w.past, (∃ req, (req, .ok ()) ∈ r.answers) →
    r.answers = r.requests.map (·, .ok ())
  /-- The events sent are those answered Ok, but for one whose send is under way. -/
  forwarded : w.acknowledged.map WalRequest.event = (w.sent ++ w.pending).map IndexerEvent.event
  inOrder : w.acknowledged.Sublist w.arrived
  increasing : (w.sent.map IndexerEvent.walOffset).Pairwise (· < ·)

theorem sublist_flatMap {α β : Type} {f g : α → List β} {l : List α}
    (h : ∀ a ∈ l, (f a).Sublist (g a)) : (l.flatMap f).Sublist (l.flatMap g) := by
  induction l with
  | nil => exact List.Sublist.refl _
  | cons a l ih =>
    simp only [List.flatMap_cons]
    exact (h a List.mem_cons_self).append (ih fun b hb => h b (List.mem_cons_of_mem a hb))

theorem acknowledgedOf_sublist (answers : List (WalRequest × Answer)) :
    (acknowledgedOf answers).Sublist (answers.map Prod.fst) := by
  induction answers with
  | nil => exact List.Sublist.refl _
  | cons a answers ih =>
    obtain ⟨req, _ | _⟩ := a
    · exact ih.trans (List.sublist_cons_self _ _)
    · exact ih.cons_cons req

theorem Settled.requests_eq {r : BatchRecord} (h : Settled r) :
    r.requests = r.answers.map Prod.fst ++ r.dropped := by
  rcases h with ⟨-, -, hans, hdrop⟩ | ⟨-, done, hreq, hans⟩
  · simp [hans, hdrop, Function.comp_def]
  · simp [hreq, hans, Function.comp_def]

/-- No answer is given before its request is in the batch at hand. -/
theorem InProgress.answers_sublist {phase : Phase} {r : BatchRecord} (h : InProgress phase r) :
    (r.answers.map Prod.fst).Sublist r.requests := by
  cases phase <;> simp only [InProgress] at h
  case responding =>
    obtain ⟨done, rfl⟩ := h
    simp [Function.comp_def]
  case forwarding =>
    obtain ⟨done, req, -, rfl⟩ := h
    simp [Function.comp_def]
  case failing =>
    obtain ⟨-, done, hreq, hans⟩ := h
    simp [hreq, hans, Function.comp_def]
  all_goals simp [h, BatchRecord.start]

theorem InProgress.durable {phase : Phase} {r : BatchRecord} (h : InProgress phase r)
    {req : WalRequest} (hok : (req, .ok ()) ∈ r.answers) : r.flushed = true ∧ r.synced = true := by
  cases phase <;> simp only [InProgress] at h
  case responding =>
    obtain ⟨done, rfl⟩ := h
    exact ⟨rfl, rfl⟩
  case forwarding =>
    obtain ⟨done, req, -, rfl⟩ := h
    exact ⟨rfl, rfl⟩
  case failing =>
    obtain ⟨-, done, -, hans⟩ := h
    simp [hans] at hok
  all_goals simp [h, BatchRecord.start] at hok

theorem Settled.whole {r : BatchRecord} (h : Settled r) {req : WalRequest}
    (hok : (req, .ok ()) ∈ r.answers) :
    r.flushed = true ∧ r.synced = true ∧ r.answers = r.requests.map (·, .ok ()) := by
  rcases h with ⟨hflush, hsync, hans, -⟩ | ⟨-, done, -, hans⟩
  · exact ⟨hflush, hsync, hans⟩
  · simp [hans] at hok

theorem Books.answered_sublist {w : Wal} (hb : Books w) : w.answered.Sublist w.arrived := by
  have hpast : (w.past.flatMap fun r => r.answers.map Prod.fst).Sublist
      (w.past.flatMap BatchRecord.requests) := by
    apply sublist_flatMap
    intro r hr
    rw [(hb.settled r hr).requests_eq]
    exact List.sublist_append_left _ _
  rw [← hb.arrival, List.append_assoc]
  exact (hpast.append hb.current.answers_sublist).trans (List.sublist_append_left _ _)

theorem Books.acknowledged_sublist {w : Wal} (hb : Books w) :
    w.acknowledged.Sublist w.arrived := by
  refine List.Sublist.trans ?_ hb.answered_sublist
  exact (sublist_flatMap fun r _ => acknowledgedOf_sublist r.answers).append
    (acknowledgedOf_sublist w.cur.answers)

theorem Books.nodup {w : Wal} (hb : Books w) : w.arrived.Nodup := by
  apply List.Nodup.of_map WalRequest.responder
  rw [hb.responders]
  exact List.nodup_range

/-- **The acknowledge and forward protocol.** After every run of an appender, on
any directory and from any offset, its books satisfy the protocol. -/
theorem acknowledge_forward {disk : Disk} {offset : Nat} {ls : List Label} {w : Wal}
    (h : Machine.run step (start disk offset) ls = some w) : Protocol w := by
  have hb := run_books h
  refine ⟨hb.arrival, hb.nodup, hb.nodup.sublist hb.answered_sublist, ?_, ?_, ?_, hb.forwarded,
    hb.acknowledged_sublist, ?_⟩
  · exact fun r hr => (hb.settled r hr).requests_eq
  · rintro r hr ⟨req, hok⟩
    rcases List.mem_append.mp hr with hr | hr
    · obtain ⟨hflush, hsync, -⟩ := (hb.settled r hr).whole hok
      exact ⟨hflush, hsync⟩
    · rw [List.mem_singleton.mp hr] at hok ⊢
      exact hb.current.durable hok
  · rintro r hr ⟨req, hok⟩
    exact ((hb.settled r hr).whole hok).2.2
  · have hinc := hb.increasing
    rw [List.map_append, List.append_assoc] at hinc
    exact (List.pairwise_append.mp hinc).1

/-- A batch that fails in its second frame, then a batch that is acknowledged. -/
theorem acknowledge_forward_example : ∃ w, Machine.run step (start .empty 0)
    [.boot true true true, .send ⟨"a", [1]⟩, .send ⟨"b", []⟩, .recv, .tryRecv, .closeBatch,
      .frame [], .frame [.ok 0, .err 0 3], .fail, .finish, .send ⟨"c", [2]⟩, .recv, .closeBatch,
      .frame [], .flush .ok, .sync true, .rotate .ok true true, .respond, .forward,
      .finish] = some w ∧ w.sent.map IndexerEvent.walOffset = [24] ∧ Protocol w := by
  have hrun : (Machine.run step (start .empty 0)
      [.boot true true true, .send ⟨"a", [1]⟩, .send ⟨"b", []⟩, .recv, .tryRecv, .closeBatch,
        .frame [], .frame [.ok 0, .err 0 3], .fail, .finish, .send ⟨"c", [2]⟩, .recv, .closeBatch,
        .frame [], .flush .ok, .sync true, .rotate .ok true true, .respond, .forward,
        .finish]).map (fun w => w.sent.map IndexerEvent.walOffset) = some [24] := by
    decide +kernel
  obtain ⟨w, hw, hsent⟩ := Option.map_eq_some_iff.mp hrun
  exact ⟨w, hw, hsent, acknowledge_forward hw⟩

/-! ## The size of a batch -/

/-- The requests of the batch at hand. -/
def held (w : Wal) : Nat := w.batched.length + w.cur.requests.length

/-- A batch takes up to `maxBatch` requests. -/
theorem step_held {w t : Wal} {l : Label} (h : Step w l t) (hb : Books w)
    (hheld : w.held ≤ maxBatch) : t.held ≤ maxBatch := by
  have hcur := hb.current
  cases h with
  | send => exact hheld
  | @boot dirOk openOk metadataOk hphase =>
    simp only [held, batched, hphase, InProgress] at hheld hcur
    obtain heq | ⟨handle, disk, size, -, -, heq⟩ := boot_cases w dirOk openOk metadataOk <;>
      simp [heq, held, batched, hcur, BatchRecord.start]
  | recv hphase hnext =>
    simp only [InProgress, hphase] at hcur
    simp [held, batched, hcur, BatchRecord.start, maxBatch]
  | tryRecv hphase hnext hroom =>
    simp only [InProgress, hphase] at hcur
    simp only [held, batched, hcur, BatchRecord.start, List.length_append, List.length_singleton,
      List.length_nil]
    omega
  | closeBatch hphase =>
    simp only [held, batched, hphase, closeBatch, BatchRecord.start, List.length_nil] at hheld ⊢
    omega
  | @frame req rest toIndex io hphase =>
    simp only [held, batched, hphase] at hheld
    obtain ⟨v, ⟨buf, disk, written, rfl⟩, -, ⟨-, heq⟩ | ⟨-, heq⟩⟩ :=
      writeFrame_cases w req rest toIndex io <;> simpa [heq, held, batched] using hheld
  | @flush toIndex io hphase =>
    simp only [held, batched, hphase] at hheld
    cases io <;> simpa [Wal.flush, flushBuf, push, held, batched] using hheld
  | @sync toIndex ok hphase =>
    simp only [held, batched, hphase] at hheld
    cases ok <;> simpa [sync, held, batched] using hheld
  | @rotate toIndex flush syncOk openOk hphase =>
    simp only [held, batched, hphase] at hheld
    obtain ⟨path, disk, handle, buf, size, written, heq⟩ := rotate_eq w toIndex flush syncOk openOk
    simpa [heq, held, batched] using hheld
  | respond hphase =>
    simp only [held, batched, hphase] at hheld
    simpa [respond, held, batched] using hheld
  | forward hphase =>
    simp only [held, batched, hphase] at hheld
    simpa [forward, held, batched] using hheld
  | fail hphase =>
    simp only [held, batched, hphase] at hheld
    simpa [fail, held, batched] using hheld
  | finishOk => simp [finish, held, batched, BatchRecord.start]
  | finishFailed => simp [finish, held, batched, BatchRecord.start]
  | @shutdown io hphase =>
    simp only [held, batched, hphase] at hheld
    cases io <;> simpa [shutdown, flushBuf, push, held, batched] using hheld

theorem run_held {disk : Disk} {offset : Nat} {ls : List Label} {w : Wal}
    (h : Machine.run step (start disk offset) ls = some w) : w.held ≤ maxBatch := by
  have hboth : Books w ∧ w.held ≤ maxBatch := by
    refine Machine.run_invariant (I := fun u => Books u ∧ u.held ≤ maxBatch) ?_ ?_ h
    · exact ⟨start_books disk offset, by simp [start, held, batched, BatchRecord.start]⟩
    · rintro u l v hstep ⟨hb, hu⟩
      exact ⟨step_books (step_cases hstep) hb, step_held (step_cases hstep) hb hu⟩
  exact hboth.2

end Edgewit.Wal
