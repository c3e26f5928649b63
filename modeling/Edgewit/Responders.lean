import Edgewit.Ingest
import Edgewit.Channels

/-!
# What a sender gets

A sender waits for its request to be dealt with: answered, or left without a responder. Once
that has happened it stays so, and it happens to every request.
-/

namespace Edgewit.Wal

def answers (w : Wal) : List (WalRequest × Answer) :=
  (w.past ++ [w.cur]).flatMap BatchRecord.answers

def dropped (w : Wal) : List WalRequest := (w.past ++ [w.cur]).flatMap BatchRecord.dropped

/-- What the responder of a request has got so far. An appender that stops drops the requests
in its channel. -/
def responded (w : Wal) (req : WalRequest) : Option Received :=
  (w.received req).or (if w.phase = .stopped ∧ req ∈ w.queue then some .dropped else none)

/-- The same as a relation. -/
def Dealt (w : Wal) (req : WalRequest) : Received → Prop
  | .answer a => (req, a) ∈ w.answers
  | .dropped => req ∈ w.dropped ∨ w.phase = .stopped ∧ req ∈ w.queue

/-! ## One fate for each request -/

theorem InProgress.dealt_sublist {phase : Phase} {r : BatchRecord} (h : InProgress phase r) :
    (r.answers.map Prod.fst ++ r.dropped).Sublist r.requests := by
  cases phase <;> simp only [InProgress] at h
  case responding =>
    obtain ⟨done, rfl⟩ := h
    simp [Function.comp_def]
  case forwarding =>
    obtain ⟨done, req, -, rfl⟩ := h
    simp [Function.comp_def]
  case failing toIndex =>
    obtain ⟨-, done, hreq, hans⟩ := h
    have hanswered : r.answers.map Prod.fst = done := by simp [hans, Function.comp_def]
    rw [hreq, hanswered]
    exact (List.sublist_append_left _ _).append (List.Sublist.refl _)
  all_goals simp [h, BatchRecord.start]

theorem Books.dealt_once {w : Wal} (hb : Books w) :
    (w.answers.map Prod.fst ++ w.dropped ++ w.queue).Nodup := by
  have hbatch : ((w.past ++ [w.cur]).flatMap fun r => r.answers.map Prod.fst ++ r.dropped).Sublist
      ((w.past ++ [w.cur]).flatMap BatchRecord.requests) := by
    apply sublist_flatMap
    intro r hr
    rcases List.mem_append.mp hr with hpast | hcur
    · rw [(hb.settled r hpast).requests_eq]
    · rw [List.mem_singleton.mp hcur]
      exact hb.current.dealt_sublist
  have harrived : ((w.past ++ [w.cur]).flatMap BatchRecord.requests ++ w.queue).Sublist w.arrived := by
    rw [← hb.arrival, List.flatMap_append, List.flatMap_singleton]
    exact (List.sublist_append_left _ _).append (List.Sublist.refl _)
  have hnodup := hb.nodup.sublist ((hbatch.append (List.Sublist.refl w.queue)).trans harrived)
  have hperm := List.flatMap_append_perm (w.past ++ [w.cur])
    (fun r : BatchRecord => r.answers.map Prod.fst) BatchRecord.dropped
  rw [← (hperm.append_right w.queue).nodup_iff] at hnodup
  rw [answers, List.map_flatMap]
  exact hnodup

theorem lookup_eq_some_of_nodup {l : List (WalRequest × Answer)} {req : WalRequest} {a : Answer}
    (h : (l.map Prod.fst).Nodup) : l.lookup req = some a ↔ (req, a) ∈ l := by
  constructor
  · intro hlookup
    obtain ⟨before, after, rfl, -⟩ := List.lookup_eq_some_iff.mp hlookup
    simp
  · intro hmem
    obtain ⟨before, after, rfl⟩ := List.append_of_mem hmem
    apply List.lookup_eq_some_iff.mpr
    refine ⟨before, after, rfl, ?_⟩
    intro p hp
    rw [List.map_append, List.nodup_append] at h
    have hne := h.2.2 p.1 (List.mem_map_of_mem hp) req (by simp)
    simpa using hne.symm

/-- A sender has got exactly what was done with its request. -/
theorem Books.responded_eq_some {w : Wal} (hb : Books w) {req : WalRequest} {r : Received} :
    w.responded req = some r ↔ Dealt w req r := by
  obtain ⟨hdealt, -, hqueue⟩ := List.nodup_append.mp hb.dealt_once
  obtain ⟨hanswers, -, hdropped⟩ := List.nodup_append.mp hdealt
  cases hlookup : w.answers.lookup req with
  | some a =>
    have hmem := (lookup_eq_some_of_nodup hanswers).mp hlookup
    have hkey : req ∈ w.answers.map Prod.fst := List.mem_map_of_mem hmem
    have hreceived : w.received req = some (.answer a) := by
      simp only [answers] at hlookup
      simp only [received, hlookup]
    rw [responded, hreceived, Option.some_or]
    cases r with
    | answer b =>
      simp only [Dealt, ← lookup_eq_some_of_nodup hanswers, hlookup, Option.some.injEq,
        Received.answer.injEq]
    | dropped =>
      have hkept : req ∉ w.dropped := fun h => hdropped req hkey req h rfl
      have htaken : req ∉ w.queue := fun h => hqueue req (List.mem_append_left _ hkey) req h rfl
      simp [Dealt, hkept, htaken]
  | none =>
    have hreceived : w.received req = if req ∈ w.dropped then some .dropped else none := by
      simp only [answers] at hlookup
      simp only [received, hlookup]
      rfl
    rw [responded, hreceived]
    cases r with
    | answer b =>
      simp only [Dealt, ← lookup_eq_some_of_nodup hanswers, hlookup]
      split <;> simp
    | dropped =>
      by_cases hlost : req ∈ w.dropped <;> simp [Dealt, hlost]

/-- A sender is told Ok exactly when its request is acknowledged. -/
theorem dealt_ok_iff {w : Wal} {req : WalRequest} :
    Dealt w req (.answer (.ok ())) ↔ req ∈ w.acknowledged := by
  constructor
  · intro h
    have hof : ∀ answers : List (WalRequest × Answer), (req, .ok ()) ∈ answers →
        req ∈ acknowledgedOf answers := by
      intro answers hmem
      exact List.mem_filterMap.mpr ⟨(req, .ok ()), hmem, rfl⟩
    obtain ⟨r, hr, hmem⟩ := List.mem_flatMap.mp h
    rcases List.mem_append.mp hr with hpast | hcur
    · exact List.mem_append_left _ (List.mem_flatMap.mpr ⟨r, hpast, hof _ hmem⟩)
    · rw [List.mem_singleton.mp hcur] at hmem
      exact List.mem_append_right _ (hof _ hmem)
  · exact mem_answers_of_acknowledged

/-! ## Once and for all -/

/-- A step adds to the answers and to what is dropped. -/
theorem step_deals {w t : Wal} {l : Label} (h : Step w l t) (hb : Books w) :
    w.answers <+: t.answers ∧ w.dropped <+: t.dropped := by
  have hcur := hb.current
  have hbatch : ∀ {u : Wal}, u.past = w.past → w.cur.answers <+: u.cur.answers →
      w.cur.dropped <+: u.cur.dropped → w.answers <+: u.answers ∧ w.dropped <+: u.dropped := by
    intro u hpast hanswers hdropped
    simp only [answers, dropped, List.flatMap_append, List.flatMap_singleton, hpast]
    exact ⟨(List.prefix_append_right_inj _).mpr hanswers,
      (List.prefix_append_right_inj _).mpr hdropped⟩
  have hfinish : w.answers <+: w.finish.answers ∧ w.dropped <+: w.finish.dropped := by
    simp [answers, dropped, finish, BatchRecord.start]
  cases h with
  | @boot dirOk openOk metadataOk =>
    obtain heq | ⟨handle, disk, size, -, -, heq⟩ := boot_cases w dirOk openOk metadataOk <;> rw [heq]
    · exact hbatch rfl List.prefix_rfl List.prefix_rfl
    · exact hbatch rfl List.prefix_rfl List.prefix_rfl
  | @closeBatch batch hphase =>
    simp only [InProgress, hphase] at hcur
    exact hbatch rfl (by simp [hcur, BatchRecord.start]) (by simp [hcur, BatchRecord.start])
  | @frame req rest toIndex io hphase =>
    simp only [InProgress, hphase] at hcur
    obtain ⟨v, ⟨buf, disk, written, rfl⟩, -, ⟨-, heq⟩ | ⟨-, heq⟩⟩ :=
      writeFrame_cases w req rest toIndex io <;> rw [heq]
    · exact hbatch rfl List.prefix_rfl List.prefix_rfl
    · exact hbatch rfl List.prefix_rfl (by simp [hcur, BatchRecord.start])
  | @flush toIndex io => cases io <;> exact hbatch rfl List.prefix_rfl List.prefix_rfl
  | @sync toIndex ok => cases ok <;> exact hbatch rfl List.prefix_rfl List.prefix_rfl
  | @rotate toIndex flush syncOk openOk =>
    obtain ⟨path, disk, handle, buf, size, written, heq⟩ := rotate_eq w toIndex flush syncOk openOk
    rw [heq]
    exact hbatch rfl List.prefix_rfl List.prefix_rfl
  | respond => exact hbatch rfl (List.prefix_append _ _) List.prefix_rfl
  | fail => exact hbatch rfl (List.prefix_append _ _) List.prefix_rfl
  | finishOk => exact hfinish
  | finishFailed => exact hfinish
  | @shutdown io =>
    obtain ⟨buf, disk, written, heq⟩ := sameBooks_flushBuf w io
    rw [shutdown, heq]
    exact hbatch rfl List.prefix_rfl List.prefix_rfl
  | _ => exact hbatch rfl List.prefix_rfl List.prefix_rfl

theorem step_running {w t : Wal} {l : Label} (h : Step w l t) : w.phase ≠ .stopped := by
  cases h with
  | send alive => exact alive
  | _ => simp [*]

/-- What a sender has got stays. -/
theorem step_responded {w t : Wal} {l : Label} (h : Step w l t) (hb : Books w) {req : WalRequest}
    {r : Received} (hr : w.responded req = some r) : t.responded req = some r := by
  have hbooks := step_books h hb
  obtain ⟨hanswers, hdropped⟩ := step_deals h hb
  rw [hbooks.responded_eq_some]
  cases r with
  | answer a => exact hanswers.subset (hb.responded_eq_some.mp hr)
  | dropped =>
    rcases hb.responded_eq_some.mp hr with hlost | ⟨hstopped, -⟩
    · exact Or.inl (hdropped.subset hlost)
    · exact absurd hstopped (step_running h)

/-- At rest every request that arrived has been dealt with. -/
theorem Books.all_responded {w : Wal} (hb : Books w)
    (hrest : w.phase = .stopped ∨ w.phase = .waiting ∧ w.queue = []) {req : WalRequest}
    (hreq : req ∈ w.arrived) : ∃ r, w.responded req = some r := by
  have hplace : w.cur = .start [] ∧ w.batched = [] := by
    have hcur := hb.current
    rcases hrest with hphase | ⟨hphase, -⟩ <;> simp only [InProgress, hphase] at hcur <;>
      exact ⟨hcur, by simp [batched, hphase]⟩
  obtain ⟨hcur, hbatched⟩ := hplace
  rw [← hb.arrival, hcur, hbatched, BatchRecord.start, List.append_nil, List.append_nil,
    List.mem_append] at hreq
  simp only [hb.responded_eq_some]
  rcases hreq with hpast | hqueue
  · obtain ⟨r, hr, hmem⟩ := List.mem_flatMap.mp hpast
    have hin : r ∈ w.past ++ [w.cur] := List.mem_append_left _ hr
    rw [(hb.settled r hr).requests_eq] at hmem
    rcases List.mem_append.mp hmem with hanswered | hlost
    · obtain ⟨⟨req', a⟩, ha, rfl⟩ := List.mem_map.mp hanswered
      exact ⟨.answer a, List.mem_flatMap.mpr ⟨r, hin, ha⟩⟩
    · exact ⟨.dropped, Or.inl (List.mem_flatMap.mpr ⟨r, hin, hlost⟩)⟩
  · rcases hrest with hstopped | ⟨-, hempty⟩
    · exact ⟨.dropped, Or.inr ⟨hstopped, hqueue⟩⟩
    · rw [hempty] at hqueue
      cases hqueue

end Edgewit.Wal
