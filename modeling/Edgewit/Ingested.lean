import Edgewit.Clients

/-!
# From the call to the index

Without failures, whatever order calls and workers take turns in: every call is answered with Ok
for each of its documents, and after the next commit each index holds the documents of the calls,
each one's in its order and each once.
-/

namespace Edgewit
open Interleavings

/-! ## Nothing is lost on the way to the disk -/

namespace Wal

/-- At rest an appender that has not failed has acknowledged every request. -/
theorem Flawless.acknowledged_all {w : Wal} (h : Flawless w) (hphase : w.phase = .waiting)
    (hqueue : w.queue = []) : w.acknowledged = w.arrived := by
  have hcur : w.cur = .start [] := by
    have hbatch := h.books.current
    simpa only [InProgress, hphase] using hbatch
  have hpast : w.past.flatMap (fun r => acknowledgedOf r.answers) =
      w.past.flatMap BatchRecord.requests := by
    apply List.flatMap_congr
    intro r hr
    rw [h.past_answers hr, acknowledgedOf_ok]
  rw [acknowledged, hpast, ← h.books.arrival, hcur, hqueue]
  simp [BatchRecord.start, batched, hphase]

end Wal

/-- A step of the workers with which nothing fails, and no purge is asked for. -/
def SystemLabel.Flawless : SystemLabel → Prop
  | .wal l => Wal.Clean l
  | .indexer l => l.Clean ∧ ∀ cmd, l ≠ .schedule cmd

namespace Clients

variable {c : IndexerConfig} {buffer : Nat} {disk : Disk} {offset : Nat} {registry : IndexRegistry}
  {store : Table String IndexDir} {s t : Clients} {ls ls' : List ClientLabel}

/-! ## The workers on their own -/

/-- The workers of a run run on their own, with the requests of the handlers. -/
theorem run_workers (h : Machine.run (step c buffer) s ls = some t) :
    ∃ ls', Machine.run (System.channelStep c buffer) s.system ls' = some t.system ∧
      ∀ l ∈ ls', (∃ event, l = .wal (.send event)) ∨ .system l ∈ ls := by
  have hstep : ∀ u l v, True → l ∈ ls → step c buffer u l = some v → True ∧
      ∃ ls', Machine.run (System.channelStep c buffer) u.system ls' = some v.system ∧
        ∀ l' ∈ ls', (∃ event, l' = .wal (.send event)) ∨ l = .system l' := by
    intro u l v _ _ hstep
    refine ⟨trivial, ?_⟩
    cases step_cases hstep with
    | call => exact ⟨[], rfl, by simp⟩
    | handler found running acts =>
      rcases acts.requests with ⟨-, rfl⟩ | ⟨event, moves, -⟩
      · exact ⟨[], rfl, by simp⟩
      · exact ⟨[.wal (.send event)], Machine.run_cons.mpr ⟨_, moves, rfl⟩, by simp⟩
    | @system l _ own moves => exact ⟨[l], Machine.run_cons.mpr ⟨_, moves, rfl⟩, by simp⟩
  obtain ⟨ls', hrun, hlabels⟩ := Machine.run_simulates trivial hstep h
  refine ⟨ls', hrun, ?_⟩
  intro l hl
  obtain ⟨k, hk, hsend | rfl⟩ := hlabels l hl
  · exact Or.inl hsend
  · exact Or.inr hk

/-- No handler is at work, and the appender waits for requests. -/
structure Quiet (s t : Clients) : Prop where
  handlers : t.handlers = s.handlers
  wal : t.system.wal = s.system.wal

/-- Once the workers are at rest and the handlers have come to their end, a tick is handled by
the indexer alone. -/
theorem run_quiet (hrest : s.system.AtRest) (hended : ∀ h ∈ s.handlers, h.phase ≠ .running)
    (hown : ∀ l ∈ ls', l.brings c.toExternals = 0)
    (hrun : Machine.run (step c buffer) s (.system (.indexer .tick) :: ls') = some t) :
    Quiet s t ∧ ∃ ls, (∀ l ∈ ls, l.brings = 0 ∧ .system l ∈ ls') ∧
      Machine.run (System.channelStep c buffer) s.system (.indexer .tick :: ls) = some t.system := by
  obtain ⟨u, htick, hrun'⟩ := Machine.run_cons.mp hrun
  cases step_cases htick with
  | @system l system own moves =>
    have hwal : system.wal = s.system.wal := by
      rcases System.channelStep_wal moves with hsame | ⟨l', heq, -⟩
      · exact hsame
      · cases heq
    have hstep : ∀ u l v, Quiet s u → l ∈ ls' → step c buffer u l = some v → Quiet s v ∧
        ∃ ls, Machine.run (System.channelStep c buffer) u.system ls = some v.system ∧
          ∀ l' ∈ ls, l = .system l' := by
      intro u l v hquiet hl hstep
      have hzero := hown l hl
      cases step_cases hstep with
      | call => simp [ClientLabel.brings] at hzero
      | handler found running acts =>
        rw [hquiet.handlers] at found
        exact absurd running (hended _ (List.mem_of_getElem? found))
      | @system l v own moves =>
        refine ⟨⟨hquiet.handlers, ?_⟩, [l], Machine.run_cons.mpr ⟨v, moves, rfl⟩, by simp⟩
        cases System.step_cases (System.channelStep_eq_some.mp moves).2 with
        | wal hmoves =>
          rw [hquiet.wal, System.wal_rests hrest.wal hzero] at hmoves
          cases hmoves
        | indexer => exact hquiet.wal
    have hquiet : Quiet s ⟨system, s.handlers⟩ := ⟨rfl, hwal⟩
    obtain ⟨lw, hworkers, hlabels⟩ := Machine.run_simulates hquiet hstep hrun'
    refine ⟨?_, lw, ?_, Machine.run_cons.mpr ⟨system, moves, hworkers⟩⟩
    · exact Machine.run_guarded (G := fun _ l => l ∈ ls') hquiet
        (fun u l v hl hstep' hq => (hstep u l v hq hl hstep').1)
        (Machine.along_of_labels fun _ hl => hl) hrun'
    · intro l hl
      obtain ⟨_, hmem, rfl⟩ := hlabels l hl
      exact ⟨hown _ hmem, hmem⟩

/-! ## From the call to the index -/

/-- The appender of a run in which nothing fails. -/
theorem run_flawless (hflawless : ∀ l, .system l ∈ ls → l.Flawless)
    (h : Machine.run (step c buffer) (start disk offset registry store) ls = some t) :
    Wal.Flawless t.system.wal := by
  obtain ⟨lw, hworkers, hlabels⟩ := run_workers h
  obtain ⟨la, hwal, hmem⟩ : ∃ la, Machine.run Wal.step (Wal.start disk offset) la =
      some t.system.wal ∧ ∀ l ∈ la, SystemLabel.wal l ∈ lw :=
    System.run_wal (System.run_of_channels hworkers)
  have hclean : ∀ l ∈ la, Wal.Clean l := by
    intro l hl
    obtain ⟨event, heq⟩ | hin := hlabels _ (hmem l hl)
    · cases heq
      trivial
    · exact hflawless _ hin
  exact Machine.run_guarded (G := fun _ l => Wal.Clean l) (Wal.start_flawless disk offset)
    (fun _ _ _ hl hstep hu => Wal.step_flawless (Wal.step_cases hstep) hl hu)
    (Machine.along_of_labels hclean) hwal

/-- Where every request is acknowledged, each call is answered with Ok throughout. -/
theorem answered_ok {x : Externals} (hs : Sound x s) (halive : s.system.wal.phase ≠ .stopped)
    (hall : s.system.wal.acknowledged = s.system.wal.arrived) {h : Handler} (hh : h ∈ s.handlers)
    (hended : h.phase ≠ .running) (hkept : h.phase ≠ .cancelled) :
    h.requests.map WalRequest.event = h.call.events x ∧ h.phase = .answered
      (h.call.response x (some (List.replicate (h.call.events x).length (.answer (.ok ()))))) := by
  have hsound := hs.handlers h hh
  cases hphase : h.phase with
  | running => exact absurd hphase hended
  | cancelled => exact absurd hphase hkept
  | answered response =>
    rcases hsound.answered response hphase with ⟨-, hstopped, -⟩ | ⟨hsent, hreceivers, heq⟩
    · exact absurd hstopped halive
    have hrequests : h.requests = h.received.map Prod.fst := by
      rw [Handler.requests, hreceivers, List.append_nil]
    have hevents := hsound.events
    rw [hsent, List.append_nil] at hevents
    have hok : h.received.map Prod.snd =
        List.replicate (h.call.events x).length (.answer (.ok ())) := by
      rw [List.eq_replicate_iff]
      constructor
      · rw [← hevents, hrequests, List.length_map, List.length_map, List.length_map]
      · intro r hr
        obtain ⟨p, hp, rfl⟩ := List.mem_map.mp hr
        have hreq : p.1 ∈ h.requests := by
          rw [hrequests]
          exact List.mem_map_of_mem hp
        have harrived := (hs.interleaved.sublist (List.mem_map_of_mem hh)).subset hreq
        rw [← hall, ← Wal.dealt_ok_iff, ← hs.books.responded_eq_some,
          hsound.received p hp] at harrived
        exact Option.some.inj harrived
    rw [heq, hok]
    exact ⟨hevents, rfl⟩

/-- The documents of a handler's requests for an index. -/
def documentsOf (x : Externals) (registry : IndexRegistry) (n : String) (h : Handler) :
    List JsonMap :=
  ((h.requests.map WalRequest.event).filter (·.index = n)).filterMap (x.document? registry)

/-- The documents of interleaved requests are interleaved. -/
theorem documents_interleaved {x : Externals} {registry : IndexRegistry} {n : String}
    {handlers : List Handler} {arrived : List WalRequest}
    (h : Interleaved (handlers.map Handler.requests) arrived) :
    Interleaved (handlers.map (documentsOf x registry n))
      (((arrived.map WalRequest.event).filter (·.index = n)).filterMap (x.document? registry)) := by
  have hfilter : ∀ requests : List WalRequest,
      ((requests.map WalRequest.event).filter (·.index = n)).filterMap (x.document? registry) =
        requests.filterMap fun req =>
          if req.event.index = n then x.document? registry req.event else none := by
    intro requests
    rw [List.filterMap_filter, List.filterMap_map]
    congr 1
    funext req
    simp
  have hdocuments := h.filterMap fun req =>
    if req.event.index = n then x.document? registry req.event else none
  rw [← hfilter, List.map_map] at hdocuments
  have hparts : handlers.map (documentsOf x registry n) = handlers.map
      ((fun part => part.filterMap fun req =>
        if req.event.index = n then x.document? registry req.event else none) ∘
        Handler.requests) := List.map_congr_left fun handler _ => hfilter handler.requests
  rw [hparts]
  exact hdocuments

/-- **From the call to the index.** Without failures and purges, however calls and workers
interleave: once nobody can go on, a tick comes, and nobody can go on again, each call that its
client waited for has sent all its events and been answered with Ok for each. What an index holds
beyond what it held at the start is then an interleaving of the documents of the calls. -/
theorem ingested (hbuffer : 0 < buffer) (hpos : 1 ≤ c.commitIntervalDocs)
    (h : Machine.run (step c buffer) (start disk offset registry store) ls = some s)
    (hstuck : Stuck c buffer s) (hwal : s.system.wal.phase ≠ .stopped)
    (hindexer : s.system.indexer.phase ≠ .stopped)
    (hrun : Machine.run (step c buffer) s (.system (.indexer .tick) :: ls') = some t)
    (hown : ∀ l ∈ ls', l.brings c.toExternals = 0) (hstuck' : Stuck c buffer t)
    (hflawless : ∀ l, .system l ∈ ls ++ ls' → l.Flawless) :
    (∀ handler ∈ t.handlers, handler.phase ≠ .cancelled →
      handler.requests.map WalRequest.event = handler.call.events c.toExternals ∧
      handler.phase = .answered (handler.call.response c.toExternals (some (List.replicate
        (handler.call.events c.toExternals).length (.answer (.ok ())))))) ∧
    ∀ n, ∃ added, (t.system.indexer.dir n).docs =
        ((start disk offset registry store).system.indexer.dir n).docs ++ added ∧
      Interleaved (t.handlers.map (documentsOf c.toExternals registry n)) added := by
  have hsound := run_sound h
  have hsound' := run_sound (Machine.run_append.mpr ⟨s, h, hrun⟩)
  obtain ⟨hrest, hended⟩ := (stuck_iff hbuffer hsound).mp hstuck
  obtain ⟨hrest', hended'⟩ := (stuck_iff hbuffer hsound').mp hstuck'
  obtain ⟨hquiet, lt, hlabels', hworkers'⟩ := run_quiet hrest hended hown hrun
  obtain ⟨lw, hworkers, hlabels⟩ := run_workers h
  have hall : t.system.wal.acknowledged = t.system.wal.arrived := by
    obtain ⟨hphase, hqueue⟩ := hrest.wal.resolve_left hwal
    rw [hquiet.wal]
    exact (run_flawless (fun l hl => hflawless l (List.mem_append_left _ hl)) h).acknowledged_all
      hphase hqueue
  have halive : t.system.wal.phase ≠ .stopped := by
    rw [hquiet.wal]
    exact hwal
  constructor
  · intro handler hmem hkept
    exact answered_ok hsound' halive hall hmem (hended' handler hmem) hkept
  · intro n
    have hclean : ∀ l, .indexer l ∈ lw ++ lt → l.Clean ∧ ∀ cmd, l ≠ .schedule cmd := by
      intro l hl
      rcases List.mem_append.mp hl with hold | hnew
      · obtain ⟨event, heq⟩ | hin := hlabels _ hold
        · cases heq
        · exact hflawless _ (List.mem_append_left _ hin)
      · exact hflawless _ (List.mem_append_right _ (hlabels' _ hnew).2)
    have hdocs := System.acknowledged_committed hbuffer hpos hworkers hrest hindexer hworkers'
      (fun l hl => (hlabels' l hl).1) hrest'.stuck hclean n
    rw [hall] at hdocs
    exact ⟨_, hdocs, documents_interleaved hsound'.interleaved⟩

/-- The two calls are answered, and what they sent is staged or turned down. -/
def twoAnswered : List ClientLabel :=
  twoCalls ++ [.system (.wal .forward), .system (.wal .respond), .system (.wal .forward),
    .system (.wal .finish), .handler 0 .receive, .handler 0 .answer,
    .system (.indexer (.event {})), .system (.indexer .check), .system (.indexer (.event {})),
    .system (.indexer .check)]

/-- What the indexer does after a tick. -/
def oneCommit : List ClientLabel :=
  [.system (.indexer (.commit "a" true)), .system (.indexer .committed)]

theorem ingested_example : ∃ t : Clients, t.handlers.map Handler.call =
      [.ingestDoc "a" "\x7b\x7d", .bulk "\x7b\x7d\n\x7b\x7d\n"] ∧
    (t.system.indexer.dir "a").docs.length = 1 ∧
    Interleaved (t.handlers.map (documentsOf .tiny .tiny "a")) (t.system.indexer.dir "a").docs := by
  have hseen : (Machine.run (step .tiny 2) (start .empty 0 .tiny ∅) twoAnswered).map (fun s =>
      (decide (s.system.AtRest ∧ (∀ h ∈ s.handlers, h.phase ≠ .running) ∧
          s.system.wal.phase ≠ .stopped ∧ s.system.indexer.phase ≠ .stopped),
        (Machine.run (step .tiny 2) s (.system (.indexer .tick) :: oneCommit)).map fun t =>
          (decide (t.system.AtRest ∧ ∀ h ∈ t.handlers, h.phase ≠ .running),
            t.handlers.map Handler.call, (t.system.indexer.dir "a").docs.length))) =
      some (true, some (true, [.ingestDoc "a" "\x7b\x7d", .bulk "\x7b\x7d\n\x7b\x7d\n"], 1)) := by
    decide +kernel
  obtain ⟨s, hs, heq⟩ := Option.map_eq_some_iff.mp hseen
  obtain ⟨hrest, hnext⟩ := Prod.mk.inj heq
  obtain ⟨t, ht, heq'⟩ := Option.map_eq_some_iff.mp hnext
  obtain ⟨hrest', heq''⟩ := Prod.mk.inj heq'
  obtain ⟨hcalls, hdocs⟩ := Prod.mk.inj heq''
  obtain ⟨hatRest, hended, hwal, hindexer⟩ := of_decide_eq_true hrest
  have hstuck : Stuck .tiny 2 s := (stuck_iff (by decide) (run_sound hs)).mpr ⟨hatRest, hended⟩
  have hstuck' : Stuck .tiny 2 t :=
    (stuck_iff (by decide) (run_sound (Machine.run_append.mpr ⟨s, hs, ht⟩))).mpr
      (of_decide_eq_true hrest')
  obtain ⟨-, hall⟩ := ingested (by decide) (by decide) hs hstuck hwal hindexer ht
    (by simp [oneCommit, ClientLabel.brings, SystemLabel.brings, IndexerLabel.brings]) hstuck'
    (by simp [twoAnswered, twoCalls, oneCommit, SystemLabel.Flawless, Wal.Clean, Wal.FrameOk,
      IndexerLabel.Clean])
  obtain ⟨added, hadded, hinterleaved⟩ := hall "a"
  have hstart : ((start .empty 0 .tiny ∅).system.indexer.dir "a").docs = [] := rfl
  rw [hstart, List.nil_append] at hadded
  rw [← hadded] at hinterleaved
  exact ⟨t, hcalls, hdocs, hinterleaved⟩

end Clients
end Edgewit
