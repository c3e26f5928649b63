import Edgewit.FrameLimits
import Edgewit.Interleaving
import Edgewit.Responders
import Edgewit.Settling

/-!
# The callers of the ingest routes

`ingest_doc_handler` and `bulk_handler` beside the workers: any number of calls, which send
their requests and wait on their oneshot channels as they come to it. The handlers and the
router hold the sender of the WAL channel, so it is not closed while calls come in.
-/

namespace Edgewit
open Interleavings

/-- The answer the handler makes of what came back; `none` is a WAL channel that is closed. -/
def IngestRequest.response (x : Externals) : IngestRequest → Option (List Received) → Response
  | ingestDoc index _, received => ingestDocResponse index (received.bind List.head?)
  | bulk body, received => bulkResponse (bulkEvents x body) received

inductive HandlerPhase where
  | running
  | answered (response : Response)
  /-- The client has gone, and the handler with it. -/
  | cancelled

instance (p : HandlerPhase) : Decidable (p = .running) :=
  match p with
  | .running => isTrue rfl
  | .answered _ => isFalse (by simp)
  | .cancelled => isFalse (by simp)

/-- A handler at work: the events whose requests it has not sent yet, the oneshot channels it
has not come to yet, by their requests, and what it got on the others. -/
structure Handler where
  call : IngestRequest
  toSend : List IngestEvent
  receivers : List WalRequest
  received : List (WalRequest × Received)
  phase : HandlerPhase

inductive HandlerAction where
  | send
  | receive
  | answer
  | cancel
  deriving DecidableEq, Repr

namespace Handler

def start (x : Externals) (call : IngestRequest) : Handler :=
  ⟨call, call.events x, [], [], .running⟩

/-- The requests sent so far. -/
def requests (h : Handler) : List WalRequest := h.received.map Prod.fst ++ h.receivers

/-- The next step of a handler. A request waits for room in the channel. -/
def act (c : IndexerConfig) (buffer : Nat) (s : System) (h : Handler) :
    HandlerAction → Option (System × Handler)
  | .send =>
    match h.toSend with
    | [] => none
    | event :: rest =>
      if s.wal.phase = .stopped then
        some (s, { h with phase := .answered (h.call.response c.toExternals none) })
      else
        (s.channelStep c buffer (.wal (.send event))).map fun t =>
          (t, { h with
            toSend := rest
            receivers := h.receivers ++ [⟨event, s.wal.arrived.length⟩] })
  | .receive =>
    match h.toSend, h.receivers with
    | [], req :: rest =>
      (s.wal.responded req).map fun r =>
        (s, { h with receivers := rest, received := h.received ++ [(req, r)] })
    | _, _ => none
  | .answer =>
    match h.toSend, h.receivers with
    | [], [] =>
      let received := h.received.map Prod.snd
      some (s, { h with phase := .answered (h.call.response c.toExternals (some received)) })
    | _, _ => none
  | .cancel => some (s, { h with phase := .cancelled })

/-- The same as a relation. -/
inductive Acts (c : IndexerConfig) (buffer : Nat) (s : System) (h : Handler) :
    HandlerAction → System → Handler → Prop
  | closed {event : IngestEvent} {rest : List IngestEvent} (next : h.toSend = event :: rest)
      (stopped : s.wal.phase = .stopped) :
      Acts c buffer s h .send s
        { h with phase := .answered (h.call.response c.toExternals none) }
  | send {event : IngestEvent} {rest : List IngestEvent} {t : System}
      (next : h.toSend = event :: rest)
      (moves : s.channelStep c buffer (.wal (.send event)) = some t) :
      Acts c buffer s h .send t
        { h with
          toSend := rest
          receivers := h.receivers ++ [⟨event, s.wal.arrived.length⟩] }
  | receive {req : WalRequest} {rest : List WalRequest} {r : Received} (sent : h.toSend = [])
      (next : h.receivers = req :: rest) (got : s.wal.responded req = some r) :
      Acts c buffer s h .receive s
        { h with receivers := rest, received := h.received ++ [(req, r)] }
  | answer (sent : h.toSend = []) (all : h.receivers = []) :
      Acts c buffer s h .answer s
        { h with
          phase := .answered (h.call.response c.toExternals (some (h.received.map Prod.snd))) }
  | cancel : Acts c buffer s h .cancel s { h with phase := .cancelled }

theorem act_cases {c : IndexerConfig} {buffer : Nat} {s t : System} {h h' : Handler}
    {a : HandlerAction} (hact : h.act c buffer s a = some (t, h')) : Acts c buffer s h a t h' := by
  cases a with
  | send =>
    simp only [act] at hact
    split at hact
    · cases hact
    · rename_i event rest hnext
      split at hact
      · rename_i hstopped
        cases hact
        exact .closed hnext hstopped
      · obtain ⟨u, hu, heq⟩ := Option.map_eq_some_iff.mp hact
        cases heq
        exact .send hnext hu
  | receive =>
    simp only [act] at hact
    split at hact
    · rename_i req rest hsent hnext
      obtain ⟨r, hr, heq⟩ := Option.map_eq_some_iff.mp hact
      cases heq
      exact .receive hsent hnext hr
    · cases hact
  | answer =>
    simp only [act] at hact
    split at hact
    · rename_i hsent hall
      cases hact
      exact .answer hsent hall
    · cases hact
  | cancel =>
    cases hact
    exact .cancel

end Handler

/-! ## Calls and workers -/

structure Clients where
  system : System
  handlers : List Handler

inductive ClientLabel where
  | call (call : IngestRequest)
  | handler (k : Nat) (a : HandlerAction)
  | system (l : SystemLabel)
  deriving DecidableEq, Repr

/-- A step of the WAL channel's senders: a request, or the last of them going. -/
def SystemLabel.ofSenders : SystemLabel → Bool
  | .wal (.send _) | .wal (.shutdown _) => true
  | _ => false

namespace Clients

def start (disk : Disk) (offset : Nat) (registry : IndexRegistry) (store : Table String IndexDir) :
    Clients :=
  ⟨.start disk offset registry store, []⟩

/-- A handler sends its own requests. -/
def step (c : IndexerConfig) (buffer : Nat) (s : Clients) : ClientLabel → Option Clients
  | .call call => some { s with handlers := s.handlers ++ [.start c.toExternals call] }
  | .handler k a =>
    (s.handlers[k]?).bind fun h =>
      match h.phase with
      | .running =>
        (h.act c buffer s.system a).map fun (t, h') => ⟨t, s.handlers.set k h'⟩
      | _ => none
  | .system l =>
    if l.ofSenders then none
    else (s.system.channelStep c buffer l).map fun t => ⟨t, s.handlers⟩

inductive Step (c : IndexerConfig) (buffer : Nat) : Clients → ClientLabel → Clients → Prop
  | call {s : Clients} {call : IngestRequest} :
      Step c buffer s (.call call) { s with handlers := s.handlers ++ [.start c.toExternals call] }
  | handler {s : Clients} {k : Nat} {a : HandlerAction} {h h' : Handler} {t : System}
      (found : s.handlers[k]? = some h) (running : h.phase = .running)
      (acts : h.Acts c buffer s.system a t h') :
      Step c buffer s (.handler k a) ⟨t, s.handlers.set k h'⟩
  | system {s : Clients} {l : SystemLabel} {t : System} (own : l.ofSenders = false)
      (moves : s.system.channelStep c buffer l = some t) :
      Step c buffer s (.system l) ⟨t, s.handlers⟩

theorem step_cases {c : IndexerConfig} {buffer : Nat} {s t : Clients} {l : ClientLabel}
    (h : s.step c buffer l = some t) : Step c buffer s l t := by
  cases l with
  | call =>
    cases h
    exact .call
  | handler k a =>
    obtain ⟨handler, hfound, h⟩ := Option.bind_eq_some_iff.mp h
    cases hphase : handler.phase with
    | running =>
      simp only [hphase] at h
      obtain ⟨⟨u, handler'⟩, hact, heq⟩ := Option.map_eq_some_iff.mp h
      cases heq
      exact .handler hfound hphase (Handler.act_cases hact)
    | answered response => simp [hphase] at h
    | cancelled => simp [hphase] at h
  | system l =>
    simp only [step] at h
    split at h
    · cases h
    · rename_i hown
      obtain ⟨u, hu, heq⟩ := Option.map_eq_some_iff.mp h
      cases heq
      exact .system (by simpa using hown) hu

end Clients

/-! ## What the callers are told -/

/-- The appender of a step stays as it is or makes a step. -/
theorem System.channelStep_wal {c : IndexerConfig} {buffer : Nat} {s t : System} {l : SystemLabel}
    (h : s.channelStep c buffer l = some t) :
    t.wal = s.wal ∨ ∃ l', l = .wal l' ∧ Wal.Step s.wal l' t.wal := by
  cases System.step_cases (System.channelStep_eq_some.mp h).2 with
  | wal moves => exact Or.inr ⟨_, rfl, Wal.step_cases moves⟩
  | indexer => exact Or.inl rfl

namespace Handler

/-- The handler has sent the first events of its call and got what its own responders say. It
has answered with that, or because the channel was closed. -/
structure Sound (x : Externals) (w : Wal) (h : Handler) : Prop where
  events : h.requests.map WalRequest.event ++ h.toSend = h.call.events x
  received : ∀ p ∈ h.received, w.responded p.1 = some p.2
  answered : ∀ response, h.phase = .answered response →
    (h.toSend ≠ [] ∧ w.phase = .stopped ∧ response = h.call.response x none) ∨
    (h.toSend = [] ∧ h.receivers = [] ∧
      response = h.call.response x (some (h.received.map Prod.snd)))

theorem start_sound (x : Externals) (w : Wal) (call : IngestRequest) : Sound x w (start x call) :=
  ⟨by simp [start, requests], by simp [start], by simp [start]⟩

theorem Sound.step {x : Externals} {w t : Wal} {l : Label} {h : Handler} (hstep : Wal.Step w l t)
    (hb : w.Books) (hs : Sound x w h) : Sound x t h := by
  refine ⟨hs.events, fun p hp => Wal.step_responded hstep hb (hs.received p hp), ?_⟩
  intro response hphase
  rcases hs.answered response hphase with ⟨-, hstopped, -⟩ | hall
  · exact absurd hstopped (Wal.step_running hstep)
  · exact Or.inr hall

theorem Sound.moves {x : Externals} {c : IndexerConfig} {buffer : Nat} {s t : System}
    {l : SystemLabel} {h : Handler} (hmoves : s.channelStep c buffer l = some t) (hb : s.wal.Books)
    (hs : Sound x s.wal h) : Sound x t.wal h := by
  rcases System.channelStep_wal hmoves with hsame | ⟨l', -, hstep⟩
  · rw [hsame]
    exact hs
  · exact hs.step hstep hb

variable {c : IndexerConfig} {buffer : Nat} {s t : System} {h h' : Handler} {a : HandlerAction}

theorem Acts.sound (hacts : Acts c buffer s h a t h') (hrunning : h.phase = .running)
    (hb : s.wal.Books) (hs : Sound c.toExternals s.wal h) : Sound c.toExternals t.wal h' := by
  cases hacts with
  | closed next stopped =>
    refine ⟨hs.events, hs.received, ?_⟩
    intro response hphase
    cases hphase
    exact Or.inl ⟨by simp [next], stopped, rfl⟩
  | @send event rest _ next moves =>
    have ht := hs.moves moves hb
    have hevents := ht.events
    rw [next] at hevents
    refine ⟨?_, ht.received, ?_⟩
    · rw [← hevents]
      simp [requests]
    · rw [hrunning]
      simp
  | @receive req rest r sent next got =>
    have hevents := hs.events
    simp only [requests, next] at hevents
    refine ⟨?_, ?_, ?_⟩
    · rw [← hevents]
      simp [requests]
    · intro p hp
      rcases List.mem_append.mp hp with hold | hnew
      · exact hs.received p hold
      · rw [List.mem_singleton.mp hnew]
        exact got
    · rw [hrunning]
      simp
  | answer sent all =>
    refine ⟨hs.events, hs.received, ?_⟩
    intro response hphase
    cases hphase
    exact Or.inr ⟨sent, all, rfl⟩
  | cancel => exact ⟨hs.events, hs.received, by simp⟩

theorem sends_wal {event : IngestEvent} (h : s.channelStep c buffer (.wal (.send event)) = some t) :
    t.wal = s.wal.send event := by
  cases System.step_cases (System.channelStep_eq_some.mp h).2 with
  | wal moves =>
    obtain ⟨-, heq⟩ := Option.ite_none_left_eq_some.mp moves
    exact (Option.some.inj heq).symm

/-- A handler sends one request, or none. -/
theorem Acts.requests (hacts : Acts c buffer s h a t h') :
    (h'.requests = h.requests ∧ t = s) ∨
    ∃ event, s.channelStep c buffer (.wal (.send event)) = some t ∧
      h'.requests = h.requests ++ [⟨event, s.wal.arrived.length⟩] := by
  cases hacts with
  | @send event rest _ next moves => exact Or.inr ⟨event, moves, by simp [Handler.requests]⟩
  | receive sent next => exact Or.inl ⟨by simp [Handler.requests, next], rfl⟩
  | _ => exact Or.inl ⟨rfl, rfl⟩

end Handler

namespace Clients

variable {c : IndexerConfig} {buffer : Nat} {disk : Disk} {offset : Nat} {registry : IndexRegistry}
  {store : Table String IndexDir} {s t : Clients} {l : ClientLabel} {ls ls' : List ClientLabel}

structure Sound (x : Externals) (s : Clients) : Prop where
  books : s.system.wal.Books
  interleaved : Interleaved (s.handlers.map Handler.requests) s.system.wal.arrived
  handlers : ∀ h ∈ s.handlers, h.Sound x s.system.wal

theorem start_sound (x : Externals) : Sound x (start disk offset registry store) :=
  ⟨Wal.start_books disk offset, .nil, by simp [start]⟩

theorem moves_books {s t : System} {l : SystemLabel} (h : s.channelStep c buffer l = some t)
    (hb : s.wal.Books) : t.wal.Books := by
  rcases System.channelStep_wal h with hsame | ⟨l', -, hstep⟩
  · rw [hsame]
    exact hb
  · exact Wal.step_books hstep hb

theorem step_sound (h : Step c buffer s l t) (hs : Sound c.toExternals s) :
    Sound c.toExternals t := by
  obtain ⟨hb, hinterleaved, hhandlers⟩ := hs
  cases h with
  | @call call =>
    refine ⟨hb, ?_, ?_⟩
    · rw [List.map_append]
      exact hinterleaved.join
    · intro h hh
      rcases List.mem_append.mp hh with hold | hnew
      · exact hhandlers h hold
      · rw [List.mem_singleton.mp hnew]
        exact Handler.start_sound _ _ _
  | @handler k a h h' system found running acts =>
    have hh := hhandlers h (List.mem_of_getElem? found)
    have hrequests : (s.handlers.map Handler.requests)[k]? = some h.requests := by
      rw [List.getElem?_map, found, Option.map_some]
    rcases acts.requests with ⟨hsame, rfl⟩ | ⟨event, moves, hgrown⟩
    · refine ⟨hb, ?_, ?_⟩
      · rw [List.map_set, hsame]
        obtain ⟨hlt, heq⟩ := List.getElem?_eq_some_iff.mp hrequests
        rw [← heq, List.set_getElem_self hlt]
        exact hinterleaved
      · intro g hg
        rcases List.mem_or_eq_of_mem_set hg with hold | rfl
        · exact hhandlers g hold
        · exact acts.sound running hb hh
    · refine ⟨moves_books moves hb, ?_, ?_⟩
      · have harrived : system.wal.arrived = s.system.wal.arrived ++
            [⟨event, s.system.wal.arrived.length⟩] := by
          rw [Handler.sends_wal moves]
          rfl
        rw [List.map_set, hgrown, harrived]
        exact hinterleaved.grow hrequests
      · intro g hg
        rcases List.mem_or_eq_of_mem_set hg with hold | rfl
        · exact (hhandlers g hold).moves moves hb
        · exact acts.sound running hb hh
  | @system l system own moves =>
    refine ⟨moves_books moves hb, ?_, fun h hh => (hhandlers h hh).moves moves hb⟩
    rcases System.channelStep_wal moves with hsame | ⟨l', rfl, hstep⟩
    · rw [hsame]
      exact hinterleaved
    · rcases Wal.step_arrived hstep with harrived | ⟨event, rfl, -⟩
      · rw [harrived]
        exact hinterleaved
      · cases own

theorem run_sound (h : Machine.run (step c buffer) (start disk offset registry store) ls = some t) :
    Sound c.toExternals t :=
  Machine.run_invariant (start_sound c.toExternals)
    (fun _ _ _ hstep hs => step_sound (step_cases hstep) hs) h

/-- **Every caller is told the truth.** However calls and workers interleave and whatever fails:
the requests that arrived are those of the handlers, each one's in its order. A call that has been
answered was told of each of its events what became of its own request, 201 exactly for those
acknowledged, unless it came to a closed channel. -/
theorem told_truly (hrun : Machine.run (step c buffer) (start disk offset registry store) ls = some t) :
    Interleaved (t.handlers.map Handler.requests) t.system.wal.arrived ∧
    ∀ h ∈ t.handlers, h.requests.map WalRequest.event ++ h.toSend = h.call.events c.toExternals ∧
      ∀ response, h.phase = .answered response →
        (t.system.wal.phase = .stopped ∧ h.toSend ≠ [] ∧ response = .error walChannelClosed) ∨
        ∃ received, h.toSend = [] ∧ response = h.call.response c.toExternals (some received) ∧
          List.Forall₂ (fun req r => t.system.wal.responded req = some r ∧
            (bulkStatus r = 201 ↔ req ∈ t.system.wal.acknowledged)) h.requests received := by
  obtain ⟨hb, hinterleaved, hhandlers⟩ := run_sound hrun
  refine ⟨hinterleaved, fun h hh => ⟨(hhandlers h hh).events, fun response hphase => ?_⟩⟩
  have hs := hhandlers h hh
  rcases hs.answered response hphase with ⟨hunsent, hstopped, heq⟩ | ⟨hsent, hall, heq⟩
  · refine Or.inl ⟨hstopped, hunsent, ?_⟩
    rw [heq]
    cases h.call <;> rfl
  · refine Or.inr ⟨_, hsent, heq, ?_⟩
    rw [Handler.requests, hall, List.append_nil, List.forall₂_map_left_iff,
      List.forall₂_map_right_iff, List.forall₂_same]
    intro p hp
    have hgot := hs.received p hp
    refine ⟨hgot, ?_⟩
    rw [← Wal.dealt_ok_iff, ← hb.responded_eq_some, hgot]
    rcases p.2 with (e | ⟨⟩) | _ <;> simp [bulkStatus]

/-- A document and a bulk body of one, which come to the channel in the other order. -/
def twoCalls : List ClientLabel :=
  [.call (.ingestDoc "a" "\x7b\x7d"), .call (.bulk "\x7b\x7d\n\x7b\x7d\n"), .handler 1 .send,
    .handler 0 .send, .system (.wal (.boot true true true)), .system (.wal .recv),
    .system (.wal .tryRecv), .system (.wal .closeBatch), .system (.wal (.frame [])),
    .system (.wal (.frame [])), .system (.wal (.flush .ok)), .system (.wal (.sync true)),
    .system (.wal (.rotate .ok true true)), .system (.wal .respond), .handler 1 .receive,
    .handler 1 .answer]

theorem told_truly_example : ∃ t : Clients,
    t.system.wal.arrived = [⟨⟨"default", utf8 "\x7b\x7d"⟩, 0⟩, ⟨⟨"a", utf8 "\x7b\x7d"⟩, 1⟩] ∧
    Interleaved (t.handlers.map Handler.requests) t.system.wal.arrived := by
  have hrun : (Machine.run (step .tiny 2) (start .empty 0 .tiny ∅) twoCalls).map
      (fun t => t.system.wal.arrived) =
        some [⟨⟨"default", utf8 "\x7b\x7d"⟩, 0⟩, ⟨⟨"a", utf8 "\x7b\x7d"⟩, 1⟩] := by
    decide +kernel
  obtain ⟨t, ht, harrived⟩ := Option.map_eq_some_iff.mp hrun
  exact ⟨t, harrived, (told_truly ht).1⟩

end Clients

/-! ## Every call is answered -/

/-- The steps the handler still takes, and those its requests will cost the workers. -/
def Handler.work (h : Handler) : Nat :=
  match h.phase with
  | .running => 16 * h.toSend.length + h.receivers.length + 1
  | _ => 0

/-- What a label brings from outside. -/
def ClientLabel.brings (x : Externals) : ClientLabel → Nat
  | .call request => 16 * (request.events x).length + 2
  | .handler _ .cancel => 1
  | .handler _ _ => 0
  | .system l => l.brings

namespace Clients

variable {c : IndexerConfig} {buffer : Nat} {disk : Disk} {offset : Nat} {registry : IndexRegistry}
  {store : Table String IndexDir} {s t : Clients} {l : ClientLabel} {ls ls' : List ClientLabel}

def work (s : Clients) : Nat := s.system.work + (s.handlers.map Handler.work).sum

theorem sum_set {ns : List Nat} {k m n : Nat} (h : ns[k]? = some m) :
    (ns.set k n).sum + m = ns.sum + n := by
  induction ns generalizing k with
  | nil => cases h
  | cons a ns ih =>
    cases k with
    | zero =>
      cases h
      simp only [List.set_cons_zero, List.sum_cons]
      omega
    | succ k =>
      have hrest := ih h
      simp only [List.set_cons_succ, List.sum_cons]
      omega

theorem acts_work {s t : System} {h h' : Handler} {a : HandlerAction}
    (hrunning : h.phase = .running) (hacts : h.Acts c buffer s a t h') :
    t.work + h'.work + 1 ≤ s.work + h.work := by
  cases hacts with
  | closed => simp [Handler.work, hrunning]
  | @send event rest _ next moves =>
    have hwork : t.work + 1 ≤ s.work + 14 :=
      System.step_work (System.step_cases (System.channelStep_eq_some.mp moves).2)
    simp only [Handler.work, hrunning, next, List.length_cons, List.length_append,
      List.length_nil]
    omega
  | receive sent next =>
    simp only [Handler.work, hrunning, next, List.length_cons]
    omega
  | answer => simp [Handler.work, hrunning]
  | cancel => simp [Handler.work, hrunning]

/-- A step is paid for by the work ahead or by its label. -/
theorem step_paid (h : Step c buffer s l t) : t.work + 1 ≤ s.work + l.brings c.toExternals := by
  cases h with
  | call =>
    simp only [work, List.map_append, List.sum_append, List.map_cons, List.map_nil, List.sum_cons,
      List.sum_nil, Handler.work, Handler.start, ClientLabel.brings, List.length_nil]
    omega
  | @handler k a h h' system found running acts =>
    have hacts := acts_work running acts
    have hwork : (s.handlers.map Handler.work)[k]? = some h.work := by
      rw [List.getElem?_map, found, Option.map_some]
    have hsum := sum_set (n := h'.work) hwork
    simp only [work, List.map_set]
    omega
  | system own moves =>
    have hwork := System.step_work (System.step_cases (System.channelStep_eq_some.mp moves).2)
    simp only [work, ClientLabel.brings]
    omega

theorem own_of_brings {l : SystemLabel} (h : l.brings = 0) : l.ofSenders = false := by
  unfold SystemLabel.ofSenders
  split <;> first | cases h | rfl

/-- Nobody can do anything until something arrives from outside. -/
def Stuck (c : IndexerConfig) (buffer : Nat) (s : Clients) : Prop :=
  ∀ l : ClientLabel, l.brings c.toExternals = 0 → s.step c buffer l = none

/-- A handler that has not come to its end can take a step, if the workers are at rest. -/
theorem handler_moves {w : System} {h : Handler} (hbuffer : 0 < buffer) (hb : w.wal.Books)
    (hrest : w.AtRest) (harrived : ∀ req ∈ h.requests, req ∈ w.wal.arrived) :
    ∃ a, a ≠ .cancel ∧ (h.act c buffer w a).isSome = true := by
  cases hsend : h.toSend with
  | cons event rest =>
    refine ⟨.send, by simp, ?_⟩
    simp only [Handler.act, hsend]
    split
    · rfl
    · rename_i halive
      obtain hstopped | ⟨hphase, hqueue⟩ := hrest.wal
      · exact absurd hstopped halive
      · -- The appender waits for requests, so its channel is empty.
        simp [System.channelStep, System.Admits, System.step, Wal.step, hphase, hqueue, hbuffer]
  | nil =>
    cases hreceivers : h.receivers with
    | nil => exact ⟨.answer, by simp, by simp [Handler.act, hsend, hreceivers]⟩
    | cons req rest =>
      have hreq : req ∈ h.requests := by simp [Handler.requests, hreceivers]
      obtain ⟨r, hr⟩ := hb.all_responded hrest.wal (harrived req hreq)
      exact ⟨.receive, by simp, by simp [Handler.act, hsend, hreceivers, hr]⟩

/-- **Nobody waits in vain.** Where the channels have room for a message, nobody can do anything
exactly when the workers are at rest and no handler is at work. -/
theorem stuck_iff (hbuffer : 0 < buffer) (hs : Sound c.toExternals s) :
    Stuck c buffer s ↔ s.system.AtRest ∧ ∀ handler ∈ s.handlers, handler.phase ≠ .running := by
  constructor
  · intro h
    have hsystem : System.Stuck c buffer s.system := by
      intro l hl
      have hnone := h (.system l) hl
      simpa [step, own_of_brings hl] using hnone
    have hrest := (System.not_blocked_iff hbuffer).mp hsystem
    refine ⟨hrest, fun handler hmem hrunning => ?_⟩
    obtain ⟨k, hk⟩ := List.mem_iff_getElem?.mp hmem
    have hpart : handler.requests ∈ s.handlers.map Handler.requests := List.mem_map_of_mem hmem
    have harrived : ∀ req ∈ handler.requests, req ∈ s.system.wal.arrived :=
      fun req hreq => (hs.interleaved.sublist hpart).subset hreq
    obtain ⟨a, ha, hmoves⟩ := handler_moves (c := c) hbuffer hs.books hrest harrived
    have hnone := h (.handler k a) (by cases a <;> simp_all [ClientLabel.brings])
    simp only [step, hk, hrunning, Option.bind_some, Option.map_eq_none_iff] at hnone
    rw [hnone] at hmoves
    cases hmoves
  · rintro ⟨hrest, hended⟩ l hl
    apply Option.eq_none_iff_forall_not_mem.mpr
    intro t hstep
    cases step_cases hstep with
    | call => simp [ClientLabel.brings] at hl
    | handler found running => exact hended _ (List.mem_of_getElem? found) running
    | system own moves =>
      rw [hrest.stuck _ hl] at moves
      cases moves

theorem acts_keeps {s t : System} {h h' : Handler} {a : HandlerAction} (ha : a ≠ .cancel)
    (hrunning : h.phase = .running) (hacts : h.Acts c buffer s a t h') :
    h'.call = h.call ∧ h'.phase ≠ .cancelled := by
  cases hacts with
  | cancel => exact absurd rfl ha
  | closed => exact ⟨rfl, by simp⟩
  | answer => exact ⟨rfl, by simp⟩
  | _ => exact ⟨rfl, by simp [hrunning]⟩

/-- A call stays what it is, and of itself its handler does not go away. -/
theorem step_keeps {k : Nat} {h : Handler} (hl : l.brings c.toExternals = 0)
    (hstep : Step c buffer s l t) (hk : s.handlers[k]? = some h) (hphase : h.phase ≠ .cancelled) :
    ∃ h', t.handlers[k]? = some h' ∧ h'.call = h.call ∧ h'.phase ≠ .cancelled := by
  cases hstep with
  | call => simp [ClientLabel.brings] at hl
  | @handler j a g g' system found running acts =>
    by_cases hj : j = k
    · subst hj
      cases found.symm.trans hk
      have ha : a ≠ .cancel := by
        rintro rfl
        cases hl
      refine ⟨g', ?_, acts_keeps ha running acts⟩
      rw [List.getElem?_set_self (List.getElem?_eq_some_iff.mp hk).1]
    · refine ⟨h, ?_, rfl, hphase⟩
      rw [List.getElem?_set_ne hj]
      exact hk
  | system => exact ⟨h, hk, rfl, hphase⟩

/-- **Every call is answered.** From any reachable state, whatever fails: workers and handlers,
left alone, take at most `work` more steps, and where they cannot go on, every call that was under
way has its answer. -/
theorem every_call_answered (hbuffer : 0 < buffer)
    (h : Machine.run (step c buffer) (start disk offset registry store) ls = some s) :
    (∀ ls' t, (∀ l ∈ ls', l.brings c.toExternals = 0) →
      Machine.run (step c buffer) s ls' = some t → ls'.length ≤ s.work ∧
      (Stuck c buffer t → ∀ (k : Nat) (handler : Handler), s.handlers[k]? = some handler →
        handler.phase = .running → ∃ (handler' : Handler) (response : Response),
          t.handlers[k]? = some handler' ∧ handler'.call = handler.call ∧
          handler'.phase = .answered response)) ∧
    ∃ ls' t, (∀ l ∈ ls', l.brings c.toExternals = 0) ∧
      Machine.run (step c buffer) s ls' = some t ∧ Stuck c buffer t := by
  constructor
  · intro ls' t hown hrun
    constructor
    · have hwork : 1 * ls'.length + t.work ≤
          s.work + (ls'.map (ClientLabel.brings c.toExternals)).sum :=
        Machine.run_amortized (fun _ _ _ hstep => step_paid (step_cases hstep)) hrun
      have hzero : (ls'.map (ClientLabel.brings c.toExternals)).sum = 0 := by
        rw [List.sum_eq_zero_iff_forall_eq_nat]
        intro n hn
        obtain ⟨l, hl, rfl⟩ := List.mem_map.mp hn
        exact hown l hl
      omega
    · intro hstuck k handler hk hrunning
      have hsound := run_sound (Machine.run_append.mpr ⟨s, h, hrun⟩)
      obtain ⟨-, hended⟩ := (stuck_iff hbuffer hsound).mp hstuck
      obtain ⟨handler', hk', hcall, hkept⟩ : ∃ handler', t.handlers[k]? = some handler' ∧
          handler'.call = handler.call ∧ handler'.phase ≠ .cancelled := by
        refine Machine.run_guarded (G := fun _ l => l.brings c.toExternals = 0)
          (I := fun u : Clients => ∃ handler', u.handlers[k]? = some handler' ∧
            handler'.call = handler.call ∧ handler'.phase ≠ .cancelled)
          ⟨handler, hk, rfl, by simp [hrunning]⟩ ?_ (Machine.along_of_labels hown) hrun
        rintro u l v hl hstep ⟨g, hg, hcall, hphase⟩
        obtain ⟨g', hg', hcall', hphase'⟩ := step_keeps hl (step_cases hstep) hg hphase
        exact ⟨g', hg', hcall'.trans hcall, hphase'⟩
      cases hphase : handler'.phase with
      | running => exact absurd hphase (hended handler' (List.mem_of_getElem? hk'))
      | answered response => exact ⟨handler', response, hk', hcall, hphase⟩
      | cancelled => exact absurd hphase hkept
  · apply Machine.exists_stuck (m := work)
    intro u l v hl hstep
    have hpaid := step_paid (step_cases hstep)
    omega

theorem every_call_answered_example : ∃ (t : Clients) (h : Handler) (response : Response),
    t.handlers[0]? = some h ∧ h.call = .ingestDoc "a" "\x7b\x7d" ∧ h.phase = .answered response := by
  have hrun : (Machine.run (step .tiny 2) (start .empty 0 .tiny ∅) twoCalls).map (fun t =>
      (t.handlers[0]?).map fun h => (h.call, decide (h.phase = .running))) =
        some (some (.ingestDoc "a" "\x7b\x7d", true)) := by
    decide +kernel
  obtain ⟨s, hs, hseen⟩ := Option.map_eq_some_iff.mp hrun
  obtain ⟨h, hk, heq⟩ := Option.map_eq_some_iff.mp hseen
  obtain ⟨hcall, hrunning⟩ := Prod.mk.inj heq
  obtain ⟨hanswers, ls', t, hown, ht, hstuck⟩ := every_call_answered (by decide) hs
  obtain ⟨h', response, hk', hcall', hphase'⟩ :=
    (hanswers ls' t hown ht).2 hstuck 0 h hk (of_decide_eq_true hrunning)
  exact ⟨t, h', response, hk', hcall'.trans hcall, hphase'⟩

end Clients
end Edgewit
