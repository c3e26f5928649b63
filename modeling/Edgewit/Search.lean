import Edgewit.Machine
import Edgewit.Routes
import Edgewit.Schema

/-!
# Searching

`execute_search` on the reader that all the searches of an index share. The search phase
and the fetch phase take a snapshot of their own: `Faithful` says what every hit should be,
and `run_faithful` when it is.

Of Tantivy the model uses snapshots, the addresses of documents in them, and queries.
-/

namespace Edgewit

/-- What a search uses of Tantivy. A document is read from the snapshot that a searcher
holds; `none` is a panic. -/
structure SearchEngine where
  Snapshot : Type
  Address : Type
  Query : Type
  Score : Type
  Doc : Type
  schema : Snapshot → Schema
  allQuery : Query
  /-- `parse_query`, with the default field. -/
  parseQuery : Snapshot → String → String → Except String Query
  /-- `Count` and `TopDocs::with_limit`. -/
  search : Snapshot → Query → Nat → Option (Except String (Nat × List (Score × Address)))
  doc : Snapshot → Address → Option (Except String Doc)
  /-- `to_json`, read by serde_json. -/
  toJson : Doc → Option Json
  /-- `partial_cmp` is `Greater`. -/
  greater : Score → Score → Bool
  docEq : DecidableEq Doc
  /-- The documents found are in the snapshot. -/
  found : ∀ {snapshot query limit total top}, search snapshot query limit = some (.ok (total, top)) →
    ∀ h ∈ top, ∃ d, doc snapshot h.2 = some (.ok d)

instance (x : SearchEngine) : DecidableEq x.Doc := x.docEq

structure SearchRequest where
  query : String
  size : Nat
  offset : Nat
  deriving DecidableEq, Repr

structure Hit (x : SearchEngine) where
  index : String
  score : x.Score
  source : Json

/-! ## The search phase -/

/-- `trim`. -/
def trim (s : String) : List Char :=
  ((s.toList.dropWhile isWhitespace).reverse.dropWhile isWhitespace).reverse

/-- The field that bare terms are looked up in. -/
def queryField (schema : Schema) : Option String :=
  if schema.hasField "_dynamic" then some "_dynamic"
  else if schema.hasField "_source" then some "_source"
  else none

/-- `usize` addition in a release build. -/
def SearchRequest.limit (r : SearchRequest) : Nat :=
  if r.size = 0 then 1 else (r.offset + r.size) % 2 ^ 64

variable (x : SearchEngine)

def buildQuery (snapshot : x.Snapshot) (field query : String) : Except String x.Query :=
  if trim query = [] ∨ trim query = ['*'] then .ok x.allQuery
  else (x.parseQuery snapshot field query).mapError fun e => s!"Invalid query: {e}"

/-- The loop body for one reader, with the snapshot it has after `reload`. -/
def searchPhase (snapshot : x.Snapshot) (r : SearchRequest) :
    Option (Except String (Nat × List (x.Score × x.Address))) :=
  match queryField (x.schema snapshot) with
  | none => some (.ok (0, []))
  | some field =>
    match buildQuery x snapshot field r.query with
    | .error e => some (.error e)
    | .ok query =>
      (x.search snapshot query r.limit).map (·.mapError fun e => s!"Search error: {e}")

/-- `global_hits`, sorted, and the part of them that is asked for. -/
def paginated (r : SearchRequest) (hits : List (x.Score × x.Address)) : List (x.Score × x.Address) :=
  let sorted := hits.mergeSort fun a b => !x.greater b.1 a.1
  (sorted.drop r.offset).take (if r.size = 0 then 0 else r.size)

/-! ## The fetch phase -/

def sourceOf (doc : Option Json) : Json :=
  match doc.bind (Json.get "_source") with
  | some (.array items) => items.head?.getD .null
  | some val => val
  | none => .null

def indexOf (doc : Option Json) : String :=
  match doc.bind (Json.get "_index") with
  | some (.array (.string s :: _)) => s
  | _ => "unknown"

def hitOf (score : x.Score) (doc : x.Doc) : Hit x :=
  ⟨indexOf (x.toJson doc), score, sourceOf (x.toJson doc)⟩

structure SearchResponse where
  total : Nat
  maxScore : Option x.Score
  hits : List (Hit x)

/-- A search between its phases: what the first one found, and the hits so far. The
snapshot of the first phase is a record: the code drops that searcher. -/
structure Fetching where
  total : Nat
  snapshot : x.Snapshot
  page : List (x.Score × x.Address)
  hits : List (Hit x)

inductive SearchCallPhase where
  | called
  | reloaded
  | fetching (f : Fetching x)
  /-- Holds the searcher for its next document. -/
  | acquired (f : Fetching x) (searcher : x.Snapshot)
  | answered (f : Fetching x)
  | failed (error : String)
  | panicked

/-- A call of `execute_search`. `fetches` records the addresses it has used. -/
structure SearchCall where
  request : SearchRequest
  phase : SearchCallPhase x
  fetches : List (x.Snapshot × x.Address)

/-- The committed state of an index, the snapshot of the shared reader, and the calls
made so far. -/
structure SharedReader where
  committed : x.Snapshot
  reader : x.Snapshot
  calls : List (SearchCall x)

/-- A schedulable action. A commit or a merge publishes a snapshot. -/
inductive SearchLabel where
  | publish (snapshot : x.Snapshot)
  | call (request : SearchRequest)
  | reload (k : Nat) (ok : Bool)
  | search (k : Nat)
  | acquire (k : Nat)
  | fetch (k : Nat)
  | answer (k : Nat)

variable {x}

def Fetching.response (f : Fetching x) : SearchResponse x :=
  ⟨f.total, f.page.head?.map Prod.fst, f.hits⟩

namespace SearchCall

/-- The search phase on the snapshot of the reader. -/
def search (c : SearchCall x) (snapshot : x.Snapshot) : SearchCall x :=
  { c with phase :=
      match searchPhase x snapshot c.request with
      | none => .panicked
      | some (.error e) => .failed e
      | some (.ok (total, hits)) => .fetching ⟨total, snapshot, paginated x c.request hits, []⟩ }

/-- `searcher.doc` for the next address, and the hit that is made of it. -/
def fetch (c : SearchCall x) (f : Fetching x) (searcher : x.Snapshot) (h : x.Score × x.Address) :
    SearchCall x :=
  { c with
    fetches := c.fetches ++ [(searcher, h.2)]
    phase :=
      match x.doc searcher h.2 with
      | none => .panicked
      | some (.error e) => .failed s!"Failed to retrieve doc: {e}"
      | some (.ok doc) => .fetching { f with hits := f.hits ++ [hitOf x h.1 doc] } }

/-- The next action of a call, on the snapshot of the reader. -/
def act (c : SearchCall x) (reader : x.Snapshot) : SearchLabel x → Option (SearchCall x)
  | .reload _ _ =>
    match c.phase with
    | .called => some { c with phase := .reloaded }
    | _ => none
  | .search _ =>
    match c.phase with
    | .reloaded => some (c.search reader)
    | _ => none
  | .acquire _ =>
    match c.phase with
    | .fetching f =>
      if f.hits.length < f.page.length then some { c with phase := .acquired f reader } else none
    | _ => none
  | .fetch _ =>
    match c.phase with
    | .acquired f searcher => f.page[f.hits.length]?.map (c.fetch f searcher)
    | _ => none
  | .answer _ =>
    match c.phase with
    | .fetching f =>
      if f.hits.length = f.page.length then some { c with phase := .answered f } else none
    | _ => none
  | _ => none

/-- The addresses that a call will look up in a searcher it does not hold yet, with the
snapshot they belong to. -/
def pending (c : SearchCall x) : List (x.Snapshot × x.Address) :=
  match c.phase with
  | .fetching f => (f.page.drop f.hits.length).map fun h => (f.snapshot, h.2)
  | .acquired f _ => (f.page.drop (f.hits.length + 1)).map fun h => (f.snapshot, h.2)
  | _ => []

end SearchCall

/-- The hit is made of the document found. -/
def Fetching.Shows (f : Fetching x) (hit : Hit x) (h : x.Score × x.Address) : Prop :=
  ∃ d, x.doc f.snapshot h.2 = some (.ok d) ∧ hit = hitOf x h.1 d

/-- The page is what the search phase found in its snapshot. -/
def SearchCall.Found (c : SearchCall x) (f : Fetching x) : Prop :=
  ∃ hits, searchPhase x f.snapshot c.request = some (.ok (f.total, hits)) ∧
    f.page = paginated x c.request hits

namespace SharedReader

def actOn (s : SharedReader x) (k : Nat) (l : SearchLabel x) : Option (SharedReader x) :=
  (s.calls[k]?).bind fun c => (c.act s.reader l).map fun c => { s with calls := s.calls.set k c }

/-- A reload that fails is logged, and the call goes on with the old snapshot. -/
def step (s : SharedReader x) (l : SearchLabel x) : Option (SharedReader x) :=
  match l with
  | .publish snapshot => some { s with committed := snapshot }
  | .call request => some { s with calls := s.calls ++ [⟨request, .called, []⟩] }
  | .reload k ok =>
    (s.actOn k l).map fun s => { s with reader := if ok then s.committed else s.reader }
  | .search k | .acquire k | .fetch k | .answer k => s.actOn k l

/-- Every address is looked up in a snapshot that has it, and every hit that is returned
shows the document that the search phase of its call found. -/
structure Faithful (s : SharedReader x) : Prop where
  inside : ∀ c ∈ s.calls, ∀ p ∈ c.fetches, ∃ d, x.doc p.1 p.2 = some (.ok d)
  matched : ∀ c ∈ s.calls, ∀ f, c.phase = .answered f →
    c.Found f ∧ List.Forall₂ f.Shows f.response.hits f.page

/-- A reload leaves the documents alone that the calls under way have still to fetch. -/
def Undisturbed (s : SharedReader x) : SearchLabel x → Prop
  | .reload _ true => ∀ c ∈ s.calls, ∀ p ∈ c.pending, x.doc s.committed p.2 = x.doc p.1 p.2
  | _ => True

/-! ## The invariant -/

/-- What a call needs of the shared reader to go on. -/
structure Kept (reader : x.Snapshot) (c : SearchCall x) : Prop where
  inside : ∀ p ∈ c.fetches, ∃ d, x.doc p.1 p.2 = some (.ok d)
  pending : ∀ p ∈ c.pending, x.doc reader p.2 = x.doc p.1 p.2
  running : ∀ f, (c.phase = .fetching f ∨ (∃ searcher, c.phase = .acquired f searcher) ∨
    c.phase = .answered f) →
    c.Found f ∧ List.Forall₂ f.Shows f.hits (f.page.take f.hits.length)
  held : ∀ f searcher, c.phase = .acquired f searcher →
    ∀ h, f.page[f.hits.length]? = some h → x.doc searcher h.2 = x.doc f.snapshot h.2
  complete : ∀ f, c.phase = .answered f → f.hits.length = f.page.length

theorem mem_of_mem_paginated {r : SearchRequest} {hits : List (x.Score × x.Address)}
    {h : x.Score × x.Address} (hmem : h ∈ paginated x r hits) : h ∈ hits :=
  List.mem_mergeSort.mp (List.mem_of_mem_drop (List.mem_of_mem_take hmem))

theorem searchPhase_inside {snapshot : x.Snapshot} {r : SearchRequest} {total : Nat}
    {hits : List (x.Score × x.Address)}
    (hphase : searchPhase x snapshot r = some (.ok (total, hits))) :
    ∀ h ∈ hits, ∃ d, x.doc snapshot h.2 = some (.ok d) := by
  unfold searchPhase at hphase
  split at hphase
  · intro h hmem
    simp only [Option.some.injEq, Except.ok.injEq, Prod.mk.injEq] at hphase
    rw [← hphase.2] at hmem
    cases hmem
  split at hphase
  · cases hphase
  · obtain ⟨answer, hsearch, hok⟩ := Option.map_eq_some_iff.mp hphase
    cases answer with
    | error e => cases hok
    | ok found =>
      obtain ⟨total', top⟩ := found
      cases hok
      exact x.found hsearch

theorem page_inside {c : SearchCall x} {f : Fetching x} (hfound : c.Found f) :
    ∀ h ∈ f.page, ∃ d, x.doc f.snapshot h.2 = some (.ok d) := by
  obtain ⟨hits, hphase, hpage⟩ := hfound
  intro h hmem
  rw [hpage] at hmem
  exact searchPhase_inside hphase h (mem_of_mem_paginated hmem)

/-- The first phase leaves a call that has all its documents still to fetch. -/
theorem search_kept {reader : x.Snapshot} {c : SearchCall x}
    (hinside : ∀ p ∈ c.fetches, ∃ d, x.doc p.1 p.2 = some (.ok d)) : Kept reader (c.search reader) := by
  unfold SearchCall.search
  cases hphase : searchPhase x reader c.request with
  | none => exact ⟨hinside, by simp [SearchCall.pending], by simp, by simp, by simp⟩
  | some answer =>
    cases answer with
    | error e => exact ⟨hinside, by simp [SearchCall.pending], by simp, by simp, by simp⟩
    | ok found =>
      obtain ⟨total, hits⟩ := found
      refine ⟨hinside, ?_, ?_, by simp, by simp⟩
      · intro p hp
        obtain ⟨h, -, rfl⟩ := List.mem_map.mp hp
        rfl
      · intro f hf
        simp only [SearchCallPhase.fetching.injEq, reduceCtorEq, exists_false, or_false] at hf
        subst hf
        exact ⟨⟨hits, hphase, rfl⟩, .nil⟩

/-- The document fetched is the one found, and the next address is still to be looked up. -/
theorem fetch_kept {reader searcher : x.Snapshot} {c : SearchCall x} {f : Fetching x}
    {h : x.Score × x.Address} (hkept : Kept reader c) (hphase : c.phase = .acquired f searcher)
    (hnext : f.page[f.hits.length]? = some h) : Kept reader (c.fetch f searcher h) := by
  obtain ⟨hfound, hshows⟩ := hkept.running f (Or.inr (Or.inl ⟨searcher, hphase⟩))
  have hsame : x.doc searcher h.2 = x.doc f.snapshot h.2 := hkept.held f searcher hphase h hnext
  obtain ⟨d, hd⟩ := page_inside hfound h (List.mem_of_getElem? hnext)
  unfold SearchCall.fetch
  rw [hsame, hd]
  refine ⟨?_, ?_, ?_, by simp, by simp⟩
  · intro p hp
    rcases List.mem_append.mp hp with hp | hp
    · exact hkept.inside p hp
    · rw [List.mem_singleton.mp hp]
      exact ⟨d, hsame.trans hd⟩
  · have hpending := hkept.pending
    simp only [SearchCall.pending, hphase] at hpending
    simp only [SearchCall.pending, List.length_append, List.length_singleton]
    exact hpending
  · intro f' hf'
    simp only [SearchCallPhase.fetching.injEq, reduceCtorEq, exists_false, or_false] at hf'
    subst hf'
    refine ⟨hfound, ?_⟩
    simp only [List.length_append, List.length_singleton, List.take_add_one, hnext,
      Option.toList_some]
    exact List.rel_append hshows (.cons ⟨d, hd, rfl⟩ .nil)

/-- What an action does to its call. -/
inductive Acts (reader : x.Snapshot) (c : SearchCall x) : SearchCall x → Prop where
  | reload : Acts reader c { c with phase := .reloaded }
  | search : Acts reader c (c.search reader)
  | acquire {f : Fetching x} (hphase : c.phase = .fetching f) :
      Acts reader c { c with phase := .acquired f reader }
  | fetch {f : Fetching x} {searcher : x.Snapshot} {h : x.Score × x.Address}
      (hphase : c.phase = .acquired f searcher) (hnext : f.page[f.hits.length]? = some h) :
      Acts reader c (c.fetch f searcher h)
  | answer {f : Fetching x} (hphase : c.phase = .fetching f)
      (hall : f.hits.length = f.page.length) : Acts reader c { c with phase := .answered f }

theorem act_cases {reader : x.Snapshot} {c c' : SearchCall x} {l : SearchLabel x}
    (hact : c.act reader l = some c') : Acts reader c c' := by
  cases l with
  | publish snapshot => cases hact
  | call request => cases hact
  | reload k ok =>
    simp only [SearchCall.act] at hact
    split at hact
    · cases hact; exact .reload
    · cases hact
  | search k =>
    simp only [SearchCall.act] at hact
    split at hact
    · cases hact; exact .search
    · cases hact
  | acquire k =>
    simp only [SearchCall.act] at hact
    split at hact
    · rename_i f hphase
      split at hact
      · cases hact; exact .acquire hphase
      · cases hact
    · cases hact
  | fetch k =>
    simp only [SearchCall.act] at hact
    split at hact
    · rename_i f searcher hphase
      obtain ⟨h, hnext, rfl⟩ := Option.map_eq_some_iff.mp hact
      exact .fetch hphase hnext
    · cases hact
  | answer k =>
    simp only [SearchCall.act] at hact
    split at hact
    · rename_i f hphase
      split at hact
      · rename_i hall
        cases hact; exact .answer hphase hall
      · cases hact
    · cases hact

theorem act_kept {reader : x.Snapshot} {c c' : SearchCall x} (hkept : Kept reader c)
    (hact : Acts reader c c') : Kept reader c' := by
  cases hact with
  | reload => exact ⟨hkept.inside, by simp [SearchCall.pending], by simp, by simp, by simp⟩
  | search => exact search_kept hkept.inside
  | @acquire f hphase =>
    have hpending := hkept.pending
    simp only [SearchCall.pending, hphase, List.forall_mem_map] at hpending
    refine ⟨hkept.inside, ?_, ?_, ?_, by simp⟩
    · simp only [SearchCall.pending, List.forall_mem_map]
      intro h hmem
      rw [← List.drop_drop] at hmem
      exact hpending h (List.mem_of_mem_drop hmem)
    · rintro f' (hf' | ⟨searcher, hf'⟩ | hf') <;> cases hf'
      exact hkept.running f (Or.inl hphase)
    · intro f' searcher hf' h hnext
      cases hf'
      obtain ⟨hlt, rfl⟩ := List.getElem?_eq_some_iff.mp hnext
      apply hpending
      rw [List.drop_eq_getElem_cons hlt]
      exact List.mem_cons_self
  | fetch hphase hnext => exact fetch_kept hkept hphase hnext
  | @answer f hphase hall =>
    refine ⟨hkept.inside, by simp [SearchCall.pending], ?_, by simp, ?_⟩
    · rintro f' (hf' | ⟨searcher, hf'⟩ | hf') <;> cases hf'
      exact hkept.running f (Or.inl hphase)
    · intro f' hf'
      cases hf'
      exact hall

/-- A reload that leaves the pending documents alone leaves the call alone. -/
theorem Kept.reload {reader snapshot : x.Snapshot} {c : SearchCall x} (hkept : Kept reader c)
    (hpending : ∀ p ∈ c.pending, x.doc snapshot p.2 = x.doc p.1 p.2) : Kept snapshot c :=
  { hkept with pending := hpending }

theorem actOn_kept {s t : SharedReader x} {k : Nat} {l : SearchLabel x}
    (hact : s.actOn k l = some t) (hkept : ∀ c ∈ s.calls, Kept s.reader c) :
    t.committed = s.committed ∧ t.reader = s.reader ∧ ∀ c ∈ t.calls, Kept t.reader c := by
  obtain ⟨c, hc, hrest⟩ := Option.bind_eq_some_iff.mp hact
  obtain ⟨c', hc', rfl⟩ := Option.map_eq_some_iff.mp hrest
  refine ⟨rfl, rfl, ?_⟩
  intro d hd
  rcases List.mem_or_eq_of_mem_set hd with hd | rfl
  · exact hkept d hd
  · exact act_kept (hkept c (List.mem_of_getElem? hc)) (act_cases hc')

theorem step_kept {s t : SharedReader x} {l : SearchLabel x} (hundisturbed : s.Undisturbed l)
    (hstep : s.step l = some t) (hkept : ∀ c ∈ s.calls, Kept s.reader c) :
    ∀ c ∈ t.calls, Kept t.reader c := by
  cases l with
  | publish snapshot =>
    cases hstep
    exact hkept
  | call request =>
    cases hstep
    intro c hc
    rcases List.mem_append.mp hc with hc | hc
    · exact hkept c hc
    · rw [List.mem_singleton.mp hc]
      exact ⟨by simp, by simp [SearchCall.pending], by simp, by simp, by simp⟩
  | reload k ok =>
    obtain ⟨u, hact, rfl⟩ := Option.map_eq_some_iff.mp hstep
    obtain ⟨hcommitted, hreader, hcalls⟩ := actOn_kept hact hkept
    cases ok with
    | false => exact hcalls
    | true =>
      intro c hc
      change Kept u.committed c
      rw [hcommitted]
      -- The call that reloads has nothing to fetch yet; the others are as before.
      obtain ⟨d, hd, hrest⟩ := Option.bind_eq_some_iff.mp hact
      obtain ⟨d', hd', rfl⟩ := Option.map_eq_some_iff.mp hrest
      rcases List.mem_or_eq_of_mem_set hc with hold | rfl
      · exact (hkept c hold).reload (hundisturbed c hold)
      · apply (hcalls c hc).reload
        simp only [SearchCall.act] at hd'
        split at hd'
        · cases hd'
          simp [SearchCall.pending]
        · cases hd'
  | search k => exact (actOn_kept hstep hkept).2.2
  | acquire k => exact (actOn_kept hstep hkept).2.2
  | fetch k => exact (actOn_kept hstep hkept).2.2
  | answer k => exact (actOn_kept hstep hkept).2.2

/-- If no reload disturbs a call under way, every hit shows the document found for it. -/
theorem run_faithful {s t : SharedReader x} {ls : List (SearchLabel x)} (hnew : s.calls = [])
    (hundisturbed : Machine.Along step Undisturbed s ls) (hrun : Machine.run step s ls = some t) :
    t.Faithful := by
  have hkept : ∀ c ∈ t.calls, Kept t.reader c :=
    Machine.run_guarded (I := fun s => ∀ c ∈ s.calls, Kept s.reader c) (by simp [hnew])
      (fun u l v hG hl hI => step_kept hG hl hI) hundisturbed hrun
  constructor
  · intro c hc
    exact (hkept c hc).inside
  · intro c hc f hf
    obtain ⟨hfound, hshows⟩ := (hkept c hc).running f (Or.inr (Or.inr hf))
    rw [(hkept c hc).complete f hf, List.take_length] at hshows
    exact ⟨hfound, hshows⟩

/-- Snapshots as lists of segments. A search finds everything. -/
abbrev segments : SearchEngine where
  Snapshot := List (List String)
  Address := Nat × Nat
  Query := Unit
  Score := Nat
  Doc := String
  schema := fun _ => ⟨[⟨"_source", .json true⟩], by decide⟩
  allQuery := ()
  parseQuery := fun _ _ _ => .ok ()
  search := fun snapshot _ limit =>
    let all := snapshot.mapIdx fun i docs => docs.mapIdx fun j _ => (1, (i, j))
    some (.ok (all.flatten.length, all.flatten.take limit))
  doc := fun snapshot a =>
    snapshot[a.1]?.map fun docs =>
      match docs[a.2]? with
      | some d => .ok d
      | none => .error s!"Failed to lookup Doc #{a.2}."
  toJson := fun d => some (.object [("_source", .array [.string d])])
  greater := fun a b => b < a
  docEq := inferInstance
  found := by
    intro snapshot query limit total top hsearch h hmem
    simp only [Option.some.injEq, Except.ok.injEq, Prod.mk.injEq] at hsearch
    obtain ⟨-, rfl⟩ := hsearch
    obtain ⟨row, hrow, hcell⟩ := List.mem_flatten.mp (List.mem_of_mem_take hmem)
    obtain ⟨i, hi, rfl⟩ := List.mem_mapIdx.mp hrow
    obtain ⟨j, hj, rfl⟩ := List.mem_mapIdx.mp hcell
    exact ⟨snapshot[i][j], by simp [hi, hj]⟩

/-- One search, while another one starts and reloads the reader. -/
def overlapping (published : List (List String)) : List (SearchLabel segments) :=
  [.call ⟨"*", 1, 0⟩, .reload 0 true, .search 0, .publish published, .call ⟨"*", 10, 0⟩,
    .reload 1 true, .acquire 0, .fetch 0, .answer 0]

instance (s : SharedReader segments) (l : SearchLabel segments) : Decidable (s.Undisturbed l) := by
  unfold Undisturbed
  split <;> infer_instance

/-- A commit between the phases that keeps the document found. -/
theorem run_faithful_example :
    ∃ t, Machine.run step ⟨[["a"]], [], []⟩ (overlapping [["a"], ["b"]]) = some t ∧
      t.calls.map (fun c => c.fetches) = [[([["a"], ["b"]], (0, 0))], []] ∧ t.Faithful := by
  have hrun : (Machine.run step ⟨[["a"]], [], []⟩ (overlapping [["a"], ["b"]])).map
      (fun t => t.calls.map fun c => c.fetches) = some [[([["a"], ["b"]], (0, 0))], []] := by
    decide +kernel
  obtain ⟨t, ht, hfetches⟩ := Option.map_eq_some_iff.mp hrun
  exact ⟨t, ht, hfetches, run_faithful rfl (by decide +kernel) ht⟩

/-- What a search answered, and the snapshot and the addresses it found. -/
def answer? (c : SearchCall segments) :
    Option (List (List String) × List (Nat × Nat × Nat) × List (Option String)) :=
  match c.phase with
  | .answered f => some (f.snapshot, f.page, f.hits.map fun hit => hit.source.asStr)
  | _ => none

/-- Where the document found is deleted and its segment merged away, the search returns
another one. -/
theorem other_document_returned :
    ¬ ∀ (s t : SharedReader segments) (ls : List (SearchLabel segments)), s.calls = [] →
      Machine.run step s ls = some t → t.Faithful := by
  intro halways
  have hrun : (Machine.run step ⟨[["a"], ["b"]], [], []⟩ (overlapping [["b"]])).bind
      (fun t => t.calls.head?.bind answer?) =
      some ([["a"], ["b"]], [(1, (0, 0))], [some "b"]) := by decide +kernel
  obtain ⟨t, ht, hseen⟩ := Option.bind_eq_some_iff.mp hrun
  obtain ⟨c, hc, hphase⟩ := Option.bind_eq_some_iff.mp hseen
  unfold answer? at hphase
  split at hphase
  · rename_i f hanswered
    simp only [Option.some.injEq, Prod.mk.injEq] at hphase
    obtain ⟨hsnapshot, hpage, hsources⟩ := hphase
    obtain ⟨-, hshows⟩ := (halways _ t _ rfl ht).matched c (List.mem_of_mem_head? hc) f hanswered
    rw [hpage] at hshows
    obtain ⟨hit, hits, ⟨d, hd, rfl⟩, -, hcons⟩ := List.forall₂_cons_right_iff.mp hshows
    change f.hits = _ at hcons
    rw [hsnapshot] at hd
    cases hd
    rw [hcons] at hsources
    injection hsources with hsource _
    injection hsource with hsource
    revert hsource
    decide
  · cases hphase

end SharedReader
end Edgewit
