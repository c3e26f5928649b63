import Edgewit.Compaction
import Edgewit.Routes
import Edgewit.System

/-!
# Ingest and the index schema

Where neither the disk nor Tantivy fails, the appender acknowledges every event and the
indexer stages the document of the body as it was sent: `validate_and_process_document`
has no part in it. So a request is treated as its index schema asks exactly when the
validator would leave the body as it is: `enforced_iff`.
-/

namespace Edgewit

/-! ## An appender whose batches succeed -/

namespace Wal

theorem step_past {w t : Wal} {l : Label} (h : Step w l t) :
    t.past = w.past ∨ (t.past = w.past ++ [w.cur] ∧
      (w.phase = .responding [] ∨ w.phase = .failing [])) := by
  cases h with
  | @boot dirOk openOk metadataOk =>
    left
    obtain heq | ⟨handle, disk, size, -, -, heq⟩ := boot_cases w dirOk openOk metadataOk <;> rw [heq]
  | @frame req rest toIndex io =>
    left
    obtain ⟨v, ⟨buf, disk, written, rfl⟩, -, ⟨-, heq⟩ | ⟨-, heq⟩⟩ :=
      writeFrame_cases w req rest toIndex io <;> rw [heq]
  | @flush toIndex io =>
    left
    cases io <;> rfl
  | @sync toIndex ok =>
    left
    cases ok <;> rfl
  | @rotate toIndex flush syncOk openOk =>
    left
    obtain ⟨path, disk, handle, buf, size, written, heq⟩ := rotate_eq w toIndex flush syncOk openOk
    rw [heq]
  | @shutdown io =>
    left
    obtain ⟨buf, disk, written, heq⟩ := sameBooks_flushBuf w io
    rw [shutdown, heq]
  | finishOk phase => exact Or.inr ⟨rfl, Or.inl phase⟩
  | finishFailed phase => exact Or.inr ⟨rfl, Or.inr phase⟩
  | _ => exact Or.inl rfl

/-- Every batch so far has been synced, and none is failing. -/
structure Flawless (w : Wal) : Prop where
  books : Books w
  tidy : Tidy w
  synced : ∀ r ∈ w.past, r.synced = true

theorem step_flawless {w t : Wal} {l : Label} (hstep : Step w l t) (hclean : Clean l)
    (h : Flawless w) : Flawless t := by
  refine ⟨step_books hstep h.books, step_tidy hstep hclean h.tidy, ?_⟩
  rcases step_past hstep with hpast | ⟨hpast, hphase⟩ <;> rw [hpast]
  · exact h.synced
  · rcases hphase with hphase | hphase
    · obtain ⟨done, hcur⟩ : ∃ done, w.cur = _ := by
        simpa only [InProgress, hphase] using h.books.current
      intro r hr
      rcases List.mem_append.mp hr with hr | hr
      · exact h.synced r hr
      · rw [List.mem_singleton.mp hr, hcur]
    · exact absurd hphase (h.tidy.succeeding _)

theorem start_flawless (disk : Disk) (offset : Nat) : Flawless (start disk offset) :=
  ⟨start_books disk offset, ⟨by simp [start], fun _ => rfl⟩, by simp [start]⟩

/-- A batch that is not failing has answered Ok to its first requests. -/
theorem InProgress.answers_ok {phase : Phase} {r : BatchRecord} (h : InProgress phase r)
    (hphase : ∀ toIndex, phase ≠ .failing toIndex) :
    ∃ done, r.answers = done.map (·, .ok ()) ∧ done <+: r.requests := by
  cases phase <;> simp only [InProgress] at h
  case responding =>
    obtain ⟨done, rfl⟩ := h
    exact ⟨done, rfl, List.prefix_append _ _⟩
  case forwarding =>
    obtain ⟨done, req, -, rfl⟩ := h
    refine ⟨done ++ [req], rfl, ?_⟩
    simp
  case failing toIndex => exact absurd rfl (hphase toIndex)
  all_goals exact ⟨[], by simp [h, BatchRecord.start], List.nil_prefix⟩

theorem Flawless.past_answers {w : Wal} (h : Flawless w) {r : BatchRecord} (hr : r ∈ w.past) :
    r.answers = r.requests.map (·, .ok ()) := by
  rcases h.books.settled r hr with ⟨-, -, hans, -⟩ | ⟨hsync, -⟩
  · exact hans
  · rw [h.synced r hr] at hsync
    cases hsync

/-- The requests acknowledged are the first ones that arrived. -/
theorem Flawless.acknowledged_prefix {w : Wal} (h : Flawless w) : w.acknowledged <+: w.arrived := by
  obtain ⟨done, hans, hdone⟩ := h.books.current.answers_ok h.tidy.succeeding
  have hpast : w.past.flatMap (fun r => acknowledgedOf r.answers) =
      w.past.flatMap BatchRecord.requests := by
    apply List.flatMap_congr
    intro r hr
    rw [h.past_answers hr, acknowledgedOf_ok]
  rw [acknowledged, hpast, hans, acknowledgedOf_ok, ← h.books.arrival, List.append_assoc,
    List.append_assoc]
  exact (List.prefix_append_right_inj _).mpr (hdone.trans (List.prefix_append _ _))

theorem Flawless.answers_ok {w : Wal} (h : Flawless w) {req : WalRequest} {a : Answer}
    (hmem : (req, a) ∈ (w.past ++ [w.cur]).flatMap BatchRecord.answers) : a = .ok () := by
  obtain ⟨r, hr, ha⟩ := List.mem_flatMap.mp hmem
  obtain ⟨done, hans⟩ : ∃ done : List WalRequest, r.answers = done.map (·, .ok ()) := by
    rcases List.mem_append.mp hr with hr | hr
    · exact ⟨r.requests, h.past_answers hr⟩
    · obtain ⟨done, hans, -⟩ := h.books.current.answers_ok h.tidy.succeeding
      exact ⟨done, by rw [List.mem_singleton.mp hr, hans]⟩
  rw [hans] at ha
  obtain ⟨_, -, heq⟩ := List.mem_map.mp ha
  exact (Prod.mk.inj heq).2.symm

theorem mem_answers_of_acknowledged {w : Wal} {req : WalRequest} (h : req ∈ w.acknowledged) :
    (req, .ok ()) ∈ (w.past ++ [w.cur]).flatMap BatchRecord.answers := by
  have hof : ∀ answers : List (WalRequest × Answer), req ∈ acknowledgedOf answers →
      (req, .ok ()) ∈ answers := by
    intro answers hmem
    obtain ⟨⟨r, a⟩, ha, heq⟩ := List.mem_filterMap.mp hmem
    cases a with
    | ok _ =>
      cases heq
      exact ha
    | error e => cases heq
  rw [List.flatMap_append, List.mem_append]
  rcases List.mem_append.mp h with hpast | hcur
  · left
    obtain ⟨r, hr, hmem⟩ := List.mem_flatMap.mp hpast
    exact List.mem_flatMap.mpr ⟨r, hr, hof _ hmem⟩
  · right
    simpa using hof _ hcur

/-- The sender of an acknowledged request has received Ok. -/
theorem Flawless.received {w : Wal} (h : Flawless w) {req : WalRequest}
    (hack : req ∈ w.acknowledged) : w.received req = some (.answer (.ok ())) := by
  have hmem := mem_answers_of_acknowledged hack
  unfold Wal.received
  dsimp only
  cases hlookup : ((w.past ++ [w.cur]).flatMap BatchRecord.answers).lookup req with
  | none =>
    have hno := List.lookup_eq_none_iff.mp hlookup _ hmem
    simp at hno
  | some a =>
    obtain ⟨as, bs, heq, -⟩ := List.lookup_eq_some_iff.mp hlookup
    have hfound : (req, a) ∈ (w.past ++ [w.cur]).flatMap BatchRecord.answers := by
      rw [heq]
      simp
    obtain rfl := h.answers_ok hfound
    rfl

end Wal

/-! ## What the indexer makes of a document -/

namespace IndexDefinition

/-- The members that are mapped and not null, of a payload with distinct keys. -/
theorem splitMember_fields {definition : IndexDefinition} (toText : Json → String) {key : String}
    (hkey : key ∈ definition.fields) {map : JsonMap} (hmap : (map.map Prod.fst).Nodup)
    (acc : JsonMap × List String) :
    (map.foldl (definition.splitMember toText) acc).1.get? key =
      ((map.get? key).filter fun val => !val.isNull).or (acc.1.get? key) := by
  induction map generalizing acc with
  | nil => simp
  | cons m rest ih =>
    obtain ⟨k, v⟩ := m
    rw [List.map_cons, List.nodup_cons] at hmap
    rw [List.foldl_cons, ih hmap.2, JsonMap.get?_cons]
    by_cases hk : key = k
    · subst hk
      have hrest : JsonMap.get? rest key = none := by
        rw [get?_eq_none_iff]
        intro m hm heq
        exact hmap.1 (List.mem_map.mpr ⟨m, hm, heq⟩)
      by_cases hnull : v.isNull
      · simp [splitMember, hkey, hnull, hrest, Option.filter_some]
      · simp [splitMember, hkey, hnull, hrest, JsonMap.get?_insert, Option.filter_some]
    · rw [if_neg hk]
      congr 1
      unfold splitMember
      split
      · rw [JsonMap.get?_insert, if_neg hk]
      · rfl

theorem rootDocument_source (definition : IndexDefinition) (toText : Json → String) (map : JsonMap) :
    (definition.rootDocument toText map).get? "_source" = some (.object map) := by
  unfold rootDocument
  dsimp only
  split
  · rw [JsonMap.get?_insert, if_neg (by decide), JsonMap.get?_insert, if_pos rfl]
  · rw [JsonMap.get?_insert, if_pos rfl]

/-- The mapped fields of the document are those of the payload, but for nulls. -/
theorem rootDocument_fields {x : SchemaBuilder} {definition : IndexDefinition}
    (hbuild : x.Buildable definition)
    (toText : Json → String) {map : JsonMap} (hmap : (map.map Prod.fst).Nodup) {key : String}
    (hkey : key ∈ definition.fields) :
    (definition.rootDocument toText map).get? key =
      (map.get? key).filter fun val => !val.isNull := by
  have hsource : key ≠ "_source" := by
    rintro rfl
    exact hbuild.2.1 hkey
  have hfields := splitMember_fields toText hkey hmap ([], [])
  rw [JsonMap.get?_nil, Option.or_none] at hfields
  unfold rootDocument
  dsimp only
  split
  · rename_i hdynamic
    have hkey' : key ≠ "_dynamic" := by
      rintro rfl
      exact hbuild.2.2 hdynamic.1 hkey
    rw [JsonMap.get?_insert, if_neg hkey', JsonMap.get?_insert, if_neg hsource, hfields]
  · rw [JsonMap.get?_insert, if_neg hsource, hfields]

theorem splitMember_declared {definition : IndexDefinition} (toText : Json → String)
    {map : JsonMap} {acc : JsonMap × List String} {m : String × Json}
    (h : m ∈ (map.foldl (definition.splitMember toText) acc).1) :
    m.1 ∈ definition.fields ∨ m ∈ acc.1 := by
  induction map generalizing acc with
  | nil => exact Or.inr h
  | cons member rest ih =>
    rw [List.foldl_cons] at h
    rcases ih h with hdeclared | hmem
    · exact Or.inl hdeclared
    · unfold splitMember at hmem
      split at hmem
      · rename_i hmapped
        rcases JsonMap.mem_insert hmem with rfl | hold
        · exact Or.inl hmapped.1
        · exact Or.inr hold
      · exact Or.inr hmem

/-- The document has no other keys than the schema of its definition. -/
theorem rootDocument_hasField {x : SchemaBuilder} {definition : IndexDefinition} {schema : Schema}
    (hbuild : x.buildSchema definition = some schema) (toText : Json → String) (map : JsonMap) :
    ∀ m ∈ definition.rootDocument toText map, schema.hasField m.1 = true := by
  have hnames : schema.names = definition.schemaFields.map FieldEntry.name :=
    SchemaBuilder.buildSchema_names hbuild
  have hsource : schema.hasField "_source" = true := by
    simp [Schema.hasField, hnames, schemaFields]
  have hdeclared : ∀ m ∈ (map.foldl (definition.splitMember toText) ([], [])).1,
      schema.hasField m.1 = true := by
    intro m hm
    rcases splitMember_declared toText hm with hfield | hnil
    · exact SchemaBuilder.buildSchema_hasField hbuild hfield
    · cases hnil
  intro m hm
  unfold rootDocument at hm
  dsimp only at hm
  split at hm
  · rename_i hdynamic
    rcases JsonMap.mem_insert hm with rfl | hm
    · simp [Schema.hasField, hnames, schemaFields, hdynamic.1, dynamicEntry]
    · rcases JsonMap.mem_insert hm with rfl | hm
      · exact hsource
      · exact hdeclared m hm
  · rcases JsonMap.mem_insert hm with rfl | hm
    · exact hsource
    · exact hdeclared m hm

theorem splitMember_parts {definition : IndexDefinition} (toText : Json → String) {map : JsonMap}
    {m : String × Json} {text : String} (hm : m ∈ map) (hunmapped : m.1 ∉ definition.fields)
    (htext : dynamicPart toText m.2 = some text) (acc : JsonMap × List String) :
    text ∈ (map.foldl (definition.splitMember toText) acc).2 := by
  have hmono : ∀ (rest : JsonMap) (acc : JsonMap × List String), text ∈ acc.2 →
      text ∈ (rest.foldl (definition.splitMember toText) acc).2 := by
    intro rest
    induction rest with
    | nil => exact fun _ h => h
    | cons member rest ih =>
      intro acc h
      apply ih
      unfold splitMember
      split
      · exact h
      · exact List.mem_append_left _ h
  induction map generalizing acc with
  | nil => cases hm
  | cons member rest ih =>
    rw [List.foldl_cons]
    rcases List.mem_cons.mp hm with rfl | hrest
    · apply hmono
      simp [splitMember, hunmapped, htext]
    · exact ih hrest _

/-- In dynamic mode the text of an unmapped value is in `_dynamic`. -/
theorem rootDocument_dynamic {definition : IndexDefinition} (toText : Json → String) {map : JsonMap}
    (hmode : definition.mode = .dynamic) {m : String × Json} {text : String} (hm : m ∈ map)
    (hunmapped : m.1 ∉ definition.fields) (htext : dynamicPart toText m.2 = some text) :
    ∃ parts, text ∈ parts ∧ (definition.rootDocument toText map).get? "_dynamic" =
      some (.string (String.intercalate " " parts)) := by
  have hpart := splitMember_parts toText hm hunmapped htext ([], [])
  refine ⟨_, hpart, ?_⟩
  unfold rootDocument
  dsimp only
  rw [if_pos ⟨hmode, List.ne_nil_of_mem hpart⟩, JsonMap.get?_insert, if_pos rfl]

end IndexDefinition

/-- The document takes its `_source` and its mapped fields from the processed body;
null fields are left out. -/
structure TakenFrom (definition : IndexDefinition) (processed : Json) (doc : JsonMap) : Prop where
  source : doc.get? "_source" = some processed
  mapped : ∀ key ∈ definition.fields,
    doc.get? key = (processed.get key).filter fun val => !val.isNull

/-- The document of a body is taken from what the validator makes of it exactly when
the validator leaves it alone. -/
theorem rootDocument_takenFrom_iff {x : SchemaBuilder} {definition : IndexDefinition}
    (hbuild : x.Buildable definition) (toText : Json → String) {map : JsonMap} (hmap : (map.map Prod.fst).Nodup) :
    (∃ processed, validateAndProcessDocument definition (.object map) = .ok processed ∧
      TakenFrom definition processed (definition.rootDocument toText map)) ↔
    Conforms definition map := by
  rw [← validate_eq_self_iff]
  constructor
  · rintro ⟨processed, hvalid, htaken⟩
    have hsource := htaken.source
    rw [IndexDefinition.rootDocument_source] at hsource
    rw [hvalid, Option.some.inj hsource]
  · intro hvalid
    refine ⟨_, hvalid, IndexDefinition.rootDocument_source _ _ _, ?_⟩
    intro key hkey
    exact IndexDefinition.rootDocument_fields hbuild toText hmap hkey

/-! ## Enforcement -/

/-- The definition of a registered index and what its validator makes of a body that
parses, if it accepts it. -/
def verdict? (x : Externals) (registry : IndexRegistry) (event : IngestEvent) :
    Option (IndexDefinition × Json) :=
  match registry.get event.index, x.fromSlice event.payload with
  | some definition, .ok body =>
    match validateAndProcessDocument definition body with
    | .ok processed => some (definition, processed)
    | .error _ => none
  | _, _ => none

/-- A document is created, and added as the validator left it, or its client gets an
error and nothing is added. -/
def Enforced (x : Externals) (registry : IndexRegistry) (event : IngestEvent) (status : Nat)
    (result : Except Failure Op) : Prop :=
  (status = 201 ∧ ∃ definition processed doc walOffset,
    verdict? x registry event = some (definition, processed) ∧
    result = .ok (.add doc walOffset) ∧ TakenFrom definition processed doc) ∨
  (status ≠ 201 ∧ ∀ op, result ≠ .ok op)

/-- The index is registered with a schema that can be built, the body is an object that
conforms to the definition as it is, and Tantivy takes the document of it. -/
def Admitted (x : Externals) (registry : IndexRegistry) (event : IngestEvent) : Prop :=
  ∃ definition map schema, registry.get event.index = some definition ∧
    x.fromSlice event.payload = .ok (.object map) ∧ x.buildSchema definition = some schema ∧
    x.documentError schema (definition.rootDocument x.toText map) = none ∧ Conforms definition map

theorem document?_eq_some {x : Externals} {registry : IndexRegistry} {event : IngestEvent}
    {doc : JsonMap} :
    x.document? registry event = some doc ↔
      ∃ definition map schema, registry.get event.index = some definition ∧
        x.fromSlice event.payload = .ok (.object map) ∧ x.buildSchema definition = some schema ∧
        x.documentError schema (definition.rootDocument x.toText map) = none ∧
        definition.rootDocument x.toText map = doc := by
  constructor
  · intro h
    unfold Externals.document? at h
    split at h
    · cases h
    · rename_i definition hget
      split at h
      · rename_i map schema hparse hbuild
        simp only [Option.ite_none_right_eq_some, Option.some.injEq] at h
        exact ⟨definition, map, schema, hget, hparse, hbuild, h⟩
      · cases h
  · rintro ⟨definition, map, schema, hget, hparse, hbuild, htakes, rfl⟩
    simp [Externals.document?, hget, hparse, hbuild, htakes]

/-- An acknowledged event whose result is that of its document is treated as its schema
asks exactly when it is admitted. -/
theorem enforced_created_iff {x : Externals} {registry : IndexRegistry} {event : IndexerEvent}
    {result : Except Failure Op}
    (hresult : result.toOption = x.op? registry (.event event)) :
    Enforced x registry event.event 201 result ↔ Admitted x registry event.event := by
  have hdistinct : ∀ {map : JsonMap}, x.fromSlice event.event.payload = .ok (.object map) →
      (map.map Prod.fst).Nodup := by
    intro map hparse
    exact (x.keysSorted _ _ hparse).imp ne_of_lt
  constructor
  · rintro (⟨-, definition, processed, doc, walOffset, hverdict, rfl, htaken⟩ | ⟨hne, -⟩)
    · have hdoc : x.document? registry event.event = some doc := by
        obtain ⟨doc', hdoc', heq⟩ := Option.map_eq_some_iff.mp hresult.symm
        cases heq
        exact hdoc'
      obtain ⟨definition', map, schema, hget, hparse, hbuild, htakes, rfl⟩ :=
        document?_eq_some.mp hdoc
      simp only [verdict?, hget, hparse] at hverdict
      cases hvalid : validateAndProcessDocument definition' (.object map) with
      | error e =>
        rw [hvalid] at hverdict
        cases hverdict
      | ok processed' =>
        rw [hvalid] at hverdict
        cases hverdict
        have hbuildable := (x.buildSchema_isSome_iff definition).mp (by rw [hbuild]; rfl)
        refine ⟨definition, map, schema, hget, hparse, hbuild, htakes, ?_⟩
        exact (rootDocument_takenFrom_iff hbuildable x.toText (hdistinct hparse)).mp
          ⟨_, hvalid, htaken⟩
    · exact absurd rfl hne
  · rintro ⟨definition, map, schema, hget, hparse, hbuild, htakes, hconforms⟩
    have hbuildable := (x.buildSchema_isSome_iff definition).mp (by rw [hbuild]; rfl)
    obtain ⟨processed, hvalid, htaken⟩ :=
      (rootDocument_takenFrom_iff hbuildable x.toText (hdistinct hparse)).mpr hconforms
    have hdoc := document?_eq_some.mpr ⟨definition, map, schema, hget, hparse, hbuild, htakes, rfl⟩
    rw [Externals.op?, hdoc, Option.map_some] at hresult
    refine Or.inl ⟨rfl, definition, processed, definition.rootDocument x.toText map,
      event.walOffset, ?_, ?_, htaken⟩
    · simp [verdict?, hget, hparse, hvalid]
    · cases result with
      | error e => cases hresult
      | ok op => rw [Option.some.inj hresult]

namespace Indexer

/-- Whatever was made of each event taken is what its document asks for. -/
structure Judged (x : Externals) (registry : IndexRegistry) (s : Indexer) : Prop where
  registered : s.registry = registry
  cached : Cached x s
  results : ∀ p ∈ s.taken, p.2.toOption = x.op? registry (.event p.1)

/-- An event that meets the lock has no document to lose. -/
theorem processEvent_judged (x : Externals) {s : Indexer} (hc : Cached x s) {event : IndexerEvent}
    (hunlocked : x.document? s.registry event.event ≠ none →
      event.event.index ∈ s.writers ∨ ¬ s.Locked event.event.index) :
    (s.processEvent x event {}).1.toOption = x.op? s.registry (.event event) := by
  by_cases hfree : event.event.index ∈ s.writers ∨ ¬ s.Locked event.event.index
  · exact processEvent_op? x hc event hfree
  · have hnone : x.document? s.registry event.event = none := by
      by_contra hdoc
      exact hfree (hunlocked hdoc)
    rw [not_or, not_not] at hfree
    obtain ⟨e, he⟩ := processEvent_locked x hfree.1 hfree.2 {}
    rw [he, Externals.op?, hnone]
    rfl

theorem step_judged {c : IndexerConfig} {registry : IndexRegistry} {s t : Indexer}
    {l : IndexerLabel} (hstep : Step c s l t) (hfault : Faultless l)
    (hunlocked : Unlocked c.toExternals s l) (h : Judged c.toExternals registry s) :
    Judged c.toExternals registry t := by
  obtain rfl := h.registered
  rcases step_taken hstep with ⟨faults, event, rest, rfl, hnext, rfl⟩ | ⟨-, htaken, hregistry, -⟩
  · cases hfault
    obtain ⟨_, _, _, _, hsame⟩ :=
      (processEvent_touches c.toExternals { s with receiver := rest } event {}).same
    have hjudged := processEvent_judged c.toExternals (s := { s with receiver := rest }) h.cached
      (hunlocked event (by rw [hnext]; rfl))
    refine ⟨?_, step_cached hstep h.cached, ?_⟩
    · rw [takeEvent_eq, hsame]
      rfl
    · rw [takeEvent_eq, taken_append, List.forall_mem_append, List.forall_mem_singleton]
      refine ⟨?_, hjudged⟩
      rw [hsame]
      exact h.results
  · refine ⟨hregistry, step_cached hstep h.cached, ?_⟩
    rw [htaken]
    exact h.results

end Indexer

namespace System

/-- Neither the disk nor Tantivy fails the step. -/
def Smooth (x : Externals) (s : System) : SystemLabel → Prop
  | .wal l => Wal.Clean l
  | .indexer l => Indexer.Faultless l ∧ Indexer.Unlocked x s.indexer l

instance (x : Externals) (s : System) (l : SystemLabel) : Decidable (Smooth x s l) := by
  cases l <;> unfold Smooth <;> infer_instance

theorem run_smooth {c : IndexerConfig} {disk : Disk} {offset : Nat} {registry : IndexRegistry}
    {store : Table String IndexDir} {t : System} {ls : List SystemLabel}
    (hsmooth : Machine.Along (step c) (Smooth c.toExternals) (start disk offset registry store) ls)
    (h : Machine.run (step c) (start disk offset registry store) ls = some t) :
    Wal.Flawless t.wal ∧ Indexer.Judged c.toExternals registry t.indexer := by
  have haccounts := Indexer.start_accounts c.toExternals registry store
  have hstart : Wal.Flawless (start disk offset registry store).wal ∧
      Indexer.Judged c.toExternals registry (start disk offset registry store).indexer :=
    ⟨Wal.start_flawless disk offset, haccounts.registered, haccounts.cached,
      by simp [start, Indexer.start, Indexer.taken]⟩
  refine Machine.run_guarded (I := fun s : System =>
    Wal.Flawless s.wal ∧ Indexer.Judged c.toExternals registry s.indexer) hstart ?_ hsmooth h
  rintro s l u hl hstep ⟨hwal, hjudged⟩
  cases step_cases hstep with
  | wal moves =>
    exact ⟨Wal.step_flawless (Wal.step_cases moves) hl hwal, hjudged.registered, hjudged.cached,
      hjudged.results⟩
  | indexer own moves =>
    exact ⟨hwal, Indexer.step_judged (Indexer.step_cases moves) hl.1 hl.2 hjudged⟩

/-- The event taken at a place is that of the request that arrived at this place, which
has been acknowledged. -/
theorem taken_acknowledged {c : IndexerConfig} {disk : Disk} {offset : Nat}
    {registry : IndexRegistry} {store : Table String IndexDir} {t : System} {ls : List SystemLabel}
    (h : Machine.run (step c) (start disk offset registry store) ls = some t)
    (hflawless : Wal.Flawless t.wal) {k : Nat} {req : WalRequest}
    {p : IndexerEvent × Except Failure Op} (harrived : t.wal.arrived[k]? = some req)
    (htaken : t.indexer.taken[k]? = some p) : req ∈ t.wal.acknowledged ∧ p.1.event = req.event := by
  obtain ⟨ls', hrun, -⟩ := run_indexer h
  have hsent : t.wal.sent = t.indexer.taken.map Prod.fst ++ t.indexer.receiver :=
    (run_sent h).symm.trans (Indexer.run_accounts hrun).arrived
  have hk : k < t.indexer.taken.length := (List.getElem?_eq_some_iff.mp htaken).1
  have hevent : (t.wal.acknowledged.map WalRequest.event)[k]? = some p.1.event := by
    rw [hflawless.books.forwarded, hsent, List.append_assoc, List.map_append,
      List.getElem?_append_left (by simpa using hk)]
    simp [htaken]
  rw [List.getElem?_map, Option.map_eq_some_iff] at hevent
  obtain ⟨req', hreq', heq⟩ := hevent
  obtain ⟨later, hlater⟩ := hflawless.acknowledged_prefix
  have hsame : t.wal.arrived[k]? = some req' := by
    rw [← hlater, List.getElem?_append_left (List.getElem?_eq_some_iff.mp hreq').1, hreq']
  rw [harrived] at hsame
  obtain rfl := Option.some.inj hsame
  exact ⟨List.mem_of_getElem? hreq', heq.symm⟩

/-- **A document is treated as its index schema asks exactly when it is admitted.** -/
theorem enforced_iff {c : IndexerConfig} {disk : Disk} {offset : Nat} {registry : IndexRegistry}
    {store : Table String IndexDir} {t : System} {ls : List SystemLabel}
    (hsmooth : Machine.Along (step c) (Smooth c.toExternals) (start disk offset registry store) ls)
    (h : Machine.run (step c) (start disk offset registry store) ls = some t) {k : Nat}
    {req : WalRequest} {event : IndexerEvent} {result : Except Failure Op}
    (harrived : t.wal.arrived[k]? = some req) (htaken : t.indexer.taken[k]? = some (event, result)) :
    ∃ received, t.wal.received req = some received ∧
      ∀ doc : DocRequest, doc.event? c.toExternals = some req.event →
        (Enforced c.toExternals registry req.event (doc.status received) result ↔
          Admitted c.toExternals registry req.event) := by
  obtain ⟨hflawless, hjudged⟩ := run_smooth hsmooth h
  obtain ⟨hack, hevent⟩ := taken_acknowledged h hflawless harrived htaken
  refine ⟨.answer (.ok ()), hflawless.received hack, fun doc _ => ?_⟩
  rw [(doc.status_created_iff _).mpr rfl, ← hevent]
  exact enforced_created_iff (hjudged.results _ (List.mem_of_getElem? htaken))

/-- An empty document for a dynamic index with an optional field. -/
theorem enforced_iff_example : ∃ result,
    Enforced .tiny .tiny ⟨"a", utf8 "\x7b\x7d"⟩ 201 result := by
  let event : IngestEvent := ⟨"a", utf8 "\x7b\x7d"⟩
  have hrun : (Machine.run (step .tiny) (start .empty 0 .tiny ∅) (oneEvent event)).map
      (fun t => (t.wal.arrived, t.indexer.taken.map Prod.fst,
        (t.wal.received ⟨event, 0⟩).map fun r => (DocRequest.ingestDoc "a" "\x7b\x7d").status r)) =
      some ([⟨event, 0⟩], [⟨event, 13⟩], some 201) := by decide +kernel
  obtain ⟨t, ht, hseen⟩ := Option.map_eq_some_iff.mp hrun
  simp only [Prod.mk.injEq] at hseen
  obtain ⟨harrived, htaken, hstatus⟩ := hseen
  obtain ⟨⟨e, result⟩, hp, he⟩ : ∃ p, t.indexer.taken[0]? = some p ∧ p.1 = ⟨event, 13⟩ := by
    have hfirst : (t.indexer.taken.map Prod.fst)[0]? = some ⟨event, 13⟩ := by rw [htaken]; rfl
    rwa [List.getElem?_map, Option.map_eq_some_iff] at hfirst
  have hsmooth : Machine.Along (step .tiny) (Smooth Externals.tiny) (start .empty 0 .tiny ∅)
      (oneEvent event) := by decide +kernel
  obtain ⟨received, hreceived, hiff⟩ :=
    enforced_iff (c := .tiny) hsmooth ht (k := 0) (by rw [harrived]; rfl) hp
  rw [hreceived, Option.map_some] at hstatus
  have hadmitted : Admitted .tiny .tiny event := by
    let definition : IndexDefinition :=
      { name := "a", fields := (∅ : Table String FieldDefinition).insert "timestamp"
          { fieldType := .datetime, optional := true } }
    obtain ⟨schema, hbuild⟩ := Option.isSome_iff_exists.mp
      ((Externals.tiny.buildSchema_isSome_iff definition).mpr (by decide +kernel))
    exact ⟨definition, [], schema, rfl, by simp [Externals.tiny, event], hbuild,
      rfl, by decide +kernel⟩
  have henforced := (hiff (.ingestDoc "a" "\x7b\x7d") rfl).mpr hadmitted
  rw [Option.some.inj hstatus] at henforced
  exact ⟨result, henforced⟩

/-- A strict index with one optional field. -/
def strictRegistry : IndexRegistry :=
  IndexRegistry.new.insert
    { name := "a", mode := .strict, fields := (∅ : Table String FieldDefinition).insert "timestamp"
        { fieldType := .datetime, optional := true } }

/-- A document with a key that its strict index does not know. -/
theorem strict_not_enforced :
    ¬ ∀ (c : IndexerConfig) (disk : Disk) (offset : Nat) (registry : IndexRegistry)
      (store : Table String IndexDir) (ls : List SystemLabel) (t : System) (k : Nat)
      (req : WalRequest) (event : IndexerEvent) (result : Except Failure Op),
      Machine.Along (step c) (Smooth c.toExternals) (start disk offset registry store) ls →
      Machine.run (step c) (start disk offset registry store) ls = some t →
      t.wal.arrived[k]? = some req → t.indexer.taken[k]? = some (event, result) →
      ∃ received, t.wal.received req = some received ∧
        ∀ doc : DocRequest, doc.event? c.toExternals = some req.event →
          Enforced c.toExternals registry req.event (doc.status received) result := by
  intro halways
  let event : IngestEvent := ⟨"a", utf8 "\x7b\"b\":1\x7d"⟩
  have hrun : (Machine.run (step .tiny) (start .empty 0 strictRegistry ∅) (oneEvent event)).map
      (fun t => (t.wal.arrived, t.indexer.taken.length, (t.wal.received ⟨event, 0⟩).map fun r =>
        (DocRequest.ingestDoc "a" "\x7b\"b\":1\x7d").status r)) =
      some ([⟨event, 0⟩], 1, some 201) := by decide +kernel
  obtain ⟨t, ht, hseen⟩ := Option.map_eq_some_iff.mp hrun
  simp only [Prod.mk.injEq] at hseen
  obtain ⟨harrived, htaken, hstatus⟩ := hseen
  obtain ⟨⟨e, result⟩, hp⟩ : ∃ p, t.indexer.taken[0]? = some p :=
    ⟨_, List.getElem?_eq_getElem (by rw [htaken]; decide)⟩
  have hsmooth : Machine.Along (step .tiny) (Smooth Externals.tiny)
      (start .empty 0 strictRegistry ∅) (oneEvent event) := by decide +kernel
  obtain ⟨received, hreceived, hall⟩ := halways .tiny .empty 0 strictRegistry ∅ (oneEvent event) t 0
    ⟨event, 0⟩ e result hsmooth ht (by rw [harrived]; rfl) hp
  have henforced := hall (.ingestDoc "a" "\x7b\"b\":1\x7d") rfl
  rw [hreceived, Option.map_some] at hstatus
  rw [Option.some.inj hstatus] at henforced
  have hrefused : (verdict? Externals.tiny strictRegistry event).isSome = false := by decide +kernel
  rcases henforced with ⟨-, definition, processed, doc, walOffset, hverdict, -⟩ | ⟨hne, -⟩
  · rw [show verdict? Externals.tiny strictRegistry event = _ from hverdict] at hrefused
    cases hrefused
  · exact hne rfl

end System
end Edgewit
