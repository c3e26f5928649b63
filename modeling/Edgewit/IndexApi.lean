import Edgewit.DefinitionFormat
import Edgewit.Management

/-!
# The index endpoints

`auth_middleware` before the handlers of `/indexes` and `/indexes/{index}`, from the body of a
request to the body of its answer. To a client this is a store of JSON documents: `after` says
what a request does to the documents shown, and `Matches` how it is answered.
-/

namespace Edgewit.IndexApi
open Machine
open Edgewit.Catalog (createIndexHandler deleteIndexHandler)

/-! ## Authentication -/

/-- The bytes of a header value. -/
abbrev HeaderValue := List UInt8

/-- `get_expected_auth_header`, from the variable `EDGEWIT_API_KEY`. -/
def expectedAuthHeader (key : Option String) : Option String :=
  (key.filter (· ≠ "")).map ("Bearer " ++ ·)

/-- What the environment says, and `HeaderValue::to_str` of the http library. -/
structure ApiConfig where
  expected : Option String
  managementEnabled : Bool
  yaml : Yaml
  toStr : HeaderValue → Option String

/-- Whether `auth_middleware` lets a request through. -/
def authorized (c : ApiConfig) (header : Option HeaderValue) : Bool :=
  match c.expected with
  | none => true
  | some expected => header.bind c.toStr = some expected

/-! ## Requests -/

/-- Without the disk steps that fail, which are the environment's. -/
inductive ApiCall where
  | list
  | get (index : IndexName)
  | put (index : IndexName) (body : Json) (faults : ManagementFaults)
  | delete (index : IndexName) (faults : ManagementFaults)

structure ApiRequest where
  header : Option HeaderValue
  call : ApiCall

inductive ApiAnswer where
  | unauthorized
  /-- The body is not a definition: the handler is not run. -/
  | unprocessable
  | answered (status : Nat) (body : Json)

structure ApiServer where
  catalog : Catalog
  answers : List (ApiRequest × ApiAnswer)

def listIndexesHandler (s : Catalog) : Nat × Json :=
  (200, .array (s.registry.indexes.entries.map fun e => e.2.toJson))

def getIndexHandler (s : Catalog) (index : IndexName) : Nat × Json :=
  match s.registry.get index with
  | some definition => (200, definition.toJson)
  | none => (404, errorBody "Index not found")

def ApiAnswer.of (answer : Nat × Json) : ApiAnswer := .answered answer.1 answer.2

/-- `none` is a panic, which ends the process. -/
def handle (c : ApiConfig) (s : Catalog) : ApiCall → Option (ApiAnswer × Catalog)
  | .list => some (.of (listIndexesHandler s), s)
  | .get index => some (.of (getIndexHandler s index), s)
  | .put index body faults =>
    match IndexDefinition.fromJson body with
    | none => some (.unprocessable, s)
    | some payload =>
      (createIndexHandler c.yaml c.managementEnabled faults s index payload).map fun r =>
        (.of r.1, r.2)
  | .delete index faults =>
    let r := deleteIndexHandler c.managementEnabled faults s index
    some (.of r.1, r.2)

def serve (c : ApiConfig) (s : Catalog) (req : ApiRequest) : Option (ApiAnswer × Catalog) :=
  if authorized c req.header then handle c s req.call else some (.unauthorized, s)

def step (c : ApiConfig) (s : ApiServer) (req : ApiRequest) : Option ApiServer :=
  (serve c s.catalog req).map fun r => ⟨r.2, s.answers ++ [(req, r.1)]⟩

/-! ## What is shown -/

/-- The document under each name. -/
abbrev Shown := String → Option Json

def shown (s : Catalog) : Shown := fun name => (s.registry.get name).map IndexDefinition.toJson

/-- The document that a body becomes under a name, if it is a valid definition. -/
def accepted (index : String) (body : Json) : Option Json :=
  (IndexDefinition.fromJson body).bind fun payload =>
    if validateSchema (payload.under index) = some (.ok ()) then some (payload.under index).toJson
    else none

/-- What a request leaves to be shown. -/
def after (c : ApiConfig) (docs : Shown) (req : ApiRequest) : Shown :=
  if authorized c req.header ∧ c.managementEnabled then
    match req.call with
    | .put index body _ =>
      match accepted index body with
      | some doc => Function.update docs index (some doc)
      | none => docs
    | .delete index _ => Function.update docs index none
    | _ => docs
  else docs

/-- The answer to a call that is let through, where `docs` is shown. -/
inductive Replies (c : ApiConfig) (docs : Shown) : ApiCall → ApiAnswer → Prop where
  | list {items : List Json} (hnodup : items.Nodup)
      (hitems : ∀ doc, doc ∈ items ↔ ∃ name, docs name = some doc) :
      Replies c docs .list (.answered 200 (.array items))
  | get {index : IndexName} {doc : Json} (hdoc : docs index = some doc) :
      Replies c docs (.get index) (.answered 200 doc)
  | missing {index : IndexName} (hdoc : docs index = none) :
      Replies c docs (.get index) (.answered 404 (errorBody "Index not found"))
  | unprocessable {index : IndexName} {body : Json} {faults : ManagementFaults}
      (hbody : IndexDefinition.fromJson body = none) :
      Replies c docs (.put index body faults) .unprocessable
  | putDisabled {index : IndexName} {body : Json} {faults : ManagementFaults}
      (hbody : (IndexDefinition.fromJson body).isSome = true) (hoff : c.managementEnabled = false) :
      Replies c docs (.put index body faults) (.of managementDisabled)
  | refused {index : IndexName} {body : Json} {faults : ManagementFaults} {text : String}
      (hbody : (IndexDefinition.fromJson body).isSome = true) (hon : c.managementEnabled = true)
      (hdoc : accepted index body = none) :
      Replies c docs (.put index body faults) (.answered 400 (errorBody text))
  | put {index : IndexName} {body : Json} {faults : ManagementFaults} {doc : Json}
      {answer : Nat × Json} (hon : c.managementEnabled = true)
      (hdoc : accepted index body = some doc) (hstatus : answer.1 = 200 ∨ answer.1 = 500) :
      Replies c docs (.put index body faults) (.of answer)
  | deleteDisabled {index : IndexName} {faults : ManagementFaults}
      (hoff : c.managementEnabled = false) :
      Replies c docs (.delete index faults) (.of managementDisabled)
  | delete {index : IndexName} {faults : ManagementFaults} {doc : Json}
      (hon : c.managementEnabled = true) (hdoc : docs index = some doc) :
      Replies c docs (.delete index faults)
        (.answered 200 (messageBody "Index deleted successfully"))
  | notFound {index : IndexName} {faults : ManagementFaults} (hon : c.managementEnabled = true)
      (hdoc : docs index = none) :
      Replies c docs (.delete index faults) (.answered 404 (errorBody "Index not found"))

def Matches (c : ApiConfig) (docs : Shown) (req : ApiRequest) (answer : ApiAnswer) : Prop :=
  if authorized c req.header then Replies c docs req.call answer
  else answer = .unauthorized

/-! ## The endpoints as a store of documents -/

theorem shown_insert (registry : IndexRegistry) (folder : Folder) (d : IndexDefinition) :
    shown ⟨registry.insert d, folder⟩ =
      Function.update (shown ⟨registry, folder⟩) d.name (some d.toJson) := by
  funext name
  rw [Function.update_apply]
  by_cases hname : name = d.name
  · simp [shown, IndexRegistry.get_insert, hname]
  · simp [shown, IndexRegistry.get_insert, hname]

theorem shown_erase (registry : IndexRegistry) (folder : Folder) (index : String) :
    shown ⟨registry.erase index, folder⟩ =
      Function.update (shown ⟨registry, folder⟩) index none := by
  funext name
  rw [Function.update_apply]
  by_cases hname : name = index
  · simp [shown, IndexRegistry.get_erase, hname]
  · simp [shown, IndexRegistry.get_erase, hname]

/-- The list holds what is shown, each document once. -/
theorem list_replies (c : ApiConfig) (s : Catalog) :
    Replies c (shown s) .list (.of (listIndexesHandler s)) := by
  apply Replies.list
  · rw [List.nodup_map_iff_inj_on s.registry.indexes.nodupKeys.nodup]
    intro e he e' he' heq
    obtain ⟨name, d⟩ := e
    obtain ⟨name', d'⟩ := e'
    have hname := IndexDefinition.name_eq_of_toJson heq
    have hd := AList.mem_lookup_iff.mpr he
    have hd' := AList.mem_lookup_iff.mpr he'
    simp only [s.registry.named name d hd, s.registry.named name' d' hd'] at hname
    subst hname
    rw [Option.mem_unique hd hd']
  · intro doc
    constructor
    · intro hdoc
      obtain ⟨e, he, rfl⟩ := List.mem_map.mp hdoc
      exact ⟨e.1, congrArg (Option.map _) (AList.mem_lookup_iff.mpr he)⟩
    · rintro ⟨name, hdoc⟩
      obtain ⟨d, hd, rfl⟩ := Option.map_eq_some_iff.mp hdoc
      exact List.mem_map.mpr ⟨⟨name, d⟩, AList.mem_lookup_iff.mp hd, rfl⟩

theorem get_replies (c : ApiConfig) (s : Catalog) (index : IndexName) :
    Replies c (shown s) (.get index) (.of (getIndexHandler s index)) := by
  unfold getIndexHandler
  cases hget : s.registry.get index with
  | none => exact .missing (by simp [shown, hget])
  | some d => exact .get (by simp [shown, hget])

/-- Whether a definition can be stored does not matter to what is registered. -/
theorem persist_registry (x : Yaml) (faults : ManagementFaults) (s : Catalog) (index : String)
    (payload : IndexDefinition) :
    (s.persist x faults index payload).2.registry = s.registry ∧
      ((s.persist x faults index payload).1.1 = 200 ∨
        (s.persist x faults index payload).1.1 = 500) := by
  unfold Catalog.persist
  split
  · exact ⟨rfl, Or.inr rfl⟩
  split
  · exact ⟨rfl, Or.inr rfl⟩
  · dsimp only
    split
    · exact ⟨rfl, Or.inl rfl⟩
    · exact ⟨rfl, Or.inr rfl⟩

/-- A definition is validated, registered and then stored. -/
theorem createIndexHandler_eq (x : Yaml) (faults : ManagementFaults) (s : Catalog)
    (index : IndexName) (payload : IndexDefinition) :
    createIndexHandler x true faults s index payload =
      (validateSchema (payload.under index)).map fun
        | .error e => ((400, errorBody s!"Validation failed: {e.text}"), s)
        | .ok () => Catalog.persist x faults
            { s with registry := s.registry.insert (payload.under index) } index
            (payload.under index) := by
  simp only [createIndexHandler, Bool.not_true, Bool.false_eq_true, if_false,
    IndexRegistry.upsert, Option.map_map]
  congr 1
  funext verdict
  cases verdict <;> rfl

theorem put_matches {c : ApiConfig} {s t : Catalog} {index : IndexName} {body : Json}
    {faults : ManagementFaults} {answer : ApiAnswer}
    (h : handle c s (.put index body faults) = some (answer, t)) :
    Replies c (shown s) (.put index body faults) answer ∧
      shown t = if c.managementEnabled then
        (match accepted index body with
        | some doc => Function.update (shown s) index (some doc)
        | none => shown s)
      else shown s := by
  simp only [handle] at h
  cases hbody : IndexDefinition.fromJson body with
  | none =>
    simp only [hbody, Option.some.injEq, Prod.mk.injEq] at h
    obtain ⟨rfl, rfl⟩ := h
    exact ⟨.unprocessable hbody, by simp [accepted, hbody]⟩
  | some payload =>
    have hsome : (IndexDefinition.fromJson body).isSome = true := by rw [hbody]; rfl
    simp only [hbody] at h
    obtain ⟨r, hr, heq⟩ := Option.map_eq_some_iff.mp h
    obtain ⟨rfl, rfl⟩ := Prod.mk.inj heq
    cases hon : c.managementEnabled with
    | false =>
      rw [hon] at hr
      cases hr
      exact ⟨.putDisabled hsome hon, by simp⟩
    | true =>
      rw [hon, createIndexHandler_eq] at hr
      obtain ⟨verdict, hverdict, rfl⟩ := Option.map_eq_some_iff.mp hr
      cases verdict with
      | error e =>
        have hnone : accepted index body = none := by simp [accepted, hbody, hverdict]
        exact ⟨.refused hsome hon hnone, by simp [hnone]⟩
      | ok u =>
        have hdoc : accepted index body = some (payload.under index).toJson := by
          simp [accepted, hbody, hverdict]
        obtain ⟨hregistry, hstatus⟩ := persist_registry c.yaml faults
          { s with registry := s.registry.insert (payload.under index) } index (payload.under index)
        refine ⟨.put hon hdoc hstatus, ?_⟩
        funext name
        simp only [shown, hregistry, hdoc, if_true]
        exact congrFun (shown_insert s.registry s.folder (payload.under index)) name

theorem delete_matches {c : ApiConfig} {s t : Catalog} {index : IndexName}
    {faults : ManagementFaults} {answer : ApiAnswer}
    (h : handle c s (.delete index faults) = some (answer, t)) :
    Replies c (shown s) (.delete index faults) answer ∧
      shown t = if c.managementEnabled then Function.update (shown s) index none
        else shown s := by
  simp only [handle, Option.some.injEq, Prod.mk.injEq] at h
  obtain ⟨rfl, rfl⟩ := h
  unfold deleteIndexHandler
  cases hon : c.managementEnabled with
  | false => exact ⟨.deleteDisabled hon, by simp⟩
  | true =>
    simp only [Bool.not_true, Bool.false_eq_true, if_false, IndexRegistry.remove]
    by_cases hmem : index.1 ∈ s.registry.indexes
    · obtain ⟨d, hd⟩ := Option.isSome_iff_exists.mp (AList.lookup_isSome.mpr hmem)
      have hdoc : shown s index = some d.toJson := congrArg (Option.map _) hd
      simp only [if_pos hmem, if_true]
      exact ⟨.delete hon hdoc, shown_erase s.registry _ index⟩
    · have hdoc : shown s index = none :=
        congrArg (Option.map _) (AList.lookup_eq_none.mpr hmem)
      simp only [if_neg hmem, if_true]
      refine ⟨.notFound hon hdoc, ?_⟩
      rw [← hdoc, Function.update_eq_self]

/-- What one request does. -/
theorem serve_matches {c : ApiConfig} {s t : Catalog} {req : ApiRequest} {answer : ApiAnswer}
    (h : serve c s req = some (answer, t)) :
    Matches c (shown s) req answer ∧ shown t = after c (shown s) req := by
  unfold serve at h
  cases hauth : authorized c req.header with
  | false =>
    simp only [hauth, Bool.false_eq_true, if_false, Option.some.injEq, Prod.mk.injEq] at h
    obtain ⟨rfl, rfl⟩ := h
    simp [Matches, after, hauth]
  | true =>
    simp only [hauth, if_true] at h
    simp only [Matches, after, hauth, if_true, true_and]
    cases hcall : req.call with
    | list =>
      rw [hcall] at h
      cases h
      exact ⟨list_replies c s, by simp⟩
    | get index =>
      rw [hcall] at h
      cases h
      exact ⟨get_replies c s index, by simp⟩
    | put index body faults => exact put_matches (hcall ▸ h)
    | delete index faults => exact delete_matches (hcall ▸ h)

/-- The answers given in a run are those of a store of documents. -/
structure Mirrored (c : ApiConfig) (docs : Shown) (reqs : List ApiRequest) (s : ApiServer) :
    Prop where
  shown : shown s.catalog = reqs.foldl (after c) docs
  requests : s.answers.map Prod.fst = reqs
  answers : ∀ k req answer, s.answers[k]? = some (req, answer) →
    Matches c ((reqs.take k).foldl (after c) docs) req answer

theorem step_mirrored {c : ApiConfig} {docs : Shown} {reqs : List ApiRequest} {s t : ApiServer}
    {req : ApiRequest} (hs : Mirrored c docs reqs s) (h : step c s req = some t) :
    Mirrored c docs (reqs ++ [req]) t := by
  obtain ⟨⟨answer, catalog⟩, hserve, rfl⟩ := Option.map_eq_some_iff.mp h
  obtain ⟨hmatches, hafter⟩ := serve_matches hserve
  have hlength : s.answers.length = reqs.length := by rw [← hs.requests, List.length_map]
  refine ⟨?_, by simp [hs.requests], fun k req' answer' hk => ?_⟩
  · rw [List.foldl_append, ← hs.shown]
    exact hafter
  · rw [List.getElem?_append] at hk
    split at hk
    · rename_i hlt
      rw [List.take_append_of_le_length (by omega)]
      exact hs.answers k req' answer' hk
    · rename_i hlt
      rw [List.getElem?_singleton] at hk
      split at hk
      · rename_i hzero
        cases hk
        rw [show k = reqs.length by omega, List.take_left', ← hs.shown]
        · exact hmatches
        · rfl
      · cases hk

theorem run_mirrored {c : ApiConfig} {s t : ApiServer} {reqs : List ApiRequest}
    (hnew : s.answers = []) (hrun : run (step c) s reqs = some t) :
    Mirrored c (shown s.catalog) reqs t :=
  run_history (I := fun reqs t => Mirrored c (shown s.catalog) reqs t) (G := fun _ _ => True)
    ⟨rfl, by simp [hnew], by simp [hnew]⟩ (fun _ _ _ _ _ _ hstep hs => step_mirrored hs hstep)
    (along_of_labels fun _ _ => trivial) hrun

/-- In every run the endpoints answer as a store of documents that the authorized requests
change: a definition is shown from the `PUT` that was not refused, whether or not it could be
written to disk, to the next `DELETE`. -/
theorem answered_as_store {c : ApiConfig} {s t : ApiServer} {reqs : List ApiRequest}
    (hnew : s.answers = []) (hrun : run (step c) s reqs = some t) :
    shown t.catalog = reqs.foldl (after c) (shown s.catalog) ∧ t.answers.map Prod.fst = reqs ∧
      ∀ k req answer, t.answers[k]? = some (req, answer) →
        Matches c ((reqs.take k).foldl (after c) (shown s.catalog)) req answer := by
  have hmirrored := run_mirrored hnew hrun
  exact ⟨hmirrored.shown, hmirrored.requests, hmirrored.answers⟩

/-- Visible ASCII, a space or a tab. -/
def plainByte (b : UInt8) : Bool := (32 ≤ b && b < 127) || b = 9

/-- `HeaderValue::to_str` as it is documented. -/
def headerText (value : HeaderValue) : Option String :=
  if value.all plainByte then some (String.ofList (value.map fun b => Char.ofNat b.toNat))
  else none

/-- A server that asks for the key `k`. -/
def keyed : ApiConfig := ⟨expectedAuthHeader (some "k"), true, .bare, headerText⟩

def bearer : HeaderValue := "Bearer k".toList.map fun ch => UInt8.ofNat ch.toNat

def started : ApiServer := ⟨⟨.new, ∅⟩, []⟩

def logs : IndexName := ⟨"logs", by decide⟩

/-- A definition is put, someone without the key tries to delete it, and it is read. -/
def requests : List ApiRequest :=
  [⟨some bearer, .put logs (.object [("fields", .object []), ("name", .string "other")]) {}⟩,
   ⟨none, .delete logs {}⟩, ⟨some bearer, .get logs⟩]

theorem answered_as_store_example : ∃ t, run (step keyed) started requests = some t ∧
    shown t.catalog = requests.foldl (after keyed) (shown started.catalog) :=
  ⟨_, rfl, (answered_as_store rfl rfl).1⟩

/-! ## Documents that are put back -/

/-- A document under another name. -/
def renamed (name : String) : Json → Json
  | .object members => .object (JsonMap.insert "name" (.string name) members)
  | doc => doc

theorem toJson_under (d : IndexDefinition) (name : String) :
    (d.under name).toJson = renamed name d.toJson := by
  apply Serde.encodeStruct_insert (by simp [IndexDefinition.members])
    (by simp [IndexDefinition.members])
  intro key
  simp only [IndexDefinition.members, IndexDefinition.under, JsonMap.get?_cons, JsonMap.get?_nil]
  split <;> rfl

/-- A valid definition that is settled is accepted under any name. -/
theorem accepted_toJson {d : IndexDefinition} (hsettled : d.Settled)
    (hvalid : validateSchema d = some (.ok ())) (name : String) :
    accepted name d.toJson = some (renamed name d.toJson) := by
  obtain ⟨d', hread, hsame⟩ := d.round_trip_iff.mpr hsettled
  have hvalid' : validateSchema (d'.under name) = some (.ok ()) := by
    rw [← hvalid, ← hsame.validateSchema_eq]
    rfl
  simp only [accepted, hread, Option.bind_some, hvalid', if_true, toJson_under, hsame.toJson_eq]

/-- What is shown is what a definition without surprises is sent as: no default is `null`. -/
def Proper (docs : Shown) : Prop :=
  ∀ name doc, docs name = some doc → ∃ d : IndexDefinition, d.toJson = doc ∧ d.name = name ∧
    d.Settled ∧ validateSchema d = some (.ok ())

theorem accepted_proper {index : String} {body doc : Json} (h : accepted index body = some doc) :
    ∃ d : IndexDefinition, d.toJson = doc ∧ d.name = index ∧ d.Settled ∧
      validateSchema d = some (.ok ()) := by
  obtain ⟨payload, hread, hdoc⟩ := Option.bind_eq_some_iff.mp h
  rw [Option.ite_none_right_eq_some] at hdoc
  obtain ⟨hvalid, hdoc⟩ := hdoc
  exact ⟨payload.under index, Option.some.inj hdoc, rfl, payload.settled_of_fromJson hread, hvalid⟩

theorem after_proper {c : ApiConfig} {docs : Shown} (hdocs : Proper docs) (req : ApiRequest) :
    Proper (after c docs req) := by
  have hupdate : ∀ (index : String) (o : Option Json), (∀ doc, o = some doc →
      ∃ d : IndexDefinition, d.toJson = doc ∧ d.name = index ∧ d.Settled ∧
        validateSchema d = some (.ok ())) → Proper (Function.update docs index o) := by
    intro index o ho name doc hdoc
    rw [Function.update_apply] at hdoc
    split at hdoc
    · rename_i hname
      subst hname
      exact ho doc hdoc
    · exact hdocs name doc hdoc
  unfold after
  split
  · split
    · split
      · rename_i doc hdoc
        refine hupdate _ _ fun doc' h => ?_
        cases h
        exact accepted_proper hdoc
      · exact hdocs
    · exact hupdate _ none (by simp)
    · exact hdocs
  · exact hdocs

theorem renamed_proper {docs : Shown} (hdocs : Proper docs) {name : String} {doc : Json}
    (hdoc : docs name = some doc) : renamed name doc = doc := by
  obtain ⟨d, rfl, rfl, -, -⟩ := hdocs name doc hdoc
  rw [← toJson_under]
  rfl

theorem put_shown {c : ApiConfig} {s : ApiServer} {index index' : IndexName} {doc : Json}
    {faults : ManagementFaults} {req : ApiRequest} (hdocs : Proper (shown s.catalog))
    (hauth : authorized c req.header = true) (hon : c.managementEnabled = true)
    (hdoc : shown s.catalog index = some doc) (hcall : req.call = .put index' doc faults) :
    ∃ u status body, step c s req = some u ∧ (status = 200 ∨ status = 500) ∧
      u.answers = s.answers ++ [(req, .answered status body)] ∧
      shown u.catalog = Function.update (shown s.catalog) index' (some (renamed index' doc)) := by
  obtain ⟨d, rfl, hname, hsettled, hvalid⟩ := hdocs index doc hdoc
  have haccepted := accepted_toJson hsettled hvalid index'
  obtain ⟨d', hread, hsame⟩ := d.round_trip_iff.mpr hsettled
  have hvalid' : validateSchema (d'.under index') = some (.ok ()) := by
    rw [← hvalid, ← hsame.validateSchema_eq]
    rfl
  obtain ⟨r, hr⟩ : ∃ r, serve c s.catalog req = some r := by
    simp only [serve, hauth, if_true, hcall, handle, hread, hon, createIndexHandler_eq, hvalid',
      Option.map_some, Option.some.injEq, exists_eq']
  obtain ⟨hmatches, hafter⟩ := serve_matches hr
  simp only [Matches, hauth, if_true, hcall] at hmatches
  simp only [after, hauth, hon, and_self, if_true, hcall, haccepted] at hafter
  obtain ⟨answer, catalog⟩ := r
  cases hmatches with
  | unprocessable hbody => rw [hread] at hbody; cases hbody
  | putDisabled hbody hoff => rw [hon] at hoff; cases hoff
  | refused hbody _ hnone => rw [haccepted] at hnone; cases hnone
  | put _ _ hstatus =>
    exact ⟨⟨catalog, _⟩, _, _, by rw [step, hr]; rfl, hstatus, rfl, hafter⟩

/-- Whatever the requests were: a document that is shown is accepted under every name, and is
then shown there, with that name in place of its own. Put back under its own name, it leaves
what is shown as it is. -/
theorem copied {c : ApiConfig} {s t : ApiServer} {reqs : List ApiRequest} {req : ApiRequest}
    {index index' : IndexName} {doc : Json} {faults : ManagementFaults}
    (hstart : Proper (shown s.catalog)) (hrun : run (step c) s reqs = some t)
    (hauth : authorized c req.header = true) (hon : c.managementEnabled = true)
    (hdoc : shown t.catalog index = some doc) (hcall : req.call = .put index' doc faults) :
    ∃ u status body, step c t req = some u ∧ (status = 200 ∨ status = 500) ∧
      u.answers = t.answers ++ [(req, .answered status body)] ∧
      shown u.catalog = Function.update (shown t.catalog) index' (some (renamed index' doc)) ∧
      (index' = index → shown u.catalog = shown t.catalog) := by
  have hdocs : Proper (shown t.catalog) := by
    refine run_invariant (I := fun s => Proper (shown s.catalog)) hstart (fun u l v hstep hu => ?_)
      hrun
    obtain ⟨r, hserve, rfl⟩ := Option.map_eq_some_iff.mp hstep
    rw [(serve_matches hserve).2]
    exact after_proper hu l
  obtain ⟨u, status, body, hstep, hstatus, hanswers, hshown⟩ :=
    put_shown hdocs hauth hon hdoc hcall
  refine ⟨u, status, body, hstep, hstatus, hanswers, hshown, ?_⟩
  rintro rfl
  rw [hshown, renamed_proper hdocs hdoc, ← hdoc, Function.update_eq_self]

/-- The server after the requests. -/
def ended : ApiServer := (run (step keyed) started requests).getD started

/-- The definition that they leave, put under another name. -/
def copyRequest (doc : Json) : ApiRequest := ⟨some bearer, .put ⟨"copy", by decide⟩ doc {}⟩

theorem copied_example : ∃ doc u, shown ended.catalog logs = some doc ∧
    step keyed ended (copyRequest doc) = some u ∧
    shown u.catalog = Function.update (shown ended.catalog) "copy" (some (renamed "copy" doc)) := by
  have hstart : Proper (shown started.catalog) := fun _ _ hdoc => by cases hdoc
  have hrun : run (step keyed) started requests = some ended := rfl
  obtain ⟨doc, hdoc⟩ : ∃ doc, shown ended.catalog logs = some doc := ⟨_, rfl⟩
  have hcall : (copyRequest doc).call = .put ⟨"copy", by decide⟩ doc {} := rfl
  obtain ⟨u, _, _, hstep, -, -, hshown, -⟩ := copied hstart hrun rfl rfl hdoc hcall
  exact ⟨doc, u, hdoc, hstep, hshown⟩

/-! ## Requests without the key -/

/-- The requests that are not let through are answered alike and do nothing else: leaving them
out of a run leaves what the others do and how they are answered. -/
theorem unauthorized_ignored {c : ApiConfig} {s t : ApiServer} {reqs : List ApiRequest}
    (hnew : s.answers = []) (hrun : run (step c) s reqs = some t) :
    (∀ r ∈ t.answers, authorized c r.1.header = false → r.2 = .unauthorized) ∧
      ∃ t', run (step c) s (reqs.filter fun req => authorized c req.header) = some t' ∧
        t'.catalog = t.catalog ∧
        t'.answers = t.answers.filter fun r => authorized c r.1.header := by
  constructor
  · intro r hr hauth
    obtain ⟨k, hk⟩ := List.mem_iff_getElem?.mp hr
    have hmatches := (run_mirrored hnew hrun).answers k r.1 r.2 hk
    simpa [Matches, hauth] using hmatches
  · refine run_filter (R := fun s s' => s'.catalog = s.catalog ∧
      s'.answers = s.answers.filter fun r => authorized c r.1.header)
      ⟨rfl, by simp [hnew]⟩ ?_ ?_ hrun
    · rintro u u' req v ⟨hcatalog, hanswers⟩ hauth hstep
      obtain ⟨r, hserve, rfl⟩ := Option.map_eq_some_iff.mp hstep
      refine ⟨⟨r.2, u'.answers ++ [(req, r.1)]⟩, ?_, rfl, ?_⟩
      · rw [step, hcatalog, hserve]
        rfl
      · simp [List.filter_append, hanswers, hauth]
    · rintro u u' req v ⟨hcatalog, hanswers⟩ hauth hstep
      obtain ⟨r, hserve, rfl⟩ := Option.map_eq_some_iff.mp hstep
      simp only [serve, hauth, Bool.false_eq_true, if_false, Option.some.injEq] at hserve
      subst hserve
      exact ⟨hcatalog, by simp [List.filter_append, hanswers, hauth]⟩

theorem unauthorized_ignored_example : ∃ t', run (step keyed) started
      (requests.filter fun req => authorized keyed req.header) = some t' ∧
    t'.catalog = ended.catalog := by
  have hrun : run (step keyed) started requests = some ended := rfl
  obtain ⟨-, t', hfiltered, hcatalog, -⟩ := unauthorized_ignored rfl hrun
  exact ⟨t', hfiltered, hcatalog⟩

/-! ## Keys -/

def blankByte (b : UInt8) : Bool := b = 32 || b = 9

/-- The value has no blank at its ends. -/
def unpadded (value : HeaderValue) : Bool :=
  !value.head?.any blankByte && !value.getLast?.any blankByte

/-- What is documented of the http library and its server: a value arrives without the blanks
around it, and `to_str` gives the text of one that is visible ASCII, spaces and tabs. -/
structure HttpValues (toStr : HeaderValue → Option String) (Arrives : HeaderValue → Prop) :
    Prop where
  toStr : ∀ value, toStr value = headerText value
  arrives : ∀ value, value.all plainByte = true → (Arrives value ↔ unpadded value = true)

/-- The characters of a header that `to_str` gives. -/
def plainChar (ch : Char) : Bool := (32 ≤ ch.toNat && ch.toNat < 127) || ch = '\t'

def blankChar (ch : Char) : Bool := ch = ' ' || ch = '\t'

theorem plainChar_of_plainByte {b : UInt8} (h : plainByte b = true) :
    plainChar (Char.ofNat b.toNat) = true ∧ blankChar (Char.ofNat b.toNat) = blankByte b := by
  have hbytes : ∀ n : Fin 256, plainByte (UInt8.ofNat n) = true →
      plainChar (Char.ofNat n) = true ∧ blankChar (Char.ofNat n) = blankByte (UInt8.ofNat n) := by
    decide +kernel
  have hb := hbytes ⟨b.toNat, b.toNat_lt⟩
  rw [UInt8.ofNat_toNat] at hb
  exact hb h

theorem plainByte_of_plainChar {ch : Char} (h : plainChar ch = true) :
    plainByte (UInt8.ofNat ch.toNat) = true ∧ Char.ofNat (UInt8.ofNat ch.toNat).toNat = ch := by
  simp only [plainChar, Bool.or_eq_true, Bool.and_eq_true, decide_eq_true_eq] at h
  have hlt : ch.toNat < 127 := by
    rcases h with h | rfl
    · exact h.2
    · decide
  have hnat : (UInt8.ofNat ch.toNat).toNat = ch.toNat := by
    rw [UInt8.toNat_ofNat']
    omega
  refine ⟨?_, by rw [hnat, Char.ofNat_toNat]⟩
  rcases h with h | rfl
  · simp only [plainByte, UInt8.le_iff_toNat_le, UInt8.lt_iff_toNat_lt, hnat, Bool.or_eq_true,
      Bool.and_eq_true, decide_eq_true_eq]
    exact Or.inl h
  · decide

/-- The text has no blank at its ends. -/
def unpaddedText (text : String) : Bool :=
  !text.toList.head?.any blankChar && !text.toList.getLast?.any blankChar

theorem any_map_congr {α β : Type} {f : α → β} {p : α → Bool} {q : β → Bool} {o : Option α}
    (h : ∀ a ∈ o, q (f a) = p a) : (o.map f).any q = o.any p := by
  cases o with
  | none => rfl
  | some a => exact h a rfl

/-- A value and its text have the same ends. -/
theorem headerText_spec {value : HeaderValue} {text : String} (h : headerText value = some text) :
    value.all plainByte = true ∧ text.toList.all plainChar = true ∧
      unpaddedText text = unpadded value := by
  obtain ⟨hall, heq⟩ := Option.ite_none_right_eq_some.mp h
  cases heq
  have hbyte : ∀ b ∈ value, plainByte b = true := List.all_eq_true.mp hall
  refine ⟨hall, ?_, ?_⟩
  · rw [String.toList_ofList, List.all_map, List.all_eq_true]
    exact fun b hb => (plainChar_of_plainByte (hbyte b hb)).1
  · rw [unpaddedText, String.toList_ofList, List.head?_map, List.getLast?_map]
    have hhead := any_map_congr (o := value.head?) fun b hb =>
      (plainChar_of_plainByte (hbyte b (List.mem_of_mem_head? hb))).2
    have hlast := any_map_congr (o := value.getLast?) fun b hb =>
      (plainChar_of_plainByte (hbyte b (List.mem_of_mem_getLast? hb))).2
    rw [hhead, hlast, unpadded]

/-- The texts that a header can be. -/
theorem exists_header {text : String} (h : text.toList.all plainChar = true) :
    ∃ value, headerText value = some text := by
  rw [List.all_eq_true] at h
  refine ⟨text.toList.map fun ch => UInt8.ofNat ch.toNat, ?_⟩
  refine Option.ite_none_right_eq_some.mpr ⟨?_, congrArg some ?_⟩
  · rw [List.all_map, List.all_eq_true]
    exact fun ch hch => (plainByte_of_plainChar (h ch hch)).1
  · rw [← String.toList_inj, String.toList_ofList, List.map_map]
    calc text.toList.map _
        = text.toList.map id :=
          List.map_congr_left fun ch hch => (plainByte_of_plainChar (h ch hch)).2
      _ = text.toList := List.map_id _

/-- A key can be used when its characters can stand in a header and its last one is no blank: with
any other key every request is turned away. -/
theorem usable_iff {c : ApiConfig} {Arrives : HeaderValue → Prop} (hhttp : HttpValues c.toStr Arrives)
    {key : Option String} (hkey : c.expected = expectedAuthHeader key) :
    (∃ header, (∀ value ∈ header, Arrives value) ∧ authorized c header = true) ↔
      ∀ k, key = some k → k.toList.all plainChar = true ∧ ¬ k.toList.getLast?.any blankChar := by
  have hopen : c.expected = none →
      ∃ header, (∀ value ∈ header, Arrives value) ∧ authorized c header = true :=
    fun hnone => ⟨none, by simp, by rw [authorized, hnone]⟩
  cases key with
  | none => exact iff_of_true (hopen hkey) (by simp)
  | some k =>
    by_cases hempty : k = ""
    · subst hempty
      exact iff_of_true (hopen hkey) (by simp)
    · have hexpected : c.expected = some ("Bearer " ++ k) := by
        rw [hkey]
        simp [expectedAuthHeader, hempty]
      have hplain : ("Bearer " ++ k).toList.all plainChar = k.toList.all plainChar := by
        rw [String.toList_append, List.all_append]
        rfl
      have hends : unpaddedText ("Bearer " ++ k) = !k.toList.getLast?.any blankChar := by
        have hne : k.toList ≠ [] := by simpa using hempty
        rw [unpaddedText, String.toList_append, List.getLast?_append_of_ne_nil _ hne]
        rfl
      simp only [Option.some.injEq, forall_eq', Bool.not_eq_true]
      constructor
      · rintro ⟨header, harrives, hheader⟩
        simp only [authorized, hexpected, decide_eq_true_eq] at hheader
        obtain ⟨value, rfl, hvalue⟩ := Option.bind_eq_some_iff.mp hheader
        rw [hhttp.toStr] at hvalue
        obtain ⟨hbytes, hchars, hpads⟩ := headerText_spec hvalue
        have hunpadded := (hhttp.arrives value hbytes).mp (harrives value rfl)
        rw [hplain] at hchars
        rw [hends, hunpadded, Bool.not_eq_true'] at hpads
        exact ⟨hchars, hpads⟩
      · rintro ⟨hchars, hlast⟩
        obtain ⟨value, hvalue⟩ := exists_header (hplain.trans hchars)
        obtain ⟨hbytes, -, hpads⟩ := headerText_spec hvalue
        rw [hends, hlast, Bool.not_false] at hpads
        refine ⟨some value, ?_, ?_⟩
        · rintro _ ⟨⟩
          exact (hhttp.arrives value hbytes).mpr hpads.symm
        · simp only [authorized, hexpected, Option.bind_some, hhttp.toStr, hvalue, decide_true]

theorem usable_iff_example :
    ∃ header, (∀ value ∈ header, unpadded value = true) ∧ authorized keyed header = true := by
  have hkey : keyed.expected = expectedAuthHeader (some "k") := rfl
  apply (usable_iff ⟨fun _ => rfl, fun _ _ => Iff.rfl⟩ hkey).mpr
  rintro _ ⟨⟩
  decide

end Edgewit.IndexApi
