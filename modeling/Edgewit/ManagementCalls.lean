import Edgewit.Management

/-!
# Concurrent index management

Calls of the management handlers that interleave between their steps: the registry is
locked for the first step only. `agrees_iff` says when memory and disk agree once every
call has returned.
-/

namespace Edgewit

namespace ManagementRequest

def index : ManagementRequest → IndexName
  | .put index _ => index
  | .delete index => index

/-- The definition that a request leaves under its name. -/
def left : ManagementRequest → Option IndexDefinition
  | .put index payload => some (payload.under index)
  | .delete _ => none

/-- The last of the requests that is for a name. -/
def lastFor (reqs : List ManagementRequest) (name : String) : Option ManagementRequest :=
  (reqs.filter fun req => req.index = name).getLast?

theorem lastFor_concat (reqs : List ManagementRequest) (req : ManagementRequest) (name : String) :
    lastFor (reqs ++ [req]) name = if name = req.index then some req else lastFor reqs name := by
  unfold lastFor
  rw [List.filter_append]
  by_cases h : name = req.index
  · simp [h]
  · simp [h, Ne.symm h]

theorem lastFor_eq_none {reqs : List ManagementRequest} {name : String} :
    lastFor reqs name = none ↔ ∀ req ∈ reqs, req.index ≠ name := by
  simp [lastFor]

end ManagementRequest

/-- The place of a call in its handler. -/
inductive Progress where
  | received
  | registered
  | prepared
  | unregistered
  | unlinked
  | answered (status : Nat)
  deriving DecidableEq, Repr

/-- The request has changed the registry, and its definition file is still to be changed. -/
def Progress.pending : Progress → Bool
  | .registered | .prepared | .unregistered => true
  | _ => false

structure ManagementCall where
  request : ManagementRequest
  progress : Progress

/-- The catalog and the calls made so far, with a record of the requests that have changed
the registry and of those that have changed their file, in order. -/
structure Management where
  catalog : Catalog
  calls : List ManagementCall
  registered : List ManagementRequest
  stored : List ManagementRequest

/-- A call comes in, or takes its next step. -/
inductive ManagementLabel where
  | call (request : ManagementRequest)
  | act (k : Nat)

namespace Management

/-- What one step of a call does to the catalog, and what it records. -/
structure Effect where
  progress : Progress
  catalog : Catalog
  registered : Bool := false
  stored : Bool := false

/-- The next step of a call; `none` is a step that fails. -/
def effect (x : Yaml) (s : Catalog) : ManagementRequest → Progress → Option Effect
  | .put index payload, .received =>
    (s.registry.upsert (payload.under index)).map fun
      | .ok registry => ⟨.registered, { s with registry }, true, false⟩
      | .error _ => ⟨.answered 400, s, false, false⟩
  | .put _ _, .registered => some ⟨.prepared, s, false, false⟩
  | .put index payload, .prepared =>
    match x.toString (payload.under index) with
    | .error _ => none
    | .ok text =>
      let (ok, folder) := s.folder.write (definitionFile index) text none
      if ok then some ⟨.answered 200, { s with folder }, false, true⟩ else none
  | .delete index, .received =>
    match s.registry.remove index with
    | .ok registry => some ⟨.unregistered, { s with registry }, true, false⟩
    | .error _ => some ⟨.answered 404, s, false, false⟩
  | .delete index, .unregistered =>
    let (ok, folder) := s.folder.removeFile (definitionFile index) false
    if ok then some ⟨.unlinked, { s with folder }, false, true⟩ else none
  | .delete index, .unlinked =>
    let (ok, folder) := s.folder.removeDirAll index false
    if ok then some ⟨.answered 200, { s with folder }, false, false⟩ else none
  | _, _ => none

def step (x : Yaml) (s : Management) : ManagementLabel → Option Management
  | .call request => some { s with calls := s.calls ++ [⟨request, .received⟩] }
  | .act k =>
    (s.calls[k]?).bind fun c =>
      (effect x s.catalog c.request c.progress).map fun e =>
        { catalog := e.catalog
          calls := s.calls.set k { c with progress := e.progress }
          registered := if e.registered then s.registered ++ [c.request] else s.registered
          stored := if e.stored then s.stored ++ [c.request] else s.stored }

/-- A management service without calls. -/
def idle (s : Catalog) : Management := ⟨s, [], [], []⟩

/-- Every call has returned. -/
def Returned (s : Management) : Prop := ∀ c ∈ s.calls, ∃ status, c.progress = .answered status

end Management

/-! ## Agreement -/

/-- The text of the definition file of a name, if there is one. -/
def fileText (folder : Folder) (name : String) : Option String :=
  match folder.lookup (definitionFile name) with
  | some (.file text) => some text
  | _ => none

/-- Every name has a definition file exactly when it is registered, and the file holds the
definition of the registry. -/
def Catalog.Agrees (x : Yaml) (s : Catalog) : Prop :=
  ∀ name : IndexName, (fileText s.folder name).map x.fromStr = (s.registry.get name).map .ok

theorem fileText_write {folder folder' : Folder} {name text : String}
    (h : folder.write (definitionFile name) text none = (true, folder')) (n : String) :
    fileText folder' n = if n = name then some text else fileText folder n := by
  unfold Folder.write at h
  split at h
  · cases h
  · cases h
    simp only [fileText, Table.lookup_insert_eq]
    by_cases hn : n = name
    · simp [hn]
    · have hfile : definitionFile n ≠ definitionFile name := fun heq => hn (definitionFile_inj heq)
      simp only [if_neg hfile, if_neg hn]

theorem fileText_removeFile {folder folder' : Folder} {name : String}
    (h : folder.removeFile (definitionFile name) false = (true, folder')) (n : String) :
    fileText folder' n = if n = name then none else fileText folder n := by
  have hentry : folder.lookup (definitionFile name) ≠ some .directory := by
    intro hdir
    simp [Folder.removeFile, hdir] at h
  have hlookup := Catalog.removeFile_lookup hentry
  rw [h] at hlookup
  simp only [fileText, hlookup]
  by_cases hn : n = name
  · simp [hn]
  · have hfile : definitionFile n ≠ definitionFile name := fun heq => hn (definitionFile_inj heq)
    simp only [if_neg hfile, if_neg hn]

/-- A directory that goes is not a definition file. -/
theorem fileText_removeDirAll {folder folder' : Folder} {name : String}
    (h : folder.removeDirAll name false = (true, folder')) (n : String) :
    fileText folder' n = fileText folder n := by
  have hentry : folder.lookup name = none ∨ folder.lookup name = some .directory := by
    cases hname : folder.lookup name with
    | none => exact Or.inl rfl
    | some entry =>
      cases entry with
      | directory => exact Or.inr rfl
      | file content => simp [Folder.removeDirAll, hname] at h
  have hlookup := Catalog.removeDirAll_lookup hentry
  rw [h] at hlookup
  simp only [fileText, hlookup]
  by_cases hn : definitionFile n = name
  · rw [if_pos hn, hn]
    rcases hentry with habsent | hdir
    · rw [habsent]
    · rw [hdir]
  · rw [if_neg hn]

namespace Management

/-- A step changes nothing that `Agrees` speaks of, or it is the registry step of its call,
or the file step. -/
inductive Happens (x : Yaml) (s : Catalog) (req : ManagementRequest) (progress : Progress)
    (e : Effect) : Prop where
  | silent (hregistry : e.catalog.registry = s.registry)
      (hfiles : ∀ n, fileText e.catalog.folder n = fileText s.folder n)
      (hregistered : e.registered = false) (hstored : e.stored = false)
      (hpending : e.progress.pending = progress.pending)
  | registers (hregistry : ∀ n, e.catalog.registry.get n =
        if n = req.index then req.left else s.registry.get n)
      (hfiles : e.catalog.folder = s.folder)
      (hregistered : e.registered = true) (hstored : e.stored = false)
      (hbefore : progress.pending = false) (hafter : e.progress.pending = true)
  | stores (hregistry : e.catalog.registry = s.registry)
      (hfiles : ∀ n, (fileText e.catalog.folder n).map x.fromStr =
        if n = req.index then req.left.map .ok else (fileText s.folder n).map x.fromStr)
      (hregistered : e.registered = false) (hstored : e.stored = true)
      (hbefore : progress.pending = true) (hafter : e.progress.pending = false)

theorem put_happens {x : Yaml} {s : Catalog} {index : IndexName} {payload : IndexDefinition}
    {progress : Progress} {e : Effect} (h : effect x s (.put index payload) progress = some e) :
    Happens x s (.put index payload) progress e := by
  cases progress with
  | received =>
    obtain ⟨result, hupsert, rfl⟩ := Option.map_eq_some_iff.mp h
    obtain ⟨verdict, -, rfl⟩ := Option.map_eq_some_iff.mp hupsert
    cases verdict with
    | error err => exact .silent rfl (fun _ => rfl) rfl rfl rfl
    | ok _ => exact .registers (fun n => IndexRegistry.get_insert _ _ n) rfl rfl rfl rfl rfl
  | registered =>
    cases h
    exact .silent rfl (fun _ => rfl) rfl rfl rfl
  | prepared =>
    simp only [effect] at h
    cases htext : x.toString (payload.under index) with
    | error err => simp [htext] at h
    | ok text =>
      rw [htext] at h
      cases hwrite : s.folder.write (definitionFile index) text none with
      | mk ok folder =>
        cases ok with
        | false => simp [hwrite] at h
        | true =>
          simp only [hwrite, if_true, Option.some.injEq] at h
          subst h
          refine .stores rfl (fun n => ?_) rfl rfl rfl rfl
          rw [fileText_write hwrite]
          by_cases hn : n = index.1
          · simp [hn, ManagementRequest.index, ManagementRequest.left, x.roundTrip _ _ htext]
          · simp [hn, ManagementRequest.index]
  | unregistered => cases h
  | unlinked => cases h
  | answered status => cases h

theorem delete_happens {x : Yaml} {s : Catalog} {index : IndexName} {progress : Progress}
    {e : Effect} (h : effect x s (.delete index) progress = some e) :
    Happens x s (.delete index) progress e := by
  cases progress with
  | received =>
    simp only [effect, IndexRegistry.remove] at h
    by_cases hmem : index.1 ∈ s.registry.indexes
    · simp only [if_pos hmem, Option.some.injEq] at h
      subst h
      exact .registers (fun n => IndexRegistry.get_erase _ _ n) rfl rfl rfl rfl rfl
    · simp only [if_neg hmem, Option.some.injEq] at h
      subst h
      exact .silent rfl (fun _ => rfl) rfl rfl rfl
  | registered => cases h
  | prepared => cases h
  | unregistered =>
    simp only [effect] at h
    cases hremove : s.folder.removeFile (definitionFile index) false with
    | mk ok folder =>
      cases ok with
      | false => simp [hremove] at h
      | true =>
        simp only [hremove, if_true, Option.some.injEq] at h
        subst h
        refine .stores rfl (fun n => ?_) rfl rfl rfl rfl
        rw [fileText_removeFile hremove]
        by_cases hn : n = index.1
        · simp [hn, ManagementRequest.index, ManagementRequest.left]
        · simp [hn, ManagementRequest.index]
  | unlinked =>
    simp only [effect] at h
    cases hremove : s.folder.removeDirAll index.1 false with
    | mk ok folder =>
      cases ok with
      | false => simp [hremove] at h
      | true =>
        simp only [hremove, if_true, Option.some.injEq] at h
        subst h
        exact .silent rfl (fun n => fileText_removeDirAll hremove n) rfl rfl rfl
  | answered status => cases h

theorem effect_cases {x : Yaml} {s : Catalog} {req : ManagementRequest} {progress : Progress}
    {e : Effect} (h : effect x s req progress = some e) : Happens x s req progress e := by
  cases req with
  | put index payload => exact put_happens h
  | delete index => exact delete_happens h

theorem removeFile_ok {folder : Folder} {name : String}
    (h : folder.lookup name ≠ some .directory) : (folder.removeFile name false).1 = true := by
  unfold Folder.removeFile
  split
  · rfl
  · rename_i hdir
    exact absurd hdir h
  · rfl

theorem removeDirAll_ok {folder : Folder} {name : String}
    (h : folder.lookup name = none ∨ folder.lookup name = some .directory) :
    (folder.removeDirAll name false).1 = true := by
  unfold Folder.removeDirAll
  split
  · rfl
  · rename_i content hfile
    simp [hfile] at h
  · rfl

/-- A step of the only call. -/
theorem run_act {x : Yaml} {s : Catalog} {req : ManagementRequest} {progress : Progress} {e : Effect}
    (he : effect x s req progress = some e) (registered stored : List ManagementRequest)
    (ls : List ManagementLabel) :
    Machine.run (step x) ⟨s, [⟨req, progress⟩], registered, stored⟩ (.act 0 :: ls) =
      Machine.run (step x) ⟨e.catalog, [⟨req, e.progress⟩],
        if e.registered then registered ++ [req] else registered,
        if e.stored then stored ++ [req] else stored⟩ ls := by
  simp only [Machine.run, step, List.getElem?_cons_zero, Option.bind_some, he, Option.map_some,
    List.set_cons_zero]

theorem returned_answered {s : Catalog} {req : ManagementRequest} {status : Nat}
    {registered stored : List ManagementRequest} :
    Returned ⟨s, [⟨req, .answered status⟩], registered, stored⟩ := by
  intro c hc
  rw [List.mem_singleton.mp hc]
  exact ⟨status, rfl⟩

theorem put_run {x : Yaml} {s : Catalog} {index : IndexName} {payload : IndexDefinition}
    {result : (Nat × Json) × Catalog} (hfree : s.Unobstructed x (.put index payload))
    (h : s.createIndexHandler x true {} index payload = some result) : ∃ ls u,
    Machine.run (step x) (idle s) (.call (.put index payload) :: ls) = some u ∧
      u.catalog = result.2 ∧ u.Returned := by
  obtain ⟨answered, hupsert, hresult⟩ := Option.map_eq_some_iff.mp h
  obtain ⟨verdict, hverdict, rfl⟩ := Option.map_eq_some_iff.mp hupsert
  cases verdict with
  | error e =>
    cases hresult
    have hrefused : effect x s (.put index payload) .received =
        some ⟨.answered 400, s, false, false⟩ := by
      simp only [effect, hupsert, Option.map_some]
    exact ⟨[.act 0], _, run_act hrefused [] [] [], rfl, returned_answered⟩
  | ok _ =>
    obtain ⟨hentry, hok⟩ := hfree hverdict
    cases htext : x.toString (payload.under index) with
    | error e =>
      rw [htext] at hok
      cases hok
    | ok text =>
      have hpersist := congrArg Prod.snd hresult
      simp only [Catalog.persist, htext, Folder.write, if_neg hentry] at hpersist
      have hregistered : effect x s (.put index payload) .received = some
          ⟨.registered, { s with registry := s.registry.insert (payload.under index) },
            true, false⟩ := by
        simp only [effect, hupsert, Option.map_some]
      have hstored : effect x { s with registry := s.registry.insert (payload.under index) }
          (.put index payload) .prepared = some ⟨.answered 200, result.2, false, true⟩ := by
        simp only [effect, htext, Folder.write, if_neg hentry, if_true, ← hpersist]
        rfl
      exact ⟨[.act 0, .act 0, .act 0], _, (run_act hregistered [] [] _).trans
        ((run_act rfl _ _ _).trans (run_act hstored _ _ [])), rfl, returned_answered⟩

theorem delete_run {x : Yaml} {s : Catalog} {index : IndexName}
    (hfree : s.Unobstructed x (.delete index)) : ∃ ls u,
    Machine.run (step x) (idle s) (.call (.delete index) :: ls) = some u ∧
      u.catalog = (s.deleteIndexHandler true {} index).2 ∧ u.Returned := by
  by_cases hmem : index.1 ∈ s.registry.indexes
  · obtain ⟨hfile, hdata⟩ := hfree hmem
    have hdata' : (s.folder.removeFile (definitionFile index) false).2.lookup index.1 = none ∨
        (s.folder.removeFile (definitionFile index) false).2.lookup index.1 = some .directory := by
      rw [Catalog.removeFile_lookup hfile, if_neg (Catalog.definitionFile_ne index.1).symm]
      exact hdata
    have hunregistered : effect x s (.delete index) .received = some
        ⟨.unregistered, { s with registry := s.registry.erase index }, true, false⟩ := by
      simp only [effect, IndexRegistry.remove, if_pos hmem]
    have hunlinked : effect x { s with registry := s.registry.erase index } (.delete index)
        .unregistered = some ⟨.unlinked,
          ⟨s.registry.erase index, (s.folder.removeFile (definitionFile index) false).2⟩,
          false, true⟩ := by
      simp only [effect, removeFile_ok hfile, if_true]
    have hwiped : effect x
        ⟨s.registry.erase index, (s.folder.removeFile (definitionFile index) false).2⟩
        (.delete index) .unlinked = some ⟨.answered 200, ⟨s.registry.erase index,
          ((s.folder.removeFile (definitionFile index) false).2.removeDirAll index false).2⟩,
          false, false⟩ := by
      simp only [effect, removeDirAll_ok hdata', if_true]
    refine ⟨[.act 0, .act 0, .act 0], _, (run_act hunregistered [] [] _).trans
      ((run_act hunlinked _ _ _).trans (run_act hwiped _ _ [])), ?_, returned_answered⟩
    simp only [Catalog.deleteIndexHandler, IndexRegistry.remove, if_pos hmem, Bool.not_true,
      Bool.false_eq_true, if_false]
  · have hmissing : effect x s (.delete index) .received =
        some ⟨.answered 404, s, false, false⟩ := by
      simp only [effect, IndexRegistry.remove, if_neg hmem]
    refine ⟨[.act 0], _, run_act hmissing [] [] [], ?_, returned_answered⟩
    simp only [Catalog.deleteIndexHandler, IndexRegistry.remove, if_neg hmem, Bool.not_true,
      Bool.false_eq_true, if_false]

/-- The steps of a call with nothing between them are what its handler does. -/
theorem serve_run {x : Yaml} {s t : Catalog} {req : ManagementRequest}
    (h : s.serve x req = some t) : ∃ ls u,
    Machine.run (step x) (idle s) (.call req :: ls) = some u ∧ u.catalog = t ∧ u.Returned := by
  unfold Catalog.serve at h
  split at h
  swap
  · cases h
  rename_i hfree
  cases req with
  | put index payload =>
    obtain ⟨result, hhandler, rfl⟩ := Option.map_eq_some_iff.mp h
    exact put_run hfree hhandler
  | delete index =>
    cases h
    exact delete_run hfree

/-! ## The order of the steps -/

open ManagementRequest in
/-- The registry is what the last registry steps have left, and the files are what the last
file steps have left; a call that has done the one and not the other is under way. -/
structure Tracks (x : Yaml) (start : Catalog) (s : Management) : Prop where
  registry : ∀ n, s.catalog.registry.get n =
    (lastFor s.registered n).elim (start.registry.get n) left
  files : ∀ n, (fileText s.catalog.folder n).map x.fromStr =
    (lastFor s.stored n).elim ((fileText start.folder n).map x.fromStr) fun req => req.left.map .ok
  known : ∀ c ∈ s.calls, c.progress.pending = true → c.request ∈ s.registered
  recorded : ∀ req ∈ s.stored, req ∈ s.registered
  underWay : ∀ req ∈ s.registered, req ∈ s.stored ∨
    ∃ c ∈ s.calls, c.request = req ∧ c.progress.pending = true

/-- The other members of a list stay when one is replaced. -/
theorem mem_set_of_mem {α : Type*} {l : List α} {k : Nat} {a b c : α} (hk : l[k]? = some a)
    (hmem : c ∈ l) : c = a ∨ c ∈ l.set k b := by
  obtain ⟨j, hj⟩ := List.mem_iff_getElem?.mp hmem
  by_cases heq : k = j
  · subst heq
    rw [hk] at hj
    exact Or.inl (Option.some.inj hj).symm
  · exact Or.inr (List.mem_iff_getElem?.mpr ⟨j, by rw [List.getElem?_set_ne heq, hj]⟩)

section Act

variable {x : Yaml} {start : Catalog} {s : Management} {k : Nat} {c : ManagementCall} {e : Effect}

theorem Tracks.call (hs : Tracks x start s) (request : ManagementRequest) :
    Tracks x start { s with calls := s.calls ++ [⟨request, .received⟩] } := by
  refine { hs with known := ?_, underWay := ?_ }
  · intro c hc hpending
    rcases List.mem_append.mp hc with hc | hc
    · exact hs.known c hc hpending
    · rw [List.mem_singleton.mp hc] at hpending
      cases hpending
  · intro req hreq
    rcases hs.underWay req hreq with hstored | ⟨c, hc, hsame, hpending⟩
    · exact Or.inl hstored
    · exact Or.inr ⟨c, List.mem_append_left _ hc, hsame, hpending⟩

theorem mem_set_progress (hc : s.calls[k]? = some c) :
    (⟨c.request, e.progress⟩ : ManagementCall) ∈
      s.calls.set k { c with progress := e.progress } :=
  List.mem_set (List.getElem?_eq_some_iff.mp hc).1 _

theorem Tracks.silent (hs : Tracks x start s) (hc : s.calls[k]? = some c)
    (hregistry : e.catalog.registry = s.catalog.registry)
    (hfiles : ∀ n, fileText e.catalog.folder n = fileText s.catalog.folder n)
    (hpending : e.progress.pending = c.progress.pending) :
    Tracks x start { s with
      catalog := e.catalog, calls := s.calls.set k { c with progress := e.progress } } := by
  refine ⟨?_, ?_, ?_, hs.recorded, ?_⟩
  · intro n
    rw [hregistry]
    exact hs.registry n
  · intro n
    rw [hfiles]
    exact hs.files n
  · intro d hd hd'
    rcases List.mem_or_eq_of_mem_set hd with hd | rfl
    · exact hs.known d hd hd'
    · exact hs.known c (List.mem_of_getElem? hc) (hpending ▸ hd')
  · intro req hreq
    rcases hs.underWay req hreq with hdone | ⟨d, hd, hsame, hd'⟩
    · exact Or.inl hdone
    · right
      rcases mem_set_of_mem hc hd with rfl | hd
      · exact ⟨_, mem_set_progress hc, hsame, hpending.trans hd'⟩
      · exact ⟨d, hd, hsame, hd'⟩

theorem Tracks.registers (hs : Tracks x start s) (hc : s.calls[k]? = some c)
    (hregistry : ∀ n, e.catalog.registry.get n =
      if n = c.request.index then c.request.left else s.catalog.registry.get n)
    (hfiles : e.catalog.folder = s.catalog.folder)
    (hbefore : c.progress.pending = false) (hafter : e.progress.pending = true) :
    Tracks x start { s with
      catalog := e.catalog, calls := s.calls.set k { c with progress := e.progress }
      registered := s.registered ++ [c.request] } := by
  refine ⟨?_, ?_, ?_, ?_, ?_⟩
  · intro n
    rw [hregistry, ManagementRequest.lastFor_concat]
    by_cases hn : n = c.request.index
    · simp only [if_pos hn, Option.elim_some]
    · simp only [if_neg hn, hs.registry n]
  · intro n
    rw [hfiles]
    exact hs.files n
  · intro d hd hd'
    rcases List.mem_or_eq_of_mem_set hd with hd | rfl
    · exact List.mem_append_left _ (hs.known d hd hd')
    · exact List.mem_append_right _ (List.mem_singleton_self _)
  · intro req hreq
    exact List.mem_append_left _ (hs.recorded req hreq)
  · intro req hreq
    rcases List.mem_append.mp hreq with hreq | hreq
    · rcases hs.underWay req hreq with hdone | ⟨d, hd, hsame, hd'⟩
      · exact Or.inl hdone
      · right
        rcases mem_set_of_mem hc hd with rfl | hd
        · rw [hbefore] at hd'
          cases hd'
        · exact ⟨d, hd, hsame, hd'⟩
    · exact Or.inr ⟨_, mem_set_progress hc, (List.mem_singleton.mp hreq).symm, hafter⟩

theorem Tracks.stores (hs : Tracks x start s) (hc : s.calls[k]? = some c)
    (hregistry : e.catalog.registry = s.catalog.registry)
    (hfiles : ∀ n, (fileText e.catalog.folder n).map x.fromStr =
      if n = c.request.index then c.request.left.map .ok
      else (fileText s.catalog.folder n).map x.fromStr)
    (hbefore : c.progress.pending = true) (hafter : e.progress.pending = false) :
    Tracks x start { s with
      catalog := e.catalog, calls := s.calls.set k { c with progress := e.progress }
      stored := s.stored ++ [c.request] } := by
  refine ⟨?_, ?_, ?_, ?_, ?_⟩
  · intro n
    rw [hregistry]
    exact hs.registry n
  · intro n
    rw [hfiles, ManagementRequest.lastFor_concat]
    by_cases hn : n = c.request.index
    · simp only [if_pos hn, Option.elim_some]
    · simp only [if_neg hn, hs.files n]
  · intro d hd hd'
    rcases List.mem_or_eq_of_mem_set hd with hd | rfl
    · exact hs.known d hd hd'
    · rw [hafter] at hd'
      cases hd'
  · intro req hreq
    rcases List.mem_append.mp hreq with hreq | hreq
    · exact hs.recorded req hreq
    · rw [List.mem_singleton.mp hreq]
      exact hs.known c (List.mem_of_getElem? hc) hbefore
  · intro req hreq
    rcases hs.underWay req hreq with hdone | ⟨d, hd, hsame, hd'⟩
    · exact Or.inl (List.mem_append_left _ hdone)
    · rcases mem_set_of_mem hc hd with rfl | hd
      · exact Or.inl (List.mem_append_right _ (List.mem_singleton.mpr hsame.symm))
      · exact Or.inr ⟨d, hd, hsame, hd'⟩

end Act

theorem step_tracks {x : Yaml} {start : Catalog} {s t : Management} {l : ManagementLabel}
    (hs : Tracks x start s) (hstep : s.step x l = some t) : Tracks x start t := by
  cases l with
  | call request =>
    cases hstep
    exact hs.call request
  | act k =>
    obtain ⟨c, hc, hrest⟩ := Option.bind_eq_some_iff.mp hstep
    obtain ⟨e, he, rfl⟩ := Option.map_eq_some_iff.mp hrest
    cases effect_cases he with
    | silent hregistry hfiles hregistered hstored hpending =>
      simp only [hregistered, hstored, Bool.false_eq_true, if_false]
      exact hs.silent hc hregistry hfiles hpending
    | registers hregistry hfiles hregistered hstored hbefore hafter =>
      simp only [hregistered, hstored, Bool.false_eq_true, if_false, if_true]
      exact hs.registers hc hregistry hfiles hbefore hafter
    | stores hregistry hfiles hregistered hstored hbefore hafter =>
      simp only [hregistered, hstored, Bool.false_eq_true, if_false, if_true]
      exact hs.stores hc hregistry hfiles hbefore hafter

theorem idle_tracks (x : Yaml) (start : Catalog) : Tracks x start (idle start) :=
  ⟨fun _ => rfl, fun _ => rfl, by simp [idle], by simp [idle], by simp [idle]⟩

open ManagementRequest in
/-- Once all calls have returned, memory and disk agree if and only if, for each name, what
the last registry step has left is what the last file step has left. -/
theorem agrees_iff {x : Yaml} {start : Catalog} {t : Management} {ls : List ManagementLabel}
    (hstart : start.Agrees x) (hrun : Machine.run (step x) (idle start) ls = some t)
    (hreturned : t.Returned) :
    t.catalog.Agrees x ↔
      ∀ name : IndexName, (lastFor t.registered name).map left = (lastFor t.stored name).map left := by
  have ht : Tracks x start t :=
    Machine.run_invariant (idle_tracks x start) (fun _ _ _ hl hu => step_tracks hu hl) hrun
  have hboth : ∀ n, lastFor t.registered n = none ↔ lastFor t.stored n = none := by
    intro n
    simp only [lastFor_eq_none]
    constructor
    · intro h req hreq
      exact h req (ht.recorded req hreq)
    · intro h req hreq
      rcases ht.underWay req hreq with hstored | ⟨c, hc, -, hpending⟩
      · exact h req hstored
      · obtain ⟨status, hstatus⟩ := hreturned c hc
        rw [hstatus] at hpending
        cases hpending
  apply forall_congr'
  intro name
  rw [ht.files, ht.registry]
  cases hregistered : lastFor t.registered name with
  | none =>
    rw [(hboth name).mp hregistered]
    exact iff_of_true (hstart name) rfl
  | some req =>
    cases hstored : lastFor t.stored name with
    | none =>
      rw [(hboth name).mpr hstored] at hregistered
      cases hregistered
    | some req' =>
      simp only [Option.elim_some, Option.map_some, Option.some.injEq]
      rw [(Option.map_injective fun _ _ h => Except.ok.inj h).eq_iff, eq_comm]

/-- Two calls, one after the other or with the registry steps of both first. -/
def inTurn : List ManagementLabel :=
  [.call (.put ⟨"a", by decide⟩ (.bare .dynamic "a")), .act 0, .act 0, .act 0,
    .call (.put ⟨"a", by decide⟩ (.bare .strict "a")), .act 1, .act 1, .act 1]

def crossed : List ManagementLabel :=
  [.call (.put ⟨"a", by decide⟩ (.bare .dynamic "a")),
    .call (.put ⟨"a", by decide⟩ (.bare .strict "a")),
    .act 0, .act 1, .act 1, .act 1, .act 0, .act 0]

theorem agrees_in_turn : ∃ t, Machine.run (step .bare) (idle ⟨.new, ∅⟩) inTurn = some t ∧
    t.catalog.registry.get "a" = some (.bare .strict "a") ∧ t.catalog.Agrees .bare := by
  have hrun : (Machine.run (step .bare) (idle ⟨.new, ∅⟩) inTurn).map (fun t =>
      (t.catalog.registry.get "a", t.calls.map ManagementCall.progress)) =
      some (some (.bare .strict "a"), [.answered 200, .answered 200]) := by rfl
  have horder : (Machine.run (step .bare) (idle ⟨.new, ∅⟩) inTurn).map (fun t => t.registered) =
      (Machine.run (step .bare) (idle ⟨.new, ∅⟩) inTurn).map fun t => t.stored := by rfl
  obtain ⟨t, ht, hseen⟩ := Option.map_eq_some_iff.mp hrun
  rw [ht, Option.map_some, Option.map_some, Option.some.injEq] at horder
  injection hseen with hget hprogress
  refine ⟨t, ht, hget, (agrees_iff (fun _ => rfl) ht ?_).mpr fun name => by rw [horder]⟩
  intro c hc
  have hmem : c.progress ∈ t.calls.map ManagementCall.progress := List.mem_map_of_mem hc
  rw [hprogress] at hmem
  exact ⟨200, by simpa using hmem⟩

/-- The registry keeps the second definition, and the file the first. -/
theorem crossed_calls_disagree :
    ¬ ∀ (x : Yaml) (start : Catalog) (t : Management) (ls : List ManagementLabel),
      start.Agrees x → Machine.run (step x) (idle start) ls = some t → t.Returned →
      t.catalog.Agrees x := by
  intro halways
  have hrun : (Machine.run (step .bare) (idle ⟨.new, ∅⟩) crossed).map (fun t =>
      ((fileText t.catalog.folder "a").map Yaml.bare.fromStr, t.catalog.registry.get "a",
        t.calls.map ManagementCall.progress)) =
      some (some (.ok (.bare .dynamic "a")), some (.bare .strict "a"),
        [.answered 200, .answered 200]) := by rfl
  obtain ⟨t, ht, hseen⟩ := Option.map_eq_some_iff.mp hrun
  simp only [Prod.mk.injEq] at hseen
  obtain ⟨hfile, hget, hprogress⟩ := hseen
  have hagrees := halways .bare ⟨.new, ∅⟩ t crossed (fun _ => rfl) ht (by
    intro c hc
    have hmem : c.progress ∈ t.calls.map ManagementCall.progress := List.mem_map_of_mem hc
    rw [hprogress] at hmem
    exact ⟨200, by simpa using hmem⟩) ⟨"a", by decide⟩
  rw [hfile, hget] at hagrees
  cases hagrees

end Management
end Edgewit
