import Edgewit.Management

/-!
# Opening an index from several threads

`get_or_create_index` one step at a time: it holds no lock between its look at the cache and
its entry there. Requests and the actor call it at once, while definitions are put and indexes
deleted. What the file system and Tantivy make of a directory is their answer, and any answer may
come: two calls that have both missed the cache may well open different indexes. `cached_for_good`
says what the cache makes of that.
-/

namespace Edgewit

/-- Where a call is, and what it has. -/
inductive OpenPhase (α : Type) where
  | called
  | missed
  | defined (schema : Schema)
  | opened (index : α)
  | returned (result : Except String α)

structure OpenCall (α : Type) where
  name : String
  phase : OpenPhase α

structure Manager (α : Type) where
  registry : IndexRegistry
  indexes : Table String α
  calls : List (OpenCall α)

/-- A call comes in or takes its next step, with what `create_dir_all`, `MmapDirectory::open` and
`Index::open_or_create` answer where it asks them; or something else happens to an index. -/
inductive OpenLabel (α : Type) where
  | call (name : String)
  | act (k : Nat) (answer : Except String α)
  | put (definition : IndexDefinition)
  | delete (name : String)

variable {α : Type}

/-- The call has missed the cache, and not returned. -/
def OpenPhase.UnderWay : OpenPhase α → Prop
  | .missed | .defined _ | .opened _ => True
  | .called | .returned _ => False

instance (phase : OpenPhase α) : Decidable phase.UnderWay := by
  cases phase <;> unfold OpenPhase.UnderWay <;> infer_instance

namespace Manager

/-- The next step of a call; `none` is a panic, or a call that has returned. -/
def act (x : SchemaBuilder) (s : Manager α) (name : String) (answer : Except String α) :
    OpenPhase α → Option (OpenPhase α × Manager α)
  | .called =>
    match s.indexes.lookup name with
    | some index => some (.returned (.ok index), s)
    | none => some (.missed, s)
  | .missed =>
    match s.registry.get name with
    | none => some (.returned (.error s!"Index definition not found: '{name}'"), s)
    | some definition => (x.buildSchema definition).map fun schema => (.defined schema, s)
  | .defined _ =>
    match answer with
    | .error e => some (.returned (.error e), s)
    | .ok index => some (.opened index, s)
  | .opened index =>
    some (.returned (.ok index), { s with indexes := s.indexes.insert name index })
  | .returned _ => none

def step (x : SchemaBuilder) (s : Manager α) : OpenLabel α → Option (Manager α)
  | .call name => some { s with calls := s.calls ++ [⟨name, .called⟩] }
  | .act k answer =>
    (s.calls[k]?).bind fun c => (s.act x c.name answer c.phase).map fun (phase, t) =>
      { t with calls := s.calls.set k ⟨c.name, phase⟩ }
  | .put definition => some { s with registry := s.registry.insert definition }
  | .delete name => some { s with registry := s.registry.erase name }

variable {x : SchemaBuilder} {s t u : Manager α} {n : String}

/-- The calls for the name that are under way. -/
def Busy (n : String) (s : Manager α) (k : Nat) : Prop :=
  ∃ c : OpenCall α, s.calls[k]? = some c ∧ c.name = n ∧ c.phase.UnderWay

/-- The calls for the name have not looked at the cache yet, have returned its index, or had
returned in `s` already. -/
def Answered (n : String) (index : α) (s t : Manager α) : Prop :=
  ∀ (k : Nat) (c : OpenCall α), t.calls[k]? = some c → c.name = n →
    c.phase = .called ∨ c.phase = .returned (.ok index) ∨ s.calls[k]? = some c

/-! ## One step of a call -/

/-- A step leaves the entries of other names alone, and takes none away. -/
theorem act_cache {name : String} {answer : Except String α} {phase phase' : OpenPhase α}
    (h : s.act x name answer phase = some (phase', t)) :
    (n ≠ name ∨ ¬ phase.UnderWay → t.indexes.lookup n = s.indexes.lookup n) ∧
      (s.indexes.lookup n ≠ none → t.indexes.lookup n ≠ none) := by
  cases phase with
  | called =>
    rw [act] at h
    split at h <;> cases h <;> exact ⟨fun _ => rfl, id⟩
  | missed =>
    rw [act] at h
    split at h
    · cases h
      exact ⟨fun _ => rfl, id⟩
    · obtain ⟨schema, -, heq⟩ := Option.map_eq_some_iff.mp h
      cases heq
      exact ⟨fun _ => rfl, id⟩
  | defined schema =>
    simp only [act] at h
    split at h <;> cases h <;> exact ⟨fun _ => rfl, id⟩
  | opened index =>
    rw [act] at h
    cases h
    constructor
    · rintro (hne | hquiet)
      · exact AList.lookup_insert_ne hne
      · exact absurd trivial hquiet
    · intro hcached
      rw [Table.lookup_insert_eq]
      split
      · simp
      · exact hcached
  | returned result =>
    rw [act] at h
    cases h

/-- A call that looks at the cache and finds an index returns it. -/
theorem act_hit {answer : Except String α} {phase phase' : OpenPhase α} {index : α}
    (hcached : s.indexes.lookup n = some index) (hphase : ¬ phase.UnderWay)
    (h : s.act x n answer phase = some (phase', t)) : phase' = .returned (.ok index) := by
  cases phase with
  | called =>
    rw [act, hcached] at h
    cases h
    rfl
  | returned result =>
    rw [act] at h
    cases h
  | _ => exact absurd trivial hphase

/-- The calls after a step: the one that took it has the new phase. -/
theorem get_set {calls : List (OpenCall α)} {k j : Nat} {c d : OpenCall α}
    (h : (calls.set k d)[j]? = some c) : j = k ∧ c = d ∨ j ≠ k ∧ calls[j]? = some c := by
  rw [List.getElem?_set] at h
  split at h
  · rename_i hjk
    split at h
    · cases h
      exact Or.inl ⟨hjk.symm, rfl⟩
    · cases h
  · rename_i hjk
    exact Or.inr ⟨Ne.symm hjk, h⟩

/-! ## What the cache has stays -/

/-- Once an index is cached for a name, only the calls under way open another. -/
structure Cached (n : String) (s t : Manager α) : Prop where
  cached : t.indexes.lookup n ≠ none
  busy : ∀ k, Busy n t k → Busy n s k

theorem step_cached {l : OpenLabel α} (h : step x u l = some t) (hu : Cached n s u) :
    Cached n s t := by
  cases l with
  | call name =>
    cases h
    refine ⟨hu.cached, fun k ⟨c, hc, hname, hphase⟩ => ?_⟩
    rw [List.getElem?_append] at hc
    split at hc
    · exact hu.busy k ⟨c, hc, hname, hphase⟩
    · obtain rfl := List.mem_singleton.mp (List.mem_of_getElem? hc)
      exact absurd hphase id
  | act k answer =>
    obtain ⟨c, hc, hact⟩ := Option.bind_eq_some_iff.mp h
    obtain ⟨⟨phase, v⟩, hv, rfl⟩ := Option.map_eq_some_iff.mp hact
    refine ⟨(act_cache hv).2 hu.cached, fun j ⟨d, hd, hname, hphase⟩ => ?_⟩
    rcases get_set hd with ⟨rfl, rfl⟩ | ⟨-, hd⟩
    · -- A call that is under way after its step was so before: it would have hit the cache.
      apply hu.busy
      refine ⟨c, hc, hname, ?_⟩
      by_contra hquiet
      obtain ⟨index, hindex⟩ := Option.ne_none_iff_exists'.mp hu.cached
      subst hname
      rw [act_hit hindex hquiet hv] at hphase
      exact hphase
    · exact hu.busy j ⟨d, hd, hname, hphase⟩
  | put definition =>
    cases h
    exact ⟨hu.cached, hu.busy⟩
  | delete name =>
    cases h
    exact ⟨hu.cached, hu.busy⟩

/-- With no call under way, all that look at the cache get the index that is there. -/
structure Fixed (n : String) (index : α) (s t : Manager α) : Prop where
  cached : t.indexes.lookup n = some index
  quiet : ∀ k, ¬ Busy n t k
  answered : Answered n index s t

theorem step_fixed {l : OpenLabel α} {index : α} (h : step x u l = some t)
    (hu : Fixed n index s u) : Fixed n index s t := by
  have hquiet : ∀ k, ¬ Busy n t k := by
    have hcached := step_cached h (s := u) (n := n) ⟨by simp [hu.cached], fun _ => id⟩
    exact fun k hbusy => hu.quiet k (hcached.busy k hbusy)
  cases l with
  | call name =>
    cases h
    refine ⟨hu.cached, hquiet, fun k c hc hname => ?_⟩
    rw [List.getElem?_append] at hc
    split at hc
    · exact hu.answered k c hc hname
    · obtain rfl := List.mem_singleton.mp (List.mem_of_getElem? hc)
      exact Or.inl rfl
  | act k answer =>
    obtain ⟨c, hc, hact⟩ := Option.bind_eq_some_iff.mp h
    obtain ⟨⟨phase, v⟩, hv, rfl⟩ := Option.map_eq_some_iff.mp hact
    have hown : c.name = n → ¬ c.phase.UnderWay :=
      fun hname hphase => hu.quiet k ⟨c, hc, hname, hphase⟩
    refine ⟨?_, hquiet, fun j d hd hname => ?_⟩
    · have hsame : v.indexes.lookup n = u.indexes.lookup n := by
        apply (act_cache hv).1
        by_cases hname : c.name = n
        · exact Or.inr (hown hname)
        · exact Or.inl (Ne.symm hname)
      exact hsame.trans hu.cached
    · rcases get_set hd with ⟨rfl, rfl⟩ | ⟨-, hd⟩
      · subst hname
        exact Or.inr (Or.inl (act_hit hu.cached (hown rfl) hv))
      · exact hu.answered j d hd hname
  | put definition =>
    cases h
    exact ⟨hu.cached, hquiet, hu.answered⟩
  | delete name =>
    cases h
    exact ⟨hu.cached, hquiet, hu.answered⟩

/-- **What is cached stays.** Once an index is cached for a name, one is cached from then on, and
only the calls that had missed the cache before open the directory still. If none of them is under
way, the index that is cached is returned to every later call, whatever is put and deleted. -/
theorem cached_for_good {index : α} {ls : List (OpenLabel α)}
    (hcached : s.indexes.lookup n = some index) (hrun : Machine.run (step x) s ls = some t) :
    Cached n s t ∧
      ((∀ k, ¬ Busy n s k) → t.indexes.lookup n = some index ∧ Answered n index s t) := by
  constructor
  · exact Machine.run_invariant (I := Cached n s) ⟨by simp [hcached], fun _ => id⟩
      (fun _ _ _ hstep hu => step_cached hstep hu) hrun
  · intro hquiet
    have hfixed : Fixed n index s t :=
      Machine.run_invariant (I := Fixed n index s)
        ⟨hcached, hquiet, fun _ _ hc _ => Or.inr (Or.inr hc)⟩
        (fun _ _ _ hstep hu => step_fixed hstep hu) hrun
    exact ⟨hfixed.cached, hfixed.answered⟩

/-- Two calls that both miss the cache open the indexes 1 and 2. The second entry stays, through a
deletion too. -/
theorem cached_for_good_example :
    let start : Manager Nat := ⟨IndexRegistry.new.insert (.bare .strict "a"), ∅, []⟩
    let both : List (OpenLabel Nat) := [.call "a", .call "a", .act 0 (.ok 1), .act 1 (.ok 2),
      .act 0 (.ok 1), .act 1 (.ok 2), .act 0 (.ok 1), .act 1 (.ok 2), .act 0 (.ok 1),
      .act 1 (.ok 2)]
    ∃ s t, Machine.run (step .documented) start both = some s ∧
      Machine.run (step .documented) s [.delete "a", .call "a", .act 2 (.ok 3)] = some t ∧
      t.indexes.lookup "a" = some 2 ∧ Answered "a" 2 s t := by
  intro start both
  have hseen : ((Machine.run (step .documented) start both).bind fun s =>
      (Machine.run (step .documented) s [.delete "a", .call "a", .act 2 (.ok 3)]).map fun _ =>
        (s.indexes.lookup "a", s.calls.all fun c => !decide c.phase.UnderWay)) =
          some (some 2, true) := by decide +kernel
  obtain ⟨s, hs, hseen⟩ := Option.bind_eq_some_iff.mp hseen
  obtain ⟨t, ht, hpair⟩ := Option.map_eq_some_iff.mp hseen
  obtain ⟨hcached, hreturned⟩ := Prod.mk.inj hpair
  have hquiet : ∀ k, ¬ Busy "a" s k := by
    rintro k ⟨c, hc, -, hphase⟩
    have hdone := List.all_eq_true.mp hreturned c (List.mem_of_getElem? hc)
    simp [hphase] at hdone
  obtain ⟨hstill, hanswered⟩ := (cached_for_good hcached ht).2 hquiet
  exact ⟨s, t, hs, ht, hstill, hanswered⟩

end Manager
end Edgewit
