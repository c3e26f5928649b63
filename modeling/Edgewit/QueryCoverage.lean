import Edgewit.SearchLimits
import Mathlib.Algebra.Order.BigOperators.Group.List
import Mathlib.Data.List.ReduceOption

/-!
# What a query text leaves out

The restrictions of a query, each with the text that the translation has for it, if any,
against the text that is searched for. A restriction that is left out widens the result.

* `eq_of_joined`: by its length, a conjunction has no room for more pieces than it was made of;
* `neverWidens_iff`: the queries that are translated in full.
-/

namespace Edgewit

/-! ## Restrictions -/

def restrictionsAt (key : String) (f : Json → List (Option String)) (q : Json) :
    List (Option String) :=
  ((q.get key).map f).getD []

/-- Members with other keys. -/
def otherRestrictions (known : List String) : Json → List (Option String)
  | .object members => (members.filter fun m => m.1 ∉ known).map fun _ => none
  | _ => [none]

def queryStringRestrictions (v : Json) : List (Option String) :=
  [(v.get "query").bind Json.asStr]

/-- One for each field. -/
def fieldRestrictions (clause : String × Json → Option Clause) : Json → List (Option String)
  | .object obj => obj.map fun m => (clause m).map Clause.toQueryText
  | _ => [none]

def matchRestrictions : Json → List (Option String) := fieldRestrictions matchClause

def phraseRestrictions : Json → List (Option String) := fieldRestrictions phraseClause

/-- An entry of `must`: a `term` or a `range` has no text, nor has anything else unknown. -/
def entryRestrictions (item : Json) : List (Option String) :=
  restrictionsAt "match" matchRestrictions item ++
    restrictionsAt "match_phrase" phraseRestrictions item ++
    otherRestrictions ["match", "match_phrase"] item

def mustRestrictions : Json → List (Option String)
  | .array items => items.flatMap entryRestrictions
  | _ => [none]

/-- `must_not`, `filter` and `should` have no text. -/
def listRestrictions : Json → List (Option String)
  | .array items => items.map fun _ => none
  | _ => [none]

def boolRestrictions : Json → List (Option String)
  | .object members =>
    restrictionsAt "must" mustRestrictions (.object members) ++
      (restrictionsAt "must_not" listRestrictions (.object members) ++
        restrictionsAt "filter" listRestrictions (.object members) ++
        restrictionsAt "should" listRestrictions (.object members))
  | _ => [none]

/-- Everything in a query that narrows the result. -/
def restrictions (q : Json) : List (Option String) :=
  restrictionsAt "query_string" queryStringRestrictions q ++
    restrictionsAt "match" matchRestrictions q ++
    restrictionsAt "bool" boolRestrictions q ++
    otherRestrictions ["query_string", "match_all", "match", "bool"] q

/-- The text is a conjunction in which each restriction has a piece of its own. -/
def Represents (text : String) (rs : List (Option String)) : Prop :=
  ∃ pieces texts : List String, text = joined pieces ∧ rs = texts.map some ∧ texts.Subperm pieces

section
variable (x : SearchEngine) (reader : Option x.Snapshot) (params : SearchQueryParams 64)
  (body : SearchRequestBody 64)

/-- The request is answered with an error. -/
def Rejected : Prop := ∃ error, indexSearchHandler x reader params (some body) = some (.error error)

/-- The text is that for everything only if the query is a `query_string` with it, and
represents every restriction, unless the request is rejected. -/
def NeverWidens (q : Json) : Prop :=
  let text := extractQueryString { params with q := none } (some { body with query := some q })
  (text = "*" → queryStringText q = some "*") ∧
    (Represents text (restrictions q) ∨
      Rejected x reader { params with q := none } { body with query := some q })

end

/-! ## The condition -/

/-- Clauses with a text only, and not of both kinds. -/
def EntryUnderstood (item : Json) : Prop :=
  none ∉ entryRestrictions item ∧
    (((item.get "match").bind Json.asObject).isSome →
      restrictionsAt "match_phrase" phraseRestrictions item = [])

/-- A `query_string` with a text, a `match` on one field with a text, or a `must` of such
entries; and nothing else. -/
inductive Understood (q : Json) : Prop where
  | queryString {s : String} (text : queryStringText q = some s) (only : restrictions q = [some s])
  | oneMatch {s : String} (noMatchAll : q.get "match_all" = none)
      (one : restrictionsAt "match" matchRestrictions q = [some s])
      (only : restrictions q = [some s])
  | must {items : List Json} (noMatchAll : q.get "match_all" = none)
      (list : mustList q = some items) (clauses : items.flatMap entryRestrictions ≠ [])
      (only : restrictions q = items.flatMap entryRestrictions)
      (each : ∀ item ∈ items, EntryUnderstood item)

/-- A `query_string` with a text, or some field with a text in a `match` or a `must`. -/
def PartlyUnderstood (q : Json) : Prop :=
  (queryStringText q).isSome ∨
    (q.get "match_all" = none ∧ ((firstMatch q).isSome ∨ mustClauses q ≠ []))

/-! ## Lists of restrictions -/

theorem map_some_reduceOption {rs : List (Option String)} (h : none ∉ rs) :
    rs.reduceOption.map some = rs := by
  induction rs with
  | nil => rfl
  | cons r rs ih =>
    rw [List.mem_cons, not_or] at h
    cases r with
    | none => exact absurd rfl h.1
    | some s => rw [List.reduceOption_cons_of_some, List.map_cons, ih h.2]

theorem reduceOption_map_some (texts : List String) : (texts.map some).reduceOption = texts := by
  simp [List.reduceOption]

theorem none_not_mem_map_some (texts : List String) : none ∉ texts.map some := by simp

theorem reduceOption_otherRestrictions (known : List String) (q : Json) :
    (otherRestrictions known q).reduceOption = [] := by
  rw [List.reduceOption_eq_nil_iff]
  unfold otherRestrictions
  split
  · exact ⟨_, List.map_const'⟩
  · exact ⟨1, rfl⟩

theorem flatMap_sublist {items : List Json} {f g : Json → List String}
    (h : ∀ item ∈ items, (f item).Sublist (g item)) : (items.flatMap f).Sublist (items.flatMap g) := by
  induction items with
  | nil => exact List.Sublist.refl _
  | cons item items ih =>
    rw [List.forall_mem_cons] at h
    exact h.1.append (ih h.2)

/-- If the parts are within other parts and make up the same whole, they are the same. -/
theorem flatMap_eq_flatMap {items : List Json} {f g : Json → List String}
    (hsub : ∀ item ∈ items, (f item).Sublist (g item)) (h : items.flatMap f = items.flatMap g) :
    ∀ item ∈ items, f item = g item := by
  induction items with
  | nil => simp
  | cons item items ih =>
    rw [List.forall_mem_cons] at hsub ⊢
    rw [List.flatMap_cons, List.flatMap_cons] at h
    have hlength := congrArg List.length h
    rw [List.length_append, List.length_append] at hlength
    have hle := hsub.1.length_le
    have hle' := (flatMap_sublist hsub.2).length_le
    have hfirst := hsub.1.eq_of_length (by omega)
    rw [hfirst] at h
    exact ⟨hfirst, ih hsub.2 (List.append_cancel_left h)⟩

/-- A conjunction has no room for further pieces. -/
theorem eq_of_joined {used texts pieces : List String} (hne : used ≠ [])
    (hjoin : joined used = joined pieces) (hused : used.Sublist texts)
    (htexts : texts.Subperm pieces) : used = texts := by
  have hpieces : pieces ≠ [] := by
    rintro rfl
    have hle := hused.length_le.trans htexts.length_le
    exact hne (List.eq_nil_of_length_eq_zero (Nat.le_zero.mp hle))
  have hsum : (used.map String.length).sum ≤ (texts.map String.length).sum :=
    (hused.map _).sum_le_sum (fun _ _ => Nat.zero_le _)
  have hsum' : (texts.map String.length).sum ≤ (pieces.map String.length).sum := by
    obtain ⟨l, hperm, hsub⟩ := htexts
    rw [← (hperm.map String.length).sum_eq]
    exact (hsub.map _).sum_le_sum (fun _ _ => Nat.zero_le _)
  have hlength := joined_length hne
  have hlength' := joined_length hpieces
  have hle := hused.length_le
  have hle' := htexts.length_le
  rw [hjoin] at hlength
  exact hused.eq_of_length (by omega)

/-- A text that is made of some of the restrictions represents no more than these. -/
theorem represents_joined {used : List String} {rs : List (Option String)} (hne : used ≠ [])
    (hused : used.Sublist rs.reduceOption) : Represents (joined used) rs ↔ rs = used.map some := by
  constructor
  · rintro ⟨pieces, texts, hjoin, rfl, htexts⟩
    rw [reduceOption_map_some] at hused
    rw [eq_of_joined hne hjoin hused htexts]
  · intro h
    exact ⟨used, used, rfl, h, List.Subperm.refl used⟩

/-! ## The parts of a query -/

/-- The clauses that a member with the fields of a query has. -/
def clausesAt (key : String) (clause : String × Json → Option Clause) (q : Json) : List Clause :=
  ((q.get key).bind Json.asObject).elim [] (List.filterMap clause)

theorem textsAt_eq (key : String) (clause : String × Json → Option Clause) (q : Json) :
    (restrictionsAt key (fieldRestrictions clause) q).reduceOption =
      (clausesAt key clause q).map Clause.toQueryText := by
  unfold restrictionsAt clausesAt
  cases q.get key with
  | none => rfl
  | some v =>
    cases v with
    | object obj =>
      change (obj.map fun m => (clause m).map Clause.toQueryText).reduceOption =
        (obj.filterMap clause).map Clause.toQueryText
      simp only [List.reduceOption, List.filterMap_map, List.map_filterMap]
      rfl
    | _ => rfl

theorem entryTexts_eq (item : Json) :
    (entryRestrictions item).reduceOption =
      (clausesAt "match" matchClause item).map Clause.toQueryText ++
        (clausesAt "match_phrase" phraseClause item).map Clause.toQueryText := by
  unfold entryRestrictions
  rw [List.reduceOption_append, List.reduceOption_append, matchRestrictions, phraseRestrictions,
    textsAt_eq, textsAt_eq, reduceOption_otherRestrictions, List.append_nil]

/-- A `match` hides a `match_phrase` in the same entry. -/
theorem entryClauses_eq (item : Json) :
    entryClauses item =
      if ((item.get "match").bind Json.asObject).isSome then clausesAt "match" matchClause item
      else clausesAt "match_phrase" phraseClause item := by
  unfold entryClauses clausesAt
  cases (item.get "match").bind Json.asObject with
  | some obj => rfl
  | none => cases (item.get "match_phrase").bind Json.asObject <;> rfl

theorem clausesAt_none {key : String} {clause : String × Json → Option Clause} {q : Json}
    (h : ¬ ((q.get key).bind Json.asObject).isSome) : clausesAt key clause q = [] := by
  rw [Option.not_isSome_iff_eq_none] at h
  rw [clausesAt, h]
  rfl

theorem entryClauses_sublist (item : Json) :
    ((entryClauses item).map Clause.toQueryText).Sublist (entryRestrictions item).reduceOption := by
  rw [entryTexts_eq, entryClauses_eq]
  split
  · exact List.sublist_append_left _ _
  · exact List.sublist_append_right _ _

/-- An entry is understood if each of its restrictions has a text, and the text is used. -/
theorem entryUnderstood_iff (item : Json) :
    EntryUnderstood item ↔ none ∉ entryRestrictions item ∧
      (entryRestrictions item).reduceOption = (entryClauses item).map Clause.toQueryText := by
  unfold EntryUnderstood
  apply and_congr_right
  intro hall
  have hphrase : none ∉ restrictionsAt "match_phrase" phraseRestrictions item := by
    intro hmem
    exact hall (List.mem_append_left _ (List.mem_append_right _ hmem))
  have htexts := textsAt_eq "match_phrase" phraseClause item
  rw [entryTexts_eq, entryClauses_eq]
  by_cases hmatch : ((item.get "match").bind Json.asObject).isSome
  · rw [if_pos hmatch, List.append_right_eq_self, ← htexts]
    constructor
    · intro h
      change (restrictionsAt "match_phrase" phraseRestrictions item).reduceOption = []
      rw [h hmatch]
      rfl
    · intro h _
      rw [← map_some_reduceOption hphrase]
      exact congrArg (List.map some) h
  · rw [if_neg hmatch, clausesAt_none hmatch]
    simp [hmatch]

theorem mustRestrictions_eq {q : Json} {items : List Json} (h : mustList q = some items) :
    ∃ rest, restrictionsAt "bool" boolRestrictions q = items.flatMap entryRestrictions ++ rest := by
  obtain ⟨must, hmust, harray⟩ := Option.bind_eq_some_iff.mp h
  obtain ⟨b, hb, hget⟩ := Option.bind_eq_some_iff.mp hmust
  cases must with
  | array list =>
    cases b with
    | object members =>
      cases harray
      refine ⟨restrictionsAt "must_not" listRestrictions (.object members) ++
        restrictionsAt "filter" listRestrictions (.object members) ++
        restrictionsAt "should" listRestrictions (.object members), ?_⟩
      rw [restrictionsAt, hb]
      change boolRestrictions (.object members) = _
      rw [boolRestrictions, restrictionsAt, hget]
      rfl
    | _ => cases hget
  | _ => cases harray

theorem mustTexts_eq (items : List Json) :
    (items.flatMap entryRestrictions).reduceOption =
      items.flatMap fun item => (entryRestrictions item).reduceOption := by
  simp only [List.reduceOption, List.filterMap_flatMap]

theorem mustClauses_sublist (items : List Json) :
    ((items.flatMap entryClauses).map Clause.toQueryText).Sublist
      (items.flatMap entryRestrictions).reduceOption := by
  rw [mustTexts_eq, List.map_flatMap]
  exact flatMap_sublist fun item _ => entryClauses_sublist item

/-- Where the restrictions of a `must` are the texts that are used, each of its entries is
understood. -/
theorem entries_understood {items : List Json}
    (h : items.flatMap entryRestrictions =
      ((items.flatMap entryClauses).map Clause.toQueryText).map some) :
    ∀ item ∈ items, EntryUnderstood item := by
  intro item hitem
  rw [entryUnderstood_iff]
  constructor
  · intro hmem
    have hall : none ∈ items.flatMap entryRestrictions := List.mem_flatMap.mpr ⟨item, hitem, hmem⟩
    rw [h] at hall
    exact none_not_mem_map_some _ hall
  · have htexts := congrArg List.reduceOption h
    rw [reduceOption_map_some, mustTexts_eq, List.map_flatMap] at htexts
    exact (flatMap_eq_flatMap (fun item _ => entryClauses_sublist item) htexts.symm item hitem).symm

theorem flatMap_understood {items : List Json} (h : ∀ item ∈ items, EntryUnderstood item) :
    items.flatMap entryRestrictions =
      ((items.flatMap entryClauses).map Clause.toQueryText).map some := by
  induction items with
  | nil => rfl
  | cons item items ih =>
    rw [List.forall_mem_cons] at h
    obtain ⟨hall, htexts⟩ := (entryUnderstood_iff item).mp h.1
    rw [List.flatMap_cons, List.flatMap_cons, List.map_append, List.map_append, ← ih h.2, ← htexts,
      map_some_reduceOption hall]

/-! ## The whole query -/

theorem firstMatch_eq (q : Json) : firstMatch q = (clausesAt "match" matchClause q).head? := by
  unfold firstMatch clausesAt
  cases (q.get "match").bind Json.asObject <;> rfl

theorem clausesAt_match {q : Json} (h : restrictionsAt "match" matchRestrictions q = []) :
    clausesAt "match" matchClause q = [] := by
  have htexts := textsAt_eq "match" matchClause q
  rw [← matchRestrictions, h] at htexts
  exact List.map_eq_nil_iff.mp htexts.symm

/-- A query string is always a restriction. -/
theorem queryString_eq (q : Json) :
    restrictionsAt "query_string" queryStringRestrictions q =
      if (q.get "query_string").isSome then [queryStringText q] else [] := by
  unfold restrictionsAt queryStringText
  cases q.get "query_string" <;> rfl

theorem queryString_some {q : Json} {s : String} (h : queryStringText q = some s) :
    restrictionsAt "query_string" queryStringRestrictions q = [some s] := by
  obtain ⟨text, htext, -⟩ := Option.bind_eq_some_iff.mp h
  obtain ⟨v, hv, -⟩ := Option.bind_eq_some_iff.mp htext
  rw [queryString_eq, hv, h]
  rfl

theorem queryString_nil {q : Json} (h : restrictionsAt "query_string" queryStringRestrictions q = []) :
    queryStringText q = none := by
  cases htext : queryStringText q with
  | none => rfl
  | some s =>
    rw [queryString_some htext] at h
    cases h

theorem string_within (q : Json) :
    (restrictionsAt "query_string" queryStringRestrictions q).Sublist (restrictions q) := by
  unfold restrictions
  rw [List.append_assoc, List.append_assoc]
  exact List.sublist_append_left _ _

theorem match_within (q : Json) :
    (restrictionsAt "match" matchRestrictions q).Sublist (restrictions q) := by
  unfold restrictions
  rw [List.append_assoc, List.append_assoc]
  exact (List.sublist_append_left _ _).trans (List.sublist_append_right _ _)

theorem must_within {q : Json} {items : List Json} (h : mustList q = some items) :
    (items.flatMap entryRestrictions).Sublist (restrictions q) := by
  obtain ⟨rest, hbool⟩ := mustRestrictions_eq h
  unfold restrictions
  rw [hbool]
  apply List.Sublist.trans _ (List.sublist_append_left _ _)
  exact (List.sublist_append_left _ _).trans (List.sublist_append_right _ _)

/-- How the text of a query comes about. -/
theorem translate_cases (q : Json) :
    (∃ s, queryStringText q = some s ∧ translate q = s) ∨
    (queryStringText q = none ∧ (q.get "match_all").isSome ∧ translate q = "*") ∨
    (queryStringText q = none ∧ q.get "match_all" = none ∧ ∃ c, firstMatch q = some c ∧
      translate q = joined [c.toQueryText]) ∨
    (queryStringText q = none ∧ q.get "match_all" = none ∧ firstMatch q = none ∧
      mustClauses q ≠ [] ∧ translate q = joined ((mustClauses q).map Clause.toQueryText)) ∨
    (queryStringText q = none ∧ q.get "match_all" = none ∧ firstMatch q = none ∧
      mustClauses q = [] ∧ translate q = "*") := by
  unfold translate
  cases hquery : queryStringText q with
  | some s => exact Or.inl ⟨s, rfl, rfl⟩
  | none =>
    right
    cases hall : q.get "match_all" with
    | some v => exact Or.inl ⟨rfl, rfl, rfl⟩
    | none =>
      right
      cases hfirst : firstMatch q with
      | some c => exact Or.inl ⟨rfl, rfl, c, rfl, by simp [joined]⟩
      | none =>
        right
        by_cases hmust : mustClauses q = []
        · exact Or.inr ⟨rfl, rfl, rfl, hmust, by simp [hmust]⟩
        · exact Or.inl ⟨rfl, rfl, rfl, hmust, by simp [hmust]⟩

/-- Everything is asked for only where nothing is understood. -/
theorem star_iff (q : Json) :
    (translate q = "*" → queryStringText q = some "*") ↔ PartlyUnderstood q := by
  unfold PartlyUnderstood
  rcases translate_cases q with ⟨s, hquery, htext⟩ | ⟨hquery, hall, htext⟩ |
    ⟨hquery, hall, c, hfirst, htext⟩ | ⟨hquery, hall, hfirst, hmust, htext⟩ |
    ⟨hquery, hall, hfirst, hmust, htext⟩
  · simp [hquery, htext]
  · have hsome : q.get "match_all" ≠ none := Option.isSome_iff_ne_none.mp hall
    simp [hquery, hsome, htext]
  · have hne : translate q ≠ "*" := htext ▸ joined_ne_star
    simp [hne, hall, hfirst]
  · obtain ⟨c, rest, hcons⟩ := List.exists_cons_of_ne_nil hmust
    have hne : translate q ≠ "*" := by
      rw [htext, hcons]
      exact joined_ne_star
    simp [hne, hall, hmust]
  · simp [hquery, hall, hfirst, hmust, htext]

/-- A list that is equal to a part of itself has nothing around that part. -/
theorem eq_of_append {as bs cs : List (Option String)} (h : as ++ bs ++ cs = bs) :
    as = [] ∧ cs = [] := by
  have hlength := congrArg List.length h
  simp only [List.length_append] at hlength
  exact ⟨List.eq_nil_of_length_eq_zero (by omega), List.eq_nil_of_length_eq_zero (by omega)⟩

theorem understood_queryString {q : Json} {s : String} (hquery : queryStringText q = some s)
    (h : Represents s (restrictions q)) : Understood q := by
  have hwithin := string_within q
  rw [queryString_some hquery] at hwithin
  have hused : [s].Sublist (restrictions q).reduceOption := hwithin.filterMap id
  rw [show s = joined [s] by simp [joined], represents_joined (List.cons_ne_nil _ _) hused] at h
  exact .queryString hquery h

/-- The one restriction is that of the first field of the `match`. -/
theorem understood_match {q : Json} {c : Clause} (hall : q.get "match_all" = none)
    (hfirst : firstMatch q = some c)
    (h : Represents (joined [c.toQueryText]) (restrictions q)) : Understood q := by
  rw [firstMatch_eq] at hfirst
  obtain ⟨rest, hclauses⟩ := List.head?_eq_some_iff.mp hfirst
  have htexts := textsAt_eq "match" matchClause q
  rw [← matchRestrictions, hclauses, List.map_cons] at htexts
  have hused : [c.toQueryText].Sublist (restrictions q).reduceOption := by
    have hwithin : (restrictionsAt "match" matchRestrictions q).reduceOption.Sublist _ :=
      (match_within q).filterMap id
    rw [htexts] at hwithin
    exact (List.sublist_append_left [c.toQueryText] _).trans hwithin
  rw [represents_joined (List.cons_ne_nil _ _) hused] at h
  have hmatch : some c.toQueryText ∈ restrictionsAt "match" matchRestrictions q := by
    rw [← List.reduceOption_mem_iff, htexts]
    exact List.mem_cons_self
  have hone : restrictionsAt "match" matchRestrictions q = restrictions q := by
    apply (match_within q).eq_of_length_le
    rw [h]
    exact List.length_pos_of_mem hmatch
  exact .oneMatch hall (hone.trans h) h

/-- All restrictions are in the `must`. -/
theorem understood_must {q : Json} (hall : q.get "match_all" = none) (hmust : mustClauses q ≠ [])
    (h : Represents (joined ((mustClauses q).map Clause.toQueryText)) (restrictions q)) :
    Understood q := by
  obtain ⟨items, hlist⟩ : ∃ items, mustList q = some items := by
    cases hlist : mustList q with
    | none => simp [mustClauses, hlist] at hmust
    | some items => exact ⟨items, rfl⟩
  have hclauses : mustClauses q = items.flatMap entryClauses := by simp [mustClauses, hlist]
  rw [hclauses] at hmust h
  have hwithin := must_within hlist
  have hne : (items.flatMap entryClauses).map Clause.toQueryText ≠ [] := by simpa using hmust
  have hused := (mustClauses_sublist items).trans (hwithin.filterMap id)
  rw [represents_joined hne hused] at h
  have honly : items.flatMap entryRestrictions = restrictions q := by
    apply hwithin.eq_of_length_le
    rw [h, List.length_map]
    exact (mustClauses_sublist items).length_le.trans (List.reduceOption_length_le _)
  refine .must hall hlist ?_ honly.symm (entries_understood (honly.trans h))
  rw [honly, h]
  simpa using hmust

theorem understood_of_represents {q : Json} (hpart : PartlyUnderstood q)
    (h : Represents (translate q) (restrictions q)) : Understood q := by
  rcases translate_cases q with ⟨s, hquery, htext⟩ | ⟨hquery, hall, htext⟩ |
    ⟨hquery, hall, c, hfirst, htext⟩ | ⟨hquery, hall, hfirst, hmust, htext⟩ |
    ⟨hquery, hall, hfirst, hmust, htext⟩
  · exact understood_queryString hquery (htext ▸ h)
  · have hsome : q.get "match_all" ≠ none := Option.isSome_iff_ne_none.mp hall
    simp [PartlyUnderstood, hquery, hsome] at hpart
  · exact understood_match hall hfirst (htext ▸ h)
  · exact understood_must hall hmust (htext ▸ h)
  · simp [PartlyUnderstood, hquery, hfirst, hmust] at hpart

theorem firstMatch_of_one {q : Json} {s : String}
    (h : restrictionsAt "match" matchRestrictions q = [some s]) :
    ∃ c, firstMatch q = some c ∧ c.toQueryText = s := by
  have hclauses := textsAt_eq "match" matchClause q
  rw [← matchRestrictions, h] at hclauses
  obtain ⟨c, rest, hcons, htext, -⟩ := List.map_eq_cons_iff.mp hclauses.symm
  rw [firstMatch_eq, hcons]
  exact ⟨c, rfl, htext⟩

theorem represents_of_understood {q : Json} (h : Understood q) :
    PartlyUnderstood q ∧ Represents (translate q) (restrictions q) := by
  cases h with
  | @queryString s text only =>
    refine ⟨Or.inl (by rw [text]; rfl), [s], [s], ?_, only, List.Subperm.refl _⟩
    simp [translate, text, joined]
  | @oneMatch s noMatchAll one only =>
    have hrest := only
    unfold restrictions at hrest
    rw [one, List.append_assoc] at hrest
    have hquery := queryString_nil (eq_of_append hrest).1
    obtain ⟨c, hfirst, htext⟩ := firstMatch_of_one one
    refine ⟨Or.inr ⟨noMatchAll, Or.inl (by rw [hfirst]; rfl)⟩, [s], [s], ?_, only,
      List.Subperm.refl _⟩
    simp [translate, hquery, noMatchAll, hfirst, htext, joined]
  | @must items noMatchAll list clauses only each =>
    have htexts := flatMap_understood each
    obtain ⟨rest, hbool⟩ := mustRestrictions_eq list
    have hrest := only
    unfold restrictions at hrest
    rw [hbool, ← List.append_assoc, List.append_assoc] at hrest
    obtain ⟨hstring, hmatch⟩ := List.append_eq_nil_iff.mp (eq_of_append hrest).1
    have hquery := queryString_nil hstring
    have hfirst : firstMatch q = none := by
      rw [firstMatch_eq, clausesAt_match hmatch]
      rfl
    have hmust : mustClauses q = items.flatMap entryClauses := by simp [mustClauses, list]
    have hne : items.flatMap entryClauses ≠ [] := by
      intro hnil
      rw [htexts, hnil] at clauses
      exact clauses rfl
    refine ⟨Or.inr ⟨noMatchAll, Or.inr (hmust ▸ hne)⟩, _, _, ?_, only.trans htexts,
      List.Subperm.refl _⟩
    simp [translate, hquery, noMatchAll, hfirst, hmust, hne]

/-- **A query is never widened exactly where it is understood,** or where what is understood
of it is rejected by the search. -/
theorem neverWidens_iff (x : SearchEngine) (reader : Option x.Snapshot)
    (params : SearchQueryParams 64) (body : SearchRequestBody 64) (q : Json) :
    NeverWidens x reader params body q ↔
      Understood q ∨ (PartlyUnderstood q ∧
        Rejected x reader { params with q := none } { body with query := some q }) := by
  change (translate q = "*" → queryStringText q = some "*") ∧
    (Represents (translate q) (restrictions q) ∨ _) ↔ _
  rw [star_iff]
  constructor
  · rintro ⟨hpart, hrepresents | hrejected⟩
    · exact Or.inl (understood_of_represents hpart hrepresents)
    · exact Or.inr ⟨hpart, hrejected⟩
  · rintro (hunderstood | ⟨hpart, hrejected⟩)
    · obtain ⟨hpart, hrepresents⟩ := represents_of_understood hunderstood
      exact ⟨hpart, Or.inl hrepresents⟩
    · exact ⟨hpart, Or.inr hrejected⟩

/-- A `term` query finds everything, and a `must_not` is dropped. -/
theorem term_finds_all :
    translate (.object [("term", .object [("level", .string "error")])]) = "*" ∧
      translate (.object [("bool", .object
        [("must", .array [.object [("match", .object [("a", .string "x")])]]),
          ("must_not", .array [.object [("match", .object [("b", .string "y")])]])])]) = "a:x" ∧
      ¬ ∀ (x : SearchEngine) (reader : Option x.Snapshot) (params : SearchQueryParams 64)
        (body : SearchRequestBody 64) (q : Json), NeverWidens x reader params body q := by
  have hterm : translate (.object [("term", .object [("level", .string "error")])]) = "*" := by
    decide +kernel
  refine ⟨hterm, by decide +kernel, ?_⟩
  intro halways
  have hstring := (halways strictSegments none ⟨none, none, none⟩ ⟨none, none, none⟩
    (.object [("term", .object [("level", .string "error")])])).1 hterm
  have hnone : queryStringText (.object [("term", .object [("level", .string "error")])]) = none :=
    rfl
  rw [hnone] at hstring
  cases hstring

end Edgewit
