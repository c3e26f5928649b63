import Edgewit.Paging
import Edgewit.QueryText

/-!
# The limit of a search

`index_search_handler`: `from` and `size` are taken from the query string, then from the
body, and their sum is the limit that `execute_search` passes to `TopDocs`.

* `executeSearch_returns`: a search does not panic if its readers serve its limit;
* `pagingSafe_iff`: the limit is the sum, and nothing panics, as long as the sum is a `usize` and
  the reader serves it.

Of the aggregations nothing is modelled: a search with them passes the same limit.
-/

namespace Edgewit

section
variable {w : Nat} (params : SearchQueryParams w) (body : Option (SearchRequestBody w))

def requestedFrom : BitVec w := (params.from.or (body.bind (·.from))).getD 0

def requestedSize : BitVec w := (params.size.or (body.bind (·.size))).getD 10

end

/-- The limit of `execute_search`; a release build does not check the addition. -/
def topDocsLimit {w : Nat} (first size : BitVec w) : Nat := if size = 0 then 1 else (first + size).toNat

/-- The request that the handler makes of its parameters, where a `usize` has 64 bits. -/
def searchRequest (params : SearchQueryParams 64) (body : Option (SearchRequestBody 64)) :
    SearchRequest where
  query := extractQueryString params body
  size := (requestedSize params body).toNat
  offset := (requestedFrom params body).toNat

section
variable (x : SearchEngine)

/-- An error of the search is a bad request. The reader is that of the index, if there is
one. -/
def indexSearchHandler (reader : Option x.Snapshot) (params : SearchQueryParams 64)
    (body : Option (SearchRequestBody 64)) : Option (Except (Nat × String) (SearchResponse x)) :=
  (executeSearch x reader.toList (searchRequest params body)).map
    (·.mapError fun e => (400, s!"Search error: {e}"))

/-- The limits that the loop over the readers passes to `TopDocs`: none for a reader without
a field to look the query up in, and none after an error. -/
def limitsPassed (r : SearchRequest) : List x.Snapshot → List Nat
  | [] => []
  | searcher :: readers =>
    match queryField (x.schema searcher) with
    | none => limitsPassed r readers
    | some field =>
      match buildQuery x searcher field r.query with
      | .error _ => []
      | .ok query =>
        match x.search searcher query r.limit with
        | some (.ok _) => r.limit :: limitsPassed r readers
        | _ => [r.limit]

/-- The readers serve the limit: where the query is passed to them, `TopDocs` does not panic. It does
with a limit of zero, and where it cannot allocate what it needs. -/
def Served (query : String) (readers : List x.Snapshot) (limit : Nat) : Prop :=
  ∀ searcher ∈ readers, ∀ field built, queryField (x.schema searcher) = some field →
    buildQuery x searcher field query = .ok built → x.search searcher built limit ≠ none

/-- Every limit passed is positive and reaches to the end of the page, unless the request
is rejected; and the sum does not wrap, nor the handler panic. -/
def PagingSafe (reader : Option x.Snapshot) (params : SearchQueryParams 64)
    (body : Option (SearchRequestBody 64)) : Prop :=
  let first := requestedFrom params body
  let size := requestedSize params body
  ((∀ limit ∈ limitsPassed x (searchRequest params body) reader.toList,
      1 ≤ limit ∧ (size ≠ 0 → limit = first.toNat + size.toNat)) ∨
    ∃ error, indexSearchHandler x reader params body = some (.error error)) ∧
  (size ≠ 0 → (first + size).toNat = first.toNat + size.toNat) ∧
  indexSearchHandler x reader params body ≠ none

end

/-! ## The arithmetic -/

theorem sum_iff {w : Nat} {first size : BitVec w} :
    (first + size).toNat = first.toNat + size.toNat ↔ first.toNat + size.toNat < 2 ^ w := by
  constructor
  · intro h
    rw [← h]
    exact (first + size).isLt
  · exact fun h => BitVec.toNat_add_of_lt h

theorem topDocsLimit_iff {w : Nat} {first size : BitVec w} :
    (1 ≤ topDocsLimit first size ∧
      (size ≠ 0 → topDocsLimit first size = first.toNat + size.toNat)) ↔
      size = 0 ∨ first.toNat + size.toNat < 2 ^ w := by
  unfold topDocsLimit
  by_cases hsize : size = 0
  · simp [hsize]
  · have hpos : size.toNat ≠ 0 := fun h => hsize (BitVec.eq_of_toNat_eq h)
    simp only [hsize, if_false, ne_eq, not_false_eq_true, true_implies, false_or, sum_iff]
    constructor
    · exact fun h => h.2
    · intro h
      have hsum := sum_iff.mpr h
      omega

theorem limit_searchRequest (params : SearchQueryParams 64)
    (body : Option (SearchRequestBody 64)) :
    (searchRequest params body).limit =
      topDocsLimit (requestedFrom params body) (requestedSize params body) := by
  unfold SearchRequest.limit topDocsLimit searchRequest
  rw [BitVec.toNat_add]
  by_cases hsize : requestedSize params body = 0
  · simp [hsize]
  · have hpos : (requestedSize params body).toNat ≠ 0 :=
      fun h => hsize (BitVec.eq_of_toNat_eq h)
    rw [if_neg hpos, if_neg hsize]

/-! ## The search -/

variable {x : SearchEngine}

theorem mem_limitsPassed {r : SearchRequest} {readers : List x.Snapshot} {limit : Nat}
    (h : limit ∈ limitsPassed x r readers) : limit = r.limit := by
  induction readers with
  | nil => cases h
  | cons searcher readers ih =>
    unfold limitsPassed at h
    split at h
    · exact ih h
    split at h
    · cases h
    split at h
    · rcases List.mem_cons.mp h with heq | hrest
      · exact heq
      · exact ih hrest
    · exact List.mem_singleton.mp h

theorem Served.tail {query : String} {searcher : x.Snapshot} {readers : List x.Snapshot} {limit : Nat}
    (h : Served x query (searcher :: readers) limit) : Served x query readers limit :=
  fun other hother => h other (List.mem_cons_of_mem searcher hother)

theorem searchPhase_returns {searcher : x.Snapshot} {readers : List x.Snapshot} {r : SearchRequest}
    (hserved : Served x r.query (searcher :: readers) r.limit) : searchPhase x searcher r ≠ none := by
  unfold searchPhase
  split
  · simp
  rename_i field hfield
  split
  · simp
  · rename_i built hbuilt
    simpa using hserved searcher List.mem_cons_self field built hfield hbuilt

/-- A search that returns has been served. -/
theorem served_of_returns {searcher : x.Snapshot} {r : SearchRequest}
    (h : executeSearch x [searcher] r ≠ none) : Served x r.query [searcher] r.limit := by
  intro other hother field built hfield hbuilt hnone
  rw [List.mem_singleton] at hother
  subst hother
  apply h
  have hphase : searchPhase x other r = none := by
    simp only [searchPhase, hfield, hbuilt, hnone, Option.map_none]
  simp only [executeSearch, collectHits, hphase]

/-- What is collected is found in the readers. -/
theorem collectHits_returns {r : SearchRequest} (before : List x.Snapshot) {readers : List x.Snapshot}
    (hserved : Served x r.query readers r.limit) :
    (∃ error, collectHits x r before.length readers = some (.error error)) ∨
    ∃ total hits, collectHits x r before.length readers = some (.ok (total, hits)) ∧
      ∀ m ∈ hits, (hitAt x (before ++ readers) m).isSome := by
  induction readers generalizing before with
  | nil => exact Or.inr ⟨0, [], rfl, by simp⟩
  | cons searcher readers ih =>
    cases hphase : searchPhase x searcher r with
    | none => exact absurd hphase (searchPhase_returns hserved)
    | some answer =>
      rw [collectHits, hphase]
      cases answer with
      | error e => exact Or.inl ⟨e, rfl⟩
      | ok found =>
        obtain ⟨total, top⟩ := found
        have hmore := ih (before ++ [searcher]) hserved.tail
        rw [List.length_append, List.length_singleton, List.append_assoc,
          List.singleton_append] at hmore
        rcases hmore with ⟨error, hrest⟩ | ⟨more, hits, hrest, hfound⟩
        · exact Or.inl ⟨error, by simp only [hrest]; rfl⟩
        · refine Or.inr ⟨_, _, by simp only [hrest]; rfl, ?_⟩
          intro m hm
          rcases List.mem_append.mp hm with hm | hm
          · obtain ⟨entry, hmem, rfl⟩ := List.mem_map.mp hm
            obtain ⟨d, hd⟩ := SharedReader.searchPhase_inside hphase entry hmem
            simp [hitAt, hd]
          · exact hfound m hm

theorem executeSearch_returns {r : SearchRequest} {readers : List x.Snapshot}
    (hserved : Served x r.query readers r.limit) : executeSearch x readers r ≠ none := by
  unfold executeSearch
  rcases collectHits_returns [] hserved with ⟨error, hcollect⟩ |
    ⟨total, hits, hcollect, hfound⟩
  · rw [List.length_nil] at hcollect
    simp [hcollect]
  · rw [List.length_nil] at hcollect
    rw [List.nil_append] at hfound
    have hpage : ∀ m ∈ ((sortHits x hits).drop r.offset).take (if r.size = 0 then 0 else r.size),
        (hitAt x readers m).isSome := fun m hm =>
      hfound m (List.mem_mergeSort.mp (List.mem_of_mem_drop (List.mem_of_mem_take hm)))
    obtain ⟨shown, hfetch, -⟩ := fetchHits_shown hpage
    simp [hcollect, hfetch]

/-- **The paging arithmetic is safe exactly where the sum of `from` and `size` is a `usize` that
the reader serves as a limit,** or where the size is zero, if a limit of one is always served; for
the limit alone this is so at every width of a `usize`. -/
theorem pagingSafe_iff (hone : ∀ searcher query, x.search searcher query 1 ≠ none) :
    (∀ (reader : Option x.Snapshot) (params : SearchQueryParams 64)
        (body : Option (SearchRequestBody 64)),
      PagingSafe x reader params body ↔
        requestedSize params body = 0 ∨
          ((requestedFrom params body).toNat + (requestedSize params body).toNat < 2 ^ 64 ∧
            Served x (extractQueryString params body) reader.toList
              ((requestedFrom params body).toNat + (requestedSize params body).toNat))) ∧
    ∀ (w : Nat) (first size : BitVec w),
      (1 ≤ topDocsLimit first size ∧
        (size ≠ 0 → topDocsLimit first size = first.toNat + size.toNat)) ↔
        size = 0 ∨ first.toNat + size.toNat < 2 ^ w := by
  refine ⟨?_, fun w first size => topDocsLimit_iff⟩
  intro reader params body
  have hhandler : indexSearchHandler x reader params body ≠ none ↔
      executeSearch x reader.toList (searchRequest params body) ≠ none := by
    simp [indexSearchHandler]
  have hquery : (searchRequest params body).query = extractQueryString params body := rfl
  constructor
  · rintro ⟨-, hsum, hreturns⟩
    by_cases hsize : requestedSize params body = 0
    · exact Or.inl hsize
    · refine Or.inr ⟨sum_iff.mp (hsum hsize), ?_⟩
      have hlimit : (searchRequest params body).limit =
          (requestedFrom params body).toNat + (requestedSize params body).toNat := by
        rw [limit_searchRequest, topDocsLimit, if_neg hsize, hsum hsize]
      cases reader with
      | none => simp [Served]
      | some searcher =>
        rw [← hlimit, ← hquery]
        exact served_of_returns (hhandler.mp hreturns)
  · intro h
    have hfits : requestedSize params body = 0 ∨
        (requestedFrom params body).toNat + (requestedSize params body).toNat < 2 ^ 64 :=
      h.imp_right And.left
    obtain ⟨hpos, heq⟩ := topDocsLimit_iff.mpr hfits
    have hserved : Served x (searchRequest params body).query reader.toList
        (searchRequest params body).limit := by
      rw [limit_searchRequest, hquery]
      by_cases hsize : requestedSize params body = 0
      · rw [topDocsLimit, if_pos hsize]
        exact fun searcher _ _ built _ _ => hone searcher built
      · rw [heq hsize]
        exact (h.resolve_left hsize).2
    refine ⟨Or.inl fun limit hlimit => ?_, fun hsize => sum_iff.mpr (hfits.resolve_left hsize), ?_⟩
    · rw [mem_limitsPassed hlimit, limit_searchRequest]
      exact ⟨hpos, heq⟩
    · exact hhandler.mpr (executeSearch_returns hserved)

/-- Segments that are searched with a positive limit only, up to one for which there is memory. -/
abbrev strictSegments : SearchEngine :=
  { SharedReader.segments with
    search := fun snapshot query limit =>
      if limit = 0 ∨ 2 ^ 20 < limit then none
      else SharedReader.segments.search snapshot query limit
    found := by
      intro snapshot query limit total top hsearch
      split at hsearch
      · cases hsearch
      · exact SharedReader.segments.found hsearch }

theorem strictSegments_search (searcher : strictSegments.Snapshot) (query : strictSegments.Query)
    (limit : Nat) :
    strictSegments.search searcher query limit = none ↔ limit = 0 ∨ 2 ^ 20 < limit := by
  by_cases h : limit = 0 ∨ 2 ^ 20 < limit
  · exact iff_of_true (if_pos h) h
  · refine iff_of_false (fun hnone => ?_) h
    cases (if_neg h).symm.trans hnone

/-- The third page. -/
theorem pagingSafe_iff_example :
    PagingSafe strictSegments (some [["a"]]) ⟨none, some 20, none⟩ none := by
  apply ((pagingSafe_iff fun searcher query => ?_).1 _ _ _).mpr
  · refine Or.inr ⟨by decide, fun searcher _ _ built _ _ => ?_⟩
    rw [Ne, strictSegments_search]
    decide
  · rw [Ne, strictSegments_search]
    decide

/-- The sum is zero, which is a panic, and one further a small number. -/
theorem sum_wraps :
    indexSearchHandler strictSegments (some [["a"]]) ⟨none, some (-10), none⟩ none = none ∧
      topDocsLimit (-1 : BitVec 64) 10 = 9 ∧
      ¬ ∀ (reader : Option strictSegments.Snapshot) (params : SearchQueryParams 64)
        (body : Option (SearchRequestBody 64)), PagingSafe strictSegments reader params body := by
  have hpanics : indexSearchHandler strictSegments (some [["a"]]) ⟨none, some (-10), none⟩ none =
      none := by decide +kernel
  refine ⟨hpanics, by decide, ?_⟩
  intro halways
  exact (halways (some [["a"]]) ⟨none, some (-10), none⟩ none).2.2 hpanics

end Edgewit
