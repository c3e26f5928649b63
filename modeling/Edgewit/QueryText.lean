import Edgewit.Json
import Mathlib.Algebra.GroupWithZero.Nat

/-!
# The query text

`extract_query_string`: what a search hands to the query parser. Each part of the body that
it knows is a function of its own, and the first one that finds something decides.

* `joined_length`: a conjunction is as long as its pieces and the words between them;
* `joined_ne_star`: a conjunction of clauses is not the query for everything.
-/

namespace Edgewit

namespace Json

def asObject : Json → Option JsonMap
  | .object members => some members
  | _ => none

def asArray : Json → Option (List Json)
  | .array items => some items
  | _ => none

end Json

/-- The parameters of a search; `w` is the width of a `usize`. -/
structure SearchQueryParams (w : Nat) where
  q : Option String
  «from» : Option (BitVec w)
  size : Option (BitVec w)

structure SearchRequestBody (w : Nat) where
  query : Option Json
  «from» : Option (BitVec w)
  size : Option (BitVec w)

/-! ## Clauses -/

inductive ClauseKind where
  | fieldMatch
  | matchPhrase
  deriving DecidableEq, Repr

structure Clause where
  kind : ClauseKind
  field : String
  text : String
  deriving DecidableEq, Repr

/-- The text is not escaped. -/
def Clause.toQueryText (c : Clause) : String :=
  match c.kind with
  | .fieldMatch => c.field ++ ":" ++ c.text
  | .matchPhrase => c.field ++ ":\"" ++ c.text ++ "\""

/-- The text of a `match`: the value, or its `query`. -/
def matchText : Json → Option String
  | .string s => some s
  | .object obj2 => (JsonMap.get? obj2 "query").bind Json.asStr
  | _ => none

/-- A field of a `match`, if it has a text. -/
def matchClause (m : String × Json) : Option Clause :=
  (matchText m.2).map fun s => ⟨.fieldMatch, m.1, s⟩

def phraseClause (m : String × Json) : Option Clause :=
  m.2.asStr.map fun s => ⟨.matchPhrase, m.1, s⟩

/-- The loop body for an entry of `must`: an entry with a `match` is not looked at for a
`match_phrase`. -/
def entryClauses (item : Json) : List Clause :=
  match (item.get "match").bind Json.asObject with
  | some obj => obj.filterMap matchClause
  | none =>
    match (item.get "match_phrase").bind Json.asObject with
    | some obj => obj.filterMap phraseClause
    | none => []

/-! ## Queries -/

def queryStringText (q : Json) : Option String :=
  ((q.get "query_string").bind (Json.get "query")).bind Json.asStr

/-- The first field of a `match` that has a text. -/
def firstMatch (q : Json) : Option Clause :=
  ((q.get "match").bind Json.asObject).bind fun obj => (obj.filterMap matchClause).head?

def mustList (q : Json) : Option (List Json) :=
  ((q.get "bool").bind (Json.get "must")).bind Json.asArray

def mustClauses (q : Json) : List Clause := ((mustList q).getD []).flatMap entryClauses

def joined (pieces : List String) : String := " AND ".intercalate pieces

/-- The text of a query that is in the body. -/
def translate (q : Json) : String :=
  match queryStringText q with
  | some s => s
  | none =>
    if (q.get "match_all").isSome then "*"
    else
      match firstMatch q with
      | some c => c.toQueryText
      | none =>
        let parts := (mustClauses q).map Clause.toQueryText
        if parts.isEmpty then "*" else joined parts

def extractQueryString {w : Nat} (params : SearchQueryParams w)
    (body : Option (SearchRequestBody w)) : String :=
  match params.q with
  | some q => q
  | none =>
    match body.bind SearchRequestBody.query with
    | some q => translate q
    | none => "*"

/-! ## Texts -/

theorem Clause.colon_mem (c : Clause) : ':' ∈ c.toQueryText.toList := by
  unfold Clause.toQueryText
  split <;> simp

theorem joined_length {pieces : List String} (h : pieces ≠ []) :
    (joined pieces).length + 5 = (pieces.map String.length).sum + 5 * pieces.length := by
  induction pieces with
  | nil => exact absurd rfl h
  | cons piece rest ih =>
    by_cases hrest : rest = []
    · simp [joined, hrest]
    · have hlength := ih hrest
      have hword : " AND ".length = 5 := rfl
      unfold joined at hlength ⊢
      rw [String.intercalate_cons_of_ne_nil hrest, String.length_append, String.length_append]
      simp only [List.map_cons, List.sum_cons, List.length_cons]
      omega

/-- A conjunction of clauses is not the query for everything. -/
theorem joined_ne_star {c : Clause} {rest : List String} : joined (c.toQueryText :: rest) ≠ "*" := by
  have hmem : ':' ∈ (joined (c.toQueryText :: rest)).toList := by
    cases rest with
    | nil => simpa [joined] using c.colon_mem
    | cons next rest =>
      rw [joined, String.intercalate_cons_cons, String.append_assoc, String.toList_append]
      exact List.mem_append_left _ c.colon_mem
  intro h
  rw [h] at hmem
  revert hmem
  decide

end Edgewit
