import Edgewit.QueryText
import Edgewit.QueryTokens
import Edgewit.Routes

/-!
# Which clauses a query text can come from

The translation puts fields and texts together as they are. What it makes of a query of the
supported subset is `translate_supported`.

* `contained_iff`: which queries no other query has the text of;
* `plain_injective`: which queries are told apart among themselves;
* `inside_iff`: in which queries every text stays inside its clause, so that the parser reads the
  clauses and nothing else.
-/

namespace Edgewit
open QueryLanguage

/-! ## Lists -/

/-- A list is split in one way at the first of an element. -/
theorem append_cons_first {α : Type} {a b s t : List α} {x : α} (ha : x ∉ a) (hb : x ∉ b)
    (h : a ++ x :: s = b ++ x :: t) : a = b ∧ s = t := by
  induction a generalizing b with
  | nil =>
    cases b with
    | nil => exact ⟨rfl, (List.cons.inj h).2⟩
    | cons y b =>
      obtain rfl := (List.cons.inj h).1
      exact absurd List.mem_cons_self hb
  | cons y a ih =>
    cases b with
    | nil =>
      obtain rfl := (List.cons.inj h).1
      exact absurd List.mem_cons_self ha
    | cons z b =>
      obtain ⟨rfl, hrest⟩ := List.cons.inj h
      rw [List.mem_cons, not_or] at ha hb
      obtain ⟨rfl, rfl⟩ := ih ha.2 hb.2 hrest
      exact ⟨rfl, rfl⟩

/-- And at the last. -/
theorem append_cons_last {α : Type} {a b s t : List α} {x : α} (hs : x ∉ s) (ht : x ∉ t)
    (h : a ++ x :: s = b ++ x :: t) : a = b ∧ s = t := by
  have hreverse := congrArg List.reverse h
  simp only [List.reverse_append, List.reverse_cons, List.append_assoc, List.singleton_append]
    at hreverse
  obtain ⟨hst, hab⟩ := append_cons_first (by simpa using hs) (by simpa using ht) hreverse
  exact ⟨List.reverse_injective hab, List.reverse_injective hst⟩

/-! ## The supported subset -/

/-- An entry of `must` with one clause. -/
inductive EntryOf : Json → Clause → Prop where
  | fieldMatch {k s : String} {v : Json} (text : matchText v = some s) :
      EntryOf (.object [("match", .object [(k, v)])]) ⟨.fieldMatch, k, s⟩
  | matchPhrase {k s : String} :
      EntryOf (.object [("match_phrase", .object [(k, .string s)])]) ⟨.matchPhrase, k, s⟩

/-- A query of the supported subset, seen as the list of its clauses. -/
inductive Supported : Json → List Clause → Prop where
  | oneMatch {k s : String} {v : Json} (text : matchText v = some s) :
      Supported (.object [("match", .object [(k, v)])]) [⟨.fieldMatch, k, s⟩]
  | must {items : List Json} {clauses : List Clause} (entries : List.Forall₂ EntryOf items clauses) :
      Supported (.object [("bool", .object [("must", .array items)])]) clauses

/-- The text of a list of clauses; without a clause, that for everything. -/
def clausesText (clauses : List Clause) : String :=
  if clauses = [] then "*" else joined (clauses.map Clause.toQueryText)

/-- A text in quotes. -/
def Quoted (text : String) : Prop := ∃ inner, text = "\"" ++ inner ++ "\""

/-- Nothing, or one `match` whose field and text have no colon, on a text not in quotes. -/
def Contained (clauses : List Clause) : Prop :=
  clauses = [] ∨ ∃ field text : String, clauses = [⟨.fieldMatch, field, text⟩] ∧
    ':' ∉ field.toList ∧ ':' ∉ text.toList ∧ ¬ Quoted text

/-- No clause has a colon, no field has a blank, and no text of a `match` is in quotes. -/
def PlainTexts (clauses : List Clause) : Prop :=
  ∀ c ∈ clauses, ':' ∉ c.field.toList ∧ ' ' ∉ c.field.toList ∧ ':' ∉ c.text.toList ∧
    (c.kind = .fieldMatch → ¬ Quoted c.text)

theorem entryClauses_of_entry {item : Json} {c : Clause} (h : EntryOf item c) :
    entryClauses item = [c] := by
  cases h with
  | @fieldMatch k s v text =>
    change List.filterMap matchClause [(k, v)] = _
    rw [List.filterMap_cons, matchClause, text]
    rfl
  | matchPhrase => rfl

theorem flatMap_entries {items : List Json} {clauses : List Clause}
    (h : List.Forall₂ EntryOf items clauses) : items.flatMap entryClauses = clauses := by
  induction h with
  | nil => rfl
  | cons hentry _ ih =>
    rw [List.flatMap_cons, entryClauses_of_entry hentry, ih, List.singleton_append]

theorem translate_supported {q : Json} {clauses : List Clause} (h : Supported q clauses) :
    translate q = clausesText clauses := by
  cases h with
  | @oneMatch k s v text =>
    have hfirst : firstMatch (.object [("match", .object [(k, v)])]) = some ⟨.fieldMatch, k, s⟩ := by
      change (List.filterMap matchClause [(k, v)]).head? = _
      rw [List.filterMap_cons, matchClause, text]
      rfl
    unfold translate
    rw [hfirst]
    simp [queryStringText, Json.get, JsonMap.get?_cons, clausesText, joined]
  | @must items clauses entries =>
    have hmust : mustClauses (.object [("bool", .object [("must", .array items)])]) = clauses :=
      flatMap_entries entries
    unfold translate
    rw [hmust]
    simp [queryStringText, firstMatch, Json.get, JsonMap.get?_cons, clausesText]

/-- Every list of clauses is that of a query. -/
theorem exists_supported (clauses : List Clause) : ∃ q, Supported q clauses := by
  have hitems : ∃ items, List.Forall₂ EntryOf items clauses := by
    induction clauses with
    | nil => exact ⟨[], .nil⟩
    | cons c clauses ih =>
      obtain ⟨items, hitems⟩ := ih
      obtain ⟨kind, field, text⟩ := c
      cases kind with
      | fieldMatch => exact ⟨_, .cons (.fieldMatch (v := .string text) rfl) hitems⟩
      | matchPhrase => exact ⟨_, .cons .matchPhrase hitems⟩
  obtain ⟨items, hitems⟩ := hitems
  exact ⟨_, .must hitems⟩

/-! ## Texts -/

/-- What follows the colon of a clause. -/
def Clause.body (c : Clause) : String :=
  match c.kind with
  | .fieldMatch => c.text
  | .matchPhrase => "\"" ++ c.text ++ "\""

theorem toQueryText_eq (c : Clause) : c.toQueryText = c.field ++ ":" ++ c.body := by
  unfold Clause.toQueryText Clause.body
  cases c.kind with
  | fieldMatch => rfl
  | matchPhrase =>
    rw [show ":\"" = ":" ++ "\"" from rfl]
    simp only [String.append_assoc]

/-- What follows the first colon of a list of clauses. -/
def bodyOf (c : Clause) (rest : List Clause) : String :=
  if rest = [] then c.body else c.body ++ " AND " ++ joined (rest.map Clause.toQueryText)

theorem clausesText_cons (c : Clause) (rest : List Clause) :
    clausesText (c :: rest) = c.field ++ ":" ++ bodyOf c rest := by
  unfold clausesText bodyOf
  rw [if_neg (List.cons_ne_nil _ _), List.map_cons]
  by_cases h : rest = []
  · rw [if_pos h, h, ← toQueryText_eq]
    exact String.intercalate_singleton
  · rw [if_neg h, joined, String.intercalate_cons_of_ne_nil (by simpa using h), toQueryText_eq]
    simp only [String.append_assoc, joined]

/-- Any list of clauses has the text of one `match`. -/
theorem clausesText_single (c : Clause) (rest : List Clause) :
    clausesText [⟨.fieldMatch, c.field, bodyOf c rest⟩] = clausesText (c :: rest) := by
  rw [clausesText_cons, clausesText_cons]
  rfl

theorem clausesText_ne_star (c : Clause) (rest : List Clause) : clausesText (c :: rest) ≠ "*" := by
  unfold clausesText
  rw [if_neg (List.cons_ne_nil _ _), List.map_cons]
  exact joined_ne_star

theorem bodyOf_cons (c d : Clause) (rest : List Clause) :
    bodyOf c (d :: rest) = c.body ++ " AND " ++ clausesText (d :: rest) := by
  unfold bodyOf clausesText
  rw [if_neg (List.cons_ne_nil _ _), if_neg (List.cons_ne_nil _ _)]

theorem colon_mem_bodyOf (c d : Clause) (rest : List Clause) :
    ':' ∈ (bodyOf c (d :: rest)).toList := by
  rw [bodyOf_cons, clausesText_cons]
  simp

/-- A text is split at its first colon. -/
theorem split_colon {a b s t : String} (ha : ':' ∉ a.toList) (hb : ':' ∉ b.toList)
    (h : a ++ ":" ++ s = b ++ ":" ++ t) : a = b ∧ s = t := by
  have hlists := congrArg String.toList h
  simp only [String.toList_append, List.append_assoc] at hlists
  obtain ⟨hab, hst⟩ := append_cons_first ha hb hlists
  exact ⟨String.toList_inj.mp hab, String.toList_inj.mp hst⟩

/-- A piece is split from the field of the next one at the last blank. -/
theorem split_and {a b s t : String} (hs : ' ' ∉ s.toList) (ht : ' ' ∉ t.toList)
    (h : a ++ " AND " ++ s = b ++ " AND " ++ t) : a = b ∧ s = t := by
  have hform (a s : String) :
      (a ++ " AND " ++ s).toList = (a.toList ++ " AND".toList) ++ ' ' :: s.toList := by simp
  have hlists := congrArg String.toList h
  rw [hform, hform] at hlists
  obtain ⟨hab, hst⟩ := append_cons_last hs ht hlists
  exact ⟨String.toList_inj.mp (List.append_cancel_right hab), String.toList_inj.mp hst⟩

/-- Clauses with one field and one body are one clause, up to the quotes. -/
theorem clause_eq {c d : Clause} (hc : c.kind = .fieldMatch → ¬ Quoted c.text)
    (hd : d.kind = .fieldMatch → ¬ Quoted d.text) (hfield : c.field = d.field)
    (hbody : c.body = d.body) : c = d := by
  obtain ⟨kind, field, text⟩ := c
  obtain ⟨kind', field', text'⟩ := d
  obtain rfl : field = field' := hfield
  cases kind with
  | fieldMatch =>
    cases kind' with
    | fieldMatch =>
      obtain rfl : text = text' := hbody
      rfl
    | matchPhrase => exact absurd ⟨text', hbody⟩ (hc rfl)
  | matchPhrase =>
    cases kind' with
    | fieldMatch => exact absurd ⟨text, hbody.symm⟩ (hd rfl)
    | matchPhrase =>
      have hlists := congrArg String.toList hbody
      simp only [Clause.body, String.toList_append] at hlists
      have htexts := List.append_cancel_left (List.append_cancel_right hlists)
      rw [String.toList_inj.mp htexts]

theorem colon_not_mem_body {c : Clause} (h : ':' ∉ c.text.toList) : ':' ∉ c.body.toList := by
  unfold Clause.body
  cases c.kind <;> simp [h]

/-- Where no field and no text has a colon and no field a blank, the second clause starts
after the last blank before its colon. -/
theorem split_clause {c c' d d' : Clause} {rest rest' : List Clause}
    (hc : ':' ∉ c.text.toList) (hc' : ':' ∉ c'.text.toList)
    (hd : ':' ∉ d.field.toList) (hd' : ':' ∉ d'.field.toList)
    (hblank : ' ' ∉ d.field.toList) (hblank' : ' ' ∉ d'.field.toList)
    (h : bodyOf c (d :: rest) = bodyOf c' (d' :: rest')) :
    c.body = c'.body ∧ clausesText (d :: rest) = clausesText (d' :: rest') := by
  rw [bodyOf_cons, bodyOf_cons, clausesText_cons, clausesText_cons, ← String.append_assoc,
    ← String.append_assoc, ← String.append_assoc, ← String.append_assoc] at h
  obtain ⟨hpiece, hmore⟩ := split_colon (by simp [colon_not_mem_body hc, hd])
    (by simp [colon_not_mem_body hc', hd']) h
  obtain ⟨hbodies, hfields⟩ := split_and hblank hblank' hpiece
  refine ⟨hbodies, ?_⟩
  rw [clausesText_cons, clausesText_cons, hfields, hmore]

/-! ## Telling queries apart -/

/-- **Plain lists of clauses are told apart by their text.** -/
theorem plain_injective {clauses clauses' : List Clause} (h : PlainTexts clauses)
    (h' : PlainTexts clauses') (htext : clausesText clauses = clausesText clauses') :
    clauses = clauses' := by
  induction clauses generalizing clauses' with
  | nil =>
    cases clauses' with
    | nil => rfl
    | cons c' rest' => exact absurd htext.symm (clausesText_ne_star c' rest')
  | cons c rest ih =>
    cases clauses' with
    | nil => exact absurd htext (clausesText_ne_star c rest)
    | cons c' rest' =>
      obtain ⟨⟨hcolon, -, htextc, hquoted⟩, hrest⟩ := List.forall_mem_cons.mp h
      obtain ⟨⟨hcolon', -, htextc', hquoted'⟩, hrest'⟩ := List.forall_mem_cons.mp h'
      rw [clausesText_cons, clausesText_cons] at htext
      obtain ⟨hfield, hbody⟩ := split_colon hcolon hcolon' htext
      cases rest with
      | nil =>
        cases rest' with
        | nil => rw [clause_eq hquoted hquoted' hfield hbody]
        | cons d' rest' =>
          have hmem := colon_mem_bodyOf c' d' rest'
          rw [← hbody] at hmem
          exact absurd hmem (colon_not_mem_body htextc)
      | cons d rest =>
        cases rest' with
        | nil =>
          have hmem := colon_mem_bodyOf c d rest
          rw [hbody] at hmem
          exact absurd hmem (colon_not_mem_body htextc')
        | cons d' rest' =>
          obtain ⟨hd, hblank, -⟩ := hrest d List.mem_cons_self
          obtain ⟨hd', hblank', -⟩ := hrest' d' List.mem_cons_self
          obtain ⟨hbodies, htexts⟩ := split_clause htextc htextc' hd hd' hblank hblank' hbody
          rw [clause_eq hquoted hquoted' hfield hbodies, ih hrest hrest' htexts]

/-- The text of a contained query is that of no other one. -/
theorem contained_injective {clauses clauses' : List Clause} (h : Contained clauses)
    (htext : clausesText clauses = clausesText clauses') : clauses = clauses' := by
  rcases h with rfl | ⟨field, text, rfl, hfield, hcolon, hquoted⟩
  · cases clauses' with
    | nil => rfl
    | cons c rest => exact absurd htext.symm (clausesText_ne_star c rest)
  · cases clauses' with
    | nil => exact absurd htext (clausesText_ne_star _ _)
    | cons c rest =>
      rw [clausesText_cons, clausesText_cons] at htext
      change field ++ ":" ++ text = _ at htext
      -- The one colon is that after the field.
      have hcount := congrArg (fun s => s.toList.count ':') htext
      simp only [String.toList_append, List.count_append, List.count_eq_zero.mpr hfield,
        List.count_eq_zero.mpr hcolon] at hcount
      change 0 + 1 + 0 = _ + 1 + _ at hcount
      have hc : ':' ∉ c.field.toList := List.count_eq_zero.mp (by omega)
      have hbody : ':' ∉ (bodyOf c rest).toList := List.count_eq_zero.mp (by omega)
      obtain ⟨rfl, rfl⟩ := split_colon hfield hc htext
      cases rest with
      | nil =>
        obtain ⟨kind, field, text⟩ := c
        cases kind with
        | fieldMatch => rfl
        | matchPhrase => exact absurd ⟨text, rfl⟩ hquoted
      | cons d rest => exact absurd (colon_mem_bodyOf c d rest) hbody

theorem exists_split {s : String} (h : ':' ∈ s.toList) : ∃ a b : String, s = a ++ ":" ++ b := by
  obtain ⟨front, back, hsplit⟩ := List.append_of_mem h
  refine ⟨String.ofList front, String.ofList back, String.toList_inj.mp ?_⟩
  simp [hsplit]

theorem append_colon_ne (a b : String) : a ++ ":" ++ b ≠ a := by
  intro h
  have hlength := congrArg String.length h
  have hcolon : ":".length = 1 := rfl
  simp only [String.length_append] at hlength
  omega

/-- A text that only one query has can be split at one colon only. -/
theorem field_eq_of_unique {field text : String}
    (h : ∀ clauses', clausesText [⟨.fieldMatch, field, text⟩] = clausesText clauses' →
      [⟨.fieldMatch, field, text⟩] = clauses')
    {a b : String} (hab : field ++ ":" ++ text = a ++ ":" ++ b) : field = a := by
  have hother := h [⟨.fieldMatch, a, b⟩] (by
    rw [clausesText_cons, clausesText_cons]
    exact hab)
  exact (Clause.mk.inj (List.cons.inj hother).1).2.1

/-- Anything else has the text of another query. -/
theorem contained_of_injective {clauses : List Clause}
    (h : ∀ clauses', clausesText clauses = clausesText clauses' → clauses = clauses') :
    Contained clauses := by
  cases clauses with
  | nil => exact Or.inl rfl
  | cons c rest =>
    right
    obtain ⟨hkind, hrest⟩ := List.cons.inj (h _ (clausesText_single c rest).symm)
    obtain ⟨kind, field, text⟩ := c
    obtain ⟨rfl, -, -⟩ := Clause.mk.inj hkind
    subst hrest
    refine ⟨field, text, rfl, ?_, ?_, ?_⟩
    · intro hmem
      obtain ⟨a, b, rfl⟩ := exists_split hmem
      have hsplit : a ++ ":" ++ b ++ ":" ++ text = a ++ ":" ++ (b ++ ":" ++ text) := by
        simp only [String.append_assoc]
      exact append_colon_ne a b (field_eq_of_unique h hsplit)
    · intro hmem
      obtain ⟨a, b, rfl⟩ := exists_split hmem
      have hsplit : field ++ ":" ++ (a ++ ":" ++ b) = field ++ ":" ++ a ++ ":" ++ b := by
        simp only [String.append_assoc]
      exact append_colon_ne field a (field_eq_of_unique h hsplit).symm
    · rintro ⟨inner, rfl⟩
      have hother := h [⟨.matchPhrase, field, inner⟩] (by
        rw [clausesText_cons, clausesText_cons]
        rfl)
      cases hother

section
variable {w : Nat} (params : SearchQueryParams w) (body : SearchRequestBody w)

/-- Queries with these clauses have one text only if the clauses are the same. -/
def ToldApart (clauses clauses' : List Clause) : Prop :=
  ∀ q q', Supported q clauses → Supported q' clauses' →
    extractQueryString { params with q := none } (some { body with query := some q }) =
      extractQueryString { params with q := none } (some { body with query := some q' }) →
    clauses = clauses'

theorem toldApart_iff {clauses clauses' : List Clause} :
    ToldApart params body clauses clauses' ↔
      (clausesText clauses = clausesText clauses' → clauses = clauses') := by
  constructor
  · intro h htext
    obtain ⟨q, hq⟩ := exists_supported clauses
    obtain ⟨q', hq'⟩ := exists_supported clauses'
    apply h q q' hq hq'
    change translate q = translate q'
    rw [translate_supported hq, translate_supported hq', htext]
  · intro h q q' hq hq' htext
    change translate q = translate q' at htext
    rw [translate_supported hq, translate_supported hq'] at htext
    exact h htext

/-- **A query is told apart from every other one exactly if it is contained,** and plain
queries are told apart among themselves. -/
theorem contained_iff :
    (∀ clauses, (∀ clauses', ToldApart params body clauses clauses') ↔ Contained clauses) ∧
    ∀ clauses clauses', PlainTexts clauses → PlainTexts clauses' →
      ToldApart params body clauses clauses' := by
  simp only [toldApart_iff]
  refine ⟨?_, fun clauses clauses' h h' => plain_injective h h'⟩
  intro clauses
  exact ⟨contained_of_injective, fun h clauses' => contained_injective h⟩

end

/-! ## What the parser reads -/

/-- The query language of Tantivy, as far as the translation uses it: a blank separates, a colon
is special, and `AND` is an operator. -/
structure ParserLanguage extends QueryLanguage where
  space : blank ' ' = true
  colon : blank ':' = false ∧ special ':' = true
  and_operator : "AND".toList ∈ operators
  and_begun : toQueryLanguage.Begun "AND".toList

/-- What its documentation lists. A slash begins a regular expression. -/
def ParserLanguage.documented : ParserLanguage where
  blank := isWhitespace
  special c := "+^\x60:\x7b\x7d[]()~!*'".toList.contains c
  leading c := "-<>/".toList.contains c
  operators := ["AND".toList, "OR".toList, "NOT".toList, "IN".toList]
  space := by decide +kernel
  colon := by decide +kernel
  and_operator := List.mem_cons_self
  and_begun := begun_of_all (by decide +kernel) (by decide +kernel)

/-- The tokens of a clause. -/
def Clause.tokens (c : Clause) : List Token :=
  .word c.field.toList :: .mark ':' ::
    match c.kind with
    | .fieldMatch => [.word c.text.toList]
    | .matchPhrase => .mark '"' :: quotedToken c.text.toList ++ [.mark '"']

def clausesTokens : List Clause → List Token
  | [] => []
  | [c] => c.tokens
  | c :: d :: rest => c.tokens ++ .operator "AND".toList :: clausesTokens (d :: rest)

/-- The field and the text of a `match` are plain words, the text of a `match_phrase` has no quote
and no backslash. -/
def Clause.Plain (lang : ParserLanguage) (c : Clause) : Prop :=
  lang.Plain c.field.toList ∧
    match c.kind with
    | .fieldMatch => lang.Plain c.text.toList
    | .matchPhrase => Quotable c.text.toList

variable {lang : ParserLanguage}

theorem lex_colon {word : List Char} (cs : List Char) (h : lang.Plain word) :
    lang.lex (.outside []) (word ++ ':' :: cs) =
      .word word :: .mark ':' :: lang.lex (.outside []) cs :=
  lex_plain cs h ⟨by decide, by decide, lang.colon⟩

theorem lex_space {word : List Char} (cs : List Char) (h : lang.Begun word) :
    lang.lex (.outside []) (word ++ ' ' :: cs) =
      lang.wordToken word ++ lang.lex (.outside []) cs :=
  lex_blank cs h ⟨by decide, by decide, lang.space⟩

theorem toList_toQueryText (c : Clause) : c.toQueryText.toList = c.field.toList ++ ':' ::
    match c.kind with
    | .fieldMatch => c.text.toList
    | .matchPhrase => '"' :: c.text.toList ++ ['"'] := by
  unfold Clause.toQueryText
  cases c.kind <;> simp

/-- A plain clause is read as its tokens. -/
theorem lex_clause {c : Clause} (h : c.Plain lang) :
    lang.lex (.outside []) c.toQueryText.toList = c.tokens := by
  obtain ⟨hfield, htext⟩ := h
  rw [toList_toQueryText, lex_colon _ hfield, Clause.tokens]
  cases hkind : c.kind with
  | fieldMatch =>
    rw [hkind] at htext
    dsimp only at htext ⊢
    rw [lex_last htext.toBegun, wordToken_plain htext]
  | matchPhrase =>
    rw [hkind] at htext
    dsimp only at htext ⊢
    rw [lex_quoted [] htext]
    rfl

/-- So it is with another one after it. -/
theorem lex_clause_and {c : Clause} (h : c.Plain lang) (cs : List Char) :
    lang.lex (.outside []) (c.toQueryText.toList ++ (" AND ".toList ++ cs)) =
      c.tokens ++ .operator "AND".toList :: lang.lex (.outside []) cs := by
  obtain ⟨hfield, htext⟩ := h
  have hand : lang.lex (.outside []) ("AND".toList ++ ' ' :: cs) =
      .operator "AND".toList :: lang.lex (.outside []) cs := by
    rw [lex_space cs lang.and_begun, wordToken, if_neg (by decide), if_pos lang.and_operator]
    rfl
  have hword : " AND ".toList ++ cs = ' ' :: ("AND".toList ++ ' ' :: cs) := rfl
  rw [toList_toQueryText, hword, List.append_assoc, List.cons_append, lex_colon _ hfield,
    Clause.tokens]
  cases hkind : c.kind with
  | fieldMatch =>
    rw [hkind] at htext
    dsimp only at htext ⊢
    rw [lex_space _ htext.toBegun, wordToken_plain htext, hand]
    rfl
  | matchPhrase =>
    rw [hkind] at htext
    dsimp only at htext ⊢
    rw [List.append_assoc, List.singleton_append, lex_quoted _ htext]
    have hblank : lang.lex (.outside []) ([] ++ ' ' :: ("AND".toList ++ ' ' :: cs)) =
        lang.wordToken [] ++ lang.lex (.outside []) ("AND".toList ++ ' ' :: cs) :=
      lex_space _ begun_nil
    rw [List.nil_append] at hblank
    rw [hblank, hand]
    simp [wordToken]

theorem lex_clauses {clauses : List Clause} (h : ∀ c ∈ clauses, c.Plain lang) (hne : clauses ≠ []) :
    lang.lex (.outside []) (clausesText clauses).toList = clausesTokens clauses := by
  induction clauses with
  | nil => exact absurd rfl hne
  | cons c rest ih =>
    obtain ⟨hc, hrest⟩ := List.forall_mem_cons.mp h
    cases rest with
    | nil =>
      have hone : clausesText [c] = c.toQueryText := by simp [clausesText, joined]
      rw [hone, clausesTokens, lex_clause hc]
    | cons d rest =>
      have hmore : clausesText (c :: d :: rest) =
          c.toQueryText ++ " AND " ++ clausesText (d :: rest) := by
        rw [clausesText_cons, bodyOf_cons, toQueryText_eq]
        simp only [String.append_assoc]
      rw [hmore, String.toList_append, String.toList_append, List.append_assoc, lex_clause_and hc,
        ih hrest (List.cons_ne_nil _ _), clausesTokens]

/-- The tokens of a clause say whose they are. -/
theorem tokens_injective {c d : Clause} {after after' : List Token}
    (h : c.tokens ++ after = d.tokens ++ after') : c = d ∧ after = after' := by
  obtain ⟨kind, field, text⟩ := c
  obtain ⟨kind', field', text'⟩ := d
  cases kind <;> cases kind' <;>
    simp only [Clause.tokens, List.cons_append, List.cons.injEq, Token.word.injEq,
      String.toList_inj, reduceCtorEq, List.nil_append, true_and, false_and, and_false,
      List.append_assoc] at h
  · obtain ⟨rfl, rfl, rfl⟩ := h
    exact ⟨rfl, rfl⟩
  · obtain ⟨rfl, h⟩ := h
    unfold quotedToken at h
    split at h <;> split at h
    · rename_i hnil hnil'
      obtain rfl : text = text' := String.toList_inj.mp (hnil.trans hnil'.symm)
      exact ⟨rfl, (List.cons.inj (List.append_cancel_left h)).2⟩
    · cases (List.cons.inj h).1
    · cases (List.cons.inj h).1
    · rw [List.singleton_append, List.singleton_append] at h
      obtain ⟨hquoted, h⟩ := List.cons.inj h
      obtain rfl := String.toList_inj.mp (Token.quoted.inj hquoted)
      exact ⟨rfl, (List.cons.inj (List.cons.inj h).2).2⟩

theorem clausesTokens_injective {clauses clauses' : List Clause} (hne : clauses ≠ [])
    (hne' : clauses' ≠ []) (h : clausesTokens clauses = clausesTokens clauses') :
    clauses = clauses' := by
  induction clauses generalizing clauses' with
  | nil => exact absurd rfl hne
  | cons c rest ih =>
    cases clauses' with
    | nil => exact absurd rfl hne'
    | cons c' rest' =>
      cases rest with
      | nil =>
        cases rest' with
        | nil =>
          have hsame : c.tokens ++ [] = c'.tokens ++ [] := by simpa [clausesTokens] using h
          rw [(tokens_injective hsame).1]
        | cons d' rest' =>
          have hsame : c.tokens ++ [] = c'.tokens ++ _ := (List.append_nil _).trans h
          cases (tokens_injective hsame).2
      | cons d rest =>
        cases rest' with
        | nil =>
          have hsame : c.tokens ++ _ = c'.tokens ++ [] := h.trans (List.append_nil _).symm
          cases (tokens_injective hsame).2
        | cons d' rest' =>
          obtain ⟨rfl, hrest⟩ := tokens_injective h
          rw [ih (List.cons_ne_nil _ _) (List.cons_ne_nil _ _) (List.cons.inj hrest).2]

/-- The tokens of every clause are there. -/
theorem mem_clausesTokens {clauses : List Clause} {c : Clause} (hc : c ∈ clauses) {token : Token}
    (htoken : token ∈ c.tokens) : token ∈ clausesTokens clauses := by
  induction clauses with
  | nil => cases hc
  | cons d rest ih =>
    cases rest with
    | nil => rwa [clausesTokens, ← List.mem_singleton.mp hc]
    | cons e rest =>
      rw [clausesTokens, List.mem_append, List.mem_cons]
      rcases List.mem_cons.mp hc with rfl | hrest
      · exact Or.inl htoken
      · exact Or.inr (Or.inr (ih hrest))

/-- Clauses that are read as such are plain. -/
theorem plain_of_tokens {clauses : List Clause} {cs : List Char}
    (h : lang.lex (.outside []) cs = clausesTokens clauses) : ∀ c ∈ clauses, c.Plain lang := by
  intro c hc
  have hread : ∀ token ∈ lang.lex (.outside []) cs, token.Ok lang.toQueryLanguage :=
    lex_ok cs begun_nil
  rw [h] at hread
  have hok : ∀ token ∈ c.tokens, token.Ok lang.toQueryLanguage :=
    fun token htoken => hread token (mem_clausesTokens hc htoken)
  refine ⟨hok (.word c.field.toList) List.mem_cons_self, ?_⟩
  unfold Clause.tokens at hok
  cases hkind : c.kind with
  | fieldMatch =>
    rw [hkind] at hok
    exact hok (.word c.text.toList) (by simp)
  | matchPhrase =>
    rw [hkind] at hok
    by_cases hnil : c.text.toList = []
    · dsimp only
      rw [hnil]
      exact quotable_nil
    · exact hok (.quoted c.text.toList) (by simp [quotedToken, hnil])

section
variable {w : Nat} (params : SearchQueryParams w) (body : SearchRequestBody w)

/-- The parser reads in the text of a query with the clauses these clauses, and nothing else. A
query without clauses is not parsed. -/
def ReadAs (lang : ParserLanguage) (clauses : List Clause) : Prop :=
  ∀ q, Supported q clauses → clauses ≠ [] →
    lang.lex (.outside []) (extractQueryString { params with q := none }
      (some { body with query := some q })).toList = clausesTokens clauses

/-- Every text stays inside its clause: queries with one text have one list of clauses, and no
text adds clauses, operators, quotes or fields to what is parsed. -/
structure Inside (lang : ParserLanguage) (clauses clauses' : List Clause) : Prop where
  toldApart : ToldApart params body clauses clauses'
  read : ReadAs params body lang clauses
  read' : ReadAs params body lang clauses'

theorem readAs_iff {clauses : List Clause} :
    ReadAs params body lang clauses ↔ ∀ c ∈ clauses, c.Plain lang := by
  constructor
  · intro h c hc
    obtain ⟨q, hq⟩ := exists_supported clauses
    exact plain_of_tokens (h q hq (List.ne_nil_of_mem hc)) c hc
  · intro h q hq hne
    change lang.lex (.outside []) (translate q).toList = _
    rw [translate_supported hq, lex_clauses h hne]

/-- **Every text of two queries stays inside its clause exactly if the clauses are plain.** -/
theorem inside_iff {clauses clauses' : List Clause} :
    Inside params body lang clauses clauses' ↔
      (∀ c ∈ clauses, c.Plain lang) ∧ ∀ c ∈ clauses', c.Plain lang := by
  constructor
  · rintro ⟨-, hread, hread'⟩
    exact ⟨(readAs_iff params body).mp hread, (readAs_iff params body).mp hread'⟩
  · rintro ⟨h, h'⟩
    refine ⟨(toldApart_iff params body).mpr fun htext => ?_, (readAs_iff params body).mpr h,
      (readAs_iff params body).mpr h'⟩
    cases clauses with
    | nil =>
      cases clauses' with
      | nil => rfl
      | cons c' rest' => exact absurd htext.symm (clausesText_ne_star c' rest')
    | cons c rest =>
      cases clauses' with
      | nil => exact absurd htext (clausesText_ne_star c rest)
      | cons c' rest' =>
        apply clausesTokens_injective (List.cons_ne_nil _ _) (List.cons_ne_nil _ _)
        rw [← lex_clauses h (List.cons_ne_nil _ _), htext, lex_clauses h' (List.cons_ne_nil _ _)]

end

/-- A text adds a clause, and quotes make a phrase. An operator in a text is one of the query,
though no other query has its text. -/
theorem text_adds_clause :
    clausesText [⟨.fieldMatch, "a", "x AND b:y"⟩] =
        clausesText [⟨.fieldMatch, "a", "x"⟩, ⟨.fieldMatch, "b", "y"⟩] ∧
      clausesText [⟨.fieldMatch, "a", "\"x\""⟩] = clausesText [⟨.matchPhrase, "a", "x"⟩] ∧
      ParserLanguage.documented.lex (.outside [])
          (clausesText [⟨.fieldMatch, "a", "x OR *"⟩]).toList =
        [.word ['a'], .mark ':', .word ['x'], .operator ['O', 'R'], .mark '*'] ∧
      ¬ ∀ (params : SearchQueryParams 64) (body : SearchRequestBody 64)
        (clauses clauses' : List Clause), Inside params body .documented clauses clauses' := by
  have htext : clausesText [⟨.fieldMatch, "a", "x AND b:y"⟩] =
      clausesText [⟨.fieldMatch, "a", "x"⟩, ⟨.fieldMatch, "b", "y"⟩] := by decide +kernel
  refine ⟨htext, by decide +kernel, by decide +kernel, ?_⟩
  intro halways
  have hsame := (toldApart_iff _ _).mp
    (halways ⟨none, none, none⟩ ⟨none, none, none⟩ _ _).toldApart htext
  revert hsame
  decide

end Edgewit
