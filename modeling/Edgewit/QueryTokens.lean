import Mathlib.Data.List.Basic
import Mathlib.Tactic.Common

/-!
# Tokens

A query language with words, operators, special characters and quotes. In quotes only the next
quote counts, and the backslash. Which characters are special, and which words are operators, is a
parameter.

* `lex_ok`: a word of a text is plain, and what is quoted has no quote and no backslash;
* `lex_plain`, `lex_quoted`: a plain word is one token, and so is what is quoted.
-/

structure QueryLanguage where
  blank : Char → Bool
  special : Char → Bool
  /-- Special at the start of a word. -/
  leading : Char → Bool
  operators : List (List Char)

namespace QueryLanguage

inductive Token where
  | word (text : List Char)
  | operator (text : List Char)
  | mark (c : Char)
  | quoted (text : List Char)
  | escaped (c : Char)
  deriving DecidableEq

/-- Where a reading is, and what it has read of a word or of a text in quotes. -/
inductive Reading where
  | outside (word : List Char)
  | inside (text : List Char)
  | escape (quoted : Bool)

def quotedToken (text : List Char) : List Token := if text = [] then [] else [.quoted text]

section
variable (lang : QueryLanguage)

def wordToken (word : List Char) : List Token :=
  if word = [] then []
  else if word ∈ lang.operators then [.operator word]
  else [.word word]

/-- The character does not go on with the word. -/
def ends (word : List Char) (c : Char) : Bool :=
  lang.special c || (word.isEmpty && lang.leading c)

def lex : Reading → List Char → List Token
  | .outside word, [] => lang.wordToken word
  | .inside text, [] => quotedToken text
  | .escape _, [] => []
  | .outside word, c :: cs =>
    if c = '"' then lang.wordToken word ++ .mark c :: lex (.inside []) cs
    else if c = '\\' then lang.wordToken word ++ lex (.escape false) cs
    else if lang.blank c then lang.wordToken word ++ lex (.outside []) cs
    else if lang.ends word c then lang.wordToken word ++ .mark c :: lex (.outside []) cs
    else lex (.outside (word ++ [c])) cs
  | .inside text, c :: cs =>
    if c = '"' then quotedToken text ++ .mark c :: lex (.outside []) cs
    else if c = '\\' then quotedToken text ++ lex (.escape true) cs
    else lex (.inside (text ++ [c])) cs
  | .escape quoted, c :: cs =>
    .escaped c :: lex (if quoted then .inside [] else .outside []) cs

/-- The character has no meaning in a word. -/
def Ordinary (c : Char) : Prop :=
  c ≠ '"' ∧ c ≠ '\\' ∧ lang.blank c = false ∧ lang.special c = false

instance (c : Char) : Decidable (lang.Ordinary c) := inferInstanceAs (Decidable (_ ∧ _ ∧ _ ∧ _))

/-- What has been read of a word. -/
structure Begun (word : List Char) : Prop where
  ordinary : ∀ c ∈ word, lang.Ordinary c
  head : ∀ c ∈ word.head?, lang.leading c = false

/-- A word, and no operator. -/
structure Plain (word : List Char) : Prop extends lang.Begun word where
  nonempty : word ≠ []
  operator : word ∉ lang.operators

end

/-- A text that can stand in quotes. -/
def Quotable (text : List Char) : Prop := '"' ∉ text ∧ '\\' ∉ text

variable {lang : QueryLanguage}

/-! ## What is read -/

def Token.Ok (lang : QueryLanguage) : Token → Prop
  | .word text => lang.Plain text
  | .quoted text => Quotable text
  | _ => True

def Reading.Ok (lang : QueryLanguage) : Reading → Prop
  | .outside word => lang.Begun word
  | .inside text => Quotable text
  | .escape _ => True

theorem begun_nil : lang.Begun [] := ⟨by simp, by simp⟩

theorem begun_of_all {word : List Char} (hordinary : word.all fun c => lang.Ordinary c)
    (hhead : word.head?.all fun c => !lang.leading c) : lang.Begun word := by
  constructor
  · simpa using hordinary
  · intro c hc
    rw [Option.mem_def.mp hc] at hhead
    simpa using hhead

theorem quotable_nil : Quotable [] := ⟨by simp, by simp⟩

theorem Begun.snoc {word : List Char} {c : Char} (h : lang.Begun word) (hc : lang.Ordinary c)
    (hends : lang.ends word c = false) : lang.Begun (word ++ [c]) := by
  refine ⟨?_, ?_⟩
  · intro d hd
    rcases List.mem_append.mp hd with hd | hd
    · exact h.ordinary d hd
    · rwa [List.mem_singleton.mp hd]
  · intro d hd
    cases word with
    | nil =>
      cases hd
      simpa [ends, hc.2.2.2] using hends
    | cons a word => exact h.head d hd

theorem wordToken_ok {word : List Char} (h : lang.Begun word) :
    ∀ token ∈ lang.wordToken word, token.Ok lang := by
  intro token htoken
  unfold wordToken at htoken
  split at htoken
  · cases htoken
  rename_i hne
  split at htoken
  · rw [List.mem_singleton.mp htoken]
    trivial
  · rename_i hoperator
    rw [List.mem_singleton.mp htoken]
    exact ⟨h, hne, hoperator⟩

theorem quotedToken_ok {text : List Char} (h : Quotable text) :
    ∀ token ∈ quotedToken text, token.Ok lang := by
  intro token htoken
  unfold quotedToken at htoken
  split at htoken
  · cases htoken
  · rw [List.mem_singleton.mp htoken]
    exact h

/-- Words that are read are plain, and what is quoted can stand in quotes. -/
theorem lex_ok {reading : Reading} (cs : List Char) (h : reading.Ok lang) :
    ∀ token ∈ lang.lex reading cs, token.Ok lang := by
  induction cs generalizing reading with
  | nil =>
    cases reading with
    | outside word => exact wordToken_ok h
    | inside text => exact quotedToken_ok h
    | escape quoted => exact fun _ htoken => by cases htoken
  | cons c cs ih =>
    have hword := @ih (.outside []) begun_nil
    have htext := @ih (.inside []) quotable_nil
    cases reading with
    | outside word =>
      rw [lex]
      split
      · exact List.forall_mem_append.mpr ⟨wordToken_ok h, List.forall_mem_cons.mpr ⟨trivial, htext⟩⟩
      rename_i hquote
      split
      · exact List.forall_mem_append.mpr ⟨wordToken_ok h, @ih (.escape false) trivial⟩
      rename_i hescape
      split
      · exact List.forall_mem_append.mpr ⟨wordToken_ok h, hword⟩
      rename_i hblank
      split
      · exact List.forall_mem_append.mpr ⟨wordToken_ok h, List.forall_mem_cons.mpr ⟨trivial, hword⟩⟩
      rename_i hends
      rw [Bool.not_eq_true] at hblank hends
      have hspecial : lang.special c = false := (Bool.or_eq_false_iff.mp hends).1
      exact @ih (.outside (word ++ [c])) (h.snoc ⟨hquote, hescape, hblank, hspecial⟩ hends)
    | inside text =>
      rw [lex]
      split
      · exact List.forall_mem_append.mpr
          ⟨quotedToken_ok h, List.forall_mem_cons.mpr ⟨trivial, hword⟩⟩
      rename_i hquote
      split
      · exact List.forall_mem_append.mpr ⟨quotedToken_ok h, @ih (.escape true) trivial⟩
      rename_i hescape
      refine @ih (.inside (text ++ [c])) ⟨?_, ?_⟩
      · simpa [not_or] using ⟨h.1, Ne.symm hquote⟩
      · simpa [not_or] using ⟨h.2, Ne.symm hescape⟩
    | escape quoted =>
      rw [lex, List.forall_mem_cons]
      cases quoted
      · exact ⟨trivial, hword⟩
      · exact ⟨trivial, htext⟩

/-! ## How a plain text is read -/

/-- A word is read to its end. -/
theorem lex_word {word more : List Char} (cs : List Char) (h : lang.Begun (word ++ more)) :
    lang.lex (.outside word) (more ++ cs) = lang.lex (.outside (word ++ more)) cs := by
  induction more generalizing word with
  | nil => rw [List.append_nil, List.nil_append]
  | cons c more ih =>
    obtain ⟨hquote, hescape, hblank, hspecial⟩ := h.ordinary c (by simp)
    have hends : lang.ends word c = false := by
      cases word with
      | nil => simp [ends, hspecial, h.head c (by simp)]
      | cons a word => simp [ends, hspecial]
    have hsame : word ++ c :: more = word ++ [c] ++ more := by simp
    rw [List.cons_append, lex, if_neg hquote, if_neg hescape, hblank, hends]
    simp only [Bool.false_eq_true, if_false]
    rw [hsame] at h ⊢
    exact ih h

theorem lex_text {text more : List Char} (cs : List Char) (h : Quotable more) :
    lang.lex (.inside text) (more ++ cs) = lang.lex (.inside (text ++ more)) cs := by
  induction more generalizing text with
  | nil => rw [List.append_nil, List.nil_append]
  | cons c more ih =>
    obtain ⟨hquote, hescape⟩ := h
    rw [List.mem_cons, not_or] at hquote hescape
    rw [List.cons_append, lex, if_neg (Ne.symm hquote.1), if_neg (Ne.symm hescape.1),
      ih ⟨hquote.2, hescape.2⟩, List.append_assoc, List.singleton_append]

theorem wordToken_plain {word : List Char} (h : lang.Plain word) :
    lang.wordToken word = [.word word] := by
  rw [wordToken, if_neg h.nonempty, if_neg h.operator]

/-- A plain word is a token, up to a character that ends it. -/
theorem lex_plain {word : List Char} {c : Char} (cs : List Char) (h : lang.Plain word)
    (hc : c ≠ '"' ∧ c ≠ '\\' ∧ lang.blank c = false ∧ lang.special c = true) :
    lang.lex (.outside []) (word ++ c :: cs) =
      .word word :: .mark c :: lang.lex (.outside []) cs := by
  obtain ⟨hquote, hescape, hblank, hspecial⟩ := hc
  rw [lex_word (c :: cs) h.toBegun, List.nil_append, lex, if_neg hquote, if_neg hescape, hblank, ends,
    hspecial, wordToken_plain h]
  rfl

/-- And up to a blank. -/
theorem lex_blank {word : List Char} {c : Char} (cs : List Char) (h : lang.Begun word)
    (hc : c ≠ '"' ∧ c ≠ '\\' ∧ lang.blank c = true) :
    lang.lex (.outside []) (word ++ c :: cs) =
      lang.wordToken word ++ lang.lex (.outside []) cs := by
  obtain ⟨hquote, hescape, hblank⟩ := hc
  rw [lex_word (c :: cs) h, List.nil_append, lex, if_neg hquote, if_neg hescape, if_pos hblank]

theorem lex_last {word : List Char} (h : lang.Begun word) :
    lang.lex (.outside []) word = lang.wordToken word := by
  have hword : lang.lex (.outside []) (word ++ []) = lang.lex (.outside ([] ++ word)) [] :=
    lex_word [] h
  rw [List.append_nil, List.nil_append] at hword
  rw [hword, lex]

/-- What is in quotes is a token, between the quotes. -/
theorem lex_quoted {text : List Char} (cs : List Char) (h : Quotable text) :
    lang.lex (.outside []) ('"' :: text ++ '"' :: cs) =
      .mark '"' :: quotedToken text ++ .mark '"' :: lang.lex (.outside []) cs := by
  rw [List.cons_append, lex, if_pos rfl, lex_text ('"' :: cs) h, List.nil_append, lex, if_pos rfl]
  rfl

end QueryLanguage
