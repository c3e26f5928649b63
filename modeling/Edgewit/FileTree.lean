import Mathlib.Data.List.Infix
import Mathlib.Data.String.Basic
import Mathlib.Logic.Function.Basic

/-!
# Paths and file trees

Generic results about resolved paths and trees of files:

* `resolve`: `.` and `..` and absolute paths, without symbolic links;
* `Apart`: neither path is the other one or leads to it; `apart_iff` finds the component
  at which they part;
* `writeFile`, `removeFile`, `createDirAll`, `removeDirAll`: what they leave alone.

The calls act on resolved paths. Two of the operating system's answers to `..` are lost by
that: a directory removed as `c/..` is emptied but stays, and `c` is created with `c/../b`.
-/

namespace FileTree

/-! ## Apart -/

section Apart
variable {α : Type*}

/-- Neither list is a prefix of the other. -/
def Apart (p q : List α) : Prop := ¬ p <+: q ∧ ¬ q <+: p

theorem Apart.symm {p q : List α} (h : Apart p q) : Apart q p := ⟨h.2, h.1⟩

/-- What is apart from a list is apart from its extensions. -/
theorem Apart.extend {p q q' : List α} (h : Apart p q) (hext : q <+: q') : Apart p q' := by
  constructor
  · intro hp
    rcases List.prefix_or_prefix_of_prefix hp hext with hpq | hqp
    · exact h.1 hpq
    · exact h.2 hqp
  · intro hq
    exact h.2 (hext.trans hq)

theorem apart_append_left {c p q : List α} : Apart (c ++ p) (c ++ q) ↔ Apart p q := by
  simp only [Apart, List.prefix_append_right_inj]

theorem apart_cons {x y : α} {p q : List α} : Apart (x :: p) (y :: q) ↔ (x = y → Apart p q) := by
  by_cases h : x = y
  · subst h
    simp [Apart, List.cons_prefix_cons]
  · simp [Apart, List.cons_prefix_cons, h, Ne.symm h]

theorem apart_iff {p q : List α} :
    Apart p q ↔ ∃ c x y p' q', p = c ++ x :: p' ∧ q = c ++ y :: q' ∧ x ≠ y := by
  constructor
  · intro h
    induction p generalizing q with
    | nil => exact absurd (List.nil_prefix) h.1
    | cons x p ih =>
      cases q with
      | nil => exact absurd (List.nil_prefix) h.2
      | cons y q =>
        by_cases hxy : x = y
        · subst hxy
          obtain ⟨c, a, b, p', q', rfl, rfl, hab⟩ := ih (apart_cons.mp h rfl)
          exact ⟨x :: c, a, b, p', q', rfl, rfl, hab⟩
        · exact ⟨[], x, y, p, q, rfl, rfl, hxy⟩
  · rintro ⟨c, x, y, p', q', rfl, rfl, hxy⟩
    exact apart_append_left.mpr (apart_cons.mpr fun h => absurd h hxy)

/-- Two lists part at one place only. -/
theorem part_unique {c d p q p' q' : List α} {x y a b : α} (hxy : x ≠ y) (hab : a ≠ b)
    (hp : c ++ x :: p = d ++ a :: p') (hq : c ++ y :: q = d ++ b :: q') :
    c = d ∧ x = a ∧ y = b ∧ p = p' ∧ q = q' := by
  induction c generalizing d with
  | nil =>
    cases d with
    | nil =>
      simp only [List.nil_append, List.cons.injEq] at hp hq
      exact ⟨rfl, hp.1, hq.1, hp.2, hq.2⟩
    | cons e d =>
      simp only [List.nil_append, List.cons_append, List.cons.injEq] at hp hq
      exact absurd (hp.1.trans hq.1.symm) hxy
  | cons e c ih =>
    cases d with
    | nil =>
      simp only [List.nil_append, List.cons_append, List.cons.injEq] at hp hq
      exact absurd (hp.1.symm.trans hq.1) hab
    | cons e' d =>
      simp only [List.cons_append, List.cons.injEq] at hp hq
      obtain ⟨rfl, hrest⟩ := ih hp.2 hq.2
      exact ⟨by rw [hp.1], hrest⟩

end Apart

/-! ## Resolution -/

/-- An absolute path by its components. -/
abbrev Path := List String

/-- The pieces between the slashes. -/
def pieces (s : String) : List String := (s.toList.splitOn '/').map String.ofList

/-- A piece that leads to an entry of the directory. -/
def Plain (piece : String) : Prop := piece ≠ "" ∧ piece ≠ "." ∧ piece ≠ ".."

instance (piece : String) : Decidable (Plain piece) := by
  unfold Plain
  infer_instance

def enter (p : Path) (piece : String) : Path :=
  if piece = "" ∨ piece = "." then p
  else if piece = ".." then p.dropLast
  else p ++ [piece]

/-- The path that a text means in a directory, read piece by piece without a look at the tree. -/
def resolve (base : Path) (s : String) : Path :=
  (pieces s).foldl enter (if s.toList.head? = some '/' then [] else base)

theorem enter_plain {piece : String} (h : Plain piece) (p : Path) : enter p piece = p ++ [piece] := by
  obtain ⟨hempty, hdot, hup⟩ := h
  simp [enter, hempty, hdot, hup]

theorem enter_below {piece : String} (h : ¬ Plain piece) (p : Path) : enter p piece <+: p := by
  unfold enter
  split
  · exact List.prefix_refl p
  · rename_i hstay
    split
    · exact List.dropLast_prefix p
    · rename_i hup
      exact absurd ⟨fun he => hstay (Or.inl he), fun hd => hstay (Or.inr hd), hup⟩ h

/-- A suffix without a slash changes the last piece only. -/
theorem splitOn_append {suffix : List Char} (hsuffix : '/' ∉ suffix) (cs : List Char) :
    ∃ front last, '/' ∉ last ∧ cs.splitOn '/' = front ++ [last] ∧
      (cs ++ suffix).splitOn '/' = front ++ [last ++ suffix] := by
  by_cases hslash : '/' ∈ cs
  · obtain ⟨as, bs, hrev, hfresh⟩ := List.eq_append_cons_of_mem (List.mem_reverse.mpr hslash)
    have hcs : cs = bs.reverse ++ '/' :: as.reverse := by
      have := congrArg List.reverse hrev
      simpa using this
    have hlast : '/' ∉ as.reverse := by simpa using hfresh
    have hnew : '/' ∉ as.reverse ++ suffix := by simp [hfresh, hsuffix]
    refine ⟨bs.reverse.splitOn '/', as.reverse, hlast, ?_, ?_⟩
    · rw [hcs, List.splitOn_append_cons_self, List.splitOn_eq_singleton hlast]
    · rw [hcs, List.append_assoc, List.cons_append, List.splitOn_append_cons_self,
        List.splitOn_eq_singleton hnew]
  · refine ⟨[], cs, hslash, List.splitOn_eq_singleton hslash, ?_⟩
    exact List.splitOn_eq_singleton (by simp [hslash, hsuffix])

/-- A text and the same text with a suffix lead to entries of one directory. -/
theorem resolve_append {suffix : String} (hsuffix : '/' ∉ suffix.toList) (base : Path) (s : String) :
    ∃ parent last, (pieces s).getLast? = some last ∧ resolve base s = enter parent last ∧
      resolve base (s ++ suffix) = enter parent (last ++ suffix) := by
  obtain ⟨front, last, -, hs, happend⟩ := splitOn_append hsuffix s.toList
  have hhead : (s ++ suffix).toList.head? = some '/' ↔ s.toList.head? = some '/' := by
    rw [String.toList_append]
    cases hcs : s.toList with
    | nil =>
      simp only [List.nil_append, List.head?_nil, reduceCtorEq, iff_false]
      intro h
      exact hsuffix (List.mem_of_mem_head? h)
    | cons c cs => simp
  refine ⟨(front.map String.ofList).foldl enter (if s.toList.head? = some '/' then [] else base),
    String.ofList last, ?_, ?_, ?_⟩
  · simp [pieces, hs]
  · simp [resolve, pieces, hs]
  · unfold resolve
    simp only [hhead]
    simp [pieces, String.toList_append, happend]

/-! ## Trees -/

inductive Entry where
  | file (content : String)
  | directory
  deriving DecidableEq, Repr

abbrev Tree := Path → Option Entry

namespace Tree

/-- `fs::write`: not over a directory, nor outside one. -/
def writeFile (t : Tree) (p : Path) (content : String) : Tree :=
  if t p = some .directory ∨ t p.dropLast ≠ some .directory then t
  else Function.update t p (some (.file content))

/-- `fs::remove_file`. -/
def removeFile (t : Tree) (p : Path) : Tree :=
  match t p with
  | some (.file _) => Function.update t p none
  | _ => t

/-- `fs::create_dir_all` of a resolved path: nothing if a file is in the way. -/
def createDirAll (t : Tree) (p : Path) : Tree :=
  if p.inits.any fun q => t q matches some (.file _) then t
  else fun q => if q <+: p then some .directory else t q

/-- `fs::remove_dir_all` of a resolved path. -/
def removeDirAll (t : Tree) (p : Path) : Tree :=
  if t p = some .directory then fun q => if p <+: q then none else t q else t

theorem writeFile_ne {t : Tree} {p q : Path} (content : String) (h : q ≠ p) :
    t.writeFile p content q = t q := by
  unfold writeFile
  split
  · rfl
  · rw [Function.update_of_ne h]

theorem removeFile_ne {t : Tree} {p q : Path} (h : q ≠ p) : t.removeFile p q = t q := by
  unfold removeFile
  cases t p with
  | none => rfl
  | some entry =>
    cases entry with
    | directory => rfl
    | file content => exact Function.update_of_ne h _ _

theorem createDirAll_ne {t : Tree} {p q : Path} (h : ¬ q <+: p) : t.createDirAll p q = t q := by
  unfold createDirAll
  split
  · rfl
  · exact if_neg h

theorem removeDirAll_ne {t : Tree} {p q : Path} (h : ¬ p <+: q) : t.removeDirAll p q = t q := by
  unfold removeDirAll
  split
  · exact if_neg h
  · rfl

/-- The content of the file at a path, if a file is there. -/
def content (t : Tree) (p : Path) : Option String :=
  match t p with
  | some (.file content) => some content
  | _ => none

theorem content_eq_some {t : Tree} {p : Path} {text : String} :
    t.content p = some text ↔ t p = some (.file text) := by
  unfold content
  split <;> simp_all

/-- No file changes when directories are created. -/
theorem createDirAll_content (t : Tree) (p q : Path) : (t.createDirAll p).content q = t.content q := by
  unfold createDirAll
  split
  · rfl
  · rename_i hfree
    by_cases hq : q <+: p
    · simp only [content, hq, if_true]
      cases hentry : t q with
      | none => rfl
      | some entry =>
        cases entry with
        | directory => rfl
        | file text =>
          exfalso
          apply hfree
          exact List.any_eq_true.mpr ⟨q, (List.mem_inits q p).mpr hq, by simp [hentry]⟩
    · simp only [content, hq, if_false]

theorem writeFile_content {t : Tree} {p : Path} (hplace : t p ≠ some .directory)
    (hparent : t p.dropLast = some .directory) (text : String) :
    (t.writeFile p text).content p = some text := by
  have hfree : ¬ (t p = some .directory ∨ t p.dropLast ≠ some .directory) := by
    rw [not_or, not_not]
    exact ⟨hplace, hparent⟩
  rw [content_eq_some, writeFile, if_neg hfree, Function.update_self]

end Tree
end FileTree
