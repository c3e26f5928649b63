import Edgewit.Management

/-!
# Where indexes are stored

The paths of an index under `data_dir/indexes`, for names that are any text.
`isolated_iff` says which pairs of names are kept apart.
-/

namespace Edgewit
open FileTree

def indexesDir (base : Path) : Path := base ++ ["indexes"]

def indexPath (base : Path) (name : String) : Path := resolve (indexesDir base) name

def definitionPath (base : Path) (name : String) : Path :=
  resolve (indexesDir base) (definitionFile name)

/-! ## What requests do on disk -/

/-- The disk steps of `create_index_handler`. -/
def createOnDisk (t : Tree) (base : Path) (name text : String) : Tree :=
  (t.createDirAll (indexesDir base)).writeFile (definitionPath base name) text

/-- The directory that `get_or_create_index` creates. -/
def openOnDisk (t : Tree) (base : Path) (name : String) : Tree := t.createDirAll (indexPath base name)

/-- The disk steps of `delete_index_handler`. -/
def deleteOnDisk (t : Tree) (base : Path) (name : String) : Tree :=
  (t.removeFile (definitionPath base name)).removeDirAll (indexPath base name)

/-- The paths of both names are strictly inside `data_dir/indexes`, and those of one are
neither equal to, inside, nor above those of the other. -/
structure Separate (base : Path) (m n : String) : Prop where
  inside : ∀ name ∈ [m, n], ∀ p ∈ [definitionPath base name, indexPath base name],
    indexesDir base <+: p ∧ p ≠ indexesDir base
  apart : ∀ p ∈ [definitionPath base m, indexPath base m],
    ∀ q ∈ [definitionPath base n, indexPath base n], Apart p q

/-- The definition and the data of a name, and the files beside `indexes`. -/
def Holds (base : Path) (name : String) (p : Path) : Prop :=
  p = definitionPath base name ∨ indexPath base name <+: p ∨
    ∃ file, file ≠ "indexes" ∧ p = base ++ [file]

/-- Requests for one name change nothing of the other name, nor of the WAL. -/
def Spares (base : Path) (m n : String) : Prop :=
  ∀ (t : Tree) (p : Path), Holds base n p →
    (∀ text, createOnDisk t base m text p = t p) ∧ openOnDisk t base m p = t p ∧
      deleteOnDisk t base m p = t p

structure Isolated (base : Path) (m n : String) : Prop extends Separate base m n where
  spares : Spares base m n
  spares' : Spares base n m

/-! ## The names that are kept apart -/

/-- The last piece of a name is the last component of its directory. -/
def EndsPlain (name : String) : Prop := ∃ last ∈ (pieces name).getLast?, Plain last

/-- The names lead to places below `indexes` that part, and where one of them ends, the other
does not go on with its definition file. -/
def Parted (base : Path) (m n : String) : Prop :=
  ∃ c x y p q, resolve (indexesDir base) m = indexesDir base ++ (c ++ x :: p) ∧
    resolve (indexesDir base) n = indexesDir base ++ (c ++ y :: q) ∧ x ≠ y ∧
    (p = [] → EndsPlain m → y ≠ definitionFile x) ∧ (q = [] → EndsPlain n → x ≠ definitionFile y)

theorem Parted.symm {base : Path} {m n : String} (h : Parted base m n) : Parted base n m := by
  obtain ⟨c, x, y, p, q, hm, hn, hxy, hx, hy⟩ := h
  exact ⟨c, y, x, q, p, hn, hm, hxy.symm, hy, hx⟩

theorem plain_definitionFile (last : String) : Plain (definitionFile last) := by
  have hlength : 11 ≤ (definitionFile last).toList.length := by simp [definitionFile]
  refine ⟨?_, ?_, ?_⟩ <;> intro h <;> rw [h] at hlength <;> revert hlength <;> decide

/-- The definition file is a sibling of the data directory, or inside it. -/
theorem beside (base : Path) (name : String) :
    (∃ parent last, (pieces name).getLast? = some last ∧ Plain last ∧
      indexPath base name = parent ++ [last] ∧
      definitionPath base name = parent ++ [definitionFile last]) ∨
    (¬ EndsPlain name ∧ indexPath base name <+: definitionPath base name) := by
  obtain ⟨parent, last, hlast, hpath, hfile⟩ :=
    resolve_append (show '/' ∉ ".index.yaml".toList by decide) (indexesDir base) name
  have hdefinition : definitionPath base name = parent ++ [definitionFile last] := by
    rw [definitionPath, definitionFile, hfile]
    exact enter_plain (plain_definitionFile last) parent
  by_cases hplain : Plain last
  · left
    exact ⟨parent, last, hlast, hplain, by rw [indexPath, hpath, enter_plain hplain], hdefinition⟩
  · right
    constructor
    · rintro ⟨last', hlast', hplain'⟩
      rw [hlast] at hlast'
      cases hlast'
      exact hplain hplain'
    · rw [indexPath, hpath, hdefinition]
      exact (enter_below hplain parent).trans (List.prefix_append _ _)

theorem ne_of_apart {p q : Path} (h : Apart p q) : p ≠ q := by
  rintro rfl
  exact h.1 (List.prefix_refl p)

/-- If the data are strictly below `indexes`, so is the definition. -/
theorem definition_inside {base : Path} {name : String} (hdata : indexesDir base <+: indexPath base name)
    (hne : indexPath base name ≠ indexesDir base) :
    indexesDir base <+: definitionPath base name ∧ definitionPath base name ≠ indexesDir base := by
  rcases beside base name with ⟨parent, last, -, -, hpath, hfile⟩ | ⟨-, hbelow⟩
  · have hparent : indexesDir base <+: parent := by
      rw [hpath] at hdata hne
      rcases List.prefix_concat_iff.mp hdata with heq | hparent
      · exact absurd heq.symm hne
      · exact hparent
    rw [hfile]
    refine ⟨hparent.trans (List.prefix_append _ _), fun heq => ?_⟩
    have hlength := hparent.length_le
    rw [← heq, List.length_append, List.length_singleton] at hlength
    omega
  · refine ⟨hdata.trans hbelow, fun heq => ?_⟩
    rw [heq] at hbelow
    exact hne (hbelow.eq_of_length_le hdata.length_le)

/-- What is apart from the data of a name is apart from its definition, unless it lies at or
below that file. -/
theorem definition_apart {base : Path} {name : String} {p : Path}
    (hdata : Apart (indexPath base name) p)
    (hfile : EndsPlain name → ¬ definitionPath base name <+: p) :
    Apart (definitionPath base name) p := by
  rcases beside base name with ⟨parent, last, hlast, hplain, hpath, hdefinition⟩ | ⟨-, hbelow⟩
  · have hnot := hfile ⟨last, hlast, hplain⟩
    refine ⟨hnot, fun hp => ?_⟩
    rw [hdefinition] at hp hnot
    rcases List.prefix_concat_iff.mp hp with heq | hparent
    · exact hnot (heq.symm ▸ List.prefix_refl _)
    · apply hdata.2
      rw [hpath]
      exact hparent.trans (List.prefix_append _ _)
  · exact (hdata.symm.extend hbelow).symm

/-- Two definitions are apart where each is apart from the data of the other. -/
theorem definitions_apart {base : Path} {m n : String}
    (hdata : Apart (indexPath base m) (indexPath base n))
    (hm : Apart (definitionPath base m) (indexPath base n))
    (hn : Apart (definitionPath base n) (indexPath base m)) :
    Apart (definitionPath base m) (definitionPath base n) := by
  apply definition_apart hn.symm
  rintro - hpre
  rcases beside base n with ⟨parent, last, -, -, hpath, hfile⟩ | ⟨-, hbelow⟩
  · rw [hfile] at hpre
    rcases List.prefix_concat_iff.mp hpre with heq | hparent
    · rcases beside base m with ⟨parent', last', -, -, hpath', hfile'⟩ | ⟨-, hbelow'⟩
      · -- The same file means the same directory and the same last piece.
        rw [hfile'] at heq
        obtain ⟨rfl, hlast⟩ := List.append_inj' heq rfl
        simp only [List.cons.injEq, and_true] at hlast
        apply ne_of_apart hdata
        rw [hpath, hpath', definitionFile_inj hlast]
      · apply hn.2
        rw [hfile, ← heq]
        exact hbelow'
    · apply hm.1
      rw [hpath]
      exact hparent.trans (List.prefix_append _ _)
  · exact (hm.extend hbelow).1 hpre

/-- Where two names part, the definition of the one is not above the data of the other. -/
theorem Parted.definition_not_prefix {base : Path} {m n : String} (h : Parted base m n)
    (hplain : EndsPlain m) : ¬ definitionPath base m <+: indexPath base n := by
  rintro ⟨rest, hrest⟩
  obtain ⟨c, x, y, p, q, (hm : indexPath base m = _), (hn : indexPath base n = _), hxy, hx, -⟩ := h
  rcases beside base m with ⟨parent, last, -, -, hpath, hfile⟩ | ⟨hnot, -⟩
  swap
  · exact hnot hplain
  have hne : last ≠ definitionFile last := fun heq => Catalog.definitionFile_ne last heq.symm
  have hleft : parent ++ last :: [] = (indexesDir base ++ c) ++ x :: p := by
    rw [← hpath, hm, List.append_assoc]
  have hright : parent ++ definitionFile last :: rest = (indexesDir base ++ c) ++ y :: q := by
    rw [List.append_assoc, ← hn, ← hrest, hfile]
    simp
  obtain ⟨-, rfl, hy, hp, -⟩ := part_unique hne hxy hleft hright
  exact hx hp.symm hplain hy.symm

theorem separate_of_parted {base : Path} {m n : String} (h : Parted base m n) :
    Separate base m n := by
  have hdata : Apart (indexPath base m) (indexPath base n) := by
    obtain ⟨c, x, y, p, q, (hm : indexPath base m = _), (hn : indexPath base n = _), hxy, -⟩ := h
    rw [hm, hn]
    exact apart_append_left.mpr (apart_iff.mpr ⟨c, x, y, p, q, rfl, rfl, hxy⟩)
  have hbelow : ∀ name ∈ [m, n], indexesDir base <+: indexPath base name ∧
      indexPath base name ≠ indexesDir base := by
    obtain ⟨c, x, y, p, q, (hm : indexPath base m = _), (hn : indexPath base n = _), -⟩ := h
    intro name hname
    simp only [List.mem_cons, List.not_mem_nil, or_false] at hname
    rcases hname with rfl | rfl
    · rw [hm]
      exact ⟨List.prefix_append _ _, by simp⟩
    · rw [hn]
      exact ⟨List.prefix_append _ _, by simp⟩
  have hm := definition_apart hdata h.definition_not_prefix
  have hn := definition_apart hdata.symm h.symm.definition_not_prefix
  constructor
  · intro name hname p hp
    obtain ⟨hinside, hne⟩ := hbelow name hname
    simp only [List.mem_cons, List.not_mem_nil, or_false] at hp
    rcases hp with rfl | rfl
    · exact definition_inside hinside hne
    · exact ⟨hinside, hne⟩
  · intro p hp q hq
    simp only [List.mem_cons, List.not_mem_nil, or_false] at hp hq
    rcases hp with rfl | rfl <;> rcases hq with rfl | rfl
    · exact definitions_apart hdata hm hn
    · exact hm
    · exact hn.symm
    · exact hdata

/-- The converse: if the data of the one went on with the definition of the other, they
would not be apart. -/
theorem Separate.not_definition {base : Path} {m n : String} (h : Separate base m n) {c q : Path}
    {x y : String} (hm : indexPath base m = indexesDir base ++ (c ++ [x]))
    (hn : indexPath base n = indexesDir base ++ (c ++ y :: q)) (hplain : EndsPlain m) :
    y ≠ definitionFile x := by
  rintro rfl
  have hapart := h.apart (definitionPath base m) (by simp) (indexPath base n) (by simp)
  rcases beside base m with ⟨parent, last, -, -, hpath, hfile⟩ | ⟨hnot, -⟩
  · rw [hpath, ← List.append_assoc] at hm
    obtain ⟨rfl, hlast⟩ := List.append_inj' hm rfl
    simp only [List.cons.injEq, and_true] at hlast
    subst hlast
    apply hapart.1
    rw [hfile, hn]
    exact ⟨q, by simp⟩
  · exact hnot hplain

theorem Separate.symm {base : Path} {m n : String} (h : Separate base m n) : Separate base n m := by
  constructor
  · intro name hname
    exact h.inside name (by simpa [or_comm] using hname)
  · intro p hp q hq
    exact (h.apart q hq p hp).symm

theorem parted_of_separate {base : Path} {m n : String} (h : Separate base m n) :
    Parted base m n := by
  obtain ⟨⟨r, hr⟩, -⟩ := h.inside m (by simp) (indexPath base m) (by simp)
  obtain ⟨⟨s, hs⟩, -⟩ := h.inside n (by simp) (indexPath base n) (by simp)
  have hdata := h.apart (indexPath base m) (by simp) (indexPath base n) (by simp)
  rw [← hr, ← hs, apart_append_left, apart_iff] at hdata
  obtain ⟨c, x, y, p, q, rfl, rfl, hxy⟩ := hdata
  refine ⟨c, x, y, p, q, hr.symm, hs.symm, hxy, ?_, ?_⟩
  · rintro rfl
    exact h.not_definition hr.symm hs.symm
  · rintro rfl
    exact h.symm.not_definition hs.symm hr.symm

/-! ## Nothing else is touched -/

theorem spares_path {base : Path} {m : String} {p : Path} (t : Tree)
    (hfile : Apart p (definitionPath base m)) (hdata : Apart p (indexPath base m))
    (hdir : ¬ p <+: indexesDir base) :
    (∀ text, createOnDisk t base m text p = t p) ∧ openOnDisk t base m p = t p ∧
      deleteOnDisk t base m p = t p := by
  refine ⟨fun text => ?_, ?_, ?_⟩
  · rw [createOnDisk, Tree.writeFile_ne _ (ne_of_apart hfile), Tree.createDirAll_ne hdir]
  · exact Tree.createDirAll_ne hdata.1
  · rw [deleteOnDisk, Tree.removeDirAll_ne hdata.2, Tree.removeFile_ne (ne_of_apart hfile)]

theorem spares_of_separate {base : Path} {m n : String} (h : Separate base m n) :
    Spares base m n := by
  have hinside : ∀ p ∈ [definitionPath base n, indexPath base n], ¬ p <+: indexesDir base := by
    intro p hp hpre
    obtain ⟨hbelow, hne⟩ := h.inside n (by simp) p hp
    exact hne (hpre.eq_of_length_le hbelow.length_le)
  have hapart : ∀ q ∈ [definitionPath base m, indexPath base m],
      Apart (definitionPath base n) q ∧ Apart (indexPath base n) q := fun q hq =>
    ⟨(h.apart q hq _ (by simp)).symm, (h.apart q hq _ (by simp)).symm⟩
  obtain ⟨hff, hdf⟩ := hapart (definitionPath base m) (by simp)
  obtain ⟨hfd, hdd⟩ := hapart (indexPath base m) (by simp)
  rintro t p (rfl | hbelow | ⟨file, hfile, rfl⟩)
  · exact spares_path t hff hfd (hinside _ (by simp))
  · apply spares_path t (hdf.symm.extend hbelow).symm (hdd.symm.extend hbelow).symm
    intro hpre
    exact hinside (indexPath base n) (by simp) (hbelow.trans hpre)
  · have hbeside : Apart (base ++ [file]) (indexesDir base) :=
      apart_append_left.mpr (apart_cons.mpr fun heq => absurd heq hfile)
    exact spares_path t (hbeside.extend (h.inside m (by simp) _ (by simp)).1)
      (hbeside.extend (h.inside m (by simp) _ (by simp)).1) hbeside.1

theorem isolated_of_parted {base : Path} {m n : String} (h : Parted base m n) :
    Isolated base m n :=
  have hseparate := separate_of_parted h
  ⟨hseparate, spares_of_separate hseparate, spares_of_separate hseparate.symm⟩

/-- Two names are isolated from each other if and only if their directories part below
`indexes`, and not at the definition file of one of them. -/
theorem isolated_iff (base : Path) (m n : String) : Isolated base m n ↔ Parted base m n :=
  ⟨fun h => parted_of_separate h.toSeparate, isolated_of_parted⟩

/-- The names are not checked: `..` leads to the data directory, and `a.index.yaml` to the
definition of `a`. -/
theorem accepted_not_isolated :
    ¬ ∀ (base : Path) (m n : String), m ≠ n →
      (∃ payload : IndexDefinition, validateSchema (payload.under m) = some (.ok ())) →
      (∃ payload : IndexDefinition, validateSchema (payload.under n) = some (.ok ())) →
      Isolated base m n := by
  intro halways
  have hisolated := halways ["data"] ".." "a" (by decide) ⟨.bare .dynamic "", rfl⟩
    ⟨.bare .dynamic "", rfl⟩
  obtain ⟨hinside, -⟩ := hisolated.inside ".." (by simp) (indexPath ["data"] "..") (by simp)
  revert hinside
  decide +kernel

/-! ## Names of one component -/

theorem resolve_ordinary {name : String} (h : Ordinary name) (base : Path) :
    resolve base name = base ++ [name] := by
  obtain ⟨hempty, hdot, hup, hslash⟩ := h
  have hhead : name.toList.head? ≠ some '/' := fun heq => hslash (List.mem_of_mem_head? heq)
  rw [resolve, if_neg hhead, pieces, List.splitOn_eq_singleton hslash]
  simp [enter_plain (show Plain name from ⟨hempty, hdot, hup⟩)]

theorem ordinary_definitionFile {name : String} (h : Ordinary name) : Ordinary (definitionFile name) := by
  obtain ⟨hempty, hdot, hup⟩ := plain_definitionFile name
  exact ⟨hempty, hdot, hup, by simp [definitionFile, h.2.2.2]⟩

/-- An ordinary name has its own entries of the directory. -/
theorem paths_ordinary {name : String} (h : Ordinary name) (base : Path) :
    indexPath base name = indexesDir base ++ [name] ∧
      definitionPath base name = indexesDir base ++ [definitionFile name] :=
  ⟨resolve_ordinary h _, resolve_ordinary (ordinary_definitionFile h) _⟩

theorem endsPlain_ordinary {name : String} (h : Ordinary name) : EndsPlain name := by
  obtain ⟨hempty, hdot, hup, hslash⟩ := h
  refine ⟨name, ?_, hempty, hdot, hup⟩
  simp [pieces, List.splitOn_eq_singleton hslash]

theorem parted_ordinary {m n : String} (hm : Ordinary m) (hn : Ordinary n) (base : Path) :
    Parted base m n ↔ m ≠ n ∧ n ≠ definitionFile m ∧ m ≠ definitionFile n := by
  have hpath := (paths_ordinary hm base).1
  have hpath' := (paths_ordinary hn base).1
  constructor
  · rintro ⟨c, x, y, p, q, (hx : indexPath base m = _), (hy : indexPath base n = _), hxy, hclash,
      hclash'⟩
    rw [hpath, List.append_cancel_left_eq] at hx
    rw [hpath', List.append_cancel_left_eq] at hy
    cases c with
    | cons e c => simp at hx
    | nil =>
      simp only [List.nil_append, List.cons.injEq] at hx hy
      obtain ⟨rfl, rfl⟩ := hx
      obtain ⟨rfl, rfl⟩ := hy
      exact ⟨hxy, hclash rfl (endsPlain_ordinary hm), hclash' rfl (endsPlain_ordinary hn)⟩
  · rintro ⟨hmn, hclash, hclash'⟩
    exact ⟨[], m, n, [], [], hpath, hpath', hmn, fun _ _ => hclash, fun _ _ => hclash'⟩

/-- Names of one component are isolated from each other unless one of them is the name of the
definition file of the other. -/
theorem isolated_ordinary {m n : String} (hm : Ordinary m) (hn : Ordinary n) (base : Path) :
    Isolated base m n ↔ m ≠ n ∧ n ≠ definitionFile m ∧ m ≠ definitionFile n :=
  ⟨fun h => (parted_ordinary hm hn base).mp (parted_of_separate h.toSeparate),
    fun h => isolated_of_parted ((parted_ordinary hm hn base).mpr h)⟩

end Edgewit
