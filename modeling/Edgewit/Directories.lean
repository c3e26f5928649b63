import Edgewit.Lifecycle

/-!
# Whose directory it is

Two names may lead to one directory, or the one into that of the other: a deletion then takes
both, and the writer of the one keeps the other from opening its own. Where the names of a run are
kept apart, what is open under a name belongs to its own directory at every point, and no
writer is refused, `unlocked`.
-/

namespace Edgewit
open Edits FileTree

/-- The name that a label may register. -/
def LifecycleLabel.puts : LifecycleLabel → Option String
  | .put name _ => some name
  | _ => none

namespace IndexService

/-- The names that are registered at the start, and those put in the run. -/
def names (s : IndexService) (ls : List LifecycleLabel) : List String :=
  s.registry.indexes.keys ++ ls.filterMap LifecycleLabel.puts

/-- The names of the run are isolated from each other. -/
def KeptApart (s : IndexService) (ls : List LifecycleLabel) : Prop :=
  ∀ m ∈ s.names ls, ∀ n ∈ s.names ls, m ≠ n → Parted s.baseDir m n

/-- As `main` starts: nothing is open, every directory has its own inode, and what is on disk or
in the receiver has been acknowledged. -/
structure Started (s : IndexService) : Prop where
  indexes : s.indexes = ∅
  readers : s.readers = ∅
  writers : s.writers = ∅
  deletedAt : s.deletedAt = ∅
  accepted : s.accepted = ∅
  definitions : ∀ name d, s.registry.get name = some d → d ∈ s.definitionsOf name
  disk : ∀ path dir, s.disk.lookup path = some dir → ∀ doc ∈ dir.docs, doc.id < s.acknowledged
  inodes : ∀ path dir, s.disk.lookup path = some dir → dir.inode < s.nextInode
  distinct : ∀ p q dir dir', s.disk.lookup p = some dir → s.disk.lookup q = some dir' →
    dir.inode = dir'.inode → p = q
  waiting : ∀ w ∈ s.receiver, w.id < s.acknowledged

/-- Nothing has happened under the name. -/
structure Blank (s : IndexService) (name : String) : Prop where
  registry : s.registry.get name = none
  indexes : s.indexes.lookup name = none
  readers : s.readers.lookup name = none
  writers : s.writers.lookup name = none
  accepted : s.acceptedOf name = []

/-- If there is a directory with the inode, it is at the path of the name. -/
def Owns (s : IndexService) (name : String) (inode : Nat) : Prop :=
  inode < s.nextInode ∧
    ∀ path dir, s.disk.lookup path = some dir → dir.inode = inode → path = s.indexPath name

/-- The names have directories that are apart, and what is open under one of them is nowhere
else. -/
structure Placed (names : List String) (s : IndexService) : Prop where
  apart : ∀ m ∈ names, ∀ n ∈ names, m ≠ n → Apart (s.indexPath m) (s.indexPath n)
  blank : ∀ n, n ∉ names → s.Blank n
  inodes : ∀ path dir, s.disk.lookup path = some dir → dir.inode < s.nextInode
  distinct : ∀ p q dir dir', s.disk.lookup p = some dir → s.disk.lookup q = some dir' →
    dir.inode = dir'.inode → p = q
  index : ∀ n i, s.indexes.lookup n = some i → s.Owns n i.inode
  writer : ∀ n w, s.writers.lookup n = some w → s.Owns n w.inode

theorem KeptApart.apart {s : IndexService} {ls : List LifecycleLabel} (h : s.KeptApart ls) :
    ∀ m ∈ s.names ls, ∀ n ∈ s.names ls, m ≠ n → Apart (s.indexPath m) (s.indexPath n) := by
  intro m hm n hn hne
  exact (separate_of_parted (h m hm n hn hne)).apart _ (by simp [indexPath]) _ (by simp [indexPath])

/-- Names of one component are kept apart, unless one of them is the definition file of
another. -/
theorem keptApart_of_ordinary {s : IndexService} {ls : List LifecycleLabel}
    (hordinary : ∀ n ∈ s.names ls, Ordinary n)
    (hfile : ∀ m ∈ s.names ls, ∀ n ∈ s.names ls, m ≠ definitionFile n) : s.KeptApart ls := by
  intro m hm n hn hne
  exact (parted_ordinary (hordinary m hm) (hordinary n hn) _).mpr ⟨hne, hfile n hn m hm, hfile m hm n hn⟩

theorem Started.placed {s : IndexService} {ls : List LifecycleLabel} (hs : Started s)
    (hapart : s.KeptApart ls) : Placed (s.names ls) s := by
  refine ⟨hapart.apart, fun n hn => ?_, hs.inodes, hs.distinct, ?_, ?_⟩
  · have hunregistered : n ∉ s.registry.indexes.keys :=
      fun hmem => hn (List.mem_append_left _ hmem)
    refine ⟨AList.lookup_eq_none.mpr hunregistered, ?_, ?_, ?_, ?_⟩ <;>
      simp [hs.indexes, hs.readers, hs.writers, hs.accepted, acceptedOf]
  · simp [hs.indexes]
  · simp [hs.writers]

variable {x : Externals} {names : List String} {s t : IndexService}

theorem Placed.registered (hs : Placed names s) {name : String} (h : s.registry.get name ≠ none) :
    name ∈ names := by
  by_contra hname
  exact h (hs.blank name hname).registry

theorem Placed.opened (hs : Placed names s) {name : String} {i : OpenIndex}
    (h : s.indexes.lookup name = some i) : name ∈ names := by
  by_contra hname
  cases h.symm.trans (hs.blank name hname).indexes

theorem Placed.written (hs : Placed names s) {name : String} {w : OpenWriter}
    (h : s.writers.lookup name = some w) : name ∈ names := by
  by_contra hname
  cases h.symm.trans (hs.blank name hname).writers

/-- Another name has another path. -/
theorem Placed.path_ne (hs : Placed names s) {m n : String} (hm : m ∈ names) (hn : n ∈ names)
    (hne : m ≠ n) : s.indexPath m ≠ s.indexPath n :=
  ne_of_apart (hs.apart m hm n hn hne)

/-- What is in the directory of a name is its own. -/
theorem Placed.live (hs : Placed names s) {name : String} {inode : Nat} {dir : IndexOnDisk}
    (h : s.live name inode = some dir) : s.Owns name dir.inode := by
  obtain ⟨hdir, -⟩ := live_eq_some.mp h
  exact ⟨hs.inodes _ _ hdir, fun path dir' hdir' hinode => hs.distinct _ _ _ _ hdir' hdir hinode⟩

/-- No other writer is open on the directory of a name. -/
theorem unlocked (hs : Placed names s) {name : String} {inode : Nat} {dir : IndexOnDisk}
    (hname : name ∈ names) (habsent : s.writers.lookup name = none)
    (hlive : s.live name inode = some dir) : s.locked dir.inode = false := by
  rw [Bool.eq_false_iff, Ne, locked_iff]
  rintro ⟨other, w, hw, hinode⟩
  obtain ⟨hdir, -⟩ := live_eq_some.mp hlive
  have hpath := (hs.writer other w hw).2 _ _ hdir hinode.symm
  have hsame : name = other := by
    by_contra hne
    exact hs.path_ne hname (hs.written hw) hne hpath
  subst hsame
  cases habsent.symm.trans hw

/-! ## What a step does to it -/

/-- Directories may change and go. -/
theorem Placed.carry (hs : Placed names s) (hbase : t.baseDir = s.baseDir)
    (hnext : t.nextInode = s.nextInode)
    (hdisk : ∀ path dir, t.disk.lookup path = some dir →
      ∃ dir', s.disk.lookup path = some dir' ∧ dir'.inode = dir.inode)
    (hindex : ∀ n i, t.indexes.lookup n = some i → s.Owns n i.inode)
    (hwriter : ∀ n w, t.writers.lookup n = some w → s.Owns n w.inode)
    (hblank : ∀ n, n ∉ names → t.Blank n) : Placed names t := by
  have hpath : ∀ n, t.indexPath n = s.indexPath n := fun n => by rw [indexPath, indexPath, hbase]
  have howns : ∀ {n : String} {inode : Nat}, s.Owns n inode → t.Owns n inode := by
    rintro n inode ⟨hold, hplace⟩
    refine ⟨hnext ▸ hold, fun path dir hdir hinode => ?_⟩
    obtain ⟨dir', hdir', hsame⟩ := hdisk path dir hdir
    rw [hpath]
    exact hplace path dir' hdir' (hsame.trans hinode)
  refine ⟨?_, hblank, ?_, ?_, fun n i h => howns (hindex n i h), fun n w h => howns (hwriter n w h)⟩
  · simpa only [hpath] using hs.apart
  · intro path dir hdir
    obtain ⟨dir', hdir', hsame⟩ := hdisk path dir hdir
    rw [hnext, ← hsame]
    exact hs.inodes path dir' hdir'
  · intro p q dir dir' hp hq hinode
    obtain ⟨d, hd, hsame⟩ := hdisk p dir hp
    obtain ⟨d', hd', hsame'⟩ := hdisk q dir' hq
    exact hs.distinct p q d d' hd hd' (hsame.trans (hinode.trans hsame'.symm))

/-- A new directory has a new inode. -/
theorem Placed.create (hs : Placed names s) {name : String} (schema : Schema) (hname : name ∈ names) :
    Placed names { s with
      indexes := s.indexes.insert name ⟨s.nextInode, schema⟩
      disk := s.disk.insert (s.indexPath name) ⟨s.nextInode, schema, []⟩
      nextInode := s.nextInode + 1 } := by
  have hlookup : ∀ path dir,
      (s.disk.insert (s.indexPath name) ⟨s.nextInode, schema, []⟩).lookup path = some dir →
      path = s.indexPath name ∧ dir.inode = s.nextInode ∨ s.disk.lookup path = some dir := by
    intro path dir hdir
    rw [Table.lookup_insert_eq] at hdir
    split at hdir
    · cases hdir
      exact Or.inl ⟨‹_›, rfl⟩
    · exact Or.inr hdir
  have howns : ∀ n inode, s.Owns n inode → Owns { s with
      indexes := s.indexes.insert name ⟨s.nextInode, schema⟩
      disk := s.disk.insert (s.indexPath name) ⟨s.nextInode, schema, []⟩
      nextInode := s.nextInode + 1 } n inode := by
    rintro n inode ⟨hold, hplace⟩
    refine ⟨Nat.lt_succ_of_lt hold, fun path dir hdir hinode => ?_⟩
    rcases hlookup path dir hdir with ⟨-, hnew⟩ | hdir
    · omega
    · exact hplace path dir hdir hinode
  constructor
  case apart => exact hs.apart
  case blank =>
    intro n hn
    have hne := (ne_of_mem_of_not_mem hname hn).symm
    exact { hs.blank n hn with indexes := by rw [AList.lookup_insert_ne hne, (hs.blank n hn).indexes] }
  case inodes =>
    intro path dir hdir
    rcases hlookup path dir hdir with ⟨-, hnew⟩ | hdir
    · exact hnew ▸ Nat.lt_succ_self _
    · exact Nat.lt_succ_of_lt (hs.inodes path dir hdir)
  case distinct =>
    intro p q dir dir' hp hq hinode
    rcases hlookup p dir hp with ⟨rfl, hnew⟩ | hp <;> rcases hlookup q dir' hq with ⟨rfl, hnew'⟩ | hq
    · rfl
    · have := hs.inodes q dir' hq
      omega
    · have := hs.inodes p dir hp
      omega
    · exact hs.distinct p q dir dir' hp hq hinode
  case index =>
    intro n i hi
    rw [Table.lookup_insert_eq] at hi
    split at hi
    · rename_i hn
      subst hn
      cases hi
      refine ⟨Nat.lt_succ_self _, fun path dir hdir hinode => ?_⟩
      rcases hlookup path dir hdir with ⟨hpath, -⟩ | hdir
      · exact hpath
      · exact absurd hinode (hs.inodes path dir hdir).ne
    · exact howns n _ (hs.index n i hi)
  case writer => exact fun n w hw => howns n _ (hs.writer n w hw)

/-- A lookup in a table where only an own handle is new. -/
theorem owns_insert {β : Type} {inode : β → Nat} {table : Table String β} {name : String} {b : β}
    (htable : ∀ n b, table.lookup n = some b → s.Owns n (inode b)) (hnew : s.Owns name (inode b)) :
    ∀ n b', (table.insert name b).lookup n = some b' → s.Owns n (inode b') := by
  intro n b' h
  rw [Table.lookup_insert_eq] at h
  split at h
  · rename_i hn
    cases h
    exact hn ▸ hnew
  · exact htable n b' h

theorem opens_placed (h : Opens x s t) (hs : Placed names s) : Placed names t := by
  have hsame : ∀ path dir, s.disk.lookup path = some dir →
      ∃ dir', s.disk.lookup path = some dir' ∧ dir'.inode = dir.inode :=
    fun path dir hdir => ⟨dir, hdir, rfl⟩
  have hne : ∀ {n name : String}, n ∉ names → name ∈ names → n ≠ name :=
    fun hn hname => (ne_of_mem_of_not_mem hname hn).symm
  cases h with
  | create habsent hregistered hbuild hdir =>
    exact hs.create _ (hs.registered (by rw [hregistered]; simp))
  | @existing name definition dir habsent hregistered hbuild hdir =>
    have hname : name ∈ names := hs.registered (by rw [hregistered]; simp)
    have hlive : s.live name dir.inode = some dir := live_eq_some.mpr ⟨hdir, rfl⟩
    refine hs.carry rfl rfl hsame (owns_insert hs.index (hs.live hlive)) hs.writer fun n hn => ?_
    exact { hs.blank n hn with
      indexes := by rw [AList.lookup_insert_ne (hne hn hname), (hs.blank n hn).indexes] }
  | @reader name index dir hindex hlive =>
    refine hs.carry rfl rfl hsame hs.index hs.writer fun n hn => ?_
    exact { hs.blank n hn with
      readers := by rw [AList.lookup_insert_ne (hne hn (hs.opened hindex)), (hs.blank n hn).readers] }
  | @writer name index dir habsent hindex hlive =>
    refine hs.carry rfl rfl hsame hs.index (owns_insert hs.writer (hs.live hlive)) fun n hn => ?_
    exact { hs.blank n hn with
      writers := by rw [AList.lookup_insert_ne (hne hn (hs.opened hindex)), (hs.blank n hn).writers] }

theorem Opened.placed (h : Opened x s t) (hs : Placed names s) : Placed names t :=
  h.keeps opens_placed hs

theorem stage_placed {name : String} {writer : OpenWriter} (edit : Edit StoredDoc)
    (hs : Placed names s) (hwriter : s.writers.lookup name = some writer) :
    Placed names (s.stage name writer edit) := by
  have hname := hs.written hwriter
  refine hs.carry rfl rfl (fun path dir hdir => ⟨dir, hdir, rfl⟩) hs.index
    (owns_insert hs.writer (hs.writer name writer hwriter)) fun n hn => ?_
  have hne := (ne_of_mem_of_not_mem hname hn).symm
  have hblank := hs.blank n hn
  refine ⟨hblank.registry, hblank.indexes, hblank.readers, ?_, ?_⟩
  · rw [stage, AList.lookup_insert_ne hne, hblank.writers]
  · rw [acceptedOf, stage, AList.lookup_insert_ne hne]
    exact hblank.accepted

theorem Stages.placed {name : String} {takes : Edit StoredDoc → Prop}
    {r : Except Failure (Edit StoredDoc)} (h : Stages x s name takes r t) (hs : Placed names s) :
    Placed names t := by
  cases h with
  | refused e hopened => exact hopened.placed hs
  | staged hopened hwriter htakes => exact stage_placed _ (hopened.placed hs) hwriter

/-- What is not open or on disk does not matter. -/
theorem Placed.records (hs : Placed names s) (receiver : List WaitingEvent) (acknowledged : Nat) :
    Placed names { s with receiver, acknowledged } :=
  hs.carry rfl rfl (fun _ dir hdir => ⟨dir, hdir, rfl⟩) hs.index hs.writer fun n hn =>
    have hblank := hs.blank n hn
    ⟨hblank.registry, hblank.indexes, hblank.readers, hblank.writers, hblank.accepted⟩

theorem put_placed {name : String} {payload : IndexDefinition} (hs : Placed names s)
    (hname : name ∈ names) (h : s.put name payload = some t) : Placed names t := by
  rcases put_cases h with ⟨-, rfl⟩ | ⟨-, rfl⟩
  · exact hs
  · refine hs.carry rfl rfl (fun _ dir hdir => ⟨dir, hdir, rfl⟩) hs.index hs.writer fun n hn => ?_
    have hblank := hs.blank n hn
    refine ⟨?_, hblank.indexes, hblank.readers, hblank.writers, hblank.accepted⟩
    have hne : n ≠ (payload.under name).name := (ne_of_mem_of_not_mem hname hn).symm
    rw [IndexRegistry.get_insert, if_neg hne, hblank.registry]

theorem delete_placed (name : String) (hs : Placed names s) : Placed names (s.delete name) := by
  rcases delete_cases s name with ⟨-, hsame⟩ | ⟨-, hdeleted⟩
  · rw [hsame]
    exact hs
  · rw [hdeleted]
    refine hs.carry rfl rfl (fun path dir hdir => ⟨dir, ?_, rfl⟩) hs.index hs.writer fun n hn => ?_
    · rw [Table.lookup_restrict] at hdir
      split at hdir
      · exact hdir
      · cases hdir
    · have hblank := hs.blank n hn
      refine ⟨?_, hblank.indexes, hblank.readers, hblank.writers, ?_⟩
      · rw [IndexRegistry.get_erase, hblank.registry, ite_self]
      · have haccepted := hblank.accepted
        rw [acceptedOf] at haccepted ⊢
        rw [Table.lookup_erase_eq]
        split
        · rfl
        · exact haccepted

theorem commit_placed (name : String) (hs : Placed names s) : Placed names (s.commit name) := by
  rcases commit_cases s name with hsame | ⟨writer, dir, hwriter, hlive, hcommitted⟩
  · rw [hsame]
    exact hs
  · have hname := hs.written hwriter
    rw [hcommitted]
    refine hs.carry rfl rfl (fun path dir' hdir' => ?_) hs.index
      (owns_insert hs.writer (hs.writer name writer hwriter)) fun n hn => ?_
    · rw [Table.lookup_insert_eq] at hdir'
      split at hdir'
      · rename_i hpath
        cases hdir'
        exact ⟨dir, hpath ▸ (live_eq_some.mp hlive).1, rfl⟩
      · exact ⟨dir', hdir', rfl⟩
    · have hblank := hs.blank n hn
      refine ⟨hblank.registry, hblank.indexes, hblank.readers, ?_, hblank.accepted⟩
      rw [AList.lookup_insert_ne (ne_of_mem_of_not_mem hname hn).symm, hblank.writers]

theorem Searched.placed {name : String} {r : Except Failure (Multiset StoredDoc)}
    (h : Searched x s name r t) (hs : Placed names s) : Placed names t := by
  cases h with
  | failed e hopened => exact hopened.placed hs
  | stale hopened => exact hopened.placed hs
  | reloaded hopened hreader =>
    have hu := hopened.placed hs
    refine hu.carry rfl rfl (fun _ dir hdir => ⟨dir, hdir, rfl⟩) hu.index hu.writer fun n hn => ?_
    have hblank := hu.blank n hn
    refine ⟨hblank.registry, hblank.indexes, ?_, hblank.writers, hblank.accepted⟩
    rw [AList.lookup_insert_ne, hblank.readers]
    rintro rfl
    cases hreader.symm.trans hblank.readers

theorem step_placed {l : LifecycleLabel} (hs : Placed names s) (hl : ∀ n ∈ l.puts, n ∈ names)
    (h : step x s l = some t) : Placed names t := by
  cases l with
  | put name payload => exact put_placed hs (hl name rfl) h
  | delete name =>
    cases h
    exact delete_placed name hs
  | ingest event =>
    cases h
    exact hs.records _ _
  | process =>
    obtain ⟨w, rest, r, -, hstages⟩ := process_cases h
    exact hstages.placed (hs.records rest s.acknowledged)
  | purge cmd =>
    obtain ⟨-, rfl⟩ := survive_eq_some.mp h
    exact (purgeOldDocs_cases x s cmd).placed hs
  | commit name =>
    cases h
    exact commit_placed name hs
  | search name =>
    obtain ⟨r, hsearched⟩ := search_survives h
    exact hsearched.placed hs

theorem run_placed {ls : List LifecycleLabel} (hs : Placed names s)
    (hls : ∀ l ∈ ls, ∀ n ∈ l.puts, n ∈ names) (hrun : Machine.run (step x) s ls = some t) :
    Placed names t :=
  Machine.run_guarded (G := fun _ l => ∀ n ∈ l.puts, n ∈ names) hs
    (fun _ _ _ hl hstep hu => step_placed hu hl hstep) (Machine.along_of_labels hls) hrun

/-- The names of a run are those that its labels put, and more. -/
theorem mem_names {ls : List LifecycleLabel} {l : LifecycleLabel} (hl : l ∈ ls) :
    ∀ n ∈ l.puts, n ∈ s.names ls := by
  intro n hn
  exact List.mem_append_right _ (List.mem_filterMap.mpr ⟨l, hl, hn⟩)

end IndexService
end Edgewit
