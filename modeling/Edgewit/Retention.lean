import Edgewit.Disk
import Mathlib.Data.List.Sort

/-!
# Removing old WAL files

`cleanup_wals` over one listing of the data directory, in any order, as a release build computes
it: the sums are in a `u64` and wrap, the differences saturate. Which removals succeed is a
parameter.

* `firstPassU64_spec`: the first pass tries the files that end at or below the committed offset;
* `secondPassU64_spec`: the second pass tries a prefix of what is left, oldest first;
* `removed_iff_not_spared`: what keeps a file from being removed.
-/

namespace Edgewit

/-- The limit when `EDGEWIT_MAX_WAL_BYTES` is not set. -/
def defaultMaxWalBytes : Nat := 512 * 1024 * 1024

/-- What the worker sees of a directory entry. -/
structure DirEntry where
  name : String
  isFile : Bool
  len : Nat
  deriving DecidableEq, Repr

/-- The entries of a directory, each name once. -/
def Disk.entries (d : Disk) : List DirEntry :=
  d.nodes.filterMap fun n => if n.linked then some ⟨n.name, n.isFile, n.content.length⟩ else none

/-- A WAL file with the offset in its name. -/
structure WalFile where
  start : Nat
  name : String
  size : Nat
  deriving DecidableEq, Repr

def walFile? (e : DirEntry) : Option WalFile :=
  if e.isFile && extension e.name.toList = some ['w', 'a', 'l'] then
    ((fileStem e.name.toList).bind fromStrRadix16).map (⟨·, e.name, e.len⟩)
  else none

/-- The WAL files of a listing, by increasing start; equal starts stay in the
order of the listing. -/
def walFiles (entries : List DirEntry) : List WalFile :=
  (entries.filterMap walFile?).insertionSort fun a b => a.start ≤ b.start

def totalSize (files : List WalFile) : Nat := (files.map WalFile.size).sum

/-! ## The passes -/

/-- The running total, and the files tried so far, each with the total before. -/
structure CleanupRun where
  total : Nat
  attempts : List (WalFile × Nat)

namespace CleanupRun

def tried (s : CleanupRun) : List WalFile := s.attempts.map Prod.fst

variable (canRemove : String → Bool)

def removed (s : CleanupRun) : List WalFile := s.tried.filter fun f => canRemove f.name

/-- `remove_file`, and `saturating_sub` when it succeeds. -/
def tryRemove (s : CleanupRun) (f : WalFile) : CleanupRun :=
  ⟨if canRemove f.name then s.total - f.size else s.total, s.attempts ++ [(f, s.total)]⟩

@[simp] theorem tryRemove_tried (s : CleanupRun) (f : WalFile) :
    (s.tryRemove canRemove f).tried = s.tried ++ [f] := by
  simp [tryRemove, tried]

end CleanupRun

/-- `start + size` in a `u64`. -/
def WalFile.stopU64 (f : WalFile) : Nat := (f.start + f.size) % 2 ^ 64

section Passes

variable (canRemove : String → Bool)

/-- Tries the files whose data is fully committed, and returns the others. -/
def firstPassU64 (committedOffset : Nat) : CleanupRun → List WalFile → CleanupRun × List WalFile
  | s, [] => (s, [])
  | s, f :: fs =>
    if f.stopU64 ≤ committedOffset then firstPassU64 committedOffset (s.tryRemove canRemove f) fs
    else
      let (s, remaining) := firstPassU64 committedOffset s fs
      (s, f :: remaining)

/-- Emergency pruning while the total is over the limit. -/
def secondPassU64 (maxWalBytes : Nat) : CleanupRun → List WalFile → CleanupRun
  | s, [] => s
  | s, f :: fs =>
    if s.total ≤ maxWalBytes then s else secondPassU64 maxWalBytes (s.tryRemove canRemove f) fs

/-- `cleanup_wals`. -/
def cleanupWalsU64 (entries : List DirEntry) (committedOffset maxWalBytes : Nat) : CleanupRun :=
  let files := walFiles entries
  let (s, remaining) := firstPassU64 canRemove committedOffset ⟨totalSize files % 2 ^ 64, []⟩ files
  secondPassU64 canRemove maxWalBytes s remaining

/-! ## Sums of sizes -/

@[simp] theorem totalSize_nil : totalSize [] = 0 := rfl

@[simp] theorem totalSize_cons (f : WalFile) (fs : List WalFile) :
    totalSize (f :: fs) = f.size + totalSize fs := by
  simp [totalSize]

@[simp] theorem totalSize_append (as bs : List WalFile) :
    totalSize (as ++ bs) = totalSize as + totalSize bs := by
  simp [totalSize]

/-- Bytes of the files that are still there after all were tried. -/
def stuckSize (files : List WalFile) : Nat := totalSize (files.filter fun f => !canRemove f.name)

/-- Bytes of the files that are gone after all were tried. -/
def goneSize (files : List WalFile) : Nat := totalSize (files.filter fun f => canRemove f.name)

@[simp] theorem stuckSize_cons (f : WalFile) (fs : List WalFile) :
    stuckSize canRemove (f :: fs) =
      (if canRemove f.name then 0 else f.size) + stuckSize canRemove fs := by
  cases h : canRemove f.name <;> simp [stuckSize, h]

@[simp] theorem goneSize_nil : goneSize canRemove [] = 0 := rfl

@[simp] theorem goneSize_cons (f : WalFile) (fs : List WalFile) :
    goneSize canRemove (f :: fs) =
      (if canRemove f.name then f.size else 0) + goneSize canRemove fs := by
  cases h : canRemove f.name <;> simp [goneSize, h]

theorem goneSize_append (as bs : List WalFile) :
    goneSize canRemove (as ++ bs) = goneSize canRemove as + goneSize canRemove bs := by
  simp [goneSize]

theorem gone_add_stuck (files : List WalFile) :
    goneSize canRemove files + stuckSize canRemove files = totalSize files := by
  induction files with
  | nil => rfl
  | cons f files ih =>
    rw [goneSize_cons, stuckSize_cons, totalSize_cons]
    split <;> omega

/-! ## The two passes -/

/-- An attempt takes off the total what it removes. -/
theorem tryRemove_total (s : CleanupRun) (f : WalFile) :
    (s.tryRemove canRemove f).total = s.total - if canRemove f.name then f.size else 0 := by
  unfold CleanupRun.tryRemove
  split <;> rfl

/-- The first pass tries the committed files and keeps the others, in order. -/
theorem firstPassU64_spec (committedOffset : Nat) (s : CleanupRun) (files : List WalFile) :
    (firstPassU64 canRemove committedOffset s files).1.tried =
      s.tried ++ files.filter (fun f => f.stopU64 ≤ committedOffset) ∧
    (firstPassU64 canRemove committedOffset s files).2 =
      files.filter (fun f => committedOffset < f.stopU64) ∧
    (firstPassU64 canRemove committedOffset s files).1.total =
      s.total - goneSize canRemove (files.filter fun f => f.stopU64 ≤ committedOffset) := by
  induction files generalizing s with
  | nil => exact ⟨(List.append_nil _).symm, rfl, rfl⟩
  | cons f fs ih =>
    rw [firstPassU64]
    by_cases hf : f.stopU64 ≤ committedOffset
    · obtain ⟨htried, hleft, hsum⟩ := ih (s.tryRemove canRemove f)
      rw [if_pos hf, List.filter_cons_of_pos (by simpa using hf),
        List.filter_cons_of_neg (by simpa using hf)]
      refine ⟨?_, hleft, ?_⟩
      · rw [htried, CleanupRun.tryRemove_tried, List.append_assoc, List.singleton_append]
      · rw [hsum, tryRemove_total, goneSize_cons]
        omega
    · obtain ⟨htried, hleft, hsum⟩ := ih s
      rw [if_neg hf, List.filter_cons_of_neg (by simpa using hf),
        List.filter_cons_of_pos (by simpa using hf)]
      exact ⟨htried, congrArg (f :: ·) hleft, hsum⟩

/-- The second pass tries the oldest files, while the total is over the limit. -/
theorem secondPassU64_spec (maxWalBytes : Nat) (s : CleanupRun) (files : List WalFile) :
    ∃ tried kept, files = tried ++ kept ∧
      (secondPassU64 canRemove maxWalBytes s files).tried = s.tried ++ tried ∧
      (kept ≠ [] → s.total - goneSize canRemove tried ≤ maxWalBytes) ∧
      ∀ before f after, tried = before ++ f :: after →
        maxWalBytes < s.total - goneSize canRemove before := by
  induction files generalizing s with
  | nil => exact ⟨[], [], rfl, (List.append_nil _).symm, by simp, by simp⟩
  | cons f fs ih =>
    rw [secondPassU64]
    by_cases hover : s.total ≤ maxWalBytes
    · rw [if_pos hover]
      exact ⟨[], f :: fs, rfl, (List.append_nil _).symm, fun _ => hover, by simp⟩
    · obtain ⟨tried, kept, rfl, htried, hkept, hlimit⟩ := ih (s.tryRemove canRemove f)
      rw [tryRemove_total] at hkept hlimit
      rw [if_neg hover]
      refine ⟨f :: tried, kept, rfl, ?_, ?_, ?_⟩
      · rw [htried, CleanupRun.tryRemove_tried, List.append_assoc, List.singleton_append]
      · intro hne
        have hle := hkept hne
        rw [goneSize_cons]
        omega
      · intro before g after hsplit
        rcases List.cons_eq_append_iff.mp hsplit with ⟨rfl, -⟩ | ⟨before', rfl, hrest⟩
        · rw [goneSize_nil]
          omega
        · have hlt := hlimit before' g after hrest
          rw [goneSize_cons]
          omega

/-- What a cleanup tries: the committed files, then some first ones of the others, each while the
total is over the limit. -/
theorem cleanupWalsU64_tried (entries : List DirEntry) (committedOffset maxWalBytes : Nat) :
    ∃ tried kept,
      (walFiles entries).filter (fun f => committedOffset < f.stopU64) = tried ++ kept ∧
      (cleanupWalsU64 canRemove entries committedOffset maxWalBytes).tried =
        (walFiles entries).filter (fun f => f.stopU64 ≤ committedOffset) ++ tried ∧
      (kept ≠ [] → totalSize (walFiles entries) % 2 ^ 64 - (goneSize canRemove
          ((walFiles entries).filter fun f => f.stopU64 ≤ committedOffset) +
          goneSize canRemove tried) ≤ maxWalBytes) ∧
      ∀ before f after, tried = before ++ f :: after →
        maxWalBytes < totalSize (walFiles entries) % 2 ^ 64 - (goneSize canRemove
          ((walFiles entries).filter fun f => f.stopU64 ≤ committedOffset) +
          goneSize canRemove before) := by
  obtain ⟨htried, hleft, hsum⟩ := firstPassU64_spec canRemove committedOffset
    ⟨totalSize (walFiles entries) % 2 ^ 64, []⟩ (walFiles entries)
  unfold cleanupWalsU64
  dsimp only
  generalize firstPassU64 canRemove committedOffset ⟨totalSize (walFiles entries) % 2 ^ 64, []⟩
    (walFiles entries) = pass at htried hleft hsum ⊢
  obtain ⟨s, remaining⟩ := pass
  obtain rfl : remaining = (walFiles entries).filter (fun f => committedOffset < f.stopU64) := hleft
  obtain ⟨tried, kept, hsplit, hsecond, hkept, hlimit⟩ :=
    secondPassU64_spec canRemove maxWalBytes s _
  have htotal : ∀ bytes, s.total - bytes = totalSize (walFiles entries) % 2 ^ 64 - (goneSize canRemove
      ((walFiles entries).filter fun f => f.stopU64 ≤ committedOffset) + bytes) := by
    intro bytes
    rw [hsum, Nat.sub_sub]
  simp only [htotal] at hkept hlimit
  exact ⟨tried, kept, hsplit, hsecond.trans (congrArg (· ++ tried) htried), hkept, hlimit⟩

/-! ## What is spared -/

/-- What is gone when the second pass comes to a file: the older ones that could be removed. -/
def goneBefore (name : String) : List WalFile → Nat
  | [] => 0
  | f :: fs =>
    if f.name = name then 0 else (if canRemove f.name then f.size else 0) + goneBefore name fs

/-- What keeps a file: its removal fails, or its data is not committed and the total is within the
limit when the second pass comes to it. -/
def Spared (entries : List DirEntry) (committedOffset maxWalBytes : Nat) (name : String) : Prop :=
  ∀ f ∈ walFiles entries, f.name = name → canRemove name = true →
    committedOffset < f.stopU64 ∧
    totalSize (walFiles entries) % 2 ^ 64 - (goneSize canRemove
        ((walFiles entries).filter fun f => f.stopU64 ≤ committedOffset) +
      goneBefore canRemove name
        ((walFiles entries).filter fun f => committedOffset < f.stopU64)) ≤ maxWalBytes

instance (entries : List DirEntry) (committedOffset maxWalBytes : Nat) (name : String) :
    Decidable (Spared canRemove entries committedOffset maxWalBytes name) :=
  inferInstanceAs (Decidable (∀ _ ∈ _, _ → _ → _ ∧ _ ≤ _))

theorem goneBefore_le (before after : List WalFile) (f : WalFile) :
    goneBefore canRemove f.name (before ++ f :: after) ≤ goneSize canRemove before := by
  induction before with
  | nil => simp [goneBefore]
  | cons g before ih =>
    rw [List.cons_append, goneBefore, goneSize_cons]
    split <;> omega

theorem goneSize_le {before : List WalFile} {f : WalFile} (h : ∀ g ∈ before, g.name ≠ f.name)
    (after : List WalFile) :
    goneSize canRemove before ≤ goneBefore canRemove f.name (before ++ f :: after) := by
  induction before with
  | nil => exact Nat.zero_le _
  | cons g before ih =>
    have hle := ih fun k hk => h k (List.mem_cons_of_mem g hk)
    rw [List.cons_append, goneBefore, if_neg (h g List.mem_cons_self), goneSize_cons]
    omega

variable {canRemove}

theorem spared_not_removed {entries : List DirEntry} {committedOffset maxWalBytes : Nat}
    {name : String} (h : Spared canRemove entries committedOffset maxWalBytes name) {f : WalFile}
    (hf : f ∈ (cleanupWalsU64 canRemove entries committedOffset maxWalBytes).removed canRemove) :
    f.name ≠ name := by
  rintro rfl
  obtain ⟨tried, kept, hsplit, htried, -, hlimit⟩ :=
    cleanupWalsU64_tried canRemove entries committedOffset maxWalBytes
  obtain ⟨hmem, hcan⟩ := List.mem_filter.mp hf
  rw [htried, List.mem_append] at hmem
  rcases hmem with hfirst | hsecond
  · obtain ⟨hfile, hdone⟩ := List.mem_filter.mp hfirst
    have hlt := (h f hfile rfl hcan).1
    simp only [decide_eq_true_eq] at hdone
    omega
  · obtain ⟨before, after, rfl⟩ := List.append_of_mem hsecond
    have hlt := hlimit before f after rfl
    have hfile : f ∈ walFiles entries := by
      have hin : f ∈ before ++ f :: after ++ kept := by simp
      rw [← hsplit] at hin
      exact (List.mem_filter.mp hin).1
    have hle := (h f hfile rfl hcan).2
    have hgone := goneBefore_le canRemove before (after ++ kept) f
    rw [hsplit, List.append_assoc, List.cons_append] at hle
    omega

theorem walFile?_name {e : DirEntry} {f : WalFile} (h : walFile? e = some f) : f.name = e.name := by
  unfold walFile? at h
  split at h
  · obtain ⟨start, -, rfl⟩ := Option.map_eq_some_iff.mp h
    rfl
  · cases h

/-- Files of a listing without repetition have different names. -/
theorem walFiles_nodup {entries : List DirEntry} (h : (entries.map DirEntry.name).Nodup) :
    ((walFiles entries).map WalFile.name).Nodup := by
  have hperm := (List.perm_insertionSort (fun a b : WalFile => a.start ≤ b.start)
    (entries.filterMap walFile?)).map WalFile.name
  rw [walFiles, hperm.nodup_iff]
  refine h.sublist ?_
  induction entries with
  | nil => exact List.Sublist.refl _
  | cons e entries ih =>
    have hrest := ih (List.nodup_cons.mp h).2
      ((List.perm_insertionSort _ _).map WalFile.name)
    cases hfile : walFile? e with
    | none =>
      rw [List.filterMap_cons_none hfile]
      exact hrest.trans (List.sublist_cons_self _ _)
    | some f =>
      rw [List.filterMap_cons_some hfile, List.map_cons, List.map_cons, walFile?_name hfile]
      exact hrest.cons_cons _

/-- The condition is exact: a WAL file that is not spared is removed. -/
theorem removed_iff_not_spared {entries : List DirEntry} {committedOffset maxWalBytes : Nat}
    (hdistinct : (entries.map DirEntry.name).Nodup) {name : String} :
    (∃ f ∈ (cleanupWalsU64 canRemove entries committedOffset maxWalBytes).removed canRemove,
      f.name = name) ↔ ¬ Spared canRemove entries committedOffset maxWalBytes name := by
  constructor
  · rintro ⟨f, hf, hname⟩ hspared
    exact spared_not_removed hspared hf hname
  · intro hnot
    obtain ⟨tried, kept, hsplit, htried, hkept, -⟩ :=
      cleanupWalsU64_tried canRemove entries committedOffset maxWalBytes
    simp only [Spared, not_forall] at hnot
    obtain ⟨f, hf, rfl, hcan, hnot⟩ := hnot
    refine ⟨f, List.mem_filter.mpr ⟨?_, hcan⟩, rfl⟩
    rw [htried, List.mem_append]
    by_cases hdone : f.stopU64 ≤ committedOffset
    · exact Or.inl (List.mem_filter.mpr ⟨hf, by simpa using hdone⟩)
    · right
      have hover := hnot
      simp only [not_and, Nat.lt_of_not_le hdone, forall_true_left] at hover
      have hmem : f ∈ tried ++ kept := by
        rw [← hsplit]
        exact List.mem_filter.mpr ⟨hf, by simpa using hdone⟩
      rcases List.mem_append.mp hmem with hmem | hmem
      · exact hmem
      · exfalso
        have hle := hkept (List.ne_nil_of_mem hmem)
        obtain ⟨before, after, rfl⟩ := List.append_of_mem hmem
        have hnodup : ((tried ++ (before ++ f :: after)).map WalFile.name).Nodup := by
          rw [← hsplit]
          exact (walFiles_nodup hdistinct).sublist (List.filter_sublist.map _)
        have hother : ∀ g ∈ tried ++ before, g.name ≠ f.name := by
          rw [← List.append_assoc, List.map_append, List.nodup_append] at hnodup
          intro g hg
          exact hnodup.2.2 _ (List.mem_map_of_mem hg) _ (by simp)
        have hgone := goneSize_le canRemove hother after
        rw [hsplit, ← List.append_assoc] at hover
        rw [goneSize_append] at hgone
        omega

/-! ## The first pass in natural numbers -/

/-- The running total and the files tried, without wrapping. -/
structure Sweep where
  total : Nat
  tried : List WalFile
  deriving DecidableEq, Repr

variable (canRemove)

def Sweep.tryRemove (s : Sweep) (f : WalFile) : Sweep :=
  ⟨if canRemove f.name then s.total - f.size else s.total, s.tried ++ [f]⟩

/-- The first pass over files that end below 2^64. -/
def firstPass (committedOffset : Nat) : Sweep → List WalFile → Sweep × List WalFile
  | s, [] => (s, [])
  | s, f :: fs =>
    if f.start + f.size ≤ committedOffset then firstPass committedOffset (s.tryRemove canRemove f) fs
    else
      let (s, remaining) := firstPass committedOffset s fs
      (s, f :: remaining)

theorem firstPass_tried (committedOffset : Nat) (s : Sweep) (files : List WalFile) :
    (firstPass canRemove committedOffset s files).1.tried =
      s.tried ++ files.filter (fun f => f.start + f.size ≤ committedOffset) := by
  induction files generalizing s with
  | nil => exact (List.append_nil _).symm
  | cons f fs ih =>
    rw [firstPass]
    by_cases hf : f.start + f.size ≤ committedOffset
    · rw [if_pos hf, ih, List.filter_cons_of_pos (by simpa using hf), Sweep.tryRemove,
        List.append_assoc, List.singleton_append]
    · rw [if_neg hf, List.filter_cons_of_neg (by simpa using hf)]
      exact ih s

theorem stopU64_eq {f : WalFile} (hfits : f.start + f.size < 2 ^ 64) :
    f.stopU64 = f.start + f.size := Nat.mod_eq_of_lt hfits

/-- Where the files end below 2^64, the machine tries the files that this pass tries. -/
theorem firstPassU64_tried (committedOffset : Nat) {files : List WalFile}
    (hfits : ∀ f ∈ files, f.start + f.size < 2 ^ 64) (s : CleanupRun) (total : Nat) :
    (firstPassU64 canRemove committedOffset s files).1.tried =
      (firstPass canRemove committedOffset ⟨total, s.tried⟩ files).1.tried := by
  obtain ⟨htried, -, -⟩ := firstPassU64_spec canRemove committedOffset s files
  rw [htried, firstPass_tried]
  congr 1
  apply List.filter_congr
  intro f hf
  rw [stopU64_eq (hfits f hf)]

end Passes
end Edgewit
