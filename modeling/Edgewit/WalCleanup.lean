import Edgewit.Retention

/-!
# The running total of a cleanup

`cleanup_wals` adds up the sizes of the WAL files in a `u64`, which wraps in a release build.
`cleanup_exact_iff`: the cleanup removes what it must, oldest first, exactly when the sizes fit.
-/

namespace Edgewit

section Passes

variable (canRemove : String → Bool)

/-- The files still there after some have been tried. -/
def present (files tried : List WalFile) : List WalFile :=
  files.filter fun f => !(f ∈ tried ∧ canRemove f.name)

/-- A file may be tried when it is committed, or when what is there exceeds the limit and
every older WAL file has been tried. -/
def Due (files : List WalFile) (committedOffset maxWalBytes : Nat) (before : List WalFile)
    (f : WalFile) : Prop :=
  f.start + f.size ≤ committedOffset ∨
    (maxWalBytes < totalSize (present canRemove files before) ∧
      ∀ g ∈ files, g.start < f.start → g ∈ before)

/-- The cleanup removes exactly what it must, oldest first, and knows what is left. -/
structure CleansUp (entries : List DirEntry) (committedOffset maxWalBytes : Nat) (s : CleanupRun) :
    Prop where
  committed : ∀ f ∈ walFiles entries, f.start + f.size ≤ committedOffset → f ∈ s.tried
  due : ∀ before f total after, s.attempts = before ++ (f, total) :: after →
    Due canRemove (walFiles entries) committedOffset maxWalBytes (before.map Prod.fst) f
  onlyWal : ∀ f ∈ s.tried, ∃ e ∈ entries, walFile? e = some f
  counted : ∀ before f total after, s.attempts = before ++ (f, total) :: after →
    total = totalSize (present canRemove (walFiles entries) (before.map Prod.fst))
  left : s.total = totalSize (present canRemove (walFiles entries) s.tried)
  enough : (∀ f ∈ s.tried, canRemove f.name = true) →
    totalSize (present canRemove (walFiles entries) s.tried) ≤ maxWalBytes ∨
      present canRemove (walFiles entries) s.tried = []

/-! ## Counting what is present -/

variable {canRemove}

@[simp] theorem present_nil (files : List WalFile) : present canRemove files [] = files := by
  simp [present]

variable (canRemove) in
/-- What is there before an attempt: what is there after it and, if it succeeds, the file. -/
theorem totalSize_present {files tried : List WalFile} {f : WalFile} (hnodup : files.Nodup)
    (hf : f ∈ files) (hnew : f ∉ tried) :
    totalSize (present canRemove files tried) =
      totalSize (present canRemove files (tried ++ [f])) +
        if canRemove f.name then f.size else 0 := by
  have hother : ∀ fs : List WalFile, f ∉ fs →
      present canRemove fs (tried ++ [f]) = present canRemove fs tried := by
    intro fs hfs
    apply List.filter_congr
    intro g hg
    have hne : g ≠ f := fun heq => hfs (heq ▸ hg)
    simp [hne]
  induction files with
  | nil => cases hf
  | cons g files ih =>
    rw [List.nodup_cons] at hnodup
    have hsplit : ∀ tried : List WalFile, present canRemove (g :: files) tried =
        (if g ∈ tried ∧ canRemove g.name = true then [] else [g]) ++
          present canRemove files tried := by
      intro tried
      by_cases hg : g ∈ tried ∧ canRemove g.name = true
      · simp [present, hg]
      · simp only [present, List.filter_cons, hg, if_false, decide_false, Bool.not_false, if_true]
        rfl
    rw [hsplit, hsplit, totalSize_append, totalSize_append]
    rcases List.mem_cons.mp hf with rfl | hrest
    · rw [hother files hnodup.1]
      by_cases hcan : canRemove f.name = true
      · simp [hcan, hnew]
        omega
      · simp [hcan]
    · have hne : g ≠ f := fun heq => hnodup.1 (heq ▸ hrest)
      rw [ih hnodup.2 hrest]
      simp only [List.mem_append, List.mem_singleton, hne, or_false]
      omega

/-- The attempts so far are due and the totals are what is there. -/
structure InOrder (canRemove : String → Bool) (files : List WalFile)
    (committedOffset maxWalBytes : Nat) (s : CleanupRun) : Prop where
  due : ∀ before f total after, s.attempts = before ++ (f, total) :: after →
    Due canRemove files committedOffset maxWalBytes (before.map Prod.fst) f
  counted : ∀ before f total after, s.attempts = before ++ (f, total) :: after →
    total = totalSize (present canRemove files (before.map Prod.fst))
  left : s.total = totalSize (present canRemove files s.tried)

/-- Of an attempt after the others, only it is new. -/
theorem append_singleton_split {α : Type} {as before after : List α} {a b : α}
    (h : as ++ [b] = before ++ a :: after) :
    (before = as ∧ a = b) ∨ ∃ after', as = before ++ a :: after' := by
  rcases List.eq_nil_or_concat after with rfl | ⟨after', c, rfl⟩
  · left
    have hparts := List.append_inj' h rfl
    exact ⟨hparts.1.symm, (List.cons.inj hparts.2).1.symm⟩
  · right
    rw [List.concat_eq_append, ← List.cons_append, ← List.append_assoc] at h
    exact ⟨after', (List.append_inj' h rfl).1⟩

theorem InOrder.tryRemove {files : List WalFile} {committedOffset maxWalBytes : Nat}
    {s : CleanupRun} (h : InOrder canRemove files committedOffset maxWalBytes s)
    (hnodup : files.Nodup) {f : WalFile} (hf : f ∈ files) (hnew : f ∉ s.tried)
    (hdue : Due canRemove files committedOffset maxWalBytes s.tried f) :
    InOrder canRemove files committedOffset maxWalBytes (s.tryRemove canRemove f) := by
  refine ⟨?_, ?_, ?_⟩
  · intro before g total after hsplit
    rcases append_singleton_split hsplit with ⟨rfl, heq⟩ | ⟨after', hold⟩
    · cases heq
      exact hdue
    · exact h.due before g total after' hold
  · intro before g total after hsplit
    rcases append_singleton_split hsplit with ⟨rfl, heq⟩ | ⟨after', hold⟩
    · cases heq
      exact h.left
    · exact h.counted before g total after' hold
  · have hcount := totalSize_present canRemove hnodup hf hnew
    have hleft := h.left
    rw [CleanupRun.tryRemove_tried, CleanupRun.tryRemove]
    by_cases hcan : canRemove f.name = true
    · simp only [hcan, if_true] at hcount ⊢
      omega
    · simp only [hcan, if_false, Bool.false_eq_true] at hcount ⊢
      omega

/-! ## The two passes -/

theorem mem_tryRemove_tried {s : CleanupRun} {f g : WalFile} :
    g ∈ (s.tryRemove canRemove f).tried ↔ g ∈ s.tried ∨ g = f := by
  rw [CleanupRun.tryRemove_tried, List.mem_append, List.mem_singleton]

/-- Trying a file leaves the other ones to be tried. -/
theorem fresh_tryRemove {s : CleanupRun} {f : WalFile} {fs : List WalFile} (hf : f ∉ fs)
    (hnew : ∀ g ∈ fs, g ∉ s.tried) : ∀ g ∈ fs, g ∉ (s.tryRemove canRemove f).tried := by
  intro g hg
  rw [mem_tryRemove_tried, not_or]
  exact ⟨hnew g hg, fun heq => hf (heq ▸ hg)⟩

/-- The first pass tries the committed files and leaves the others, in order. -/
theorem firstPassU64_inOrder {files : List WalFile} {committedOffset maxWalBytes : Nat}
    (hnodup : files.Nodup) (hfits : ∀ f ∈ files, f.start + f.size < 2 ^ 64) {fs : List WalFile}
    (hfs : fs.Nodup) (hsub : ∀ f ∈ fs, f ∈ files) {s : CleanupRun} (hnew : ∀ f ∈ fs, f ∉ s.tried)
    (h : InOrder canRemove files committedOffset maxWalBytes s) :
    InOrder canRemove files committedOffset maxWalBytes
      (firstPassU64 canRemove committedOffset s fs).1 ∧
    (firstPassU64 canRemove committedOffset s fs).1.tried =
      s.tried ++ fs.filter (fun f => f.start + f.size ≤ committedOffset) ∧
    (firstPassU64 canRemove committedOffset s fs).2 =
      fs.filter fun f => committedOffset < f.start + f.size := by
  induction fs generalizing s with
  | nil => simpa [firstPassU64] using h
  | cons f fs ih =>
    rw [List.nodup_cons] at hfs
    rw [List.forall_mem_cons] at hsub hnew
    rw [firstPassU64, stopU64_eq (hfits f hsub.1)]
    by_cases hdone : f.start + f.size ≤ committedOffset
    · have hnext := h.tryRemove hnodup hsub.1 hnew.1 (Or.inl hdone)
      obtain ⟨horder, htried, hleft⟩ := ih hfs.2 hsub.2 (fresh_tryRemove hfs.1 hnew.2) hnext
      rw [if_pos hdone]
      refine ⟨horder, ?_, ?_⟩
      · rw [htried, CleanupRun.tryRemove_tried, List.filter_cons_of_pos (by simpa using hdone),
          List.append_assoc, List.singleton_append]
      · rw [hleft, List.filter_cons_of_neg (by simpa using hdone)]
    · obtain ⟨horder, htried, hleft⟩ := ih hfs.2 hsub.2 hnew.2 h
      rw [if_neg hdone]
      refine ⟨horder, ?_, ?_⟩
      · rw [List.filter_cons_of_neg (by simpa using hdone)]
        exact htried
      · rw [List.filter_cons_of_pos (by simpa using hdone)]
        exact congrArg (f :: ·) hleft

/-- The second pass tries what is left from the oldest on, while the total is over the
limit. -/
theorem secondPassU64_inOrder {files : List WalFile} {committedOffset maxWalBytes : Nat}
    (hnodup : files.Nodup) {fs : List WalFile} (hsorted : fs.Pairwise fun f g => f.start < g.start)
    (hsub : ∀ f ∈ fs, f ∈ files) {s : CleanupRun} (hnew : ∀ f ∈ fs, f ∉ s.tried)
    (hall : ∀ g ∈ files, g ∈ s.tried ∨ g ∈ fs)
    (h : InOrder canRemove files committedOffset maxWalBytes s) :
    InOrder canRemove files committedOffset maxWalBytes (secondPassU64 canRemove maxWalBytes s fs) ∧
    ∃ more kept, (secondPassU64 canRemove maxWalBytes s fs).tried = s.tried ++ more ∧
      fs = more ++ kept ∧
      (kept ≠ [] → (secondPassU64 canRemove maxWalBytes s fs).total ≤ maxWalBytes) := by
  induction fs generalizing s with
  | nil => exact ⟨h, [], [], by simp [secondPassU64], rfl, by simp⟩
  | cons f fs ih =>
    rw [List.pairwise_cons] at hsorted
    rw [List.forall_mem_cons] at hsub hnew
    rw [secondPassU64]
    by_cases hover : s.total ≤ maxWalBytes
    · rw [if_pos hover]
      exact ⟨h, [], f :: fs, by simp, rfl, fun _ => hover⟩
    · rw [if_neg hover]
      have hdue : Due canRemove files committedOffset maxWalBytes s.tried f := by
        refine Or.inr ⟨?_, ?_⟩
        · rw [← h.left]
          omega
        · intro g hg holder
          rcases hall g hg with htried | hrest
          · exact htried
          · rcases List.mem_cons.mp hrest with rfl | hlater
            · omega
            · have hlt := hsorted.1 g hlater
              omega
      have hself : f ∉ fs := fun hmem => Nat.lt_irrefl _ (hsorted.1 f hmem)
      have hall' : ∀ g ∈ files, g ∈ (s.tryRemove canRemove f).tried ∨ g ∈ fs := by
        intro g hg
        rw [mem_tryRemove_tried]
        rcases hall g hg with htried | hrest
        · exact Or.inl (Or.inl htried)
        · rcases List.mem_cons.mp hrest with rfl | hlater
          · exact Or.inl (Or.inr rfl)
          · exact Or.inr hlater
      obtain ⟨horder, more, kept, htried, hsplit, hlimit⟩ :=
        ih hsorted.2 hsub.2 (fresh_tryRemove hself hnew.2) hall' (h.tryRemove hnodup hsub.1 hnew.1 hdue)
      refine ⟨horder, f :: more, kept, ?_, by rw [hsplit, List.cons_append], hlimit⟩
      rw [htried, CleanupRun.tryRemove_tried, List.append_assoc, List.singleton_append]

/-! ## The cleanup -/

/-- WAL files with distinct starts, by increasing start. -/
theorem walFiles_increasing {entries : List DirEntry}
    (hstarts : ((walFiles entries).map WalFile.start).Nodup) :
    (walFiles entries).Pairwise fun f g => f.start < g.start := by
  have hsorted : (walFiles entries).Pairwise fun f g => f.start ≤ g.start :=
    List.pairwise_insertionSort (fun a b : WalFile => a.start ≤ b.start) _
  have hdistinct : (walFiles entries).Pairwise fun f g => f.start ≠ g.start :=
    List.pairwise_map.mp hstarts
  exact (hsorted.and hdistinct).imp fun h => Nat.lt_of_le_of_ne h.1 h.2

theorem mem_walFiles {entries : List DirEntry} {f : WalFile} :
    f ∈ walFiles entries ↔ ∃ e ∈ entries, walFile? e = some f := by
  rw [walFiles, List.mem_insertionSort, List.mem_filterMap]

variable (canRemove) in
/-- The two passes: the committed files, then more from the oldest on, until what is there
is within the limit or nothing is kept. -/
theorem cleanupWalsU64_inOrder {entries : List DirEntry} {committedOffset maxWalBytes : Nat}
    (hstarts : ((walFiles entries).map WalFile.start).Nodup)
    (hfits : ∀ f ∈ walFiles entries, f.start + f.size < 2 ^ 64)
    (htotal : totalSize (walFiles entries) < 2 ^ 64) :
    InOrder canRemove (walFiles entries) committedOffset maxWalBytes
      (cleanupWalsU64 canRemove entries committedOffset maxWalBytes) ∧
    ∃ more kept, (cleanupWalsU64 canRemove entries committedOffset maxWalBytes).tried =
        (walFiles entries).filter (fun f => f.start + f.size ≤ committedOffset) ++ more ∧
      (walFiles entries).filter (fun f => committedOffset < f.start + f.size) = more ++ kept ∧
      (kept ≠ [] → (cleanupWalsU64 canRemove entries committedOffset maxWalBytes).total ≤
        maxWalBytes) := by
  have hincreasing := walFiles_increasing hstarts
  have hnodup : (walFiles entries).Nodup := hstarts.of_map
  have hstart : InOrder canRemove (walFiles entries) committedOffset maxWalBytes
      ⟨totalSize (walFiles entries) % 2 ^ 64, []⟩ := by
    refine ⟨by simp, by simp, ?_⟩
    rw [CleanupRun.tried, List.map_nil, present_nil]
    exact Nat.mod_eq_of_lt htotal
  obtain ⟨hfirst, htried, hleft⟩ := firstPassU64_inOrder hnodup hfits hnodup (fun _ h => h)
    (by simp [CleanupRun.tried]) hstart
  unfold cleanupWalsU64
  dsimp only
  generalize firstPassU64 canRemove committedOffset ⟨totalSize (walFiles entries) % 2 ^ 64, []⟩
    (walFiles entries) = pass at hfirst htried hleft ⊢
  obtain ⟨s, remaining⟩ := pass
  obtain rfl : remaining = (walFiles entries).filter (fun f => committedOffset < f.start + f.size) :=
    hleft
  have htried' : s.tried =
      (walFiles entries).filter (fun f => f.start + f.size ≤ committedOffset) := by
    simpa [CleanupRun.tried] using htried
  rw [← htried']
  apply secondPassU64_inOrder hnodup (hincreasing.sublist List.filter_sublist)
    (fun f hf => (List.mem_filter.mp hf).1) _ _ hfirst
  · intro f hf hmem
    rw [htried', List.mem_filter, decide_eq_true_eq] at hmem
    rw [List.mem_filter, decide_eq_true_eq] at hf
    omega
  · intro f hf
    rw [htried', List.mem_filter, List.mem_filter, decide_eq_true_eq, decide_eq_true_eq]
    by_cases hdone : f.start + f.size ≤ committedOffset
    · exact Or.inl ⟨hf, hdone⟩
    · exact Or.inr ⟨hf, Nat.lt_of_not_le hdone⟩

/-- With sizes that fit the total, a cleanup does what it must. -/
theorem cleansUp_of_fits {entries : List DirEntry} {committedOffset maxWalBytes : Nat}
    (hstarts : ((walFiles entries).map WalFile.start).Nodup)
    (hfits : ∀ f ∈ walFiles entries, f.start + f.size < 2 ^ 64)
    (htotal : totalSize (walFiles entries) < 2 ^ 64) :
    CleansUp canRemove entries committedOffset maxWalBytes
      (cleanupWalsU64 canRemove entries committedOffset maxWalBytes) := by
  obtain ⟨horder, more, kept, htried, hsplit, hlimit⟩ :=
    cleanupWalsU64_inOrder canRemove hstarts hfits htotal
  have hcommitted : ∀ f ∈ walFiles entries, f.start + f.size ≤ committedOffset →
      f ∈ (cleanupWalsU64 canRemove entries committedOffset maxWalBytes).tried := by
    intro f hf hdone
    rw [htried]
    exact List.mem_append_left _ (List.mem_filter.mpr ⟨hf, by simpa using hdone⟩)
  refine ⟨hcommitted, horder.due, ?_, horder.counted, horder.left, ?_⟩
  · intro f hf
    rw [htried, List.mem_append] at hf
    rw [← mem_walFiles]
    rcases hf with hf | hf
    · exact (List.mem_filter.mp hf).1
    · have hin := List.mem_append_left kept hf
      rw [← hsplit] at hin
      exact (List.mem_filter.mp hin).1
  · intro hok
    by_cases hkept : kept = []
    · right
      apply List.filter_eq_nil_iff.mpr
      intro f hf
      have hdone : f ∈ (cleanupWalsU64 canRemove entries committedOffset maxWalBytes).tried := by
        by_cases hcommit : f.start + f.size ≤ committedOffset
        · exact hcommitted f hf hcommit
        · rw [htried]
          rw [hkept, List.append_nil] at hsplit
          rw [← hsplit]
          exact List.mem_append_right _ (List.mem_filter.mpr ⟨hf, by simpa using hcommit⟩)
      simp [hdone, hok f hdone]
    · left
      rw [← horder.left]
      exact hlimit hkept

/-- The first attempt, if there has been one, was made at this total. -/
def Begins (total : Nat) (s : CleanupRun) : Prop :=
  (s.attempts = [] ∧ s.total = total) ∨ ∃ f after, s.attempts = (f, total) :: after

theorem Begins.tryRemove {total : Nat} {s : CleanupRun} (h : Begins total s) (f : WalFile) :
    Begins total (s.tryRemove canRemove f) := by
  right
  rcases h with ⟨hnone, htotal⟩ | ⟨g, after, hsome⟩
  · exact ⟨f, [], by rw [CleanupRun.tryRemove, hnone, htotal, List.nil_append]⟩
  · exact ⟨g, after ++ [(f, s.total)], by rw [CleanupRun.tryRemove, hsome, List.cons_append]⟩

variable (canRemove) in
theorem Begins.firstPass {total : Nat} {s : CleanupRun} (h : Begins total s)
    (committedOffset : Nat) (fs : List WalFile) :
    Begins total (firstPassU64 canRemove committedOffset s fs).1 := by
  induction fs generalizing s with
  | nil => exact h
  | cons f fs ih =>
    rw [firstPassU64]
    split
    · exact ih (h.tryRemove f)
    · exact ih h

variable (canRemove) in
theorem Begins.secondPass {total : Nat} {s : CleanupRun} (h : Begins total s) (maxWalBytes : Nat)
    (fs : List WalFile) : Begins total (secondPassU64 canRemove maxWalBytes s fs) := by
  induction fs generalizing s with
  | nil => exact h
  | cons f fs ih =>
    rw [secondPassU64]
    split
    · exact h
    · exact ih (h.tryRemove f)

/-- A cleanup that knows what is there has lost nothing of the total. -/
theorem CleansUp.fits {entries : List DirEntry} {committedOffset maxWalBytes : Nat}
    (h : CleansUp canRemove entries committedOffset maxWalBytes
      (cleanupWalsU64 canRemove entries committedOffset maxWalBytes)) :
    totalSize (walFiles entries) < 2 ^ 64 := by
  have hstart : Begins (totalSize (walFiles entries) % 2 ^ 64)
      ⟨totalSize (walFiles entries) % 2 ^ 64, []⟩ := Or.inl ⟨rfl, rfl⟩
  have hend := (hstart.firstPass canRemove committedOffset
    (walFiles entries)).secondPass canRemove maxWalBytes
      (firstPassU64 canRemove committedOffset ⟨totalSize (walFiles entries) % 2 ^ 64, []⟩
        (walFiles entries)).2
  have hsame : totalSize (walFiles entries) % 2 ^ 64 = totalSize (walFiles entries) := by
    rcases hend with ⟨hnone, htotal⟩ | ⟨f, after, hsome⟩
    · have hleft := h.left
      have htried : (cleanupWalsU64 canRemove entries committedOffset maxWalBytes).tried = [] := by
        rw [CleanupRun.tried]
        exact List.map_eq_nil_iff.mpr hnone
      rw [htried, present_nil] at hleft
      exact htotal.symm.trans hleft
    · have hcounted := h.counted [] f _ after hsome
      rwa [List.map_nil, present_nil] at hcounted
  rw [← hsame]
  exact Nat.mod_lt _ (by decide)

/-- **A cleanup removes exactly what it must, oldest first, when the sizes of the WAL files
add up to less than 2^64, and only then.** -/
theorem cleanup_exact_iff {entries : List DirEntry} {committedOffset maxWalBytes : Nat}
    (hstarts : ((walFiles entries).map WalFile.start).Nodup)
    (hfits : ∀ f ∈ walFiles entries, f.start + f.size < 2 ^ 64) :
    CleansUp canRemove entries committedOffset maxWalBytes
        (cleanupWalsU64 canRemove entries committedOffset maxWalBytes) ↔
      totalSize (walFiles entries) < 2 ^ 64 :=
  ⟨CleansUp.fits, cleansUp_of_fits hstarts hfits⟩

/-- One committed file, one that is not, and one that is not a WAL file. -/
theorem cleanup_exact_example :
    let entries : List DirEntry := [⟨"64.wal", true, 50⟩, ⟨"0.wal", true, 100⟩, ⟨"other.txt", true, 100⟩]
    CleansUp (fun _ => true) entries 100 1000 (cleanupWalsU64 (fun _ => true) entries 100 1000) := by
  intro entries
  have hfiles : walFiles entries = [⟨0, "0.wal", 100⟩, ⟨100, "64.wal", 50⟩] := by decide +kernel
  refine (cleanup_exact_iff ?_ ?_).mpr ?_ <;> rw [hfiles] <;> decide

/-- Three sparse files: the total wraps below the limit after the first removal. -/
theorem cleanup_total_wraps :
    ¬ ∀ (canRemove : String → Bool) (entries : List DirEntry) (committedOffset maxWalBytes : Nat),
      ((walFiles entries).map WalFile.start).Nodup →
      (∀ f ∈ walFiles entries, f.start + f.size < 2 ^ 64) →
      CleansUp canRemove entries committedOffset maxWalBytes
        (cleanupWalsU64 canRemove entries committedOffset maxWalBytes) := by
  intro halways
  let entries : List DirEntry :=
    [⟨"0.wal", true, 2 ^ 63 - 1⟩, ⟨"1.wal", true, 2 ^ 63 - 1⟩, ⟨"2.wal", true, 2 ^ 63 - 1⟩]
  have hfiles : walFiles entries =
      [⟨0, "0.wal", 2 ^ 63 - 1⟩, ⟨1, "1.wal", 2 ^ 63 - 1⟩, ⟨2, "2.wal", 2 ^ 63 - 1⟩] := by
    decide +kernel
  have hfits := (halways (fun _ => true) entries 0 defaultMaxWalBytes
    (by rw [hfiles]; decide) (by rw [hfiles]; decide)).fits
  rw [hfiles] at hfits
  revert hfits
  decide

end Passes
end Edgewit
