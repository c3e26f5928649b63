import Edgewit.Deletion

/-!
# What a search sees

While an index is not deleted, what is on disk is what a prefix of the operations accepted under
its name leaves of the documents of the start, and the rest of them is with its writer. A search
shows what is on disk, in an order of its own: `search_grows` says that a later search shows what a
longer prefix leaves, and `search_after_commit` that after a commit it is all that was accepted
before. Meanwhile other indexes may be put, deleted, searched and committed, if their names are
kept apart.
-/

namespace Edgewit
open Edits IndexService

namespace IndexView

def onDisk (v : IndexView) : List StoredDoc := (v.dir.map IndexOnDisk.docs).getD []

def staged (v : IndexView) : List (Edit StoredDoc) := (v.writer.map OpenWriter.staged).getD []

/-- A step at one name that neither commits nor deletes. -/
inductive Quiet (x : Externals) (v : IndexView) : IndexView → Prop where
  | opens {v' : IndexView} (hopening : Opening x v v') : Quiet x v v'
  | put (definition : Option IndexDefinition) (definitions : List IndexDefinition) :
      Quiet x v { v with definition, definitions }
  | staged {writer : OpenWriter} (edit : Edit StoredDoc) (hwriter : v.writer = some writer) :
      Quiet x v
        { v with
          writer := some { writer with staged := writer.staged ++ [edit] }
          accepted := v.accepted ++ [edit] }
  | reloaded {reader : OpenReader} (docs : List StoredDoc) (hreader : v.reader = some reader) :
      Quiet x v { v with reader := some { reader with docs } }

/-- What is open under a name belongs to its directory. The operations of `done` have been applied
to the documents of `base`, the others that were accepted are with the writer. -/
structure Whole (base : List StoredDoc) (done : List (Edit StoredDoc)) (v : IndexView) : Prop where
  live : ∀ i, v.index = some i → ∃ dir, v.dir = some dir ∧ dir.inode = i.inode
  reader : ∀ r, v.reader = some r → ∃ i, v.index = some i ∧ i.inode = r.inode
  writer : ∀ w, v.writer = some w → ∃ i, v.index = some i ∧ i.inode = w.inode
  opened : v.accepted ≠ [] → v.index ≠ none
  accepted : v.accepted = done ++ v.staged
  applied : v.onDisk = done.foldl Edit.apply base

variable {x : Externals} {base : List StoredDoc} {done : List (Edit StoredDoc)} {v v' : IndexView}

theorem Whole.closed (hv : v.Whole base done) (habsent : v.index = none) :
    v.reader = none ∧ v.writer = none :=
  ⟨none_of_index hv.reader habsent, none_of_index hv.writer habsent⟩

theorem Opening.whole (h : Opening x v v') (hv : v.Whole base done) : v'.Whole base done := by
  have haccepted := hv.accepted
  have happlied := hv.applied
  cases h with
  | create inode habsent hregistered hbuild hdir =>
    obtain ⟨hreader, hwriter⟩ := hv.closed habsent
    refine ⟨fun i hi => ?_, by simp [hreader], by simp [hwriter], by simp, haccepted, ?_⟩
    · cases hi
      exact ⟨_, rfl, rfl⟩
    · simpa [onDisk, hdir] using happlied
  | existing habsent hregistered hbuild hdir =>
    obtain ⟨hreader, hwriter⟩ := hv.closed habsent
    refine ⟨fun i hi => ?_, by simp [hreader], by simp [hwriter], by simp, haccepted, happlied⟩
    cases hi
    exact ⟨_, hdir, rfl⟩
  | reader hindex hdir hinode =>
    refine ⟨hv.live, fun r hr => ?_, hv.writer, hv.opened, haccepted, happlied⟩
    cases hr
    exact ⟨_, hindex, hinode.symm⟩
  | writer habsent hindex hdir hinode =>
    refine ⟨hv.live, hv.reader, fun w hw => ?_, hv.opened, ?_, happlied⟩
    · cases hw
      exact ⟨_, hindex, hinode.symm⟩
    · simpa [staged, habsent] using haccepted

theorem Quiet.whole (h : Quiet x v v') (hv : v.Whole base done) : v'.Whole base done := by
  have haccepted := hv.accepted
  cases h with
  | opens hopening => exact hopening.whole hv
  | put definition definitions =>
    exact ⟨hv.live, hv.reader, hv.writer, hv.opened, haccepted, hv.applied⟩
  | staged edit hwriter =>
    obtain ⟨i, hindex, hinode⟩ := hv.writer _ hwriter
    refine ⟨hv.live, hv.reader, fun w hw => ?_, fun _ => by simp [hindex], ?_, hv.applied⟩
    · cases hw
      exact ⟨i, hindex, hinode⟩
    · simp only [IndexView.staged, hwriter, Option.map_some, Option.getD_some] at haccepted ⊢
      rw [haccepted, List.append_assoc]
  | reloaded docs hreader =>
    refine ⟨hv.live, fun r hr => ?_, hv.writer, hv.opened, haccepted, hv.applied⟩
    cases hr
    obtain ⟨i, hindex, hinode⟩ := hv.reader _ hreader
    exact ⟨i, hindex, hinode⟩

/-- Nothing on disk changes, and what is open stays open. -/
theorem Quiet.kept (h : Quiet x v v') :
    v'.onDisk = v.onDisk ∧ (v.index ≠ none → v'.index ≠ none) := by
  cases h with
  | opens hopening =>
    cases hopening with
    | create inode habsent hregistered hbuild hdir => exact ⟨by simp [onDisk, hdir], by simp⟩
    | existing habsent hregistered hbuild hdir => exact ⟨rfl, by simp⟩
    | _ => exact ⟨rfl, id⟩
  | _ => exact ⟨rfl, id⟩

/-- What several steps make of a name. -/
theorem quiet_whole (h : Relation.ReflTransGen (Quiet x) v v') (hv : v.Whole base done) :
    v'.Whole base done ∧ v'.onDisk = v.onDisk ∧ (v.index ≠ none → v'.index ≠ none) := by
  induction h with
  | refl => exact ⟨hv, rfl, id⟩
  | tail _ hstep ih =>
    obtain ⟨hwhole, hdisk, hindex⟩ := ih
    obtain ⟨hdisk', hindex'⟩ := hstep.kept
    exact ⟨hstep.whole hwhole, hdisk'.trans hdisk, fun h => hindex' (hindex h)⟩

/-- A commit applies what the writer has. -/
theorem Whole.committed {writer : OpenWriter} {dir : IndexOnDisk} (hv : v.Whole base done)
    (hwriter : v.writer = some writer) (hdir : v.dir = some dir) :
    Whole base v.accepted
      { v with
        writer := some { writer with staged := [] }
        dir := some { dir with docs := writer.staged.foldl Edit.apply dir.docs } } := by
  have haccepted := hv.accepted
  have happlied := hv.applied
  refine ⟨fun i hi => ?_, hv.reader, fun w hw => ?_, hv.opened, ?_, ?_⟩
  · obtain ⟨dir', hdir', hinode⟩ := hv.live i hi
    cases hdir.symm.trans hdir'
    exact ⟨_, rfl, hinode⟩
  · cases hw
    obtain ⟨i, hindex, hinode⟩ := hv.writer _ hwriter
    exact ⟨i, hindex, hinode⟩
  · simp [staged]
  · simp only [onDisk, staged, hwriter, hdir, Option.map_some, Option.getD_some] at haccepted happlied ⊢
    rw [haccepted, List.foldl_append, happlied]

end IndexView

namespace IndexService
open IndexView

variable {x : Externals} {names : List String}

theorem Opened.quiet {s t : IndexService} (h : Opened x s t) (hs : Placed names s) {n : String}
    (hmem : n ∈ names) : Relation.ReflTransGen (Quiet x) (s.view n) (t.view n) := by
  induction h with
  | refl => exact .refl
  | tail hbefore hopens ih =>
    rcases opens_view hopens (Opened.placed hbefore hs) hmem with hsame | hopening
    · rw [hsame]
      exact ih
    · exact ih.tail (.opens hopening)

theorem Stages.quiet {s t : IndexService} {name : String} {takes : Edit StoredDoc → Prop}
    {r : Except Failure (Edit StoredDoc)} (h : Stages x s name takes r t) (hs : Placed names s)
    {n : String} (hmem : n ∈ names) : Relation.ReflTransGen (Quiet x) (s.view n) (t.view n) := by
  cases h with
  | refused e hopened => exact hopened.quiet hs hmem
  | @staged u writer edit hopened hwriter htakes =>
    refine Relation.ReflTransGen.trans (hopened.quiet hs hmem) ?_
    by_cases hn : n = name
    · subst hn
      rw [stage_view]
      exact .single (.staged edit hwriter)
    · rw [stage_view_ne writer edit hn]

theorem put_quiet {s t : IndexService} {name : String} {payload : IndexDefinition}
    (h : s.put name payload = some t) (n : String) :
    Relation.ReflTransGen (Quiet x) (s.view n) (t.view n) := by
  rcases put_cases h with ⟨-, rfl⟩ | ⟨-, rfl⟩
  · exact .refl
  · exact .single (.put _ _)

theorem search_quiet {s t : IndexService} {name : String} {r : Except Failure (Multiset StoredDoc)}
    (h : Searched x s name r t) (hs : Placed names s) {n : String} (hmem : n ∈ names) :
    Relation.ReflTransGen (Quiet x) (s.view n) (t.view n) := by
  cases h with
  | failed e hopened => exact hopened.quiet hs hmem
  | stale hopened hreader => exact hopened.quiet hs hmem
  | @reloaded u reader dir hopened hreader hlive =>
    refine Relation.ReflTransGen.trans (hopened.quiet hs hmem) ?_
    by_cases hn : n = name
    · subst hn
      rw [reload_view]
      exact .single (.reloaded dir.docs hreader)
    · rw [reload_view_ne _ hn]

/-- Every step but a commit and a deletion of the name is quiet. -/
theorem step_quiet {s t : IndexService} {l : LifecycleLabel} {name : String}
    (h : step x s l = some t) (hs : Placed names s) (hname : name ∈ names)
    (hcommit : l ≠ .commit name) (hdelete : l ≠ .delete name) :
    Relation.ReflTransGen (Quiet x) (s.view name) (t.view name) := by
  cases l with
  | put n payload => exact put_quiet h name
  | delete n =>
    cases h
    rw [delete_view hs hname fun heq => hdelete (by rw [heq])]
  | ingest event =>
    cases h
    exact .refl
  | process =>
    obtain ⟨w, rest, r, -, hstages⟩ := process_cases h
    exact hstages.quiet (hs.records rest s.acknowledged) hname
  | purge cmd =>
    obtain ⟨-, rfl⟩ := survive_eq_some.mp h
    exact (purgeOldDocs_cases x s cmd).quiet hs hname
  | commit n =>
    cases h
    rw [commit_view_ne hs hname fun heq => hcommit (by rw [heq])]
  | search n =>
    obtain ⟨r, hsearched⟩ := search_survives h
    exact search_quiet hsearched hs hname

/-- A commit applies on disk what was accepted under the name. -/
theorem commit_whole {s : IndexService} {name : String} {base : List StoredDoc}
    {done : List (Edit StoredDoc)} (hs : (s.view name).Whole base done) :
    ((s.commit name).view name).Whole base (s.acceptedOf name) ∧
      ((s.commit name).view name).index = (s.view name).index := by
  cases hwriter : s.writers.lookup name with
  | none =>
    have hdone : done = s.acceptedOf name := by
      have haccepted := hs.accepted
      simp only [IndexView.staged, view, hwriter, Option.map_none, Option.getD_none,
        List.append_nil] at haccepted
      exact haccepted.symm
    have hsame : s.commit name = s := by simp only [commit, hwriter]
    rw [hsame]
    exact ⟨hdone ▸ hs, rfl⟩
  | some writer =>
    obtain ⟨i, hindex, hinode⟩ := hs.writer writer hwriter
    obtain ⟨dir, hdir, hsame⟩ := hs.live i hindex
    rw [commit_view hwriter (live_eq_some.mpr ⟨hdir, hsame.trans hinode⟩)]
    exact ⟨hs.committed hwriter hdir, rfl⟩

theorem search_open {s : IndexService} {name : String} {base : List StoredDoc}
    {done : List (Edit StoredDoc)} (hs : (s.view name).Whole base done)
    (hindex : (s.view name).index ≠ none) :
    ∃ t, s.search x name = (.ok (s.view name).onDisk, t) := by
  obtain ⟨i, hi⟩ := Option.ne_none_iff_exists'.mp hindex
  obtain ⟨dir, hdir, hinode⟩ := hs.live i hi
  have hdisk : (s.view name).onDisk = dir.docs := by
    rw [onDisk, hdir]
    rfl
  rw [hdisk]
  exact search_live hi (live_eq_some.mpr ⟨hdir, hinode⟩) (inode_of_index hs.reader hi)

/-- What a run without a deletion of the name does to it: `done'` is applied at its end, where
`done` was before. -/
structure Grows (names : List String) (name : String) (base : List StoredDoc)
    (done done' : List (Edit StoredDoc)) (s t : IndexService) : Prop where
  placed : Placed names t
  whole : (t.view name).Whole base done'
  longer : done <+: done'
  opened : (s.view name).index ≠ none → (t.view name).index ≠ none

/-- The label puts names of the run only, and does not delete the one. -/
def Keeps (names : List String) (name : String) (l : LifecycleLabel) : Prop :=
  (∀ n ∈ l.puts, n ∈ names) ∧ l ≠ .delete name

variable {s t : IndexService} {name : String} {base : List StoredDoc} {done : List (Edit StoredDoc)}

theorem step_grows {l : LifecycleLabel} (hs : Placed names s) (hname : name ∈ names)
    (hwhole : (s.view name).Whole base done) (hl : Keeps names name l) (hcommit : l ≠ .commit name)
    (h : step x s l = some t) : Grows names name base done done s t := by
  obtain ⟨ht, -, hopened⟩ := quiet_whole (step_quiet h hs hname hcommit hl.2) hwhole
  exact ⟨step_placed hs hl.1 h, ht, List.prefix_refl done, hopened⟩

theorem commit_grows (hs : Placed names s) (hwhole : (s.view name).Whole base done) :
    Grows names name base done (s.acceptedOf name) s (s.commit name) := by
  obtain ⟨ht, hindex⟩ := commit_whole hwhole
  refine ⟨commit_placed name hs, ht, ?_, fun h => by rwa [hindex]⟩
  rw [show s.acceptedOf name = done ++ _ from hwhole.accepted]
  exact List.prefix_append _ _

theorem Grows.trans {u : IndexService} {done₁ done₂ : List (Edit StoredDoc)}
    (h : Grows names name base done done₁ s t) (h' : Grows names name base done₁ done₂ t u) :
    Grows names name base done done₂ s u :=
  ⟨h'.placed, h'.whole, h.longer.trans h'.longer, fun hindex => h'.opened (h.opened hindex)⟩

theorem run_grows {ls : List LifecycleLabel} (hs : Placed names s) (hname : name ∈ names)
    (hwhole : (s.view name).Whole base done) (hls : ∀ l ∈ ls, Keeps names name l)
    (hrun : Machine.run (step x) s ls = some t) :
    ∃ done', Grows names name base done done' s t := by
  refine Machine.run_guarded (G := fun _ l => Keeps names name l)
    (I := fun t => ∃ done', Grows names name base done done' s t)
    ⟨done, hs, hwhole, List.prefix_refl done, id⟩ ?_ (Machine.along_of_labels hls) hrun
  rintro u l v hl hstep ⟨done', hu⟩
  by_cases hcommit : l = .commit name
  · subst hcommit
    cases hstep
    exact ⟨_, hu.trans (commit_grows hu.placed hu.whole)⟩
  · exact ⟨done', hu.trans (step_grows hu.placed hname hu.whole hl hcommit hstep)⟩

/-- Without a commit, nothing on disk changes. -/
theorem run_quiet {ls : List LifecycleLabel} (hs : Placed names s) (hname : name ∈ names)
    (hwhole : (s.view name).Whole base done)
    (hls : ∀ l ∈ ls, Keeps names name l ∧ l ≠ .commit name)
    (hrun : Machine.run (step x) s ls = some t) : Grows names name base done done s t := by
  refine Machine.run_guarded (G := fun _ l => Keeps names name l ∧ l ≠ .commit name)
    (I := fun t => Grows names name base done done s t)
    ⟨hs, hwhole, List.prefix_refl done, id⟩ ?_ (Machine.along_of_labels hls) hrun
  rintro u l v ⟨hl, hcommit⟩ hstep hu
  exact hu.trans (step_grows hu.placed hname hu.whole hl hcommit hstep)

theorem Started.whole (hs : Started s) (name : String) :
    (s.view name).Whole (s.view name).onDisk [] := by
  refine ⟨?_, ?_, ?_, ?_, ?_, rfl⟩ <;>
    simp [view, IndexView.staged, acceptedOf, hs.indexes, hs.readers, hs.writers, hs.accepted]

/-- A document with an old date is indexed and committed. -/
def written : List LifecycleLabel :=
  [.ingest ⟨"a", utf8 "\x7b\"b\":1\x7d"⟩, .process, .commit "a"]

/-- Another document is added, and the old one purged. -/
def renewed : List LifecycleLabel :=
  [.ingest ⟨"a", utf8 "\x7b\x7d"⟩, .process, .purge ⟨"a", 40⟩]

theorem keptApart_renewed (ls : List LifecycleLabel) (hls : ls.filterMap LifecycleLabel.puts = []) :
    (serving .dated).KeptApart ls := by
  have hnames : (serving .dated).names ls = ["a"] := by
    rw [names, hls]
    rfl
  apply keptApart_of_ordinary <;> rw [hnames] <;> decide

/-- Once something is accepted and its index committed, every search shows exactly what the
operations accepted before that commit leave of the documents of the start, until the next one. -/
theorem search_after_commit {u : IndexService} {pre mid : List LifecycleLabel} (hstart : Started s)
    (hapart : s.KeptApart (pre ++ mid)) (hpre : Machine.run (step x) s pre = some u)
    (hmid : Machine.run (step x) (u.commit name) mid = some t)
    (hkept : ∀ l ∈ pre, l ≠ .delete name)
    (hquiet : ∀ l ∈ mid, l ≠ .commit name ∧ l ≠ .delete name)
    (haccepted : u.acceptedOf name ≠ []) :
    ∃ w, t.search x name =
      (.ok ((u.acceptedOf name).foldl Edit.apply (s.view name).onDisk : List StoredDoc), w) := by
  have hs := hstart.placed hapart
  have hpres : ∀ l ∈ pre, Keeps (s.names (pre ++ mid)) name l :=
    fun l hl => ⟨mem_names (List.mem_append_left _ hl), hkept l hl⟩
  have hname : name ∈ s.names (pre ++ mid) := by
    by_contra hname
    exact haccepted ((run_placed hs (fun l hl => (hpres l hl).1) hpre).blank name hname).accepted
  obtain ⟨done, hu⟩ := run_grows hs hname (hstart.whole name) hpres hpre
  have hcommit := commit_grows hu.placed hu.whole
  have ht := run_quiet hcommit.placed hname hcommit.whole
    (fun l hl => ⟨⟨mem_names (List.mem_append_right _ hl), (hquiet l hl).2⟩, (hquiet l hl).1⟩) hmid
  rw [← ht.whole.applied]
  exact search_open ht.whole (ht.opened (hcommit.opened (hu.whole.opened haccepted)))

/-- The purge is not committed: the documents before it are shown, and the one after them is not. -/
theorem search_after_commit_example : ∃ u t w,
    Machine.run (step .tiny) (serving .dated) (written ++ renewed.take 2) = some u ∧
      Machine.run (step .tiny) (u.commit "a") renewed = some t ∧
      (u.acceptedOf "a").length = 2 ∧ (t.acceptedOf "a").length = 4 ∧
      t.search .tiny "a" = (.ok ((u.acceptedOf "a").foldl Edit.apply [] : List StoredDoc), w) := by
  have hseen : ((Machine.run (step .tiny) (serving .dated) (written ++ renewed.take 2)).bind fun u =>
      (Machine.run (step .tiny) (u.commit "a") renewed).map fun t =>
        ((u.acceptedOf "a").length, (t.acceptedOf "a").length)) = some (2, 4) := by decide +kernel
  obtain ⟨u, hu, hseen⟩ := Option.bind_eq_some_iff.mp hseen
  obtain ⟨t, ht, hpair⟩ := Option.map_eq_some_iff.mp hseen
  obtain ⟨htwo, hfour⟩ := Prod.mk.inj hpair
  obtain ⟨w, hw⟩ := search_after_commit (serving_started _) (keptApart_renewed _ rfl) hu ht
    (by simp [written, renewed]) (by simp [renewed]) (by intro hnil; rw [hnil] at htwo; cases htwo)
  exact ⟨u, t, w, hu, ht, htwo, hfour, hw⟩

end IndexService
end Edgewit
