import Edgewit.Placement
import Edgewit.Retention

/-!
# The appender and the retention worker

Both work on one data directory. The appender takes its steps; a cleanup cycle
lists the directory and removes files, in between any two of them. The worker
passes the committed offset 0.

A cycle that spares the files in use leaves them in place: `durable_of_spared`.
The first cycle of a fresh process may find the appender's new file empty and
remove it: `acknowledged_without_file`.
-/

namespace Edgewit.Pruning
open Wal

inductive Label where
  | appender (label : Edgewit.Label)
  | cleanup (entries : List DirEntry) (canRemove : String → Bool)

def removeAll (d : Disk) (files : List WalFile) : Disk := files.foldl (fun d f => d.unlink f.name) d

/-- A cycle of the retention worker, as far as it touches the disk. -/
def cleanup (maxWalBytes : Nat) (w : Wal) (entries : List DirEntry) (canRemove : String → Bool) :
    Wal :=
  { w with
    disk := removeAll w.disk ((cleanupWalsU64 canRemove entries 0 maxWalBytes).removed canRemove) }

/-- A directory may be listed in any order. -/
def step (maxWalBytes : Nat) (w : Wal) : Label → Option Wal
  | .appender l => w.step l
  | .cleanup entries canRemove =>
    if entries.Perm w.disk.entries then some (cleanup maxWalBytes w entries canRemove) else none

/-- The open file, and the files of the requests to be answered. -/
def filesInUse (w : Wal) : List Nat :=
  (if Live w then [w.handle] else []) ++
    (w.placed.filter fun p => (p.request, p.walOffset) ∈ w.unanswered).map Placement.handle

/-- The files in use are kept by the cycle. -/
def Spares (maxWalBytes : Nat) (w : Wal) : Label → Prop
  | .appender _ => True
  | .cleanup entries canRemove =>
    ∀ i ∈ filesInUse w, ∀ n ∈ w.disk.nodes[i]?, Spared canRemove entries 0 maxWalBytes n.name

instance (maxWalBytes : Nat) (w : Wal) : ∀ l, Decidable (Spares maxWalBytes w l)
  | .appender _ => isTrue trivial
  | .cleanup _ _ => inferInstanceAs (Decidable (∀ _ ∈ _, ∀ _ ∈ _, Spared _ _ _ _ _))

/-- The open file is present, and a request about to be answered Ok has its frame
in a WAL file that is present. -/
structure Durable (w : Wal) : Prop where
  openFile : Live w → ∃ n, w.disk.nodes[w.handle]? = some n ∧ n.linked = true ∧ IsWal n
  answering : ∀ req offset rest, w.phase = .responding ((req, offset) :: rest) →
    ∃ n ∈ w.disk.nodes, n.linked = true ∧ IsWal n ∧
      ∃ before after, n.content = before ++ req.event.frame ++ after

/-! ## A cleanup cycle -/

theorem mem_filesInUse {w : Wal} {i : Nat} : i ∈ filesInUse w ↔
    (Live w ∧ i = w.handle) ∨
      ∃ p ∈ w.placed, (p.request, p.walOffset) ∈ w.unanswered ∧ p.handle = i := by
  unfold filesInUse
  by_cases hlive : Live w <;> simp [hlive, and_assoc]

/-- Removing files takes names away, those of the files, and nothing else. -/
theorem removeAll_get (files : List WalFile) {d : Disk} {i : Nat} {n : Node}
    (h : d.nodes[i]? = some n) :
    ∃ m, (removeAll d files).nodes[i]? = some m ∧ m.name = n.name ∧ m.isFile = n.isFile ∧
      m.content = n.content ∧ ((∀ f ∈ files, f.name ≠ n.name) → m.linked = n.linked) := by
  induction files generalizing d n with
  | nil => exact ⟨n, h, rfl, rfl, rfl, fun _ => rfl⟩
  | cons f files ih =>
    have hone : (d.unlink f.name).nodes[i]? = some (Disk.unlinkNode f.name n) := by simp [h]
    obtain ⟨m, hm, hname, hfile, hcontent, hlinked⟩ := ih hone
    have hsame : (Disk.unlinkNode f.name n).name = n.name ∧
        (Disk.unlinkNode f.name n).isFile = n.isFile ∧
        (Disk.unlinkNode f.name n).content = n.content := by
      unfold Disk.unlinkNode
      split <;> exact ⟨rfl, rfl, rfl⟩
    refine ⟨m, hm, hname.trans hsame.1, hfile.trans hsame.2.1, hcontent.trans hsame.2.2, ?_⟩
    intro hother
    rw [hsame.1] at hlinked
    rw [hlinked fun g hg => hother g (List.mem_cons_of_mem f hg)]
    simp [Disk.unlinkNode, Ne.symm (hother f List.mem_cons_self)]

theorem removeAll_length (files : List WalFile) (d : Disk) :
    (removeAll d files).nodes.length = d.nodes.length := by
  induction files generalizing d with
  | nil => rfl
  | cons f files ih => simpa [removeAll] using ih (d.unlink f.name)

theorem removeAll_bytes (files : List WalFile) (d : Disk) (i : Nat) :
    (removeAll d files).bytes i = d.bytes i := by
  cases h : d.nodes[i]? with
  | none =>
    have hlen := removeAll_length files d
    have hnone : (removeAll d files).nodes[i]? = none := by
      rw [List.getElem?_eq_none_iff] at h ⊢
      omega
    simp [Disk.bytes, h, hnone]
  | some n =>
    obtain ⟨m, hm, -, -, hcontent, -⟩ := removeAll_get files h
    rw [Disk.bytes_of_get h, Disk.bytes_of_get hm, hcontent]

theorem removeAll_flow {w : Wal} (files : List WalFile) (hf : Flow w) :
    Flow { w with disk := removeAll w.disk files } where
  books := ⟨hf.books.arrival, hf.books.responders, hf.books.current, hf.books.settled,
    hf.books.forwarded, hf.books.increasing, hf.books.bounded⟩
  nonEmpty := hf.nonEmpty
  drained := hf.drained

theorem removeAll_filed {w : Wal} (files : List WalFile) (hw : Filed w) :
    Filed { w with disk := removeAll w.disk files } := by
  have hview : ∀ i, view { w with disk := removeAll w.disk files } i = w.view i := by
    intro i
    simp only [view, removeAll_bytes]
  have hfile : ∀ i : Nat, (∃ n, w.disk.nodes[i]? = some n ∧ IsWal n) →
      ∃ n, (removeAll w.disk files).nodes[i]? = some n ∧ IsWal n := by
    rintro i ⟨n, hn, hreg, start, hname⟩
    obtain ⟨m, hm, hname', hreg', -, -⟩ := removeAll_get files hn
    exact ⟨m, hm, hreg'.trans hreg, start, hname'.trans hname⟩
  refine ⟨fun hlive => hfile _ (hw.opened hlive), ?_, hw.entered, hw.numbered⟩
  intro p hp
  obtain ⟨hn, hwithin, hframe⟩ := hw.held p hp
  exact ⟨hfile _ hn, by rw [hview]; exact hwithin, by rw [hview]; exact hframe⟩

/-! ## Runs -/

def Present (w : Wal) : Prop :=
  ∀ i ∈ filesInUse w, ∃ n, w.disk.nodes[i]? = some n ∧ n.linked = true

/-- A step uses no file that was not in use before, except one it opens. -/
theorem step_filesInUse {w t : Wal} {l : Edgewit.Label} (hw : Filed w) (h : Files w l t) {i : Nat}
    (hi : i ∈ filesInUse t) :
    i ∈ filesInUse w ∨ ∃ n, t.disk.nodes[i]? = some n ∧ n.linked = true := by
  rw [mem_filesInUse] at hi ⊢
  rcases h with ⟨hopens, -⟩ | ⟨req, io, -, -, hplaces⟩
  · rcases hi with ⟨hlive, rfl⟩ | ⟨p, hp, hx, rfl⟩
    · rcases hopens.opened hlive with ⟨hlive, hhandle⟩ | ⟨n, hn, hlinked, -⟩
      · exact Or.inl (Or.inl ⟨hlive, hhandle⟩)
      · exact Or.inr ⟨n, hn, hlinked⟩
    · rw [hopens.placed] at hp
      exact Or.inl (Or.inr ⟨p, hp, hopens.unanswered _ hx, rfl⟩)
  · left
    rcases hi with ⟨-, rfl⟩ | ⟨p, hp, hx, rfl⟩
    · exact Or.inl ⟨hplaces.live, hplaces.handle⟩
    · rw [hplaces.placed] at hp
      rcases List.mem_append.mp hp with hp | hp
      · rw [hplaces.unanswered] at hx
        rcases List.mem_append.mp hx with hx | hx
        · exact Or.inr ⟨p, hp, hx, rfl⟩
        · -- a new offset is larger than those of all earlier placements
          have hle := hw.numbered p hp
          have hoffset := congrArg Prod.snd (List.mem_singleton.mp hx)
          have hnew := hplaces.offset
          have hpos := frameLen_pos req.event
          dsimp only at hoffset
          omega
      · rw [List.mem_singleton.mp hp]
        exact Or.inl ⟨hplaces.live, rfl⟩

theorem step_present {maxWalBytes : Nat} {w t : Wal} {l : Label}
    (hspares : Spares maxWalBytes w l) (h : step maxWalBytes w l = some t)
    (hw : Flow w ∧ Filed w ∧ Present w) : Flow t ∧ Filed t ∧ Present t := by
  obtain ⟨hflow, hfiled, hpresent⟩ := hw
  cases l with
  | appender l =>
    have hstep := step_cases h
    refine ⟨step_flow hstep hflow, step_filed hstep hflow hfiled, ?_⟩
    intro i hi
    rcases step_filesInUse hfiled (step_files hstep hflow hfiled) hi with hi | hn
    · obtain ⟨n, hn, hlinked⟩ := hpresent i hi
      obtain ⟨m, hm, hnm⟩ := (step_extends hstep hflow hfiled).1 i n hn
      exact ⟨m, hm, hnm.linked.trans hlinked⟩
    · exact hn
  | cleanup entries canRemove =>
    simp only [step, Option.ite_none_right_eq_some, Option.some.injEq] at h
    obtain ⟨-, rfl⟩ := h
    refine ⟨removeAll_flow _ hflow, removeAll_filed _ hfiled, ?_⟩
    intro i hi
    obtain ⟨n, hn, hlinked⟩ := hpresent i hi
    obtain ⟨m, hm, -, -, -, hkept⟩ :=
      removeAll_get ((cleanupWalsU64 canRemove entries 0 maxWalBytes).removed canRemove) hn
    have hspared := hspares i hi n hn
    exact ⟨m, hm, (hkept fun f hf => spared_not_removed hspared hf).trans hlinked⟩

theorem Durable.of_present {w : Wal} (hflow : Flow w) (hfiled : Filed w) (hpresent : Present w) :
    Durable w := by
  refine ⟨?_, ?_⟩
  · intro hlive
    obtain ⟨n, hn, hwal⟩ := hfiled.opened hlive
    obtain ⟨m, hm, hlinked⟩ := hpresent _ (mem_filesInUse.mpr (Or.inl ⟨hlive, rfl⟩))
    obtain rfl := Option.some.inj (hm.symm.trans hn)
    exact ⟨m, hn, hlinked, hwal⟩
  · intro req offset rest hphase
    have hdry := hflow.drained
    simp only [Drained, hphase] at hdry
    obtain ⟨p, hp, hx⟩ := hfiled.entered (req, offset) (by simp [unanswered, hphase])
    have huse : p.handle ∈ filesInUse w :=
      mem_filesInUse.mpr (Or.inr ⟨p, hp, by simp [hx, unanswered, hphase], rfl⟩)
    obtain ⟨⟨n, hn, hwal⟩, -, hframe⟩ := hfiled.held p hp
    obtain ⟨m, hm, hlinked⟩ := hpresent _ huse
    obtain rfl := Option.some.inj (hm.symm.trans hn)
    have hview : w.view p.handle = m.content := by simp [view, hdry, Disk.bytes_of_get hn]
    obtain ⟨before, hbefore⟩ := hframe
    rw [hview, (Prod.mk.inj hx).1] at hbefore
    refine ⟨m, List.mem_of_getElem? hn, hlinked, hwal, before, m.content.drop p.position, ?_⟩
    rw [hbefore, List.take_append_drop]

/-- **Cycles that spare the files in use.** In every interleaving of appender
steps and cleanup cycles over any directory, if each cycle spares the open file and
the files of the requests to be answered, the open file is always present, and
every request answered Ok has its frame in a present WAL file. -/
theorem durable_of_spared {maxWalBytes : Nat} {disk : Disk} {ls : List Label} {w : Wal}
    (h : Machine.run (step maxWalBytes) (start disk 0) ls = some w)
    (hspared : Machine.Along (step maxWalBytes) (Spares maxWalBytes) (start disk 0) ls) :
    Durable w := by
  have hstart : Present (start disk 0) := by
    intro i hi
    simp [filesInUse, Live, unanswered, start] at hi
  obtain ⟨hflow, hfiled, hpresent⟩ :=
    Machine.run_guarded (I := fun w => Flow w ∧ Filed w ∧ Present w)
      ⟨start_flow disk 0, start_filed disk 0, hstart⟩ (fun _ _ _ => step_present) hspared h
  exact Durable.of_present hflow hfiled hpresent

/-- One batch, with a cleanup cycle after its flush that lists the open file. -/
def sparingCycle : List Label :=
  [.appender (.boot true true true), .appender (.send ⟨"a", [1]⟩), .appender .recv,
    .appender .closeBatch, .appender (.frame []), .appender (.flush .ok),
    .cleanup [⟨walName 0, true, 12⟩] fun _ => true, .appender (.sync true),
    .appender (.rotate .ok true true)]

theorem durable_of_spared_example : ∃ w,
    Machine.run (step defaultMaxWalBytes) (start .empty 0) sparingCycle = some w ∧
    w.phase = .responding [(⟨⟨"a", [1]⟩, 0⟩, 12)] ∧ Durable w := by
  have hrun : (Machine.run (step defaultMaxWalBytes) (start .empty 0) sparingCycle).map Wal.phase =
      some (.responding [(⟨⟨"a", [1]⟩, 0⟩, 12)]) := by
    decide +kernel
  obtain ⟨w, hw, hphase⟩ := Option.map_eq_some_iff.mp hrun
  exact ⟨w, hw, hphase, durable_of_spared hw (by decide +kernel)⟩

/-- The first cycle comes between the start of the appender and its first batch. -/
def cycleAtStart : List Label :=
  [.appender (.boot true true true), .cleanup [⟨walName 0, true, 0⟩] fun _ => true,
    .appender (.send ⟨"a", [1]⟩), .appender .recv, .appender .closeBatch, .appender (.frame []),
    .appender (.flush .ok), .appender (.sync true), .appender (.rotate .ok true true)]

/-- The empty file of offset 0 counts as committed. Once it is removed, the next
request is answered Ok and no file is left in the directory. -/
theorem acknowledged_without_file : ∃ w,
    Machine.run (step defaultMaxWalBytes) (start .empty 0) cycleAtStart = some w ∧
    w.phase = .responding [(⟨⟨"a", [1]⟩, 0⟩, 12)] ∧ w.disk.entries = [] ∧ ¬ Durable w := by
  have hrun : (Machine.run (step defaultMaxWalBytes) (start .empty 0) cycleAtStart).map
      (fun w => (w.phase, w.disk.nodes.map Node.linked)) =
      some (.responding [(⟨⟨"a", [1]⟩, 0⟩, 12)], [false]) := by
    decide +kernel
  obtain ⟨w, hw, heq⟩ := Option.map_eq_some_iff.mp hrun
  obtain ⟨hphase, hlinked⟩ := Prod.mk.inj heq
  have hnone : ∀ n ∈ w.disk.nodes, n.linked = false := by
    intro n hn
    have hmem := List.mem_map_of_mem (f := Node.linked) hn
    rw [hlinked] at hmem
    exact List.mem_singleton.mp hmem
  refine ⟨w, hw, hphase, ?_, ?_⟩
  · simp only [Disk.entries, List.filterMap_eq_nil_iff]
    intro n hn
    simp [hnone n hn]
  · intro hdurable
    obtain ⟨n, hn, hpresent, -⟩ := hdurable.answering _ _ _ hphase
    rw [hnone n hn] at hpresent
    cases hpresent

end Edgewit.Pruning
