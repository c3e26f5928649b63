import Edgewit.Staging

/-!
# Writer locks

Tantivy gives out one writer for an index at a time. The actor keeps the writers it has
opened, so compaction gets only the indexes that have had no event and no purge since the
start: `held_for_good`.
-/

namespace Edgewit
namespace Indexer

/-- No index has a writer of the actor and one of compaction. -/
def Exclusive (s : Indexer) : Prop := ∀ n ∈ s.writers, ¬ s.Locked n

/-- Writers are opened on indexes that compaction does not have. -/
structure Holds (s t : Indexer) : Prop where
  writers : ∀ n ∈ s.writers, n ∈ t.writers
  unlocked : ∀ n ∈ t.writers, n ∈ s.writers ∨ ¬ s.Locked n
  compaction : t.compaction = s.compaction
  dir : ∀ n, t.dir n = s.dir n

theorem Touches.holds {x : Externals} {s t : Indexer} (h : Touches x s t) : Holds s t := by
  have hcompaction : t.compaction = s.compaction := by
    obtain ⟨_, _, _, _, hsame⟩ := h.same
    rw [hsame]
  rcases h with hopens | ⟨_, _, hstages⟩
  · exact ⟨hopens.writers, hopens.unlocked, hcompaction, hopens.dir⟩
  · exact ⟨hstages.writers, hstages.unlocked, hcompaction, hstages.dir⟩

theorem takeEvent_holds (x : Externals) (s : Indexer) (event : IndexerEvent)
    (rest : List IndexerEvent) (faults : Faults) : Holds s (s.takeEvent x event rest faults) := by
  obtain ⟨hwriters, hunlocked, hcompaction, hdir⟩ :=
    (processEvent_touches x { s with receiver := rest } event faults).holds
  rw [takeEvent_eq]
  exact ⟨hwriters, hunlocked, hcompaction, hdir⟩

theorem takePurge_holds (x : Externals) (s : Indexer) (cmd : PurgeCommand)
    (rest : List PurgeCommand) (faults : Faults) : Holds s (s.takePurge x cmd rest faults) := by
  obtain ⟨hwriters, hunlocked, hcompaction, hdir⟩ :=
    (purgeOldDocs_touches x { s with purgeRx := rest } cmd faults).holds
  rw [takePurge_eq]
  exact ⟨hwriters, hunlocked, hcompaction, hdir⟩

theorem Holds.exclusive {s t : Indexer} (h : Holds s t) (hs : Exclusive s) : Exclusive t := by
  intro n hn
  rw [Locked, h.compaction]
  rcases h.unlocked n hn with hold | hfree
  · exact hs n hold
  · exact hfree

/-- A step closes no writer, and takes the payload off no index that has one. -/
theorem step_holds {c : IndexerConfig} {s t : Indexer} {l : IndexerLabel} (hs : Exclusive s)
    (h : Step c s l t) :
    Exclusive t ∧ ∀ n ∈ s.writers, n ∈ t.writers ∧
      ((s.dir n).payload ≠ none → (t.dir n).payload ≠ none) := by
  have hholds : ∀ {t : Indexer}, Holds s t → Exclusive t ∧ ∀ n ∈ s.writers, n ∈ t.writers ∧
      ((s.dir n).payload ≠ none → (t.dir n).payload ≠ none) := by
    intro t hst
    exact ⟨hst.exclusive hs, fun n hn => ⟨hst.writers n hn, by rw [hst.dir]; exact id⟩⟩
  cases h with
  | deliver | schedule | check | tick | committed =>
    exact hholds ⟨fun _ => id, fun _ => Or.inl, rfl, fun _ => rfl⟩
  | event _ _ => exact hholds (takeEvent_holds _ _ _ _ _)
  | purge _ _ => exact hholds (takePurge_holds _ _ _ _ _)
  | @commit name ok offset hphase hdirty =>
    rcases commit_cases c.toExternals s name offset ok with ⟨-, heq⟩ | ⟨-, -, hcommits⟩
    · rw [heq]
      exact hholds ⟨fun _ => id, fun _ => Or.inl, rfl, fun _ => rfl⟩
    · have hcompaction : (s.commit c.toExternals name offset ok).compaction = s.compaction := by
        obtain ⟨_, _, hsame⟩ := hcommits.same
        rw [hsame]
      refine ⟨fun n hn => ?_, fun n hn => ⟨(hcommits.writers n).mpr hn, ?_⟩⟩
      · rw [Locked, hcompaction]
        exact hs n ((hcommits.writers n).mp hn)
      · rw [hcommits.dir]
        split
        · simp
        · exact id
  | @compactOpen name segments hfree hpresent =>
    unfold compactOpen
    split
    · exact hholds ⟨fun _ => id, fun _ => Or.inl, rfl, fun _ => rfl⟩
    · rename_i hopen
      refine ⟨?_, fun n hn => ⟨hn, id⟩⟩
      rintro n hn ⟨held, hheld, rfl⟩
      cases hheld
      exact hopen (Or.inr hn)
  | @compactCommit name hheld =>
    have hlocked : s.Locked name := ⟨_, hheld, rfl⟩
    refine ⟨?_, fun n hn => ⟨hn, ?_⟩⟩
    · rintro n hn ⟨held, hheld', rfl⟩
      cases hheld'
      exact hs _ hn hlocked
    · have hne : n ≠ name := fun heq => hs n hn (heq ▸ hlocked)
      rw [compactCommit_dir, if_neg hne]
      exact id
  | compactClose _ =>
    refine ⟨?_, fun n hn => ⟨hn, id⟩⟩
    rintro n hn ⟨held, hheld, -⟩
    cases hheld

theorem run_exclusive {c : IndexerConfig} {registry : IndexRegistry}
    {store : Table String IndexDir} {s : Indexer} {ls : List IndexerLabel}
    (hrun : Machine.run (step c) (start registry store) ls = some s) : Exclusive s := by
  refine Machine.run_invariant (I := Exclusive) ?_
    (fun u l v hstep hu => (step_holds hu (step_cases hstep)).1) hrun
  intro n hn
  cases hn

/-- The actor and compaction never have writers for one index. What the actor has once, it keeps:
from then on compaction leaves the index alone, however many segments it has, and does not take
the payload off it. -/
theorem held_for_good {c : IndexerConfig} {registry : IndexRegistry}
    {store : Table String IndexDir} {s t : Indexer} {pre ls : List IndexerLabel} {name : String}
    (hpre : Machine.run (step c) (start registry store) pre = some s) (hname : name ∈ s.writers)
    (hrun : Machine.run (step c) s ls = some t) :
    name ∈ t.writers ∧ ¬ t.Locked name ∧
      ((s.dir name).payload ≠ none → (t.dir name).payload ≠ none) := by
  have hinv : Exclusive t ∧ name ∈ t.writers ∧
      ((s.dir name).payload ≠ none → (t.dir name).payload ≠ none) := by
    refine Machine.run_invariant (I := fun t => Exclusive t ∧ name ∈ t.writers ∧
      ((s.dir name).payload ≠ none → (t.dir name).payload ≠ none))
      ⟨run_exclusive hpre, hname, id⟩ ?_ hrun
    rintro u l v hstep ⟨hu, hwriter, hpayload⟩
    obtain ⟨hv, hkept⟩ := step_holds hu (step_cases hstep)
    obtain ⟨hwriter', hpayload'⟩ := hkept name hwriter
    exact ⟨hv, hwriter', fun h => hpayload' (hpayload h)⟩
  exact ⟨hinv.2.1, hinv.1 name hinv.2.1, hinv.2.2⟩

/-- An index with a committed event, and then a compaction cycle. -/
theorem held_for_good_example : ∃ s t : Indexer, "a" ∈ s.writers ∧
    s.step .tiny (.compactOpen "a" 12) = some t ∧ ¬ t.Locked "a" ∧
    (t.dir "a").payload ≠ none := by
  let pre : List IndexerLabel := [.deliver ⟨⟨"a", utf8 "\x7b\x7d"⟩, 12⟩, .event {}, .check, .tick,
    .commit "a" true, .committed]
  have hseen : (Machine.run (step .tiny) (start .tiny ∅) pre).bind (fun s =>
      (Machine.run (step .tiny) s [.compactOpen "a" 12]).map fun _ =>
        (decide ("a" ∈ s.writers), (s.dir "a").payload)) = some (true, some 12) := by decide +kernel
  obtain ⟨s, hpre, hs⟩ := Option.bind_eq_some_iff.mp hseen
  obtain ⟨t, hrun, heq⟩ := Option.map_eq_some_iff.mp hs
  obtain ⟨hmem, hpayload⟩ := Prod.mk.inj heq
  have hname := of_decide_eq_true hmem
  obtain ⟨-, hfree, hkept⟩ := held_for_good hpre hname hrun
  obtain ⟨u, hstep, hnil⟩ := Machine.run_cons.mp hrun
  cases hnil
  exact ⟨s, t, hname, hstep, hfree, hkept (by rw [hpayload]; simp)⟩

end Indexer
end Edgewit
