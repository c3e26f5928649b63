import Edgewit.Staging

/-!
# The recovery watermark

The payload of a commit is meant to be the largest WAL offset committed to the index.
It is in every run whose commits renew it (`Renews`): `watermark`. A purge marks a
clean index dirty with offset 0, and compaction commits without a payload, so neither
may be all there is to commit once an event has been committed.
-/

namespace Edgewit

/-- The payload is the largest offset committed, if there is one. -/
def Marked (dir : IndexDir) : Prop := dir.offsets ≠ [] → dir.payload = dir.offsets.max?

instance (dir : IndexDir) : Decidable (Marked dir) := inferInstanceAs (Decidable (_ → _))

/-- A list that ends above everything before it. -/
theorem max?_append_of_last {as bs : List Nat} {o : Nat} (hlast : bs.getLast? = some o)
    (hbelow : ∀ a ∈ as, ∀ b ∈ bs, a < b) (hsorted : bs.Pairwise (· < ·)) :
    (as ++ bs).max? = some o := by
  obtain ⟨init, rfl⟩ := List.getLast?_eq_some_iff.mp hlast
  rw [List.max?_eq_some_iff]
  constructor
  · simp
  · intro b hb
    rcases List.mem_append.mp hb with hold | hnew
    · exact Nat.le_of_lt (hbelow b hold o (by simp))
    · rcases List.mem_append.mp hnew with hinit | hend
      · have hlt := (List.pairwise_append.mp hsorted).2.2 b hinit o (by simp)
        omega
      · simp at hend
        omega

namespace Indexer

/-- The offsets of the staged events of an index. -/
def pendingOffsets (s : Indexer) (name : String) : List Nat :=
  (s.staged name).filterMap Op.offset?

/-- The offsets that may still be committed to an index: the staged ones, then those
of all events on the channel. -/
def coming (s : Indexer) (name : String) : List Nat :=
  s.pendingOffsets name ++ s.receiver.map IndexerEvent.walOffset

/-- The actor's environment as it is meant to be: offsets increase, commits do not fail. -/
def Orderly (s : Indexer) : IndexerLabel → Prop
  | .deliver event => (∀ e ∈ s.arrived, e.walOffset < event.walOffset) ∧
      ∀ e ∈ s.store.entries, ∀ o ∈ e.2.offsets, o < event.walOffset
  | .commit _ ok => ok = true
  | _ => True

instance (s : Indexer) : (l : IndexerLabel) → Decidable (s.Orderly l)
  | .deliver event => inferInstanceAs (Decidable ((∀ e ∈ s.arrived, e.walOffset < event.walOffset) ∧
      ∀ e ∈ s.store.entries, ∀ o ∈ e.2.offsets, o < event.walOffset))
  | .commit _ ok => inferInstanceAs (Decidable (ok = true))
  | .schedule _ | .event _ | .check | .purge _ | .tick | .committed | .compactOpen _ _
  | .compactCommit | .compactClose => isTrue trivial

/-- A commit on an index with committed events comes with a new one. -/
def Renews (s : Indexer) : IndexerLabel → Prop
  | .commit name _ => (s.dir name).offsets ≠ [] → s.pendingOffsets name ≠ []
  | .compactCommit => ∀ held ∈ s.compaction, (s.dir held.index).offsets = []
  | _ => True

instance (s : Indexer) : (l : IndexerLabel) → Decidable (s.Renews l)
  | .commit name _ =>
    inferInstanceAs (Decidable ((s.dir name).offsets ≠ [] → s.pendingOffsets name ≠ []))
  | .compactCommit =>
    inferInstanceAs (Decidable (∀ held ∈ s.compaction, (s.dir held.index).offsets = []))
  | .deliver _ | .schedule _ | .event _ | .check | .purge _ | .tick | .committed
  | .compactOpen _ _ | .compactClose => isTrue trivial

/-- Where the offsets of all events are, and what is kept of them for the next commit. -/
structure Marks (s : Indexer) : Prop where
  marked : ∀ n, Marked (s.dir n)
  below : ∀ n, ∀ o ∈ (s.dir n).offsets, ∀ p ∈ s.coming n, o < p
  increasing : ∀ n, (s.coming n).Pairwise (· < ·)
  known : ∀ n, ∀ o ∈ s.coming n, o ∈ s.arrived.map IndexerEvent.walOffset
  mark : ∀ n, (s.dirtyWriters.lookup n).getD 0 = (s.pendingOffsets n).getLast?.getD 0

theorem start_marks {registry : IndexRegistry} {store : Table String IndexDir}
    (h : ∀ n, Marked ((start registry store).dir n)) : Marks (start registry store) := by
  have hnone : ∀ n, (start registry store).coming n = [] := by
    intro n
    simp [coming, pendingOffsets, start, staged]
  refine ⟨h, ?_, ?_, ?_, ?_⟩
  · intro n o _ p hp
    simp [hnone] at hp
  · intro n
    simp [hnone]
  · intro n o ho
    simp [hnone] at ho
  · intro n
    simp [pendingOffsets, start, staged]

/-- A step that commits nothing and brings no new offset. -/
theorem Marks.shrink {s t : Indexer} (h : Marks s) (hdir : ∀ n, t.dir n = s.dir n)
    (hcoming : ∀ n, (t.coming n).Sublist (s.coming n)) (harrived : t.arrived = s.arrived)
    (hmark : ∀ n, (t.dirtyWriters.lookup n).getD 0 = (t.pendingOffsets n).getLast?.getD 0) :
    Marks t := by
  refine ⟨?_, ?_, ?_, ?_, hmark⟩
  · intro n
    rw [hdir]
    exact h.marked n
  · intro n o ho p hp
    rw [hdir] at ho
    exact h.below n o ho p ((hcoming n).subset hp)
  · intro n
    exact (h.increasing n).sublist (hcoming n)
  · intro n o ho
    rw [harrived]
    exact h.known n o ((hcoming n).subset ho)

/-- A step that leaves offsets, writers and directories alone. -/
theorem Marks.same {s t : Indexer} (h : Marks s) (hdir : ∀ n, t.dir n = s.dir n)
    (hstaged : ∀ n, t.staged n = s.staged n) (hreceiver : t.receiver.Sublist s.receiver)
    (harrived : t.arrived = s.arrived) (hdirty : t.dirtyWriters = s.dirtyWriters) : Marks t := by
  have hpending : ∀ n, t.pendingOffsets n = s.pendingOffsets n := by
    intro n
    rw [pendingOffsets, hstaged, pendingOffsets]
  apply h.shrink hdir _ harrived
  · intro n
    rw [hdirty, hpending]
    exact h.mark n
  · intro n
    rw [coming, hpending, coming]
    exact (List.Sublist.refl _).append (hreceiver.map _)

/-- Staging an operation stages its offset. -/
theorem Stages.pendingOffsets {x : Externals} {s t : Indexer} {name : String} {op : Op}
    (h : Stages x s t name op) (n : String) : t.pendingOffsets n =
      if n = name then s.pendingOffsets n ++ op.offset?.toList else s.pendingOffsets n := by
  simp only [Indexer.pendingOffsets, h.staged]
  by_cases hn : n = name
  · cases hop : op.offset? <;> simp [hn, hop]
  · simp [hn]

theorem Stages.mark {x : Externals} {s t : Indexer} {name : String} {op : Op}
    (h : Stages x s t name op)
    (hm : ∀ n, (s.dirtyWriters.lookup n).getD 0 = (s.pendingOffsets n).getLast?.getD 0) (n : String) :
    (t.dirtyWriters.lookup n).getD 0 = (t.pendingOffsets n).getLast?.getD 0 := by
  rw [h.dirty, h.pendingOffsets]
  by_cases hn : n = name
  · rw [if_pos hn, if_pos hn]
    cases op with
    | add doc walOffset => simp [Op.mark, Op.offset?]
    | delete field bound => simpa [Op.mark, Op.offset?] using hm n
  · rw [if_neg hn, if_neg hn]
    exact hm n

theorem handleEvent_marks {s : Indexer} (h : Marks s) (event : IndexerEvent)
    (r : Except Failure Op) : Marks (s.handleEvent event r) :=
  h.same (fun _ => rfl) (fun _ => rfl) (List.Sublist.refl _) rfl rfl

theorem handlePurge_marks {s : Indexer} (h : Marks s) (cmd : PurgeCommand)
    (r : Except Failure Op) : Marks (s.handlePurge cmd r) :=
  h.same (fun _ => rfl) (fun _ => rfl) (List.Sublist.refl _) rfl rfl

theorem Opens.keepsMarks {x : Externals} {s t : Indexer} (h : Opens x s t) (hm : Marks s) :
    Marks t := by
  obtain ⟨_, _, _, hsame⟩ := id h.same
  apply hm.same h.dir h.staged
  · rw [hsame]
  · rw [hsame]
  · rw [hsame]

/-- The offset of the next event passes from the channel to the writer. -/
theorem takeEvent_marks {x : Externals} {s : Indexer} (h : Marks s) {event : IndexerEvent}
    {rest : List IndexerEvent} (hnext : s.receiver = event :: rest) (faults : Faults) :
    Marks (s.takeEvent x event rest faults) := by
  have hrest : rest.Sublist s.receiver := by
    rw [hnext]
    exact List.sublist_cons_self event rest
  rcases takeEvent_cases x s event rest faults with ⟨e, u, hopens, heq⟩ | ⟨doc, u, hstages, heq⟩ <;>
    rw [heq]
  · have hpopped : Marks { s with receiver := rest } :=
      h.same (fun _ => rfl) (fun _ => rfl) hrest rfl rfl
    exact handleEvent_marks (hopens.keepsMarks hpopped) event _
  · obtain ⟨_, _, _, _, hsame⟩ := id hstages.same
    have hreceiver : u.receiver = rest := by rw [hsame]
    have hmarks : Marks u := by
      apply h.shrink hstages.dir
      · intro n
        have hpending := hstages.pendingOffsets n
        rw [coming, hpending, hreceiver, coming, hnext]
        by_cases hn : n = event.event.index
        · rw [if_pos hn, List.append_assoc]
          exact List.Sublist.refl _
        · rw [if_neg hn, List.map_cons]
          exact (List.Sublist.refl _).append (List.sublist_cons_self _ _)
      · rw [hsame]
      · exact hstages.mark h.mark
    exact handleEvent_marks hmarks event _

theorem takePurge_marks {x : Externals} {s : Indexer} (h : Marks s) (cmd : PurgeCommand)
    (rest : List PurgeCommand) (faults : Faults) : Marks (s.takePurge x cmd rest faults) := by
  rcases takePurge_cases x s cmd rest faults with ⟨e, u, hopens, heq⟩ | ⟨field, u, hstages, heq⟩ <;>
    rw [heq]
  · have hpopped : Marks { s with purgeRx := rest } :=
      h.same (fun _ => rfl) (fun _ => rfl) (List.Sublist.refl _) rfl rfl
    exact handlePurge_marks (hopens.keepsMarks hpopped) cmd _
  · obtain ⟨_, _, _, _, hsame⟩ := id hstages.same
    have hreceiver : u.receiver = s.receiver := by rw [hsame]
    have hmarks : Marks u := by
      apply h.shrink hstages.dir
      · intro n
        have hpending := hstages.pendingOffsets n
        simp only [Op.offset?, Option.toList_none, List.append_nil, ite_self] at hpending
        rw [coming, hpending, hreceiver]
        exact List.Sublist.refl _
      · rw [hsame]
      · exact hstages.mark h.mark
    exact handlePurge_marks hmarks cmd _

/-- The offsets of an index after its commit. -/
theorem Commits.offsets {x : Externals} {s t : Indexer} {name : String} {offset : Nat}
    (h : Commits x s t name offset) (n : String) : (t.dir n).offsets =
      if n = name then (s.dir n).offsets ++ s.pendingOffsets n else (s.dir n).offsets := by
  rw [h.dir]
  by_cases hn : n = name
  · simp [hn, IndexDir.offsets, Indexer.pendingOffsets]
  · simp [hn]

/-- Committing an index leaves it nothing staged. -/
theorem Commits.pendingOffsets {x : Externals} {s t : Indexer} {name : String} {offset : Nat}
    (h : Commits x s t name offset) (n : String) :
    t.pendingOffsets n = if n = name then [] else s.pendingOffsets n := by
  simp only [Indexer.pendingOffsets, h.staged]
  by_cases hn : n = name <;> simp [hn]

theorem Commits.coming_sublist {x : Externals} {s t : Indexer} {name : String} {offset : Nat}
    (h : Commits x s t name offset) (n : String) : (t.coming n).Sublist (s.coming n) := by
  obtain ⟨_, _, hsame⟩ := id h.same
  have hreceiver : t.receiver = s.receiver := by rw [hsame]
  rw [coming, h.pendingOffsets, hreceiver, coming]
  by_cases hn : n = name
  · rw [if_pos hn]
    exact List.sublist_append_right _ _
  · rw [if_neg hn]

/-- The offset of the last staged event is the largest one committed. -/
theorem Commits.marked {x : Externals} {s t : Indexer} {name : String} {offset : Nat}
    (h : Commits x s t name offset) (hm : Marks s) (hdirty : s.dirtyWriters.lookup name = some offset)
    (hrenews : (s.dir name).offsets ≠ [] → s.pendingOffsets name ≠ []) (n : String) :
    Marked (t.dir n) := by
  by_cases hn : n = name
  · subst hn
    intro hne
    rw [h.offsets, if_pos rfl] at hne ⊢
    rw [h.dir, if_pos rfl]
    have hnew : s.pendingOffsets n ≠ [] := by
      intro hnil
      rw [hnil, List.append_nil] at hne
      exact hrenews hne hnil
    obtain ⟨o, hlast⟩ := Option.ne_none_iff_exists'.mp fun hnone =>
      hnew (List.getLast?_eq_none_iff.mp hnone)
    have hmark := hm.mark n
    rw [hdirty, hlast, Option.getD_some, Option.getD_some] at hmark
    have hbelow : ∀ a ∈ (s.dir n).offsets, ∀ b ∈ s.pendingOffsets n, a < b := by
      intro a ha b hb
      exact hm.below n a ha b (List.mem_append_left _ hb)
    have hsorted := (List.pairwise_append.mp (hm.increasing n)).1
    rw [max?_append_of_last hlast hbelow hsorted, hmark]
  · have hdir := h.dir n
    rw [if_neg hn] at hdir
    rw [hdir]
    exact hm.marked n

/-- What is still to come lies above what has been committed, the new offsets included. -/
theorem Commits.below {x : Externals} {s t : Indexer} {name : String} {offset : Nat}
    (h : Commits x s t name offset) (hm : Marks s) (n : String) :
    ∀ o ∈ (t.dir n).offsets, ∀ p ∈ t.coming n, o < p := by
  intro o ho p hp
  rw [h.offsets] at ho
  by_cases hn : n = name
  · obtain ⟨_, _, hsame⟩ := id h.same
    have hreceiver : t.receiver = s.receiver := by rw [hsame]
    rw [if_pos hn] at ho
    rw [coming, h.pendingOffsets, if_pos hn, hreceiver, List.nil_append] at hp
    rcases List.mem_append.mp ho with hold | hnew
    · exact hm.below n o hold p (List.mem_append_right _ hp)
    · exact (List.pairwise_append.mp (hm.increasing n)).2.2 o hnew p hp
  · rw [if_neg hn] at ho
    exact hm.below n o ho p ((h.coming_sublist n).subset hp)

theorem commit_marks {x : Externals} {s : Indexer} (h : Marks s) {name : String} {offset : Nat}
    (hdirty : s.dirtyWriters.lookup name = some offset)
    (hrenews : (s.dir name).offsets ≠ [] → s.pendingOffsets name ≠ []) :
    Marks (s.commit x name offset true) := by
  rcases commit_cases x s name offset true with ⟨hskip, heq⟩ | ⟨-, -, hcommits⟩
  · rw [heq]
    have hnone : s.pendingOffsets name = [] := by
      have hw : name ∉ s.writers := fun hw => hskip ⟨rfl, hw⟩
      simp [pendingOffsets, staged, AList.lookup_eq_none.mpr hw]
    refine ⟨h.marked, h.below, h.increasing, h.known, ?_⟩
    intro n
    rw [Table.lookup_erase_eq]
    by_cases hn : n = name
    · rw [if_pos hn, show Indexer.pendingOffsets _ n = [] from hn ▸ hnone]
      rfl
    · rw [if_neg hn]
      exact h.mark n
  · obtain ⟨_, _, hsame⟩ := id hcommits.same
    have hclean : (s.commit x name offset true).dirtyWriters = s.dirtyWriters.erase name := by
      rw [hsame]
    have harrived : (s.commit x name offset true).arrived = s.arrived := by rw [hsame]
    refine ⟨hcommits.marked h hdirty hrenews, hcommits.below h, ?_, ?_, ?_⟩
    · intro n
      exact (h.increasing n).sublist (hcommits.coming_sublist n)
    · intro n o ho
      rw [harrived]
      exact h.known n o ((hcommits.coming_sublist n).subset ho)
    · intro n
      rw [hclean, hcommits.pendingOffsets, Table.lookup_erase_eq]
      by_cases hn : n = name
      · simp [hn]
      · rw [if_neg hn, if_neg hn]
        exact h.mark n

theorem mem_store_of_offset {s : Indexer} {n : String} {o : Nat} (h : o ∈ (s.dir n).offsets) :
    ∃ e ∈ s.store.entries, o ∈ e.2.offsets := by
  unfold dir at h
  cases hlook : s.store.lookup n with
  | none =>
    rw [hlook] at h
    simp [IndexDir.empty, IndexDir.offsets] at h
  | some d =>
    rw [hlook] at h
    exact ⟨⟨n, d⟩, AList.mem_lookup_iff.mp hlook, h⟩

theorem deliver_marks {s : Indexer} (h : Marks s) {event : IndexerEvent}
    (horder : s.Orderly (.deliver event)) :
    Marks { s with receiver := s.receiver ++ [event], arrived := s.arrived ++ [event] } := by
  obtain ⟨harrived, hstore⟩ := horder
  have hcoming : ∀ n, ({ s with
      receiver := s.receiver ++ [event], arrived := s.arrived ++ [event] } : Indexer).coming n =
        s.coming n ++ [event.walOffset] := by
    intro n
    simp [coming, pendingOffsets, staged]
  have hlate : ∀ n, ∀ o ∈ s.coming n, o < event.walOffset := by
    intro n o ho
    obtain ⟨e, he, rfl⟩ := List.mem_map.mp (h.known n o ho)
    exact harrived e he
  refine ⟨h.marked, ?_, ?_, ?_, h.mark⟩
  · intro n o ho p hp
    rw [hcoming] at hp
    rcases List.mem_append.mp hp with hold | hnew
    · exact h.below n o ho p hold
    · rw [List.mem_singleton.mp hnew]
      obtain ⟨e, he, hoe⟩ := mem_store_of_offset ho
      exact hstore e he o hoe
  · intro n
    rw [hcoming, List.pairwise_append]
    refine ⟨h.increasing n, List.pairwise_singleton _ _, ?_⟩
    intro o ho p hp
    rw [List.mem_singleton.mp hp]
    exact hlate n o ho
  · intro n o ho
    rw [hcoming] at ho
    rw [List.map_append]
    rcases List.mem_append.mp ho with hold | hnew
    · exact List.mem_append_left _ (h.known n o hold)
    · exact List.mem_append_right _ (by simpa using hnew)

theorem compactCommit_marks {s : Indexer} (h : Marks s) {name : String}
    (hrenews : (s.dir name).offsets = []) : Marks (s.compactCommit name) := by
  have hoffsets : ∀ n, ((s.compactCommit name).dir n).offsets = (s.dir n).offsets := by
    intro n
    rw [compactCommit_dir]
    by_cases hn : n = name <;> simp [hn, IndexDir.offsets]
  refine ⟨?_, ?_, h.increasing, h.known, h.mark⟩
  · intro n hne
    rw [hoffsets] at hne ⊢
    rw [compactCommit_dir]
    by_cases hn : n = name
    · subst hn
      exact absurd hrenews hne
    · rw [if_neg hn]
      exact h.marked n hne
  · intro n o ho p hp
    rw [hoffsets] at ho
    exact h.below n o ho p hp

theorem step_marks {c : IndexerConfig} {s t : Indexer} {l : IndexerLabel} (hstep : Step c s l t)
    (horder : s.Orderly l) (hrenews : s.Renews l) (h : Marks s) : Marks t := by
  cases hstep with
  | deliver => exact deliver_marks h horder
  | @event faults event rest phase next => exact takeEvent_marks h next faults
  | @purge faults cmd rest phase next => exact takePurge_marks h cmd rest faults
  | @commit name ok offset phase dirty =>
    cases horder
    exact commit_marks h dirty hrenews
  | @compactOpen name segments free present =>
    unfold compactOpen
    split
    · exact h
    · exact h.same (fun _ => rfl) (fun _ => rfl) (List.Sublist.refl _) rfl rfl
  | @compactCommit name held => exact compactCommit_marks h (hrenews ⟨name, false⟩ (by simp [held]))
  | _ => exact h.same (fun _ => rfl) (fun _ => rfl) (List.Sublist.refl _) rfl rfl

/-- The condition is exact: where it fails, the step leaves the index with a payload
other than the largest offset. -/
theorem not_renews_unmarks {c : IndexerConfig} {s t : Indexer} {l : IndexerLabel}
    (hstep : Step c s l t) (h : Marks s) (hpos : ∀ n, ∀ o ∈ (s.dir n).offsets, 0 < o)
    (hwriters : ∀ n ∈ s.dirtyWriters, n ∈ s.writers) (horder : s.Orderly l)
    (hfails : ¬ s.Renews l) : ∃ n, (t.dir n).offsets ≠ [] ∧ ¬ Marked (t.dir n) := by
  cases hstep with
  | @commit name ok offset phase dirty =>
    cases horder
    simp only [Renews, Classical.not_imp, not_not] at hfails
    obtain ⟨hne, hnone⟩ := hfails
    have hw := hwriters name (AList.lookup_isSome.mp (by simp [dirty]))
    rcases commit_cases c.toExternals s name offset true with ⟨hskip, -⟩ | ⟨-, -, hcommits⟩
    · exact absurd ⟨rfl, hw⟩ hskip
    · have hoffsets := hcommits.offsets name
      rw [if_pos rfl, hnone, List.append_nil] at hoffsets
      have hmark := h.mark name
      rw [dirty, hnone] at hmark
      refine ⟨name, by rw [hoffsets]; exact hne, ?_⟩
      intro hmarked
      have hpayload := hmarked (by rw [hoffsets]; exact hne)
      rw [hoffsets, hcommits.dir, if_pos rfl] at hpayload
      have hmem := (List.max?_eq_some_iff.mp hpayload.symm).1
      have hlt := hpos name offset hmem
      simp at hmark
      omega
  | @compactCommit name held =>
    have hne : (s.dir name).offsets ≠ [] := by
      intro hnil
      apply hfails
      intro held' hheld
      rw [held, Option.mem_some_iff] at hheld
      rw [← hheld]
      exact hnil
    have hdir := compactCommit_dir s name name
    rw [if_pos rfl] at hdir
    have hoffsets : ((s.compactCommit name).dir name).offsets = (s.dir name).offsets := by
      rw [hdir]
      rfl
    refine ⟨name, by rw [hoffsets]; exact hne, ?_⟩
    intro hmarked
    have hpayload := hmarked (by rw [hoffsets]; exact hne)
    rw [hoffsets, hdir] at hpayload
    exact hne (List.max?_eq_none_iff.mp hpayload.symm)
  | _ => exact absurd trivial hfails

/-! ## The watermark of a run -/

/-- The steps of a run that renews every watermark. -/
def Renewing (s : Indexer) (l : IndexerLabel) : Prop := s.Orderly l ∧ s.Renews l

instance (s : Indexer) (l : IndexerLabel) : Decidable (s.Renewing l) :=
  inferInstanceAs (Decidable (_ ∧ _))

theorem run_marks {c : IndexerConfig} {s t : Indexer} {ls : List IndexerLabel} (h : Marks s)
    (hG : Machine.Along (step c) Renewing s ls) (hrun : Machine.run (step c) s ls = some t) :
    Marks t :=
  Machine.run_guarded h (fun _ _ _ hl hstep => step_marks (step_cases hstep) hl.1 hl.2) hG hrun

/-- **The recovery watermark.** In a run whose commits all renew it, the payload of an
index with a committed event is the largest offset committed to it, the payload never
decreases, and no committed event has a larger offset. -/
theorem watermark {c : IndexerConfig} {registry : IndexRegistry} {store : Table String IndexDir}
    {s t : Indexer} {ls ls' : List IndexerLabel}
    (hstart : ∀ n, Marked ((start registry store).dir n))
    (hG : Machine.Along (step c) Renewing (start registry store) (ls ++ ls'))
    (hs : Machine.run (step c) (start registry store) ls = some s)
    (ht : Machine.run (step c) s ls' = some t) :
    (∀ n, Marked (t.dir n)) ∧
    ∀ n, (s.dir n).offsets ≠ [] → ∃ p q, (s.dir n).payload = some p ∧
      (t.dir n).payload = some q ∧ p ≤ q ∧ ∀ o, q < o → o ∉ (t.dir n).offsets := by
  obtain ⟨hG₁, hG₂⟩ := Machine.along_append hG hs
  have hms := run_marks (start_marks hstart) hG₁ hs
  have hmt := run_marks hms hG₂ ht
  refine ⟨hmt.marked, ?_⟩
  intro n hne
  obtain ⟨as, hrefines⟩ := run_refines ht
  obtain ⟨ops, happlied, -⟩ := hrefines.docs n
  have hoffsets : (t.dir n).offsets = (s.dir n).offsets ++ ops.filterMap Op.offset? := by
    simp [IndexDir.offsets, happlied]
  have hne' : (t.dir n).offsets ≠ [] := by
    rw [hoffsets]
    simp [hne]
  have hpayload := hms.marked n hne
  have hpayload' := hmt.marked n hne'
  cases hp : (s.dir n).offsets.max? with
  | none => exact absurd (List.max?_eq_none_iff.mp hp) hne
  | some p =>
    cases hq : (t.dir n).offsets.max? with
    | none => exact absurd (List.max?_eq_none_iff.mp hq) hne'
    | some q =>
      obtain ⟨hmem, -⟩ := List.max?_eq_some_iff.mp hp
      obtain ⟨-, hbound⟩ := List.max?_eq_some_iff.mp hq
      refine ⟨p, q, by rw [hpayload, hp], by rw [hpayload', hq], ?_, ?_⟩
      · apply hbound
        rw [hoffsets]
        exact List.mem_append_left _ hmem
      · intro o ho hin
        have hle := hbound o hin
        omega

/-- Two events, committed one after the other. -/
theorem watermark_example :
    ∃ s t : Indexer, (s.dir "a").payload = some 12 ∧ (t.dir "a").payload = some 24 ∧
      ∀ n, Marked (t.dir n) := by
  let a : IngestEvent := ⟨"a", utf8 "\x7b\x7d"⟩
  let ls : List IndexerLabel := [.deliver ⟨a, 12⟩, .event {}, .check, .tick, .commit "a" true,
    .committed]
  let ls' : List IndexerLabel := [.deliver ⟨a, 24⟩, .schedule ⟨"a", 0⟩, .event {}, .check, .purge {},
    .tick, .commit "a" true, .committed]
  have hs : (Machine.run (step .tiny) (start .tiny ∅) ls).map (fun s => (s.dir "a").payload) =
      some (some 12) := by decide +kernel
  obtain ⟨s, hrun, hpayload⟩ := Option.map_eq_some_iff.mp hs
  have ht : (Machine.run (step .tiny) (start .tiny ∅) (ls ++ ls')).map
      (fun s => (s.dir "a").payload) = some (some 24) := by decide +kernel
  obtain ⟨t, hrun', hpayload'⟩ := Option.map_eq_some_iff.mp ht
  obtain ⟨u, hu, hrest⟩ := Machine.run_append.mp hrun'
  rw [hrun] at hu
  cases hu
  have hstart : ∀ n, Marked ((start .tiny ∅).dir n) := by
    intro n hne
    simp [start, dir, IndexDir.empty, IndexDir.offsets] at hne
  have hG : Machine.Along (step .tiny) Renewing (start .tiny ∅) (ls ++ ls') := by decide +kernel
  exact ⟨s, t, hpayload, hpayload', (watermark hstart hG hrun hrest).1⟩

/-- A purge after the commit of an event takes the payload back to 0. -/
theorem watermark_lost :
    ¬ ∀ (c : IndexerConfig) (registry : IndexRegistry) (ls : List IndexerLabel) (t : Indexer),
      Machine.Along (step c) Orderly (start registry ∅) ls →
      Machine.run (step c) (start registry ∅) ls = some t → ∀ n, Marked (t.dir n) := by
  intro halways
  let a : IngestEvent := ⟨"a", utf8 "\x7b\x7d"⟩
  let ls : List IndexerLabel := [.deliver ⟨a, 12⟩, .event {}, .check, .tick, .commit "a" true,
    .committed, .schedule ⟨"a", 0⟩, .purge {}, .tick, .commit "a" true, .committed]
  have ht : (Machine.run (step .tiny) (start .tiny ∅) ls).map
      (fun t => decide (Marked (t.dir "a"))) = some false := by decide +kernel
  obtain ⟨t, hrun, hmarked⟩ := Option.map_eq_some_iff.mp ht
  have hG : Machine.Along (step .tiny) Orderly (start .tiny ∅) ls := by decide +kernel
  simp only [decide_eq_false_iff_not] at hmarked
  exact hmarked (halways .tiny .tiny ls t hG hrun "a")

end Indexer
end Edgewit
