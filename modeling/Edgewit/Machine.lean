import Mathlib.Algebra.BigOperators.Group.List.Basic
import Mathlib.Algebra.GroupWithZero.Nat
import Mathlib.Data.List.Induction

/-!
# Runs of a step function

Generic results about a machine given by `step : S → L → Option S`:

* `run`: the labels of a list, one after the other;
* `run_invariant`, `run_history`: what every step keeps, every run keeps; the
  second form may speak about the labels taken so far;
* `run_simulates`: what a run does to a part of its state is a run of another machine;
* `run_filter`: labels that do not show in a state can be left out;
* `run_amortized`, `exists_stuck`: a measure that the steps use up bounds the runs;
* `Along`: every step of a run meets a condition on the state before it, and
  `along_iff_visits`: all the states of a run are good exactly when every step meets the
  condition.
-/

namespace Machine

variable {S L : Type*} (step : S → L → Option S)

/-- The state after the labels, or `none` when one of them is not enabled. -/
def run : S → List L → Option S
  | s, [] => some s
  | s, l :: ls => (step s l).bind (run · ls)

/-- Every step of the run meets `G`, a condition on the state before the step
and its label. -/
def Along (G : S → L → Prop) : S → List L → Prop
  | _, [] => True
  | s, l :: ls => G s l ∧ ∀ t, step s l = some t → Along G t ls

variable {step}

@[simp] theorem run_nil (s : S) : run step s [] = some s := rfl

theorem run_cons {s t : S} {l : L} {ls : List L} :
    run step s (l :: ls) = some t ↔ ∃ u, step s l = some u ∧ run step u ls = some t := by
  simp [run, Option.bind_eq_some_iff]

theorem run_append {s t : S} {as bs : List L} :
    run step s (as ++ bs) = some t ↔ ∃ u, run step s as = some u ∧ run step u bs = some t := by
  induction as generalizing s with
  | nil => simp
  | cons a as ih =>
    simp only [List.cons_append, run_cons, ih]
    constructor
    · rintro ⟨u, hu, v, hv, ht⟩; exact ⟨v, ⟨u, hu, hv⟩, ht⟩
    · rintro ⟨v, ⟨u, hu, hv⟩, ht⟩; exact ⟨u, hu, v, hv, ht⟩

theorem run_concat {s t : S} {ls : List L} {l : L} :
    run step s (ls ++ [l]) = some t ↔ ∃ u, run step s ls = some u ∧ step u l = some t := by
  simp [run_append, run_cons]

theorem along_append {G : S → L → Prop} {s t : S} {as bs : List L}
    (h : Along step G s (as ++ bs)) (ha : run step s as = some t) :
    Along step G s as ∧ Along step G t bs := by
  induction as generalizing s with
  | nil => cases ha; exact ⟨trivial, h⟩
  | cons a as ih =>
    obtain ⟨u, hu, hrun⟩ := run_cons.mp ha
    obtain ⟨hG, hrest⟩ := h
    refine ⟨⟨hG, fun v hv => ?_⟩, (ih (hrest u hu) hrun).2⟩
    obtain rfl : u = v := Option.some.inj (hu.symm.trans hv)
    exact (ih (hrest u hu) hrun).1

theorem along_concat {G : S → L → Prop} {s t : S} {ls : List L} {l : L}
    (h : Along step G s ls) (hrun : run step s ls = some t) (hl : G t l) :
    Along step G s (ls ++ [l]) := by
  induction ls generalizing s with
  | nil => cases hrun; exact ⟨hl, fun _ _ => trivial⟩
  | cons a ls ih =>
    obtain ⟨u, hu, hrest⟩ := run_cons.mp hrun
    refine ⟨h.1, fun v hv => ?_⟩
    obtain rfl : u = v := Option.some.inj (hu.symm.trans hv)
    exact ih (h.2 u hu) hrest

/-- A run and one more step. -/
theorem along_concat_iff {G : S → L → Prop} {s t : S} {ls : List L} {l : L}
    (hrun : run step s ls = some t) :
    Along step G s (ls ++ [l]) ↔ Along step G s ls ∧ G t l := by
  constructor
  · intro h
    obtain ⟨hls, hlast⟩ := along_append h hrun
    exact ⟨hls, hlast.1⟩
  · rintro ⟨hls, hl⟩
    exact along_concat hls hrun hl

instance decidableAlong {G : S → L → Prop} [∀ s l, Decidable (G s l)] :
    ∀ s ls, Decidable (Along step G s ls)
  | _, [] => isTrue trivial
  | s, l :: ls =>
    match h : step s l with
    | none => decidable_of_iff (G s l) (by simp [Along, h])
    | some t =>
      have : Decidable (Along step G t ls) := decidableAlong t ls
      decidable_of_iff (G s l ∧ Along step G t ls) (by simp [Along, h])

/-- A condition on labels alone is checked label by label. -/
theorem along_of_labels {P : L → Prop} {s : S} {ls : List L} (h : ∀ l ∈ ls, P l) :
    Along step (fun _ l => P l) s ls := by
  induction ls generalizing s with
  | nil => trivial
  | cons l ls ih =>
    exact ⟨h l List.mem_cons_self, fun t _ => ih fun x hx => h x (List.mem_cons_of_mem l hx)⟩

/-- **History rule.** A relation between the labels taken so far and the state,
true at the start and kept by each guarded step, holds after every run that
meets the guard. -/
theorem run_history {G : S → L → Prop} {I : List L → S → Prop} {s t : S} {ls : List L}
    (h0 : I [] s)
    (hstep : ∀ pre u l v, run step s pre = some u → G u l → step u l = some v → I pre u →
      I (pre ++ [l]) v)
    (hG : Along step G s ls) (h : run step s ls = some t) : I ls t := by
  induction ls using List.reverseRecOn generalizing t with
  | nil => cases h; exact h0
  | append_singleton ls l ih =>
    obtain ⟨u, hu, hl⟩ := run_concat.mp h
    obtain ⟨hpre, hlast⟩ := along_append hG hu
    exact hstep ls u l t hu hlast.1 hl (ih hpre hu)

/-- **Guarded invariant rule.** -/
theorem run_guarded {G : S → L → Prop} {I : S → Prop} {s t : S} {ls : List L} (h0 : I s)
    (hstep : ∀ u l v, G u l → step u l = some v → I u → I v)
    (hG : Along step G s ls) (h : run step s ls = some t) : I t :=
  run_history (I := fun _ => I) h0 (fun _ u l v _ => hstep u l v) hG h

/-- **Invariant rule.** What holds at the start and is kept by every step holds
after every run. -/
theorem run_invariant {I : S → Prop} {s t : S} {ls : List L} (h0 : I s)
    (hstep : ∀ u l v, step u l = some v → I u → I v) (h : run step s ls = some t) : I t :=
  run_guarded (G := fun _ _ => True) h0 (fun u l v _ => hstep u l v)
    (along_of_labels fun _ _ => trivial) h

/-- **Erasure rule.** If the steps with other labels than those of `Q` do not show in the other
state, the labels of `Q` alone run from it. -/
theorem run_filter {R : S → S → Prop} {Q : L → Bool} {s s' t : S} {ls : List L} (h0 : R s s')
    (hkeep : ∀ u u' l v, R u u' → Q l = true → step u l = some v →
      ∃ v', step u' l = some v' ∧ R v v')
    (hdrop : ∀ u u' l v, R u u' → Q l = false → step u l = some v → R v u')
    (h : run step s ls = some t) : ∃ t', run step s' (ls.filter Q) = some t' ∧ R t t' := by
  induction ls generalizing s s' with
  | nil =>
    cases h
    exact ⟨s', rfl, h0⟩
  | cons l ls ih =>
    obtain ⟨u, hu, hrest⟩ := run_cons.mp h
    cases hl : Q l with
    | true =>
      obtain ⟨u', hu', hR⟩ := hkeep s s' l u h0 hl hu
      obtain ⟨t', ht', hRt⟩ := ih hR hrest
      rw [List.filter_cons_of_pos hl]
      exact ⟨t', run_cons.mpr ⟨u', hu', ht'⟩, hRt⟩
    | false =>
      rw [List.filter_cons_of_neg (by simp [hl])]
      exact ih (hdrop s s' l u h0 hl hu) hrest

/-- **Simulation rule.** If each step with a label of the run moves the image of the state
by a run of the other machine, with labels that `Q` allows, so does the whole run. The
invariant may be used for it. -/
theorem run_simulates {S' L' : Type*} {step' : S' → L' → Option S'} {f : S → S'} {I : S → Prop}
    {Q : L → L' → Prop} {s t : S} {ls : List L} (h0 : I s)
    (hstep : ∀ u l v, I u → l ∈ ls → step u l = some v →
      I v ∧ ∃ ls', run step' (f u) ls' = some (f v) ∧ ∀ l' ∈ ls', Q l l')
    (h : run step s ls = some t) :
    ∃ ls', run step' (f s) ls' = some (f t) ∧ ∀ l' ∈ ls', ∃ l ∈ ls, Q l l' := by
  induction ls generalizing s with
  | nil =>
    cases h
    exact ⟨[], rfl, by simp⟩
  | cons l ls ih =>
    obtain ⟨u, hu, hrun⟩ := run_cons.mp h
    obtain ⟨hI, as, has, hQ⟩ := hstep s l u h0 List.mem_cons_self hu
    obtain ⟨bs, hbs, hQ'⟩ := ih hI
      (fun v l' w hv hl' => hstep v l' w hv (List.mem_cons_of_mem l hl')) hrun
    refine ⟨as ++ bs, run_append.mpr ⟨f u, has, hbs⟩, ?_⟩
    intro l' hl'
    rcases List.mem_append.mp hl' with hl' | hl'
    · exact ⟨l, List.mem_cons_self, hQ l' hl'⟩
    · obtain ⟨k, hk, hkl⟩ := hQ' l' hl'
      exact ⟨k, List.mem_cons_of_mem l hk, hkl⟩

/-- **Amortised bound.** Each step uses `k` of the measure up, and what its label brings. -/
theorem run_amortized {m : S → Nat} {cost : L → Nat} {k : Nat} {s t : S} {ls : List L}
    (hstep : ∀ u l v, step u l = some v → m v + k ≤ m u + cost l) (h : run step s ls = some t) :
    k * ls.length + m t ≤ m s + (ls.map cost).sum := by
  induction ls generalizing s with
  | nil =>
    cases h
    simp
  | cons l ls ih =>
    obtain ⟨u, hu, hrun⟩ := run_cons.mp h
    have hhead := hstep s l u hu
    have htail := ih hrun
    rw [List.length_cons, Nat.mul_succ, List.map_cons, List.sum_cons]
    omega

/-- Steps that use a measure up lead to a state where no more of them are enabled. -/
theorem exists_stuck {m : S → Nat} {P : L → Prop}
    (hstep : ∀ u l v, P l → step u l = some v → m v < m u) (s : S) :
    ∃ ls t, (∀ l ∈ ls, P l) ∧ run step s ls = some t ∧ ∀ l, P l → step t l = none := by
  induction hm : m s using Nat.strongRecOn generalizing s with
  | ind n ih =>
    by_cases hstuck : ∀ l, P l → step s l = none
    · exact ⟨[], s, by simp, rfl, hstuck⟩
    · simp only [not_forall, ← Option.isSome_iff_ne_none, Option.isSome_iff_exists] at hstuck
      obtain ⟨l, hl, u, hu⟩ := hstuck
      have hless := hstep s l u hl hu
      obtain ⟨ls, t, hls, hrun, ht⟩ := ih (m u) (by omega) u rfl
      refine ⟨l :: ls, t, ?_, run_cons.mpr ⟨u, hu, hrun⟩, ht⟩
      exact List.forall_mem_cons.mpr ⟨hl, hls⟩

/-- **Exact guard rule.** The guard keeps an invariant of the good states. If after a step
that does not meet it the state is never good, a run visits good states only exactly when
all its steps meet the guard. -/
theorem along_iff_visits {G : S → L → Prop} {I W : S → Prop} {s t : S} {ls : List L} (h0 : I s)
    (hgood : ∀ u, I u → W u)
    (hkeep : ∀ u v, ∀ l ∈ ls, I u → G u l → step u l = some v → I v)
    (hneeded : ∀ u v, ∀ l ∈ ls, I u → step u l = some v → W v → G u l)
    (h : run step s ls = some t) :
    Along step G s ls ↔ ∀ pre u, pre <+: ls → run step s pre = some u → W u := by
  induction ls generalizing s with
  | nil =>
    refine ⟨fun _ pre u hpre hu => ?_, fun _ => trivial⟩
    obtain rfl := List.prefix_nil.mp hpre
    cases hu
    exact hgood s h0
  | cons l ls ih =>
    obtain ⟨v, hv, hrun⟩ := run_cons.mp h
    have hmem : l ∈ l :: ls := List.mem_cons_self
    have hrest := fun hI : I v => ih hI
      (fun a b x hx => hkeep a b x (List.mem_cons_of_mem l hx))
      (fun a b x hx => hneeded a b x (List.mem_cons_of_mem l hx)) hrun
    constructor
    · rintro ⟨hl, hG⟩ pre u hpre hu
      cases pre with
      | nil =>
        cases hu
        exact hgood s h0
      | cons a pre =>
        obtain ⟨rfl, hbelow⟩ := List.cons_prefix_cons.mp hpre
        obtain ⟨w, hw, hu⟩ := run_cons.mp hu
        obtain rfl : v = w := Option.some.inj (hv.symm.trans hw)
        exact (hrest (hkeep s v a hmem h0 hl hv)).mp (hG v hv) pre u hbelow hu
    · intro hW
      have hl : G s l := hneeded s v l hmem h0 hv (hW [l] v ⟨ls, rfl⟩ (run_cons.mpr ⟨v, hv, rfl⟩))
      refine ⟨hl, fun w hw => ?_⟩
      obtain rfl : v = w := Option.some.inj (hv.symm.trans hw)
      refine (hrest (hkeep s v l hmem h0 hl hv)).mpr fun pre u hpre hu => ?_
      exact hW (l :: pre) u (List.cons_prefix_cons.mpr ⟨rfl, hpre⟩) (run_cons.mpr ⟨v, hv, hu⟩)

/-- The exact guard rule where a step from a good state leads to a good one exactly when it
meets the guard. -/
theorem along_iff {G : S → L → Prop} {I : S → Prop} {s t : S} {ls : List L} (h0 : I s)
    (hstep : ∀ u l v, I u → step u l = some v → (I v ↔ G u l)) (h : run step s ls = some t) :
    Along step G s ls ↔ ∀ pre u, pre <+: ls → run step s pre = some u → I u :=
  along_iff_visits h0 (fun _ hu => hu) (fun u v l _ hu hl hv => (hstep u l v hu hv).mpr hl)
    (fun u v l _ hu hv => (hstep u l v hu hv).mp) h

end Machine
