import Mathlib.Data.List.Basic

/-!
# Segments that tile a range

Generic results about segments of a sequence, each with the position at which it
starts: `Tiles a segs b` when they follow one another from `a` to `b` without gap
or overlap.
-/

namespace Tiling

variable {α : Type*}

/-- Part of a sequence, and the position of its first item. -/
structure Segment (α : Type*) where
  start : Nat
  items : List α
  deriving DecidableEq, Repr

def Segment.stop (s : Segment α) : Nat := s.start + s.items.length

def Tiles : Nat → List (Segment α) → Nat → Prop
  | a, [], b => a = b
  | a, s :: segs, b => s.start = a ∧ Tiles s.stop segs b

/-- No position lies in both segments. -/
def Segment.Apart (s t : Segment α) : Prop := s.stop ≤ t.start ∨ t.stop ≤ s.start

@[simp] theorem tiles_nil {a b : Nat} : Tiles a ([] : List (Segment α)) b ↔ a = b := Iff.rfl

@[simp] theorem tiles_cons {a b : Nat} {s : Segment α} {segs : List (Segment α)} :
    Tiles a (s :: segs) b ↔ s.start = a ∧ Tiles s.stop segs b := Iff.rfl

theorem tiles_append {a b : Nat} {segs more : List (Segment α)} :
    Tiles a (segs ++ more) b ↔ ∃ c, Tiles a segs c ∧ Tiles c more b := by
  induction segs generalizing a with
  | nil => simp
  | cons s segs ih =>
    simp only [List.cons_append, tiles_cons, ih]
    constructor
    · rintro ⟨hs, c, hsegs, hmore⟩
      exact ⟨c, ⟨hs, hsegs⟩, hmore⟩
    · rintro ⟨c, ⟨hs, hsegs⟩, hmore⟩
      exact ⟨hs, c, hsegs, hmore⟩

theorem tiles_concat {a b : Nat} {segs : List (Segment α)} {s : Segment α} :
    Tiles a (segs ++ [s]) b ↔ Tiles a segs s.start ∧ s.stop = b := by
  rw [tiles_append]
  constructor
  · rintro ⟨c, hsegs, rfl, hstop⟩
    exact ⟨hsegs, hstop⟩
  · rintro ⟨hsegs, hstop⟩
    exact ⟨_, hsegs, rfl, hstop⟩

/-- Every segment lies within the range. -/
theorem Tiles.within {a b : Nat} {segs : List (Segment α)} (h : Tiles a segs b) :
    a ≤ b ∧ ∀ s ∈ segs, a ≤ s.start ∧ s.stop ≤ b := by
  induction segs generalizing a with
  | nil =>
    cases h
    exact ⟨Nat.le_refl _, by simp⟩
  | cons s segs ih =>
    obtain ⟨rfl, hrest⟩ := h
    obtain ⟨hle, hall⟩ := ih hrest
    have hstop : s.start ≤ s.stop := Nat.le_add_right _ _
    refine ⟨Nat.le_trans hstop hle, ?_⟩
    intro t ht
    rcases List.mem_cons.mp ht with rfl | ht
    · exact ⟨Nat.le_refl _, hle⟩
    · exact ⟨Nat.le_trans hstop (hall t ht).1, (hall t ht).2⟩

/-- A tiling lists its segments in order. -/
theorem Tiles.ordered {a b : Nat} {segs : List (Segment α)} (h : Tiles a segs b) :
    segs.Pairwise fun s t => s.stop ≤ t.start := by
  induction segs generalizing a with
  | nil => exact List.Pairwise.nil
  | cons s segs ih =>
    obtain ⟨-, hrest⟩ := h
    exact List.Pairwise.cons (fun t ht => (hrest.within.2 t ht).1) (ih hrest)

theorem Tiles.sorted {a b : Nat} {segs : List (Segment α)} (h : Tiles a segs b) :
    segs.Pairwise fun s t => s.start ≤ t.start :=
  h.ordered.imp fun hst => Nat.le_trans (Nat.le_add_right _ _) hst

theorem Tiles.apart {a b : Nat} {segs : List (Segment α)} (h : Tiles a segs b) :
    segs.Pairwise Segment.Apart := h.ordered.imp Or.inl

/-- The items of a tiling are those of the whole range. -/
theorem Tiles.length {a b : Nat} {segs : List (Segment α)} (h : Tiles a segs b) :
    b = a + (segs.flatMap Segment.items).length := by
  induction segs generalizing a with
  | nil =>
    cases h
    simp
  | cons s segs ih =>
    obtain ⟨rfl, hrest⟩ := h
    have hb := ih hrest
    simp only [List.flatMap_cons, List.length_append]
    rw [Segment.stop] at hb
    omega

end Tiling
