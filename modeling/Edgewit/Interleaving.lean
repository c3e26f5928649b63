import Mathlib.Data.List.Basic
import Mathlib.Tactic.Common

/-!
# Interleavings

Lists that grow side by side, and the list of everything in the order in which it came. A part
may join while others grow.
-/

namespace Interleavings

variable {α β : Type*} {parts : List (List α)} {whole part : List α}

/-- `whole` is made of the parts, each in its own order. -/
inductive Interleaved : List (List α) → List α → Prop
  | nil : Interleaved [] []
  | join {parts : List (List α)} {whole : List α} :
      Interleaved parts whole → Interleaved (parts ++ [[]]) whole
  | grow {parts : List (List α)} {whole part : List α} {k : Nat} {a : α} :
      Interleaved parts whole → parts[k]? = some part →
      Interleaved (parts.set k (part ++ [a])) (whole ++ [a])

theorem Interleaved.sublist (h : Interleaved parts whole) (hpart : part ∈ parts) :
    part.Sublist whole := by
  induction h generalizing part with
  | nil => cases hpart
  | join _ ih =>
    rcases List.mem_append.mp hpart with hold | hnew
    · exact ih hold
    · rw [List.mem_singleton.mp hnew]
      exact List.nil_sublist _
  | grow _ hk ih =>
    rcases List.mem_or_eq_of_mem_set hpart with hold | rfl
    · exact (ih hold).trans (List.sublist_append_left _ _)
    · exact (ih (List.mem_of_getElem? hk)).append (List.Sublist.refl _)

/-- What is made of the elements is interleaved in the same way. -/
theorem Interleaved.filterMap (f : α → Option β) (h : Interleaved parts whole) :
    Interleaved (parts.map fun part => part.filterMap f) (whole.filterMap f) := by
  induction h with
  | nil => exact .nil
  | join _ ih =>
    rw [List.map_append]
    exact ih.join
  | @grow parts whole part k a _ hk ih =>
    have hk' : (parts.map fun part => part.filterMap f)[k]? = some (part.filterMap f) := by
      rw [List.getElem?_map, hk, Option.map_some]
    rw [List.map_set, List.filterMap_append, List.filterMap_append]
    cases hf : f a with
    | none =>
      rw [List.filterMap_cons_none hf, List.filterMap_nil, List.append_nil, List.append_nil]
      obtain ⟨hlt, heq⟩ := List.getElem?_eq_some_iff.mp hk'
      rw [← heq, List.set_getElem_self hlt]
      exact ih
    | some b =>
      rw [List.filterMap_cons_some hf, List.filterMap_nil]
      exact ih.grow hk'

end Interleavings
