import Mathlib.Data.List.Basic
import Mathlib.Tactic.Common

/-!
# Additions and deletions

A list of items under operations that add one at the end or delete those of a kind, of which
the items added later are spared. `foldl_apply` says what is left without going through the
operations one by one.
-/

namespace Edits

variable {α : Type*}

inductive Edit (α : Type*) where
  | add (item : α)
  | delete (old : α → Bool)

def Edit.apply (items : List α) : Edit α → List α
  | .add item => items ++ [item]
  | .delete old => items.filter fun item => !old item

def Edit.spares (item : α) : Edit α → Bool
  | .add _ => true
  | .delete old => !old item

def Edit.item? : Edit α → Option α
  | .add item => some item
  | .delete _ => none

/-- No deletion takes the item. -/
def spared (edits : List (Edit α)) (item : α) : Bool := edits.all (Edit.spares item)

/-- The items added that no later deletion takes. -/
def survivors : List (Edit α) → List α
  | [] => []
  | .add item :: edits =>
    if spared edits item then item :: survivors edits else survivors edits
  | .delete _ :: edits => survivors edits

def added (edits : List (Edit α)) : List α := edits.filterMap Edit.item?

theorem added_append (as bs : List (Edit α)) : added (as ++ bs) = added as ++ added bs :=
  List.filterMap_append

@[simp] theorem spared_nil (item : α) : spared [] item = true := rfl

theorem foldl_apply (edits : List (Edit α)) (items : List α) :
    edits.foldl Edit.apply items = items.filter (spared edits) ++ survivors edits := by
  induction edits generalizing items with
  | nil =>
    have hall : items.filter (spared []) = items := List.filter_eq_self.mpr fun _ _ => rfl
    rw [hall]
    exact (List.append_nil items).symm
  | cons edit edits ih =>
    rw [List.foldl_cons, ih]
    cases edit with
    | add item =>
      have hsame : items.filter (spared (.add item :: edits)) = items.filter (spared edits) :=
        List.filter_congr fun _ _ => rfl
      rw [hsame, Edit.apply, List.filter_append, List.append_assoc]
      cases h : spared edits item <;> simp [survivors, h]
    | delete old =>
      rw [Edit.apply, List.filter_filter]
      congr 1
      apply List.filter_congr
      intro item _
      exact Bool.and_comm _ _

theorem survivors_sublist (edits : List (Edit α)) : (survivors edits).Sublist (added edits) := by
  induction edits with
  | nil => exact List.Sublist.refl _
  | cons edit edits ih =>
    cases edit with
    | add item =>
      have hadded : added (.add item :: edits) = item :: added edits := rfl
      rw [hadded, survivors]
      split
      · exact ih.cons_cons item
      · exact ih.cons item
    | delete old => exact ih

/-- Nothing is left but what was there and what was added. -/
theorem foldl_sublist (edits : List (Edit α)) (items : List α) :
    (edits.foldl Edit.apply items).Sublist (items ++ added edits) := by
  rw [foldl_apply]
  exact List.filter_sublist.append (survivors_sublist edits)

theorem mem_foldl {edits : List (Edit α)} {items : List α} {item : α}
    (h : item ∈ edits.foldl Edit.apply items) : item ∈ items ∨ item ∈ added edits :=
  List.mem_append.mp ((foldl_sublist edits items).mem h)

theorem mem_foldl_of_survivors {edits : List (Edit α)} {item : α} (items : List α)
    (h : item ∈ survivors edits) : item ∈ edits.foldl Edit.apply items := by
  rw [foldl_apply]
  exact List.mem_append_right _ h

end Edits
