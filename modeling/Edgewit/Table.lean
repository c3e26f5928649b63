import Mathlib.Algebra.BigOperators.Group.List.Basic
import Mathlib.Algebra.GroupWithZero.Nat
import Mathlib.Data.List.AList

/-!
# Tables

A table is Mathlib's association list without duplicate keys, at one value type:

* `total`: a sum over the entries, and how `insert` and `erase` change it;
* `lookup_insert_eq`, `lookup_orInsert`, `lookup_erase_eq`, `lookup_restrict`: a lookup after a
  change, by cases on the key.
-/

/-- A map with finitely many keys. -/
abbrev Table (κ β : Type*) := AList fun _ : κ => β

namespace Table

variable {κ β : Type*} [DecidableEq κ]

theorem lookup_insert_eq (t : Table κ β) (a k : κ) (b : β) :
    (t.insert a b).lookup k = if k = a then some b else t.lookup k := by
  by_cases h : k = a
  · subst h; simp
  · simp [h, AList.lookup_insert_ne h]

theorem lookup_erase_eq (t : Table κ β) (a k : κ) :
    (t.erase a).lookup k = if k = a then none else t.lookup k := by
  by_cases h : k = a
  · subst h; simp
  · simp [h, AList.lookup_erase_ne h]

/-- `is_empty()`. -/
def isEmpty (t : Table κ β) : Bool := t.entries.isEmpty

omit [DecidableEq κ] in
@[simp] theorem isEmpty_iff {t : Table κ β} : isEmpty t = true ↔ t = ∅ := by
  rw [isEmpty, List.isEmpty_iff, ← AList.empty_entries]
  exact ⟨AList.ext, fun h => by rw [h]⟩

/-- `entry(k).or_insert(b)`. -/
def orInsert (t : Table κ β) (k : κ) (b : β) : Table κ β := if k ∈ t then t else t.insert k b

theorem lookup_orInsert (t : Table κ β) (a k : κ) (b : β) :
    (t.orInsert a b).lookup k = if k = a then some ((t.lookup k).getD b) else t.lookup k := by
  unfold orInsert
  by_cases hmem : a ∈ t
  · rw [if_pos hmem]
    by_cases h : k = a
    · subst h
      obtain ⟨b', hb'⟩ := Option.isSome_iff_exists.mp (AList.lookup_isSome.mpr hmem)
      simp [hb']
    · simp [h]
  · rw [if_neg hmem, lookup_insert_eq]
    by_cases h : k = a
    · subst h
      simp [AList.lookup_eq_none.mpr hmem]
    · simp [h]

/-- `retain`, by the key. -/
def restrict (t : Table κ β) (keep : κ → Bool) : Table κ β :=
  ⟨t.entries.filter fun e => keep e.1, t.nodupKeys.sublist List.filter_sublist⟩

theorem lookup_restrict (t : Table κ β) (keep : κ → Bool) (k : κ) :
    (t.restrict keep).lookup k = if keep k = true then t.lookup k else none := by
  ext b
  have hkept : (t.restrict keep).lookup k = some b ↔ t.lookup k = some b ∧ keep k = true := by
    rw [← Option.mem_def, ← Option.mem_def, AList.mem_lookup_iff, AList.mem_lookup_iff]
    exact List.mem_filter
  rw [hkept]
  split <;> simp [*]

/-- The sum of `f` over the values. -/
def total (f : β → Nat) (t : Table κ β) : Nat := (t.entries.map fun e => f e.2).sum

omit [DecidableEq κ] in
@[simp] theorem total_empty (f : β → Nat) : total f (∅ : Table κ β) = 0 := rfl

theorem total_eq_zero_iff {f : β → Nat} {t : Table κ β} :
    total f t = 0 ↔ ∀ k b, t.lookup k = some b → f b = 0 := by
  rw [total, List.sum_eq_zero_iff_forall_eq_nat]
  constructor
  · intro h k b hb
    exact h _ (List.mem_map.mpr ⟨⟨k, b⟩, AList.mem_lookup_iff.mp hb, rfl⟩)
  · intro h n hn
    obtain ⟨⟨k, b⟩, hmem, rfl⟩ := List.mem_map.mp hn
    exact h k b (AList.mem_lookup_iff.mpr hmem)

theorem total_erase (f : β → Nat) {t : Table κ β} {a : κ} {b : β} (h : t.lookup a = some b) :
    total f t = f b + total f (t.erase a) := by
  have hmem : a ∈ t.entries.keys := AList.mem_keys.mp (AList.lookup_isSome.mp (by simp [h]))
  obtain ⟨b', l₁, l₂, hfresh, hl, herase⟩ := List.exists_of_kerase hmem
  have hb : b' = b := by
    have hfound : t.lookup a = some b' := by
      rw [AList.lookup, hl, List.dlookup_append, List.dlookup_eq_none.mpr hfresh]
      simp
    rw [h] at hfound
    exact (Option.some.inj hfound).symm
  subst hb
  have hrest : (t.erase a).entries = l₁ ++ l₂ := herase
  simp only [total, hrest, hl, List.map_append, List.map_cons, List.sum_append, List.sum_cons]
  omega

theorem total_insert_new (f : β → Nat) {t : Table κ β} {a : κ} (b : β) (h : t.lookup a = none) :
    total f (t.insert a b) = f b + total f t := by
  have hentries := @AList.entries_insert_of_notMem κ (fun _ => β) _ a b t (AList.lookup_eq_none.mp h)
  simp only [total, hentries, List.map_cons, List.sum_cons]

theorem total_insert (f : β → Nat) {t : Table κ β} {a : κ} {b : β} (b' : β)
    (h : t.lookup a = some b) : total f (t.insert a b') + f b = f b' + total f t := by
  have hrest : (t.erase a).entries = t.entries.kerase a := rfl
  rw [total_erase f h]
  simp only [total, AList.entries_insert, List.map_cons, List.sum_cons, hrest]
  omega

end Table
