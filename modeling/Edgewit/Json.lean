import Mathlib.Data.List.Nodup
import Mathlib.Data.String.Basic

/-!
# JSON values

`serde_json::Value`. An object is a `BTreeMap`, here the list of its members with
the keys in order; the numbers keep serde_json's three representations.
-/

namespace Edgewit

/-- `serde_json::Number`: a float is its bits. -/
inductive Number where
  | posInt (n : UInt64)
  | negInt (n : Int64)
  | float (bits : UInt64)
  deriving DecidableEq, Repr

inductive Json where
  | null
  | bool (b : Bool)
  | number (n : Number)
  | string (s : String)
  | array (items : List Json)
  | object (members : List (String × Json))
  deriving Repr, BEq

/-- The members of an object. -/
abbrev JsonMap := List (String × Json)

namespace Json

def isNull : Json → Bool
  | .null => true
  | _ => false

def isString : Json → Bool
  | .string _ => true
  | _ => false

def isBoolean : Json → Bool
  | .bool _ => true
  | _ => false

def isArray : Json → Bool
  | .array _ => true
  | _ => false

def isNumber : Json → Bool
  | .number _ => true
  | _ => false

/-- An integer from `i64::MIN` to `i64::MAX`. -/
def isI64 : Json → Bool
  | .number (.posInt n) => n ≤ 9223372036854775807
  | .number (.negInt _) => true
  | _ => false

/-- An integer from 0 to `u64::MAX`. -/
def isU64 : Json → Bool
  | .number (.posInt _) => true
  | _ => false

def asStr : Json → Option String
  | .string s => some s
  | _ => none

end Json

namespace JsonMap

def get? (obj : JsonMap) (key : String) : Option Json := List.lookup key obj

def insert (key : String) (val : Json) : JsonMap → JsonMap
  | [] => [(key, val)]
  | (k, v) :: rest =>
    if key < k then (key, val) :: (k, v) :: rest
    else if key = k then (key, val) :: rest
    else (k, v) :: insert key val rest

def remove (obj : JsonMap) (key : String) : JsonMap := obj.filter fun m => m.1 ≠ key

@[simp] theorem get?_nil (key : String) : get? [] key = none := rfl

theorem get?_cons (k key : String) (v : Json) (rest : JsonMap) :
    get? ((k, v) :: rest) key = if key = k then some v else get? rest key := by
  by_cases h : key = k
  · subst h; simp [get?]
  · have hb : (key == k) = false := beq_false_of_ne h
    simp [get?, List.lookup_cons, hb, h]

/-- A read after an insertion. -/
theorem get?_insert (obj : JsonMap) (key k : String) (val : Json) :
    get? (insert key val obj) k = if k = key then some val else get? obj k := by
  induction obj with
  | nil => simp [insert, get?_cons]
  | cons m rest ih =>
    obtain ⟨k', v⟩ := m
    unfold insert
    split
    · rw [get?_cons]
    split
    · rename_i heq
      subst heq
      simp only [get?_cons]
      by_cases h : k = key <;> simp [h]
    · rename_i hne
      simp only [get?_cons, ih]
      by_cases h : k = k'
      · subst h
        simp [Ne.symm hne]
      · simp [h]

theorem get?_of_mem {obj : JsonMap} (hobj : (obj.map Prod.fst).Nodup) {m : String × Json}
    (h : m ∈ obj) : obj.get? m.1 = some m.2 := by
  induction obj with
  | nil => cases h
  | cons head rest ih =>
    rw [List.map_cons, List.nodup_cons] at hobj
    rw [get?_cons]
    rcases List.mem_cons.mp h with rfl | hrest
    · rw [if_pos rfl]
    · have hne : m.1 ≠ head.1 := fun heq => hobj.1 (heq ▸ List.mem_map_of_mem hrest)
      rw [if_neg hne]
      exact ih hobj.2 hrest

theorem mem_insert {obj : JsonMap} {key : String} {val : Json} {m : String × Json}
    (h : m ∈ insert key val obj) : m = (key, val) ∨ m ∈ obj := by
  induction obj with
  | nil => exact Or.inl (List.mem_singleton.mp h)
  | cons head rest ih =>
    unfold insert at h
    split at h
    · exact List.mem_cons.mp h
    split at h
    · exact (List.mem_cons.mp h).imp id (List.mem_cons_of_mem _)
    · rcases List.mem_cons.mp h with hhead | hrest
      · exact Or.inr (hhead ▸ List.mem_cons_self)
      · exact (ih hrest).imp id (List.mem_cons_of_mem _)

/-- A `BTreeMap` holds its keys in order. -/
def Sorted (obj : JsonMap) : Prop := (obj.map Prod.fst).Pairwise (· < ·)

instance (obj : JsonMap) : Decidable obj.Sorted := inferInstanceAs (Decidable (List.Pairwise _ _))

theorem Sorted.nodup {obj : JsonMap} (h : obj.Sorted) : (obj.map Prod.fst).Nodup := h.imp ne_of_lt

theorem mem_of_get? {obj : JsonMap} {key : String} {val : Json} (h : obj.get? key = some val) :
    (key, val) ∈ obj := by
  obtain ⟨before, after, rfl, -⟩ := List.lookup_eq_some_iff.mp h
  simp

/-- An object with its keys in order is known by what it holds under each key. -/
theorem Sorted.ext {a b : JsonMap} (ha : a.Sorted) (hb : b.Sorted)
    (h : ∀ key, a.get? key = b.get? key) : a = b := by
  have hmem : ∀ m, m ∈ a ↔ m ∈ b := by
    intro m
    constructor
    · intro hm
      exact mem_of_get? ((h m.1).symm.trans (get?_of_mem ha.nodup hm))
    · intro hm
      exact mem_of_get? ((h m.1).trans (get?_of_mem hb.nodup hm))
  have hperm := (List.perm_ext_iff_of_nodup ha.nodup.of_map hb.nodup.of_map).mpr hmem
  have ha' : a.Pairwise fun m n => m.1 < n.1 := List.pairwise_map.mp ha
  have hb' : b.Pairwise fun m n => m.1 < n.1 := List.pairwise_map.mp hb
  exact List.Perm.eq_of_pairwise (fun m n _ _ hmn hnm => absurd hnm (lt_asymm hmn)) ha' hb' hperm

theorem Sorted.insert {obj : JsonMap} (h : obj.Sorted) (key : String) (val : Json) :
    (insert key val obj).Sorted := by
  have hkeys : ∀ (obj : JsonMap) (bound : String), (∀ m ∈ obj, bound < m.1) → bound < key →
      ∀ m ∈ JsonMap.insert key val obj, bound < m.1 := by
    intro obj bound hobj hkey m hm
    rcases mem_insert hm with rfl | hold
    · exact hkey
    · exact hobj m hold
  induction obj with
  | nil => simp [JsonMap.insert, Sorted]
  | cons head rest ih =>
    obtain ⟨k, v⟩ := head
    rw [Sorted, List.pairwise_map, List.pairwise_cons] at h
    have hrest : JsonMap.Sorted rest := List.pairwise_map.mpr h.2
    unfold JsonMap.insert
    split
    · rename_i hlt
      rw [Sorted, List.pairwise_map, List.pairwise_cons, List.pairwise_cons]
      refine ⟨?_, h⟩
      intro m hm
      rcases List.mem_cons.mp hm with rfl | hm
      · exact hlt
      · exact hlt.trans (h.1 m hm)
    split
    · rename_i heq
      rw [Sorted, List.pairwise_map, List.pairwise_cons, heq]
      exact h
    · rename_i hnlt hne
      have hgt : k < key := lt_of_le_of_ne (not_lt.mp hnlt) (Ne.symm hne)
      rw [Sorted, List.pairwise_map, List.pairwise_cons]
      exact ⟨hkeys rest k h.1 hgt, List.pairwise_map.mp (ih hrest)⟩

theorem get?_remove (obj : JsonMap) (key k : String) :
    (obj.remove key).get? k = if k = key then none else obj.get? k := by
  induction obj with
  | nil => simp [remove]
  | cons m rest ih =>
    obtain ⟨k', v⟩ := m
    simp only [remove] at ih
    by_cases hk' : k' = key
    · simp only [remove, hk', List.filter_cons, ne_eq, not_true, decide_false, get?_cons]
      rw [if_neg (by decide), ih]
      by_cases hk : k = key <;> simp [hk]
    · simp only [remove, hk', List.filter_cons, ne_eq, not_false_eq_true, decide_true, if_true,
        get?_cons, ih]
      by_cases hk : k = key
      · simp [hk, Ne.symm hk']
      · simp [hk]

theorem get?_removeAll (keys : List String) (obj : JsonMap) (key : String) :
    JsonMap.get? (keys.foldl remove obj) key = if key ∈ keys then none else obj.get? key := by
  induction keys generalizing obj with
  | nil => simp
  | cons k keys ih =>
    rw [List.foldl_cons, ih, get?_remove]
    by_cases hkey : key = k <;> simp [hkey]

theorem Sorted.removeAll {obj : JsonMap} (h : obj.Sorted) (keys : List String) :
    JsonMap.Sorted (keys.foldl remove obj) := by
  induction keys generalizing obj with
  | nil => exact h
  | cons k keys ih =>
    apply ih
    exact h.sublist (List.filter_sublist.map _)

end JsonMap

/-- `Value::get` with a key: nothing unless the value is an object. -/
def Json.get (key : String) : Json → Option Json
  | .object members => JsonMap.get? members key
  | _ => none

end Edgewit
