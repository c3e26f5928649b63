import Edgewit.Json
import Edgewit.Table

/-!
# Derived formats

What serde's derived `Serialize` and `Deserialize` make of options, maps, enumerations without
data and structs, on JSON values, as serde documents its data format: the derived code itself is
not part of the sources. A deserializer gives a value or `none`: its errors are not told apart.

* `decodeMembers_encodeMembers`: a map comes back with its entries, each as its value does;
* `encodeMembers_congr`: the encoding of a map does not depend on the order of its entries;
* `Fields`: what the visitor of a struct is given, by name or by position.
-/

namespace Edgewit.Serde

variable {α : Type}

/-! ## Options and enumerations -/

def decodeBool : Json → Option Bool
  | .bool b => some b
  | _ => none

def encodeOption (encode : α → Json) : Option α → Json
  | none => .null
  | some a => encode a

def decodeOption (decode : Json → Option α) : Json → Option (Option α)
  | .null => some none
  | j => (decode j).map some

/-- An option comes back unless its content looks like nothing. -/
theorem decodeOption_encodeOption (encode : α → Json) (decode : Json → Option α)
    (hdecode : ∀ a, decode (encode a) = some a) (hnull : ∀ a, encode a ≠ .null) (o : Option α) :
    decodeOption decode (encodeOption encode o) = some o := by
  cases o with
  | none => rfl
  | some a =>
    rw [encodeOption, decodeOption, hdecode, Option.map_some]
    exact hnull a

/-- A variant without data: its name, or an object with that one key. -/
def decodeVariant (name : α → String) (variants : List α) : Json → Option α
  | .string s => variants.find? (name · = s)
  | .object [(s, .null)] => variants.find? (name · = s)
  | _ => none

/-! ## Members -/

/-- The members inserted one after the other. -/
def insertAll (obj : JsonMap) : JsonMap → JsonMap
  | [] => obj
  | m :: rest => insertAll (JsonMap.insert m.1 m.2 obj) rest

theorem nil_sorted : JsonMap.Sorted [] := List.Pairwise.nil

theorem insertAll_sorted {obj : JsonMap} (h : obj.Sorted) (members : JsonMap) :
    (insertAll obj members).Sorted := by
  induction members generalizing obj with
  | nil => exact h
  | cons m rest ih => exact ih (h.insert _ _)

/-- A key met before is not met again. -/
theorem get?_eq_none {obj : JsonMap} {key : String} (h : key ∉ obj.map Prod.fst) :
    obj.get? key = none := by
  cases hget : obj.get? key with
  | none => rfl
  | some val => exact absurd (List.mem_map_of_mem (JsonMap.mem_of_get? hget)) h

theorem get?_insertAll {members : JsonMap} (hkeys : (members.map Prod.fst).Nodup) (obj : JsonMap)
    (key : String) : (insertAll obj members).get? key = (members.get? key).or (obj.get? key) := by
  induction members generalizing obj with
  | nil => simp [insertAll]
  | cons m rest ih =>
    obtain ⟨k, val⟩ := m
    rw [List.map_cons, List.nodup_cons] at hkeys
    rw [insertAll, ih hkeys.2, JsonMap.get?_insert, JsonMap.get?_cons]
    by_cases hkey : key = k
    · subst hkey
      simp [get?_eq_none hkeys.1]
    · simp [hkey]

/-! ## Maps -/

/-- The members of a map in the order of its iteration. -/
def membersOf (encode : α → Json) (t : Table String α) : JsonMap :=
  t.entries.map fun e => (e.1, encode e.2)

def encodeMembers (encode : α → Json) (t : Table String α) : JsonMap :=
  insertAll [] (membersOf encode t)

/-- The entries are inserted one after the other. -/
def decodeMembers (decode : Json → Option α) : Table String α → JsonMap → Option (Table String α)
  | t, [] => some t
  | t, (key, val) :: rest => (decode val).bind fun a => decodeMembers decode (t.insert key a) rest

def decodeMap (decode : Json → Option α) : Json → Option (Table String α)
  | .object members => decodeMembers decode ∅ members
  | _ => none

theorem get?_membersOf (encode : α → Json) (t : Table String α) (key : String) :
    (membersOf encode t).get? key = (t.lookup key).map encode := by
  simp only [membersOf, AList.lookup]
  induction t.entries with
  | nil => rfl
  | cons e es ih =>
    obtain ⟨k, a⟩ := e
    rw [List.map_cons, JsonMap.get?_cons]
    by_cases hkey : key = k
    · subst hkey
      simp
    · rw [if_neg hkey, ih, List.dlookup_cons_ne es ⟨k, a⟩ hkey]

theorem membersOf_nodup (encode : α → Json) (t : Table String α) :
    ((membersOf encode t).map Prod.fst).Nodup := by
  rw [membersOf, List.map_map]
  exact t.keys_nodup

theorem encodeMembers_sorted (encode : α → Json) (t : Table String α) :
    (encodeMembers encode t).Sorted :=
  insertAll_sorted nil_sorted _

theorem get?_encodeMembers (encode : α → Json) (t : Table String α) (key : String) :
    (encodeMembers encode t).get? key = (t.lookup key).map encode := by
  rw [encodeMembers, get?_insertAll (membersOf_nodup encode t), get?_membersOf]
  simp

/-- Maps with the same entries have one encoding. -/
theorem encodeMembers_congr (encode : α → Json) {t t' : Table String α}
    (h : ∀ key, t.lookup key = t'.lookup key) : encodeMembers encode t = encodeMembers encode t' := by
  apply (encodeMembers_sorted encode t).ext (encodeMembers_sorted encode t')
  intro key
  rw [get?_encodeMembers, get?_encodeMembers, h]

/-- What a map read from an object holds under each key. -/
theorem decodeMembers_lookup {decode : Json → Option α} {t t' : Table String α} {obj : JsonMap}
    (hkeys : (obj.map Prod.fst).Nodup) (h : decodeMembers decode t obj = some t') (key : String) :
    t'.lookup key = (match obj.get? key with
      | some val => decode val
      | none => t.lookup key) := by
  induction obj generalizing t with
  | nil =>
    cases h
    rfl
  | cons m rest ih =>
    obtain ⟨k, val⟩ := m
    rw [List.map_cons, List.nodup_cons] at hkeys
    obtain ⟨a, ha, hrest⟩ := Option.bind_eq_some_iff.mp h
    rw [ih hkeys.2 hrest, JsonMap.get?_cons]
    by_cases hkey : key = k
    · subst hkey
      simp [get?_eq_none hkeys.1, ha]
    · simp only [hkey, if_false]
      cases JsonMap.get? rest key with
      | none => exact AList.lookup_insert_ne hkey
      | some v => rfl

/-- A map is read when each of its values is. -/
theorem decodeMembers_isSome {decode : Json → Option α} {t : Table String α} {obj : JsonMap}
    (h : ∀ m ∈ obj, (decode m.2).isSome = true) : (decodeMembers decode t obj).isSome = true := by
  induction obj generalizing t with
  | nil => rfl
  | cons m rest ih =>
    obtain ⟨hm, hrest⟩ := List.forall_mem_cons.mp h
    obtain ⟨a, ha⟩ := Option.isSome_iff_exists.mp hm
    simp only [decodeMembers, ha, Option.bind_some]
    exact ih hrest

/-- What a property of every value read gives for a map. -/
theorem decodeMembers_forall {decode : Json → Option α} {P : α → Prop} {t t' : Table String α}
    {obj : JsonMap} (hdecode : ∀ j a, decode j = some a → P a)
    (ht : ∀ key a, t.lookup key = some a → P a) (h : decodeMembers decode t obj = some t')
    {key : String} {a : α} (ha : t'.lookup key = some a) : P a := by
  induction obj generalizing t with
  | nil =>
    cases h
    exact ht key a ha
  | cons m rest ih =>
    obtain ⟨b, hb, hrest⟩ := Option.bind_eq_some_iff.mp h
    refine ih (fun k c hc => ?_) hrest
    rw [Table.lookup_insert_eq] at hc
    split at hc
    · cases hc
      exact hdecode m.2 b hb
    · exact ht k c hc

/-- A map comes back with its entries, each as its value does. -/
theorem decodeMembers_encodeMembers {β : Type} (encode : α → Json) (decode : Json → Option β)
    (back : α → β) (h : ∀ a, decode (encode a) = some (back a)) (t : Table String α) :
    ∃ t', decodeMembers decode ∅ (encodeMembers encode t) = some t' ∧
      ∀ key, t'.lookup key = (t.lookup key).map back := by
  have hsorted := encodeMembers_sorted encode t
  have hall : ∀ m ∈ encodeMembers encode t, (decode m.2).isSome = true := by
    intro m hm
    have hget := JsonMap.get?_of_mem hsorted.nodup hm
    rw [get?_encodeMembers] at hget
    obtain ⟨a, -, heq⟩ := Option.map_eq_some_iff.mp hget
    rw [← heq, h a]
    rfl
  obtain ⟨t', ht'⟩ := Option.isSome_iff_exists.mp (decodeMembers_isSome (t := ∅) hall)
  refine ⟨t', ht', fun key => ?_⟩
  rw [decodeMembers_lookup hsorted.nodup ht', get?_encodeMembers]
  cases hkey : t.lookup key with
  | none => rfl
  | some a => exact h a

/-! ## Structs -/

/-- What the visitor of a struct is given: the members of an object by their names, or the items
of an array by their positions. -/
structure Fields where
  get : String → Option Json
  named : Bool

def fieldsOf (names : List String) : Json → Option Fields
  | .object members => some ⟨JsonMap.get? members, true⟩
  | .array items =>
    if items.length ≤ names.length then some ⟨JsonMap.get? (names.zip items), false⟩ else none
  | _ => none

namespace Fields

def required (f : Fields) (name : String) (decode : Json → Option α) : Option α :=
  (f.get name).bind decode

/-- A field with `#[serde(default)]`. -/
def withDefault (f : Fields) (name : String) (decode : Json → Option α) (default : α) : Option α :=
  match f.get name with
  | none => some default
  | some val => decode val

/-- An `Option` without a default may be missing from an object, not from an array. -/
def optional (f : Fields) (name : String) (decode : Json → Option α) : Option (Option α) :=
  match f.get name with
  | none => if f.named then some none else none
  | some val => decodeOption decode val

end Fields

/-- The fields of a struct in the order of their declaration. -/
def encodeStruct (fields : JsonMap) : Json := .object (insertAll [] fields)

/-- The visitor of an encoded struct is given each of its fields. -/
theorem fieldsOf_encodeStruct {fields : JsonMap} (hnames : (fields.map Prod.fst).Nodup)
    (names : List String) : fieldsOf names (encodeStruct fields) = some ⟨fields.get?, true⟩ := by
  have hget : (insertAll [] fields).get? = fields.get? := by
    funext name
    rw [get?_insertAll hnames]
    simp
  simp only [encodeStruct, fieldsOf, hget]

/-- A struct with another value in one field. -/
theorem encodeStruct_insert {fields fields' : JsonMap} {name : String} {val : Json}
    (hnames : (fields.map Prod.fst).Nodup) (hnames' : (fields'.map Prod.fst).Nodup)
    (h : ∀ key, fields'.get? key = if key = name then some val else fields.get? key) :
    encodeStruct fields' = .object (JsonMap.insert name val (insertAll [] fields)) := by
  have hsorted := insertAll_sorted nil_sorted fields
  rw [encodeStruct, (insertAll_sorted nil_sorted fields').ext (hsorted.insert name val)]
  intro key
  rw [get?_insertAll hnames', JsonMap.get?_insert, get?_insertAll hnames, h]
  simp

end Edgewit.Serde
