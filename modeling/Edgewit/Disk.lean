import Edgewit.Frame

/-!
# The data directory

Nodes are numbered in order of creation, and an open file is the number of its
node. Unlinking takes a node's name away and nothing else: a writer that still
has it open goes on writing, and the bytes can no longer be reached by name.

WAL files are named after the offset they start at: sixteen hexadecimal digits
and the extension `wal`.
-/

namespace Edgewit
open Numerals

structure Node where
  name : String
  linked : Bool
  /-- A regular file, as opposed to a directory. -/
  isFile : Bool
  content : Bytes
  /-- How many bytes of the content are on stable storage. -/
  synced : Nat
  deriving DecidableEq, Repr

/-- The names present in the directory. -/
def linkedNames (nodes : List Node) : List String :=
  nodes.filterMap fun n => if n.linked then some n.name else none

/-- A directory and the unlinked files still held open. -/
structure Disk where
  nodes : List Node
  distinct : (linkedNames nodes).Nodup

def Disk.empty : Disk := ⟨[], List.nodup_nil⟩

theorem linkedNames_append (as bs : List Node) :
    linkedNames (as ++ bs) = linkedNames as ++ linkedNames bs := by
  simp [linkedNames]

theorem mem_linkedNames {nodes : List Node} {name : String} :
    name ∈ linkedNames nodes ↔ ∃ n ∈ nodes, n.linked = true ∧ n.name = name := by
  simp [linkedNames]

theorem linkedNames_modify {f : Node → Node} (hf : ∀ n, (f n).linked = n.linked ∧ (f n).name = n.name)
    (nodes : List Node) (i : Nat) : linkedNames (nodes.modify i f) = linkedNames nodes := by
  induction nodes generalizing i with
  | nil => simp
  | cons n nodes ih =>
    cases i with
    | zero => simp [linkedNames, List.filterMap_cons, hf n]
    | succ i =>
      simp only [linkedNames] at ih
      simp [linkedNames, List.filterMap_cons, ih i]

/-- Two linked nodes of one name are the same node. -/
theorem linked_unique {nodes : List Node} (h : (linkedNames nodes).Nodup) {i j : Nat} {a b : Node}
    (ha : nodes[i]? = some a) (hb : nodes[j]? = some b) (hla : a.linked = true)
    (hlb : b.linked = true) (hname : a.name = b.name) : i = j := by
  induction nodes generalizing i j with
  | nil => simp at ha
  | cons n nodes ih =>
    have htail : (linkedNames nodes).Nodup := h.sublist (by
      rw [show n :: nodes = [n] ++ nodes from rfl, linkedNames_append]
      exact List.sublist_append_right _ _)
    have hhead : ∀ m ∈ nodes, m.linked = true → n.linked = true → m.name ≠ n.name := by
      intro m hm hlm hln heq
      have hn : linkedNames (n :: nodes) = n.name :: linkedNames nodes := by
        simp [linkedNames, hln]
      rw [hn, List.nodup_cons] at h
      exact h.1 (mem_linkedNames.mpr ⟨m, hm, hlm, heq⟩)
    cases i with
    | zero =>
      cases j with
      | zero => rfl
      | succ j =>
        obtain rfl : n = a := by simpa using ha
        exact absurd hname.symm (hhead b (List.mem_of_getElem? (by simpa using hb)) hlb hla)
    | succ i =>
      cases j with
      | zero =>
        obtain rfl : n = b := by simpa using hb
        exact absurd hname (hhead a (List.mem_of_getElem? (by simpa using ha)) hla hlb)
      | succ j => exact congrArg _ (ih htail (by simpa using ha) (by simpa using hb))

namespace Disk

/-- Changes the content of an open file. -/
def modify (d : Disk) (handle : Nat) (f : Node → Node)
    (hf : ∀ n, (f n).linked = n.linked ∧ (f n).name = n.name) : Disk :=
  ⟨d.nodes.modify handle f, by rw [linkedNames_modify hf]; exact d.distinct⟩

/-- `write` on a file opened for appending. -/
def append (d : Disk) (handle : Nat) (bytes : Bytes) : Disk :=
  d.modify handle (fun n => { n with content := n.content ++ bytes }) fun _ => ⟨rfl, rfl⟩

def syncData (d : Disk) (handle : Nat) : Disk :=
  d.modify handle (fun n => { n with synced := n.content.length }) fun _ => ⟨rfl, rfl⟩

/-- `metadata().len()` of an open file. -/
def len (d : Disk) (handle : Nat) : Nat := (d.nodes[handle]?.map (·.content.length)).getD 0

def newFile (name : String) : Node := ⟨name, true, true, [], 0⟩

theorem linkedNames_newFile (name : String) : linkedNames [newFile name] = [name] := rfl

theorem nodup_newFile {nodes : List Node} {name : String} (h : (linkedNames nodes).Nodup)
    (hfree : name ∉ linkedNames nodes) : (linkedNames (nodes ++ [newFile name])).Nodup := by
  rw [linkedNames_append, linkedNames_newFile, List.nodup_append]
  refine ⟨h, by simp, ?_⟩
  rintro a ha b hb rfl
  exact hfree (List.mem_singleton.mp hb ▸ ha)

/-- Opens a file for appending, creating it when the name is free. A directory
of that name cannot be opened. -/
def openAppend (d : Disk) (name : String) : Option (Nat × Disk) :=
  if h : name ∈ linkedNames d.nodes then
    let i := d.nodes.findIdx fun n => n.linked && n.name = name
    if (d.nodes[i]?.map (·.isFile)).getD false then some (i, d) else none
  else some (d.nodes.length, ⟨d.nodes ++ [newFile name], nodup_newFile d.distinct h⟩)

/-- A file opened for appending is a present file of that name: one that was
there, or a new empty one. -/
theorem openAppend_cases {d e : Disk} {name : String} {i : Nat}
    (h : d.openAppend name = some (i, e)) :
    (e = d ∧ ∃ n, d.nodes[i]? = some n ∧ n.linked = true ∧ n.isFile = true ∧ n.name = name) ∨
    (name ∉ linkedNames d.nodes ∧ i = d.nodes.length ∧ e.nodes = d.nodes ++ [newFile name]) := by
  unfold openAppend at h
  split at h
  · rename_i hmem
    simp only [Option.ite_none_right_eq_some, Option.some.injEq, Prod.mk.injEq] at h
    obtain ⟨hfile, rfl, rfl⟩ := h
    obtain ⟨m, hm, hl, hname⟩ := mem_linkedNames.mp hmem
    have hlt : d.nodes.findIdx (fun n => n.linked && n.name = name) < d.nodes.length :=
      List.findIdx_lt_length_of_exists ⟨m, hm, by simp [hl, hname]⟩
    have hp := List.findIdx_getElem (w := hlt)
    simp only [Bool.and_eq_true, decide_eq_true_eq] at hp
    rw [List.getElem?_eq_getElem hlt] at hfile
    exact Or.inl ⟨rfl, _, List.getElem?_eq_getElem hlt, hp.1, by simpa using hfile, hp.2⟩
  · rename_i hfree
    simp only [Option.some.injEq, Prod.mk.injEq] at h
    obtain ⟨rfl, rfl⟩ := h
    exact Or.inr ⟨hfree, rfl, rfl⟩

def unlinkNode (name : String) (n : Node) : Node :=
  if n.linked && n.name = name then { n with linked := false } else n

theorem linkedNames_unlink (name : String) (nodes : List Node) :
    linkedNames (nodes.map (unlinkNode name)) = (linkedNames nodes).filter (· ≠ name) := by
  induction nodes with
  | nil => rfl
  | cons n nodes ih =>
    simp only [linkedNames, List.map_cons, List.filterMap_cons] at ih ⊢
    cases hl : n.linked with
    | false => simpa [unlinkNode, hl] using ih
    | true =>
      by_cases hname : n.name = name
      · simpa [unlinkNode, hl, hname] using ih
      · simpa [unlinkNode, hl, hname] using ih

/-- `remove_file`. -/
def unlink (d : Disk) (name : String) : Disk :=
  ⟨d.nodes.map (unlinkNode name), by rw [linkedNames_unlink]; exact d.distinct.filter _⟩

@[simp] theorem nodes_append (d : Disk) (handle : Nat) (bytes : Bytes) :
    (d.append handle bytes).nodes =
      d.nodes.modify handle fun n => { n with content := n.content ++ bytes } := rfl

@[simp] theorem append_nil (d : Disk) (handle : Nat) : d.append handle [] = d := by
  cases d
  simp only [append, modify, List.append_nil, mk.injEq]
  exact List.modify_id handle _

@[simp] theorem nodes_syncData (d : Disk) (handle : Nat) :
    (d.syncData handle).nodes =
      d.nodes.modify handle fun n => { n with synced := n.content.length } := rfl

@[simp] theorem nodes_unlink (d : Disk) (name : String) :
    (d.unlink name).nodes = d.nodes.map (unlinkNode name) := rfl

end Disk

/-! ## File names -/

/-- Splits a name at its last dot as `Path` does: the parts before and after
it. A name without a dot, or with only a leading one, has no extension. -/
def rsplitFileAtDot (name : List Char) : Option (List Char) × Option (List Char) :=
  let after := (name.reverse.takeWhile (· ≠ '.')).reverse
  match name.reverse.dropWhile (· ≠ '.') with
  | [] => (none, some name)
  | _ :: before => if before = [] then (some name, none) else (some before.reverse, some after)

def fileStem (name : List Char) : Option (List Char) :=
  (rsplitFileAtDot name).1.or (rsplitFileAtDot name).2

def extension (name : List Char) : Option (List Char) :=
  (rsplitFileAtDot name).1.bind fun _ => (rsplitFileAtDot name).2

/-- The number `from_str_radix(.., 16)` reads, before its range check. -/
def hexValue : List Char → Option Nat
  | [] => none
  | ['+'] => none
  | '+' :: cs => readHex 0 cs
  | cs => readHex 0 cs

/-- `u64::from_str_radix(.., 16)`. -/
def fromStrRadix16 (cs : List Char) : Option Nat := (hexValue cs).filter (· < 2 ^ 64)

/-- `format!("{offset:016x}.wal")`. -/
def walName (offset : Nat) : String := String.ofList (hexText 16 offset ++ ['.', 'w', 'a', 'l'])

/-- The offset in the name of a present WAL file. -/
def Node.walStart? (n : Node) : Option Nat :=
  if n.linked && n.isFile && extension n.name.toList = some ['w', 'a', 'l'] then
    (fileStem n.name.toList).bind hexValue
  else none

theorem hexText_ne_nil (n : Nat) : hexText 16 n ≠ [] := by
  intro h
  have hlen := congrArg List.length h
  simp only [hexText, List.length_append, List.length_replicate, List.length_nil] at hlen
  omega

theorem digitChar_ne_plus : ∀ d < 16, Nat.digitChar d ≠ '+' := by decide

theorem hexValue_hexText (n : Nat) : hexValue (hexText 16 n) = some n := by
  have hread := readHex_hexText 16 n
  cases h : hexText 16 n with
  | nil => exact absurd h (hexText_ne_nil n)
  | cons c cs =>
    have hc : c ≠ '+' := by
      obtain ⟨d, hd, rfl⟩ := mem_hexText (c := c) (by rw [h]; exact List.mem_cons_self)
      exact digitChar_ne_plus d hd
    rw [h] at hread
    rw [hexValue]
    · exact hread
    · exact List.cons_ne_nil c cs
    · exact fun heq => hc (List.cons.inj heq).1
    · exact fun cs' heq => hc (List.cons.inj heq).1

theorem rsplit_walName (offset : Nat) :
    rsplitFileAtDot (walName offset).toList = (some (hexText 16 offset), some ['w', 'a', 'l']) := by
  simp [rsplitFileAtDot, walName, hexText_ne_nil]

theorem extension_walName (offset : Nat) :
    extension (walName offset).toList = some ['w', 'a', 'l'] := by
  simp [extension, rsplit_walName]

theorem fileStem_walName (offset : Nat) :
    fileStem (walName offset).toList = some (hexText 16 offset) := by
  simp [fileStem, rsplit_walName]

/-- The start read from the name of a file the appender opened. -/
theorem walStart?_walName {n : Node} {offset : Nat} (hl : n.linked = true) (hf : n.isFile = true)
    (hname : n.name = walName offset) : n.walStart? = some offset := by
  simp [Node.walStart?, hl, hf, hname, extension_walName, fileStem_walName, hexValue_hexText]

end Edgewit
