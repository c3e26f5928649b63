import Edgewit.Retention
import Edgewit.Search
import Edgewit.Uppercase

/-!
# Sizes in the configuration

`parse_size` against the sizes it is to read: a number and a unit in any letter case, with
blanks around.

* `sizeParts_iff`: the number and the multiplier are those of the text, for any text;
* `parseSize_exact_iff`: their product is returned unless it does not fit.
-/

namespace Edgewit
open Numerals Uppercase

/-- `trim` of a text that is given by its characters. -/
def trimmed (cs : List Char) : List Char :=
  ((cs.dropWhile isWhitespace).reverse.dropWhile isWhitespace).reverse

/-- The number and the multiplier; the unit is cut off by its length. -/
def splitSuffix (s : List Char) : List Char × Nat :=
  if "GB".toList.isSuffixOf s then (s.take (s.length - 2), 1073741824)
  else if "MB".toList.isSuffixOf s then (s.take (s.length - 2), 1048576)
  else if "KB".toList.isSuffixOf s then (s.take (s.length - 2), 1024)
  else if "B".toList.isSuffixOf s then (s.take (s.length - 1), 1)
  else (s, 1)

/-- A release build does not check the multiplication. -/
def parseSize (s : String) : Option Nat :=
  let (numStr, mul) := splitSuffix (upper (trimmed s.toList))
  (parseU64 (trimmed numStr)).map fun v => v * mul % 2 ^ 64

/-- The limit for the size of the indexes is left out: it is only logged. -/
structure RetentionConfig where
  maxWalBytes : Nat
  deriving DecidableEq, Repr

/-- What the variable holds; a value that is not understood is logged. -/
def RetentionConfig.fromEnv (walBytes : Option String) : RetentionConfig where
  maxWalBytes := (walBytes.bind parseSize).getD defaultMaxWalBytes

/-! ## What a size is -/

def Blank (cs : List Char) : Prop := ∀ c ∈ cs, isWhitespace c = true

/-- The units in capitals. -/
def sizeSuffixes : List (List Char × Nat) :=
  [(['G', 'B'], 2 ^ 30), (['M', 'B'], 2 ^ 20), (['K', 'B'], 2 ^ 10), (['B'], 1), ([], 1)]

/-- Digits with or without a plus sign. -/
def SignedNumber (number : List Char) (v : Nat) : Prop :=
  ∃ digits, (number = digits ∨ number = '+' :: digits) ∧ digits ≠ [] ∧
    (∀ c ∈ digits, '0' ≤ c ∧ c ≤ '9') ∧ v = decimalValue digits

/-- A number and a unit, or none, in any letter case; blanks may stand around them. -/
def SizeText (cs : List Char) (v mul : Nat) : Prop :=
  ∃ before number gap unit after, cs = before ++ number ++ gap ++ unit ++ after ∧
    Blank before ∧ Blank gap ∧ Blank after ∧ SignedNumber number v ∧
    (unit.map Char.toUpper, mul) ∈ sizeSuffixes

/-- The text is read as a size if and only if it is one whose product fits. -/
def ParsedExactly (s : String) : Prop :=
  ∀ n, parseSize s = some n ↔ ∃ v mul, SizeText s.toList v mul ∧ v * mul < 2 ^ 64 ∧ n = v * mul

/-! ## Blanks -/

theorem trimmed_spec (cs : List Char) :
    ∃ before after, cs = before ++ trimmed cs ++ after ∧ Blank before ∧ Blank after := by
  let rest := cs.dropWhile isWhitespace
  refine ⟨cs.takeWhile isWhitespace, (rest.reverse.takeWhile isWhitespace).reverse, ?_, ?_, ?_⟩
  · have hback : rest = trimmed cs ++ (rest.reverse.takeWhile isWhitespace).reverse := by
      have hsplit := List.takeWhile_append_dropWhile (p := isWhitespace) (l := rest.reverse)
      have hreverse := congrArg List.reverse hsplit
      rw [List.reverse_append, List.reverse_reverse] at hreverse
      exact hreverse.symm
    rw [List.append_assoc, ← hback]
    exact List.takeWhile_append_dropWhile.symm
  · exact fun c hc => List.all_eq_true.mp List.all_takeWhile c hc
  · exact fun c hc => List.all_eq_true.mp List.all_takeWhile c (List.mem_reverse.mp hc)

theorem dropWhile_blank {before cs : List Char} (h : Blank before) :
    (before ++ cs).dropWhile isWhitespace = cs.dropWhile isWhitespace :=
  List.dropWhile_append_of_pos h

theorem Blank.reverse {cs : List Char} (h : Blank cs) : Blank cs.reverse :=
  fun c hc => h c (List.mem_reverse.mp hc)

/-- Only the blanks around a text are trimmed. -/
theorem trimmed_eq {before after middle : List Char} {first last : Char} (hbefore : Blank before)
    (hafter : Blank after) (hfirst : middle.head? = some first)
    (hlast : middle.getLast? = some last) (hf : isWhitespace first = false)
    (hl : isWhitespace last = false) : trimmed (before ++ middle ++ after) = middle := by
  obtain ⟨rest, rfl⟩ := List.head?_eq_some_iff.mp hfirst
  unfold trimmed
  rw [List.append_assoc, dropWhile_blank hbefore, List.cons_append,
    List.dropWhile_cons_of_neg (by simp [hf]), ← List.cons_append, List.reverse_append,
    dropWhile_blank hafter.reverse]
  obtain ⟨front, hfront⟩ := List.getLast?_eq_some_iff.mp hlast
  rw [hfront, List.reverse_append, List.reverse_singleton, List.singleton_append,
    List.dropWhile_cons_of_neg (by simp [hl]), List.reverse_cons, List.reverse_reverse]

/-! ## Units -/

theorem splitSuffix_spec (s : List Char) :
    ∃ unit, (unit, (splitSuffix s).2) ∈ sizeSuffixes ∧ s = (splitSuffix s).1 ++ unit := by
  unfold splitSuffix
  split
  · rename_i h
    obtain ⟨front, rfl⟩ := List.isSuffixOf_iff_suffix.mp h
    exact ⟨['G', 'B'], by simp [sizeSuffixes], by simp⟩
  split
  · rename_i h
    obtain ⟨front, rfl⟩ := List.isSuffixOf_iff_suffix.mp h
    exact ⟨['M', 'B'], by simp [sizeSuffixes], by simp⟩
  split
  · rename_i h
    obtain ⟨front, rfl⟩ := List.isSuffixOf_iff_suffix.mp h
    exact ⟨['K', 'B'], by simp [sizeSuffixes], by simp⟩
  split
  · rename_i h
    obtain ⟨front, rfl⟩ := List.isSuffixOf_iff_suffix.mp h
    exact ⟨['B'], by simp [sizeSuffixes], by simp⟩
  · exact ⟨[], by simp [sizeSuffixes], by simp⟩

/-- The longest unit is cut off, if no letter of a unit is before it. -/
theorem splitSuffix_append {front unit : List Char} {c : Char} {mul : Nat}
    (hc : c ∉ ['G', 'M', 'K', 'B']) (hunit : (unit, mul) ∈ sizeSuffixes) :
    splitSuffix (front ++ [c] ++ unit) = (front ++ [c], mul) := by
  simp only [List.mem_cons, List.not_mem_nil, or_false, not_or] at hc
  obtain ⟨hg, hm, hk, hb⟩ := hc
  simp only [sizeSuffixes, List.mem_cons, Prod.mk.injEq, List.not_mem_nil, or_false] at hunit
  rcases hunit with ⟨rfl, rfl⟩ | ⟨rfl, rfl⟩ | ⟨rfl, rfl⟩ | ⟨rfl, rfl⟩ | ⟨rfl, rfl⟩ <;>
    simp [splitSuffix, List.isSuffixOf, List.take_append, Ne.symm hg, Ne.symm hm, Ne.symm hk,
      Ne.symm hb]

/-! ## Letter case -/

/-- The codes of blanks, of the characters of a number, and of the letters of the units. -/
def sizeRanges : List (Nat × Nat) :=
  [(9, 13), (0x20, 0x20), (0x2B, 0x2B), (0x30, 0x39), (0x42, 0x42), (0x47, 0x47), (0x4B, 0x4B),
    (0x4D, 0x4D), (0x85, 0x85), (0xA0, 0xA0), (0x1680, 0x1680), (0x2000, 0x200A), (0x2028, 0x2029),
    (0x202F, 0x202F), (0x205F, 0x205F), (0x3000, 0x3000)]

/-- The code of a digit or of a plus sign. -/
def IsNumberCode (n : Nat) : Prop := n = 43 ∨ (48 ≤ n ∧ n ≤ 57)

theorem blank_in_ranges {c : Char} (h : isWhitespace c = true) :
    inRanges sizeRanges c.toNat = true := by
  simp only [isWhitespace, Bool.or_eq_true, Bool.and_eq_true, decide_eq_true_eq] at h
  simp only [inRanges, sizeRanges, List.any_cons, List.any_nil, Bool.or_eq_true, Bool.and_eq_true,
    decide_eq_true_eq]
  omega

theorem number_in_ranges {c : Char} (h : IsNumberCode c.toNat) :
    inRanges sizeRanges c.toNat = true := by
  unfold IsNumberCode at h
  simp only [inRanges, sizeRanges, List.any_cons, List.any_nil, Bool.or_eq_true, Bool.and_eq_true,
    decide_eq_true_eq]
  omega

theorem number_not_blank {c : Char} (h : IsNumberCode c.toNat) : isWhitespace c = false := by
  unfold IsNumberCode at h
  simp only [isWhitespace, Bool.or_eq_false_iff, Bool.and_eq_false_iff, decide_eq_false_iff_not]
  omega

theorem alpha_code {c : Char} (h : c.isAlpha = true) :
    (65 ≤ c.toNat ∧ c.toNat ≤ 90) ∨ (97 ≤ c.toNat ∧ c.toNat ≤ 122) := by
  simp only [Char.isAlpha, Char.isUpper, Char.isLower, Bool.or_eq_true, Bool.and_eq_true,
    decide_eq_true_eq] at h
  exact h

theorem alpha_not_blank {c : Char} (h : c.isAlpha = true) : isWhitespace c = false := by
  have hcode := alpha_code h
  simp only [isWhitespace, Bool.or_eq_false_iff, Bool.and_eq_false_iff, decide_eq_false_iff_not]
  omega

theorem number_not_alpha {c : Char} (h : IsNumberCode c.toNat) : c.isAlpha = false := by
  by_contra halpha
  have hcode := alpha_code (by simpa using halpha)
  unfold IsNumberCode at h
  omega

theorem blank_not_alpha {c : Char} (h : isWhitespace c = true) : c.isAlpha = false := by
  by_contra halpha
  rw [alpha_not_blank (by simpa using halpha)] at h
  cases h

theorem toUpper_eq_self {c : Char} (h : c.isAlpha = false) : c.toUpper = c := by
  apply Char.toUpper_eq_of_not_isLower
  simp only [Char.isAlpha, Bool.or_eq_false_iff] at h
  simp [h.2]

theorem map_toUpper_self {cs : List Char} (h : ∀ c ∈ cs, c.isAlpha = false) :
    cs.map Char.toUpper = cs := by
  have hsame : ∀ c ∈ cs, c.toUpper = id c := fun c hc => toUpper_eq_self (h c hc)
  rw [List.map_congr_left hsame, List.map_id]

/-- What is no letter after it was put in capitals was none before. -/
theorem map_toUpper_eq {cs ds : List Char} (h : cs.map Char.toUpper = ds)
    (hds : ∀ c ∈ ds, c.isAlpha = false) : cs = ds := by
  rw [← h]
  symm
  apply map_toUpper_self
  intro c hc
  rw [← Char.isAlpha_toUpper_eq_isAlpha]
  exact hds _ (h ▸ List.mem_map_of_mem hc)

theorem targets_avoid_sizes : targetsAvoid sizeRanges = true := by decide +kernel

theorem sources_avoid_sizes : sourcesAvoid sizeRanges = true := by decide +kernel

/-- Beyond ASCII nothing but a blank becomes a character of a size. -/
theorem upperChar_eq {c : Char} (h : ∀ u ∈ upperChar c, inRanges sizeRanges u.toNat = true) :
    upperChar c = [c.toUpper] := by
  by_cases hc : c.toNat < 128
  · rw [upperChar, if_pos hc]
  · rcases upperChar_avoids targets_avoid_sizes (Nat.le_of_not_lt hc) with
      hsame | ⟨u, hu, hout⟩
    · have halpha : ¬ c.isAlpha = true := by
        intro halpha
        have hcode := alpha_code halpha
        omega
      rw [hsame, toUpper_eq_self (by simpa using halpha)]
    · rw [h u hu] at hout
      cases hout

theorem upper_eq {cs : List Char} (h : ∀ u ∈ upper cs, inRanges sizeRanges u.toNat = true) :
    upper cs = cs.map Char.toUpper := by
  induction cs with
  | nil => rfl
  | cons c cs ih =>
    change ∀ u ∈ upperChar c ++ upper cs, _ at h
    change upperChar c ++ upper cs = c.toUpper :: cs.map Char.toUpper
    rw [upperChar_eq fun u hu => h u (List.mem_append_left _ hu),
      ih fun u hu => h u (List.mem_append_right _ hu), List.singleton_append]

theorem upper_ascii {cs : List Char} (h : ∀ c ∈ cs, c.toNat < 128 ∨ isWhitespace c = true) :
    upper cs = cs.map Char.toUpper := by
  induction cs with
  | nil => rfl
  | cons c cs ih =>
    rw [List.forall_mem_cons] at h
    have hfirst : upperChar c = [c.toUpper] := by
      by_cases hc : c.toNat < 128
      · rw [upperChar, if_pos hc]
      · have hblank := blank_in_ranges (h.1.resolve_left hc)
        have hsame := upperChar_fixed sources_avoid_sizes (Nat.le_of_not_lt hc) hblank
        exact upperChar_eq fun u hu => by
          rw [hsame] at hu
          rwa [List.mem_singleton.mp hu]
    change upperChar c ++ upper cs = c.toUpper :: cs.map Char.toUpper
    rw [hfirst, ih h.2, List.singleton_append]

/-! ## The parts of a size -/

/-- The number and the multiplier that `parseSize` works with. -/
def sizeParts (cs : List Char) : Option (Nat × Nat) :=
  let (numStr, mul) := splitSuffix (upper (trimmed cs))
  (decimal (unsigned (trimmed numStr))).map fun v => (v, mul)

theorem parseSize_eq (s : String) :
    parseSize s = (sizeParts s.toList).bind fun p =>
      if p.1 < 2 ^ 64 then some (p.1 * p.2 % 2 ^ 64) else none := by
  unfold parseSize sizeParts parseU64
  generalize splitSuffix (upper (trimmed s.toList)) = parts
  obtain ⟨numStr, mul⟩ := parts
  dsimp only
  cases decimal (unsigned (trimmed numStr)) with
  | none => rfl
  | some v =>
    by_cases hv : v < 2 ^ 64 <;> simp only [Option.filter_some, Option.map_some, Option.bind_some,
      hv, decide_true, decide_false, if_true, if_false, Bool.false_eq_true, Option.map_none]

theorem SignedNumber.chars {number : List Char} {v : Nat} (h : SignedNumber number v) :
    (∀ c ∈ number, IsNumberCode c.toNat) ∧ number ≠ [] := by
  obtain ⟨digits, hsign, hne, hdigits, -⟩ := h
  have hcodes : ∀ c ∈ digits, IsNumberCode c.toNat := fun c hc => Or.inr (hdigits c hc)
  rcases hsign with rfl | rfl
  · exact ⟨hcodes, hne⟩
  · exact ⟨List.forall_mem_cons.mpr ⟨Or.inl rfl, hcodes⟩, List.cons_ne_nil _ _⟩

theorem suffix_alpha {unit : List Char} {mul : Nat}
    (h : (unit.map Char.toUpper, mul) ∈ sizeSuffixes) : ∀ c ∈ unit, c.isAlpha = true := by
  intro c hc
  have hmem : c.toUpper ∈ unit.map Char.toUpper := List.mem_map_of_mem hc
  have hletters : c.toUpper = 'G' ∨ c.toUpper = 'M' ∨ c.toUpper = 'K' ∨ c.toUpper = 'B' := by
    simp only [sizeSuffixes, List.mem_cons, Prod.mk.injEq, List.not_mem_nil, or_false] at h
    rcases h with ⟨hunit, -⟩ | ⟨hunit, -⟩ | ⟨hunit, -⟩ | ⟨hunit, -⟩ | ⟨hunit, -⟩ <;>
      rw [hunit] at hmem <;> simp at hmem <;> tauto
  rw [← Char.isAlpha_toUpper_eq_isAlpha]
  rcases hletters with heq | heq | heq | heq <;> rw [heq] <;> rfl

/-- What stands before a unit is not changed by capitals, so it stood there before. -/
theorem eq_of_upper {cs front unit : List Char} {mul : Nat} (h : upper cs = front ++ unit)
    (hunit : (unit, mul) ∈ sizeSuffixes)
    (hfront : ∀ c ∈ front, inRanges sizeRanges c.toNat = true ∧ c.isAlpha = false) :
    ∃ unit', cs = front ++ unit' ∧ unit'.map Char.toUpper = unit := by
  have hsuffix : ∀ p ∈ sizeSuffixes, p.1.all (fun c => inRanges sizeRanges c.toNat) = true := by
    decide +kernel
  -- All of it is made of characters of a size, so nothing beyond ASCII became one.
  have hupper : upper cs = cs.map Char.toUpper := by
    apply upper_eq
    rw [h]
    intro u hu
    rcases List.mem_append.mp hu with hu | hu
    · exact (hfront u hu).1
    · exact List.all_eq_true.mp (hsuffix _ hunit) u hu
  rw [hupper] at h
  obtain ⟨rest, unit', hcs, hrest, hunit'⟩ := List.map_eq_append_iff.mp h
  have hsame := map_toUpper_eq hrest fun c hc => (hfront c hc).2
  exact ⟨unit', by rw [hcs, hsame], hunit'⟩

/-- The number, the blanks and the unit of what is left after the blanks around it. -/
theorem sizeText_of_parts {cs : List Char} {v mul : Nat} (h : sizeParts cs = some (v, mul)) :
    SizeText cs v mul := by
  obtain ⟨before, after, hcs, hbefore, hafter⟩ := trimmed_spec cs
  obtain ⟨unit, hunit, hsplit⟩ := splitSuffix_spec (upper (trimmed cs))
  unfold sizeParts at h
  generalize splitSuffix (upper (trimmed cs)) = parts at h hunit hsplit
  obtain ⟨numStr, mul'⟩ := parts
  obtain ⟨v', hdecimal, heq⟩ := Option.map_eq_some_iff.mp h
  obtain ⟨rfl, rfl⟩ := Prod.mk.inj heq
  obtain ⟨front, back, hnum, hfront, hback⟩ := trimmed_spec numStr
  have hnumber : SignedNumber (trimmed numStr) v' := decimal_unsigned_iff.mp hdecimal
  dsimp only at hsplit hunit
  rw [hnum] at hsplit
  have hchars : ∀ c ∈ front ++ trimmed numStr ++ back,
      inRanges sizeRanges c.toNat = true ∧ c.isAlpha = false := by
    intro c hc
    simp only [List.mem_append] at hc
    rcases hc with (hc | hc) | hc
    · exact ⟨blank_in_ranges (hfront c hc), blank_not_alpha (hfront c hc)⟩
    · have hcode := hnumber.chars.1 c hc
      exact ⟨number_in_ranges hcode, number_not_alpha hcode⟩
    · exact ⟨blank_in_ranges (hback c hc), blank_not_alpha (hback c hc)⟩
  obtain ⟨unit', htrimmed, hunit'⟩ := eq_of_upper hsplit hunit hchars
  refine ⟨before ++ front, trimmed numStr, back, unit', after, ?_, ?_, hback, hafter, hnumber, ?_⟩
  · rw [hcs, htrimmed]
    simp only [List.append_assoc]
  · intro c hc
    rcases List.mem_append.mp hc with hc | hc
    · exact hbefore c hc
    · exact hfront c hc
  · rw [hunit']
    exact hunit

/-- The blanks in front of a unit that is not there are those after the size. -/
theorem SizeText.shape {cs : List Char} {v mul : Nat} (h : SizeText cs v mul) :
    ∃ before number gap unit after, cs = before ++ (number ++ gap ++ unit) ++ after ∧
      Blank before ∧ Blank gap ∧ Blank after ∧ SignedNumber number v ∧
      (unit.map Char.toUpper, mul) ∈ sizeSuffixes ∧ (unit = [] → gap = []) := by
  obtain ⟨before, number, gap, unit, after, rfl, hbefore, hgap, hafter, hnumber, hunit⟩ := h
  by_cases hempty : unit = []
  · subst hempty
    refine ⟨before, number, [], [], gap ++ after, ?_, hbefore, by simp [Blank], ?_, hnumber, hunit,
      fun _ => rfl⟩
    · simp only [List.append_nil, List.append_assoc]
    · intro c hc
      rcases List.mem_append.mp hc with hc | hc
      · exact hgap c hc
      · exact hafter c hc
  · refine ⟨before, number, gap, unit, after, ?_, hbefore, hgap, hafter, hnumber, hunit, ?_⟩
    · simp only [List.append_assoc]
    · exact fun h => absurd h hempty

/-- A size ends in a character that is not blank. -/
theorem exists_last {number gap unit : List Char} (hne : number ≠ [])
    (hnumber : ∀ c ∈ number, isWhitespace c = false) (hunit : ∀ c ∈ unit, isWhitespace c = false)
    (hgap : unit = [] → gap = []) :
    ∃ last, (number ++ gap ++ unit).getLast? = some last ∧ isWhitespace last = false := by
  rcases List.eq_nil_or_concat unit with rfl | ⟨front, last, rfl⟩
  · obtain ⟨front, last, hconcat⟩ := (List.eq_nil_or_concat number).resolve_left hne
    refine ⟨last, ?_, hnumber last ?_⟩
    · rw [hgap rfl, hconcat]
      simp
    · rw [hconcat]
      simp
  · exact ⟨last, by simp, hunit last (by simp)⟩

/-- What is left after the blanks around a size. -/
theorem trimmed_size {before number gap unit after : List Char} {v : Nat} (hbefore : Blank before)
    (hafter : Blank after) (hnumber : SignedNumber number v)
    (hunit : ∀ c ∈ unit, c.isAlpha = true) (hgap : unit = [] → gap = []) :
    trimmed (before ++ (number ++ gap ++ unit) ++ after) = number ++ gap ++ unit := by
  obtain ⟨hchars, hne⟩ := hnumber.chars
  have hblank : ∀ c ∈ number, isWhitespace c = false := fun c hc => number_not_blank (hchars c hc)
  obtain ⟨first, rest, hfirst⟩ := List.exists_cons_of_ne_nil hne
  obtain ⟨last, hlast, hlastBlank⟩ := exists_last hne hblank
    (fun c hc => alpha_not_blank (hunit c hc)) hgap
  exact trimmed_eq hbefore hafter (by simp [hfirst]) hlast
    (hblank first (hfirst ▸ List.mem_cons_self)) hlastBlank

theorem number_gap_not_alpha {number gap : List Char} {v : Nat} (hnumber : SignedNumber number v)
    (hgap : Blank gap) : ∀ c ∈ number ++ gap, c.isAlpha = false := by
  intro c hc
  rcases List.mem_append.mp hc with hc | hc
  · exact number_not_alpha (hnumber.chars.1 c hc)
  · exact blank_not_alpha (hgap c hc)

theorem upper_size {number gap unit : List Char} {v : Nat} (hnumber : SignedNumber number v)
    (hgap : Blank gap) (hunit : ∀ c ∈ unit, c.isAlpha = true) :
    upper (number ++ gap ++ unit) = number ++ gap ++ unit.map Char.toUpper := by
  have hfront := number_gap_not_alpha hnumber hgap
  rw [upper_ascii, List.map_append, map_toUpper_self hfront]
  intro c hc
  simp only [List.mem_append] at hc
  rcases hc with (hc | hc) | hc
  · have hcode := hnumber.chars.1 c hc
    unfold IsNumberCode at hcode
    omega
  · exact Or.inr (hgap c hc)
  · have hcode := alpha_code (hunit c hc)
    omega

theorem splitSuffix_size {number gap unit : List Char} {v mul : Nat}
    (hnumber : SignedNumber number v) (hgap : Blank gap)
    (hunit : (unit.map Char.toUpper, mul) ∈ sizeSuffixes) :
    splitSuffix (number ++ gap ++ unit.map Char.toUpper) = (number ++ gap, mul) := by
  have hne : number ++ gap ≠ [] := by simp [hnumber.chars.2]
  obtain ⟨front, c, hconcat⟩ := (List.eq_nil_or_concat (number ++ gap)).resolve_left hne
  have hc : c.isAlpha = false := number_gap_not_alpha hnumber hgap c (by simp [hconcat])
  rw [hconcat, List.concat_eq_append]
  apply splitSuffix_append _ hunit
  intro hmem
  simp only [List.mem_cons, List.not_mem_nil, or_false] at hmem
  rcases hmem with rfl | rfl | rfl | rfl <;> cases hc

theorem parts_of_sizeText {cs : List Char} {v mul : Nat} (h : SizeText cs v mul) :
    sizeParts cs = some (v, mul) := by
  obtain ⟨before, number, gap, unit, after, rfl, hbefore, hgap, hafter, hnumber, hunit, hshape⟩ :=
    h.shape
  have halpha := suffix_alpha hunit
  have htrimmed := trimmed_size hbefore hafter hnumber halpha hshape
  have hnum : trimmed ([] ++ (number ++ [] ++ []) ++ gap) = number ++ [] ++ [] :=
    trimmed_size (by simp [Blank]) hgap hnumber (by simp) fun _ => rfl
  simp only [List.nil_append, List.append_nil] at hnum
  rw [sizeParts, htrimmed, upper_size hnumber hgap halpha, splitSuffix_size hnumber hgap hunit]
  simp only [hnum, decimal_unsigned_iff.mpr hnumber, Option.map_some]

theorem sizeParts_iff {cs : List Char} {v mul : Nat} :
    sizeParts cs = some (v, mul) ↔ SizeText cs v mul :=
  ⟨sizeText_of_parts, parts_of_sizeText⟩

theorem parseSize_iff {s : String} {n : Nat} :
    parseSize s = some n ↔
      ∃ v mul, SizeText s.toList v mul ∧ v < 2 ^ 64 ∧ n = v * mul % 2 ^ 64 := by
  simp only [parseSize_eq, ← sizeParts_iff]
  constructor
  · intro h
    obtain ⟨⟨v, mul⟩, hparts, hvalue⟩ := Option.bind_eq_some_iff.mp h
    rw [Option.ite_none_right_eq_some] at hvalue
    exact ⟨v, mul, hparts, hvalue.1, (Option.some.inj hvalue.2).symm⟩
  · rintro ⟨v, mul, hparts, hv, rfl⟩
    rw [hparts, Option.bind_some, if_pos hv]

theorem multiplier_pos {unit : List Char} {mul : Nat} (h : (unit, mul) ∈ sizeSuffixes) : 0 < mul := by
  simp only [sizeSuffixes, List.mem_cons, Prod.mk.injEq, List.not_mem_nil, or_false] at h
  omega

theorem SizeText.lt {cs : List Char} {v mul : Nat} (h : SizeText cs v mul)
    (hfits : v * mul < 2 ^ 64) : v < 2 ^ 64 := by
  obtain ⟨-, -, -, unit, -, -, -, -, -, -, hunit⟩ := h
  exact Nat.lt_of_le_of_lt (Nat.le_mul_of_pos_right v (multiplier_pos hunit)) hfits

/-- **A size is parsed exactly unless its number is a `u64` and its product is none.** Of
two limits that fit, the larger one is not the smaller limit on the WAL files. -/
theorem parseSize_exact_iff (s : String) :
    (ParsedExactly s ↔ ∀ v mul, SizeText s.toList v mul → v < 2 ^ 64 → v * mul < 2 ^ 64) ∧
    ∀ (s' : String) (v mul v' mul' : Nat),
      SizeText s.toList v mul → SizeText s'.toList v' mul' → v * mul ≤ v' * mul' →
      v' * mul' < 2 ^ 64 →
      (RetentionConfig.fromEnv (some s)).maxWalBytes ≤
        (RetentionConfig.fromEnv (some s')).maxWalBytes := by
  constructor
  · constructor
    · intro h v mul hsize hv
      have hparsed := parseSize_iff.mpr ⟨v, mul, hsize, hv, rfl⟩
      obtain ⟨v', mul', hsize', hfits, -⟩ := (h _).mp hparsed
      have hsame := sizeParts_iff.mpr hsize
      rw [sizeParts_iff.mpr hsize'] at hsame
      cases hsame
      exact hfits
    · intro h n
      rw [parseSize_iff]
      constructor
      · rintro ⟨v, mul, hsize, hv, rfl⟩
        have hfits := h v mul hsize hv
        exact ⟨v, mul, hsize, hfits, Nat.mod_eq_of_lt hfits⟩
      · rintro ⟨v, mul, hsize, hfits, rfl⟩
        exact ⟨v, mul, hsize, hsize.lt hfits, (Nat.mod_eq_of_lt hfits).symm⟩
  · intro s' v mul v' mul' hsize hsize' hle hfits
    have hfits' : v * mul < 2 ^ 64 := Nat.lt_of_le_of_lt hle hfits
    have hparsed : parseSize s = some (v * mul) :=
      parseSize_iff.mpr ⟨v, mul, hsize, hsize.lt hfits', (Nat.mod_eq_of_lt hfits').symm⟩
    have hparsed' : parseSize s' = some (v' * mul') :=
      parseSize_iff.mpr ⟨v', mul', hsize', hsize'.lt hfits, (Nat.mod_eq_of_lt hfits).symm⟩
    simp only [RetentionConfig.fromEnv, Option.bind_some, hparsed, hparsed', Option.getD_some]
    exact hle

/-- 2^64 bytes are none. -/
theorem product_wraps :
    parseSize "17179869184GB" = some 0 ∧
      (RetentionConfig.fromEnv (some "17179869184GB")).maxWalBytes = 0 ∧
      ¬ ∀ s, ParsedExactly s := by
  have hparsed : parseSize "17179869184GB" = some 0 := by decide +kernel
  refine ⟨hparsed, by simp [RetentionConfig.fromEnv, hparsed], ?_⟩
  intro halways
  obtain ⟨v, mul, hsize, hfits, hzero⟩ := (halways _ 0).mp hparsed
  have hparts : sizeParts "17179869184GB".toList = some (17179869184, 1073741824) := by
    decide +kernel
  rw [sizeParts_iff.mpr hsize] at hparts
  cases hparts
  omega

end Edgewit
