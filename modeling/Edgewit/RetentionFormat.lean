import Edgewit.SchemaValidation

/-!
# The format of a retention

`is_valid_retention` against the format it is to check: digits and one unit.

* `isValidRetention_total`: when it returns at all;
* `isValidRetention_iff`: what it accepts, a plus sign included;
* `checkedStrictly_iff`: the texts on which it does what its documentation says.
-/

namespace Edgewit
open Numerals

/-- One digit or more, of a value below 2^64, and one unit. -/
def StrictRetention (cs : List Char) : Prop :=
  ∃ digits unit, cs = digits ++ [unit] ∧ digits ≠ [] ∧ (∀ c ∈ digits, '0' ≤ c ∧ c ≤ '9') ∧
    decimalValue digits < 2 ^ 64 ∧ unit ∈ retentionUnits

/-- The definition passes the check of its timestamp field. -/
def Timestamped (definition : IndexDefinition) : Prop :=
  definition.partition = .none ∨ definition.timestampField ∈ definition.fields

/-- The check of a text returns, and says whether the text has the format. So does the
check of every definition with the text, after that of its timestamp field. -/
def CheckedStrictly (retention : String) : Prop :=
  ∃ valid, isValidRetention retention = some valid ∧
    (valid = true ↔ StrictRetention retention.toList) ∧
    ∀ definition : IndexDefinition, definition.retention = some retention →
      ∃ verdict, validateSchema definition = some verdict ∧
        (verdict = .ok () ↔ Timestamped definition ∧ StrictRetention retention.toList)

/-! ## What is accepted -/

theorem isValidRetention_concat {retention : String} {numPart : List Char} {unit : Char}
    (h : retention.toList = numPart ++ [unit]) :
    isValidRetention retention =
      if unit.utf8Size = 1 then some ((parseU64 numPart).isSome && retentionUnits.contains unit)
      else none := by
  unfold isValidRetention splitLast
  rw [h, List.getLast?_concat]
  simp only [List.dropLast_concat]
  split <;> rfl

/-- It returns unless the last character is longer than a byte. -/
theorem isValidRetention_total {retention : String} :
    (∃ valid, isValidRetention retention = some valid) ↔
      ∀ unit ∈ retention.toList.getLast?, unit.utf8Size = 1 := by
  rcases List.eq_nil_or_concat retention.toList with hempty | ⟨numPart, unit, hlast⟩
  · simp [isValidRetention, hempty]
  · rw [List.concat_eq_append] at hlast
    rw [isValidRetention_concat hlast, hlast, List.getLast?_concat]
    simp only [Option.mem_some_iff, forall_eq']
    split <;> simp_all

theorem unit_size {unit : Char} (h : unit ∈ retentionUnits) : unit.utf8Size = 1 := by
  have hall : retentionUnits.all (fun c => c.utf8Size = 1) = true := by decide
  simpa using List.all_eq_true.mp hall unit h

/-- The number may have a sign. -/
theorem parse_isSome_iff {numPart : List Char} :
    (parseU64 numPart).isSome ↔
      ∃ digits, (numPart = digits ∨ numPart = '+' :: digits) ∧ digits ≠ [] ∧
        (∀ c ∈ digits, '0' ≤ c ∧ c ≤ '9') ∧ decimalValue digits < 2 ^ 64 := by
  simp only [Option.isSome_iff_exists, parseU64_iff, decimal_unsigned_iff]
  constructor
  · rintro ⟨n, ⟨digits, hsign, hne, hdigits, rfl⟩, hlt⟩
    exact ⟨digits, hsign, hne, hdigits, hlt⟩
  · rintro ⟨digits, hsign, hne, hdigits, hlt⟩
    exact ⟨_, ⟨digits, hsign, hne, hdigits, rfl⟩, hlt⟩

theorem isValidRetention_iff {retention : String} :
    isValidRetention retention = some true ↔
      StrictRetention retention.toList ∨
        ∃ rest, retention.toList = '+' :: rest ∧ StrictRetention rest := by
  constructor
  · intro h
    rcases List.eq_nil_or_concat retention.toList with hempty | ⟨numPart, unit, hlast⟩
    · simp [isValidRetention, hempty] at h
    rw [List.concat_eq_append] at hlast
    rw [isValidRetention_concat hlast] at h
    simp only [Option.ite_none_right_eq_some, Option.some.injEq, Bool.and_eq_true,
      List.contains_iff_mem, parse_isSome_iff] at h
    obtain ⟨-, ⟨digits, hsign, hne, hdigits, hlt⟩, hunit⟩ := h
    have hstrict : StrictRetention (digits ++ [unit]) := ⟨digits, unit, rfl, hne, hdigits, hlt, hunit⟩
    rcases hsign with rfl | rfl
    · exact Or.inl (hlast ▸ hstrict)
    · exact Or.inr ⟨digits ++ [unit], hlast, hstrict⟩
  · intro h
    have hparts : ∃ numPart unit, retention.toList = numPart ++ [unit] ∧
        (parseU64 numPart).isSome = true ∧ unit ∈ retentionUnits := by
      rcases h with ⟨digits, unit, heq, hne, hdigits, hlt, hunit⟩ |
        ⟨rest, heq, digits, unit, rfl, hne, hdigits, hlt, hunit⟩
      · exact ⟨digits, unit, heq, parse_isSome_iff.mpr ⟨digits, Or.inl rfl, hne, hdigits, hlt⟩, hunit⟩
      · exact ⟨'+' :: digits, unit, heq,
          parse_isSome_iff.mpr ⟨digits, Or.inr rfl, hne, hdigits, hlt⟩, hunit⟩
    obtain ⟨numPart, unit, heq, hparse, hunit⟩ := hparts
    rw [isValidRetention_concat heq, if_pos (unit_size hunit), hparse,
      List.contains_iff_mem.mpr hunit]
    rfl

theorem not_strict_plus (rest : List Char) : ¬ StrictRetention ('+' :: rest) := by
  rintro ⟨digits, unit, heq, hne, hdigits, -⟩
  obtain ⟨c, digits, rfl⟩ := List.exists_cons_of_ne_nil hne
  obtain ⟨rfl, -⟩ := List.cons.inj heq
  exact plus_not_digit (hdigits '+' List.mem_cons_self)

/-! ## The whole definition -/

theorem validateSchema_retention {definition : IndexDefinition} {retention : String} {valid : Bool}
    (hretention : definition.retention = some retention)
    (hvalid : isValidRetention retention = some valid) :
    ∃ verdict, validateSchema definition = some verdict ∧
      (verdict = .ok () ↔ Timestamped definition ∧ valid = true) := by
  unfold validateSchema Timestamped
  by_cases hfield : definition.partition ≠ .none ∧ definition.timestampField ∉ definition.fields
  · rw [if_pos hfield]
    refine ⟨_, rfl, ?_⟩
    simp [hfield.1, hfield.2]
  · rw [if_neg hfield]
    simp only [hretention, hvalid, Option.map_some]
    refine ⟨_, rfl, ?_⟩
    rw [not_and_or, not_not, not_not] at hfield
    cases valid <;> simp [hfield]

/-- **The check is strict unless the text ends in a longer character or starts with a plus
sign.** The first panics; the second is accepted if the rest has the format. -/
theorem checkedStrictly_iff (retention : String) :
    CheckedStrictly retention ↔
      (∀ unit ∈ retention.toList.getLast?, unit.utf8Size = 1) ∧
        ¬ ∃ rest, retention.toList = '+' :: rest ∧ StrictRetention rest := by
  constructor
  · rintro ⟨valid, hvalid, hstrict, -⟩
    refine ⟨isValidRetention_total.mp ⟨valid, hvalid⟩, ?_⟩
    rintro ⟨rest, heq, hrest⟩
    rw [isValidRetention_iff.mpr (Or.inr ⟨rest, heq, hrest⟩)] at hvalid
    obtain rfl := Option.some.inj hvalid
    have hplus := hstrict.mp rfl
    rw [heq] at hplus
    exact not_strict_plus rest hplus
  · rintro ⟨hlast, hsign⟩
    obtain ⟨valid, hvalid⟩ := isValidRetention_total.mpr hlast
    have hstrict : valid = true ↔ StrictRetention retention.toList := by
      constructor
      · rintro rfl
        exact (isValidRetention_iff.mp hvalid).resolve_right hsign
      · intro h
        rw [isValidRetention_iff.mpr (Or.inl h)] at hvalid
        exact (Option.some.inj hvalid).symm
    refine ⟨valid, hvalid, hstrict, ?_⟩
    intro definition hretention
    obtain ⟨verdict, hverdict, hok⟩ := validateSchema_retention hretention hvalid
    exact ⟨verdict, hverdict, by rw [hok, hstrict]⟩

/-- A unit of two bytes is a panic, and a plus sign is accepted. -/
theorem longer_unit_panics :
    isValidRetention "7é" = none ∧ isValidRetention "+7d" = some true ∧
      ¬ CheckedStrictly "7é" ∧ ¬ CheckedStrictly "+7d" := by
  have hpanics : isValidRetention "7é" = none := by decide
  have haccepted : isValidRetention "+7d" = some true := by decide
  refine ⟨hpanics, haccepted, ?_, ?_⟩
  · rintro ⟨valid, hvalid, -⟩
    rw [hpanics] at hvalid
    cases hvalid
  · rintro ⟨valid, hvalid, hstrict, -⟩
    rw [haccepted] at hvalid
    obtain rfl := Option.some.inj hvalid
    exact not_strict_plus ['7', 'd'] (hstrict.mp rfl)

end Edgewit
