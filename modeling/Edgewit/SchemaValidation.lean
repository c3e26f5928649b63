import Edgewit.Numerals
import Edgewit.Schema

/-!
# Validation of index definitions

`validate_schema`. Texts are split before their last byte, which panics inside a
longer character.
-/

namespace Edgewit
open Numerals

/-- The errors of `validate_schema` and of reading a definition file. -/
inductive ValidationError where
  | missingTimestampField (name : String)
  | invalidRetentionFormat (retention : String)
  | ioError (text : String)
  | yamlError (text : String)
  deriving DecidableEq, Repr

def ValidationError.text : ValidationError → String
  | .missingTimestampField name =>
    "timestamp field '" ++ name ++ "' is required for partitioning but missing from fields"
  | .invalidRetentionFormat retention => "retention format invalid: " ++ retention
  | .ioError text => "failed to read file: " ++ text
  | .yamlError text => "failed to parse yaml: " ++ text

/-- The parts of `split_at(len - 1)` on a text that is not empty; `none` is a panic. -/
def splitLast (cs : List Char) (unit : Char) : Option (List Char × Char) :=
  if unit.utf8Size = 1 then some (cs.dropLast, unit) else none

/-- The units of a retention. -/
def retentionUnits : List Char := ['s', 'm', 'h', 'd', 'w', 'M', 'y']

/-- `none` is a panic. -/
def isValidRetention (retention : String) : Option Bool :=
  match retention.toList.getLast? with
  | none => some false
  | some unit =>
    (splitLast retention.toList unit).map fun (numPart, unitPart) =>
      (parseU64 numPart).isSome && retentionUnits.contains unitPart

/-- `none` is a panic. -/
def validateSchema (definition : IndexDefinition) : Option (Except ValidationError Unit) :=
  if definition.partition ≠ .none ∧ definition.timestampField ∉ definition.fields then
    some (.error (.missingTimestampField definition.timestampField))
  else
    match definition.retention with
    | none => some (.ok ())
    | some retention =>
      (isValidRetention retention).map fun valid =>
        if valid then .ok () else .error (.invalidRetentionFormat retention)

/-- An accepted retention is a number and a unit. -/
theorem retention_of_valid {definition : IndexDefinition} {retention : String}
    (hvalid : validateSchema definition = some (.ok ()))
    (hretention : definition.retention = some retention) :
    ∃ numPart unit n, retention.toList = numPart ++ [unit] ∧ unit.utf8Size = 1 ∧
      parseU64 numPart = some n ∧ unit ∈ retentionUnits := by
  unfold validateSchema at hvalid
  split at hvalid
  · cases hvalid
  simp only [hretention] at hvalid
  obtain ⟨valid, hformat, hok⟩ := Option.map_eq_some_iff.mp hvalid
  cases valid with
  | false => cases hok
  | true =>
    unfold isValidRetention at hformat
    cases hlast : retention.toList.getLast? with
    | none => simp [hlast] at hformat
    | some unit =>
      rw [hlast] at hformat
      obtain ⟨⟨numPart, unitPart⟩, hsplit, hboth⟩ := Option.map_eq_some_iff.mp hformat
      simp only [splitLast, Option.ite_none_right_eq_some, Option.some.injEq, Prod.mk.injEq] at hsplit
      obtain ⟨hsize, rfl, rfl⟩ := hsplit
      simp only [Bool.and_eq_true, List.contains_iff_mem] at hboth
      obtain ⟨n, hn⟩ := Option.isSome_iff_exists.mp hboth.1
      refine ⟨retention.toList.dropLast, unit, n, ?_, hsize, hn, hboth.2⟩
      exact (List.dropLast_append_getLast? unit (by rw [hlast]; rfl)).symm

end Edgewit
