import Edgewit.Refinement
import Edgewit.SchemaValidation

/-!
# Retention cutoffs

`apply_retention`, with the machine integers of `parse_retention_duration` and the
limits of chrono, and what `purge_old_docs` makes of its commands: the cutoffs and the deletions
are the ones asked for exactly when chrono and Tantivy can represent them, `retention_iff`.
-/

namespace Edgewit
open Numerals

/-- A `DateTime<Utc>`: seconds since 1970, and nanoseconds. -/
structure Instant where
  secs : Int
  nanos : Nat
  deriving DecidableEq, Repr

/-- The nanoseconds since 1970, of any size. -/
def Instant.timestampNanos (a : Instant) : Int := a.secs * 1000000000 + a.nanos

/-- The limits of chrono: the most seconds of a `Duration`, and the first and last second
of a `DateTime<Utc>`. A duration fits an `i64`, and spans all dates. -/
structure Chrono where
  maxSeconds : Nat
  earliest : Int
  latest : Int
  fits : maxSeconds < 2 ^ 63
  spans : latest - earliest ≤ maxSeconds

/-- Milliseconds in an `i64`, and the first and last second of the years -262143 and 262142. -/
def Chrono.documented : Chrono where
  maxSeconds := 9223372036854775
  earliest := -8334601228800
  latest := 8210266876799
  fits := by decide
  spans := by decide

namespace Chrono

/-- `Duration::seconds`; `none` is a panic, here and below. -/
def seconds (x : Chrono) (n : Int) : Option Int := if n.natAbs ≤ x.maxSeconds then some n else none

/-- The longer units are multiplied with a check for overflow. -/
def scaled (x : Chrono) (k : Nat) (n : Int) : Option Int :=
  if -2 ^ 63 ≤ n * k ∧ n * k < 2 ^ 63 then x.seconds (n * k) else none

def minutes (x : Chrono) : Int → Option Int := x.scaled 60

def hours (x : Chrono) : Int → Option Int := x.scaled 3600

def days (x : Chrono) : Int → Option Int := x.scaled 86400

/-- An instant less a duration. -/
def sub (x : Chrono) (now : Instant) (duration : Int) : Option Instant :=
  if x.earliest ≤ now.secs - duration ∧ now.secs - duration ≤ x.latest then
    some ⟨now.secs - duration, now.nanos⟩
  else none

end Chrono

/-- The outer `none` is a panic, the inner one a text that is not understood. -/
def parseRetentionDuration (x : Chrono) (s : String) : Option (Option Int) :=
  match s.toList.getLast? with
  | none => some none
  | some unit =>
    match splitLast s.toList unit with
    | none => none
    | some (numStr, unit) =>
      match parseI64 numStr with
      | none => some none
      | some n =>
        match unit with
        | 's' => (x.seconds n).map some
        | 'm' => (x.minutes n).map some
        | 'h' => (x.hours n).map some
        | 'd' => (x.days n).map some
        | 'w' => (x.days (wrappingMul n 7)).map some
        | 'M' => (x.days (wrappingMul n 30)).map some
        | 'y' => (x.days (wrappingMul n 365)).map some
        | _ => some none

/-- A purge command with the cutoff that the retention worker computed. -/
structure RetentionPurge where
  indexName : String
  cutoff : Instant
  deriving DecidableEq, Repr

/-- The actor uses the seconds of the cutoff. -/
def RetentionPurge.command (p : RetentionPurge) : PurgeCommand := ⟨p.indexName, p.cutoff.secs⟩

/-- What one pass over the definitions has sent, and whether it came to its end. -/
structure RetentionPass where
  sent : List RetentionPurge
  finished : Bool
  deriving DecidableEq, Repr

/-- The loop of `apply_retention` over the listed definitions, each with the time at which
its turn comes. A panic ends the pass. -/
def applyRetention (x : Chrono) : List (IndexDefinition × Instant) → RetentionPass
  | [] => ⟨[], true⟩
  | (definition, now) :: rest =>
    match definition.retention with
    | none => applyRetention x rest
    | some retention =>
      match parseRetentionDuration x retention with
      | none => ⟨[], false⟩
      | some none => applyRetention x rest
      | some (some duration) =>
        match x.sub now duration with
        | none => ⟨[], false⟩
        | some cutoff =>
          let pass := applyRetention x rest
          { pass with sent := ⟨definition.name, cutoff⟩ :: pass.sent }

/-! ## The cutoff asked for -/

def unitSeconds : Char → Nat
  | 's' => 1
  | 'm' => 60
  | 'h' => 3600
  | 'd' => 86400
  | 'w' => 604800
  | 'M' => 2592000
  | 'y' => 31536000
  | _ => 0

/-- The seconds of a retention: a number of any size times its unit. -/
def retentionSeconds (retention : String) : Option Nat :=
  match retention.toList.getLast? with
  | none => none
  | some unit => (decimal (unsigned retention.toList.dropLast)).map (· * unitSeconds unit)

/-- The command that a definition asks for at a time. -/
def purgeDue (e : IndexDefinition × Instant) : Option RetentionPurge :=
  (e.1.retention.bind retentionSeconds).map fun (k : Nat) => ⟨e.1.name, ⟨e.2.secs - k, e.2.nanos⟩⟩

/-- The pass sends the commands asked for. A deletion staged for one of them is bounded by the
second of its cutoff, unwrapped, and takes no document whose dates are at or after the cutoff. -/
structure Exact (defs : List (IndexDefinition × Instant)) (pass : RetentionPass) : Prop where
  finished : pass.finished = true
  sent : pass.sent = defs.filterMap purgeDue
  staged : ∀ p ∈ pass.sent, ∀ (y : Externals) (s : Indexer) (faults : Faults) (field : String)
    (bound : Int), (s.purgeOldDocs y p.command faults).1 = .ok (.delete field bound) →
      bound = p.cutoff.secs * 1000000000 ∧
      ∀ doc, (∀ date ∈ y.dates field doc, p.cutoff.timestampNanos ≤ date) →
        y.olderThan field bound doc = false

/-- The cutoff asked for, if there is one, is a date of chrono's, and its nanoseconds fit the
`i64` of Tantivy's dates. -/
def Chrono.Represents (x : Chrono) (e : IndexDefinition × Instant) : Prop :=
  ∀ p ∈ purgeDue e, x.earliest ≤ p.cutoff.secs ∧
    -2 ^ 63 ≤ p.cutoff.secs * 1000000000 ∧ p.cutoff.secs * 1000000000 < 2 ^ 63

instance (x : Chrono) (e : IndexDefinition × Instant) : Decidable (x.Represents e) := by
  unfold Chrono.Represents
  infer_instance

theorem unitSeconds_pos {unit : Char} (h : unit ∈ retentionUnits) : 0 < unitSeconds unit := by
  simp only [retentionUnits, List.mem_cons, List.not_mem_nil, or_false] at h
  rcases h with rfl | rfl | rfl | rfl | rfl | rfl | rfl <;> decide

theorem decimal_of_parseU64 {cs : List Char} {n : Nat} (h : parseU64 cs = some n) :
    decimal (unsigned cs) = some n := by
  rw [parseU64, Option.filter_eq_some_iff] at h
  exact h.1

/-- A wrapped product is the product where that fits. -/
theorem wrappingMul_eq {a b : Nat} (h : a * b < 2 ^ 63) : wrappingMul a b = (a * b : Nat) := by
  unfold wrappingMul
  rw [← Nat.cast_mul]
  apply Int.bmod_eq_of_le <;> omega

namespace Chrono

theorem seconds_eq {x : Chrono} {n : Nat} (h : n ≤ x.maxSeconds) : x.seconds n = some (n : Int) := by
  rw [seconds, if_pos (by omega)]

theorem scaled_eq {x : Chrono} {n k : Nat} (h : n * k ≤ x.maxSeconds) :
    x.scaled k n = some ((n * k : Nat) : Int) := by
  have hfits := x.fits
  rw [scaled, ← Nat.cast_mul, if_pos (by omega), seconds_eq h]

/-- Weeks, months and years are days first. -/
theorem days_wrapping {x : Chrono} {n k : Nat} (h : n * (k * 86400) ≤ x.maxSeconds) :
    x.days (wrappingMul n k) = some ((n * (k * 86400) : Nat) : Int) := by
  have hfits := x.fits
  have hdays : n * k * 86400 = n * (k * 86400) := Nat.mul_assoc _ _ _
  rw [wrappingMul_eq (by omega), days, scaled_eq (by omega), hdays]

end Chrono

/-- A valid retention of a length that chrono has is read as that length. -/
theorem parseRetentionDuration_eq {x : Chrono} {retention : String} {numPart : List Char}
    {unit : Char} {n : Nat} (htext : retention.toList = numPart ++ [unit])
    (hsize : unit.utf8Size = 1) (hparse : parseU64 numPart = some n) (hunit : unit ∈ retentionUnits)
    (hlength : n * unitSeconds unit ≤ x.maxSeconds) :
    parseRetentionDuration x retention = some (some ((n * unitSeconds unit : Nat) : Int)) := by
  have hfits := x.fits
  have hn : n < 2 ^ 63 := by
    have := Nat.le_mul_of_pos_right n (unitSeconds_pos hunit)
    omega
  have hsigned : parseI64 numPart = some (n : Int) := by
    rw [parseI64_of_parseU64 hparse, if_pos hn]
  unfold parseRetentionDuration
  simp only [htext, List.getLast?_append, List.getLast?_singleton, Option.some_or, splitLast, hsize,
    if_true, List.dropLast_concat, hsigned]
  simp only [retentionUnits, List.mem_cons, List.not_mem_nil, or_false] at hunit
  rcases hunit with rfl | rfl | rfl | rfl | rfl | rfl | rfl
  · simp only [unitSeconds, Nat.mul_one] at hlength ⊢
    rw [Chrono.seconds_eq hlength]; rfl
  · exact congrArg (Option.map some) (Chrono.scaled_eq (k := 60) hlength)
  · exact congrArg (Option.map some) (Chrono.scaled_eq (k := 3600) hlength)
  · exact congrArg (Option.map some) (Chrono.scaled_eq (k := 86400) hlength)
  · exact congrArg (Option.map some) (Chrono.days_wrapping (k := 7) hlength)
  · exact congrArg (Option.map some) (Chrono.days_wrapping (k := 30) hlength)
  · exact congrArg (Option.map some) (Chrono.days_wrapping (k := 365) hlength)

/-- The command for a valid definition. -/
theorem purgeDue_of_valid {definition : IndexDefinition} (now : Instant) {retention : String}
    {numPart : List Char} {unit : Char} {n : Nat} (hretention : definition.retention = some retention)
    (htext : retention.toList = numPart ++ [unit]) (hparse : parseU64 numPart = some n) :
    purgeDue (definition, now) =
      some ⟨definition.name, ⟨now.secs - (n * unitSeconds unit : Nat), now.nanos⟩⟩ := by
  simp only [purgeDue, hretention, Option.bind_some, retentionSeconds, htext,
    List.getLast?_append, List.getLast?_singleton, Option.some_or, List.dropLast_concat,
    decimal_of_parseU64 hparse, Option.map_some]

theorem applyRetention_sent (x : Chrono) (defs : List (IndexDefinition × Instant)) :
    ∀ p ∈ (applyRetention x defs).sent, x.earliest ≤ p.cutoff.secs := by
  induction defs with
  | nil => intro p hp; cases hp
  | cons e rest ih =>
    obtain ⟨definition, now⟩ := e
    unfold applyRetention
    split
    · exact ih
    split
    · intro p hp; cases hp
    · exact ih
    split
    · intro p hp; cases hp
    · rename_i duration _ cutoff hsub
      intro p hp
      rw [Chrono.sub, Option.ite_none_right_eq_some] at hsub
      obtain ⟨⟨hearly, -⟩, hcutoff⟩ := hsub
      rcases List.mem_cons.mp hp with rfl | hp
      · injection hcutoff with hcutoff
        rw [← hcutoff]
        exact hearly
      · exact ih p hp

/-- One valid definition whose cutoff is a date adds its command to the pass. -/
theorem applyRetention_cons {x : Chrono} {e : IndexDefinition × Instant}
    (rest : List (IndexDefinition × Instant)) (hvalid : validateSchema e.1 = some (.ok ()))
    (hnow : x.earliest ≤ e.2.secs ∧ e.2.secs ≤ x.latest) (hrep : x.Represents e) :
    applyRetention x (e :: rest) =
      { applyRetention x rest with sent := (purgeDue e).toList ++ (applyRetention x rest).sent } := by
  obtain ⟨definition, now⟩ := e
  cases hretention : definition.retention with
  | none =>
    simp only [applyRetention, purgeDue, hretention, Option.bind_none, Option.map_none,
      Option.toList_none, List.nil_append]
  | some retention =>
    obtain ⟨numPart, unit, n, htext, hsize, hparse, hunit⟩ := retention_of_valid hvalid hretention
    have hdue := purgeDue_of_valid now hretention htext hparse
    have hearly : x.earliest ≤ now.secs - (n * unitSeconds unit : Nat) :=
      (hrep _ (by rw [hdue]; rfl)).1
    have hspans := x.spans
    change x.earliest ≤ now.secs ∧ now.secs ≤ x.latest at hnow
    have hduration := parseRetentionDuration_eq (x := x) htext hsize hparse hunit (by omega)
    have hsub : x.sub now (n * unitSeconds unit : Nat) =
        some ⟨now.secs - (n * unitSeconds unit : Nat), now.nanos⟩ := by
      rw [Chrono.sub, if_pos (by omega)]
    simp only [applyRetention, hretention, hduration, hsub, hdue, Option.toList_some,
      List.singleton_append]

/-! ## The deletion -/

theorem purgeOldDocs_bound {y : Externals} {s : Indexer} {cmd : PurgeCommand} {faults : Faults}
    {field : String} {bound : Int}
    (h : (s.purgeOldDocs y cmd faults).1 = .ok (.delete field bound)) : bound = cmd.bound := by
  rcases Indexer.purgeOldDocs_cases y s cmd faults with ⟨e, herr, -⟩ | ⟨_, hok, -⟩
  · rw [herr] at h
    cases h
  · rw [hok] at h
    injection h with h
    injection h with _ h
    exact h.symm

/-- Going to the second is going towards zero. -/
theorem dateForSearch_between (nanos : Int) :
    min nanos 0 ≤ dateForSearch nanos ∧ dateForSearch nanos ≤ max nanos 0 := by
  unfold dateForSearch
  have hsign : Int.sign 1000000000 = 1 := rfl
  rw [Int.tdiv_eq_ediv, hsign]
  split <;> omega

/-- The bound is the second of the cutoff if its nanoseconds fit, and only then. -/
theorem bound_eq_iff (cmd : PurgeCommand) :
    cmd.bound = cmd.cutoff * 1000000000 ↔
      -2 ^ 63 ≤ cmd.cutoff * 1000000000 ∧ cmd.cutoff * 1000000000 < 2 ^ 63 := by
  constructor
  · intro h
    have hlow := Int.le_bmod (x := cmd.cutoff * 1000000000) (m := 2 ^ 64) (by decide)
    have hhigh := Int.bmod_lt (x := cmd.cutoff * 1000000000) (m := 2 ^ 64) (by decide)
    have hbetween := dateForSearch_between (fromTimestampSecs cmd.cutoff)
    rw [← PurgeCommand.bound, h] at hbetween
    unfold fromTimestampSecs wrappingMul at hbetween
    omega
  · rintro ⟨hlow, hhigh⟩
    have hsame : fromTimestampSecs cmd.cutoff = cmd.cutoff * 1000000000 :=
      Int.bmod_eq_of_le (by omega) (by omega)
    rw [PurgeCommand.bound, hsame, dateForSearch, Int.mul_tdiv_cancel _ (by decide)]

/-- An index that can be purged. -/
def purgeable (name : String) : IndexDefinition where
  name := name
  fields := (∅ : Table String FieldDefinition).insert "timestamp" { fieldType := .datetime }

theorem purgeable_fields (name field : String) :
    field ∈ (purgeable name).fields ↔ field = "timestamp" := by
  rw [purgeable, AList.mem_insert, or_iff_left (AList.notMem_empty field)]

theorem purgeable_buildable (name : String) : Externals.tiny.Buildable (purgeable name) := by
  refine ⟨fun field h => ?_, ?_, fun _ => ?_⟩
  · rw [(purgeable_fields name field).mp h]
    decide
  · rw [purgeable_fields]
    decide
  · rw [purgeable_fields]
    decide

/-- Some actor stages a deletion for the command. -/
theorem purgeOldDocs_stages (cmd : PurgeCommand) : ∃ s : Indexer,
    (s.purgeOldDocs .tiny cmd {}).1 = .ok (.delete "timestamp" cmd.bound) := by
  let registry := IndexRegistry.new.insert (purgeable cmd.indexName)
  have hget : registry.get cmd.indexName = some (purgeable cmd.indexName) := AList.lookup_insert _
  have hfield : (purgeable cmd.indexName).fields.lookup (purgeable cmd.indexName).timestampField =
      some { fieldType := .datetime } := AList.lookup_insert _
  have hretention : Externals.tiny.retentionField? registry cmd.indexName = some "timestamp" := by
    simp only [Externals.retentionField?, hget, hfield]
    exact if_pos ⟨trivial, purgeable_buildable cmd.indexName⟩
  have hop := Indexer.purgeOldDocs_op? .tiny (Indexer.start_accounts .tiny registry ∅).cached cmd
    (Or.inr (by simp [Indexer.Locked, Indexer.start]))
  have hdelete : Externals.tiny.op? registry (.purge cmd) =
      some (.delete "timestamp" cmd.bound) := by
    simp only [Externals.op?, hretention, Option.map_some]
  refine ⟨Indexer.start registry ∅, ?_⟩
  rw [show (Indexer.start registry ∅).registry = registry from rfl, hdelete] at hop
  cases hresult : ((Indexer.start registry ∅).purgeOldDocs .tiny cmd {}).1 with
  | error e =>
    rw [hresult] at hop
    cases hop
  | ok op =>
    rw [hresult] at hop
    exact congrArg Except.ok (Option.some.inj hop)

/-- A pass over valid definitions is exact if and only if every cutoff that they ask for can be
represented. -/
theorem retention_iff (x : Chrono) {defs : List (IndexDefinition × Instant)}
    (hvalid : ∀ e ∈ defs, validateSchema e.1 = some (.ok ()))
    (hnow : ∀ e ∈ defs, x.earliest ≤ e.2.secs ∧ e.2.secs ≤ x.latest) :
    Exact defs (applyRetention x defs) ↔ ∀ e ∈ defs, x.Represents e := by
  constructor
  · intro h e he p hp
    have hsent : p ∈ (applyRetention x defs).sent := by
      rw [h.sent]
      exact List.mem_filterMap.mpr ⟨e, he, hp⟩
    refine ⟨applyRetention_sent x defs p hsent, ?_⟩
    obtain ⟨s, hstaged⟩ := purgeOldDocs_stages p.command
    exact (bound_eq_iff p.command).mp (h.staged p hsent _ s _ _ _ hstaged).1
  · intro h
    have hpass : applyRetention x defs = ⟨defs.filterMap purgeDue, true⟩ := by
      induction defs with
      | nil => rfl
      | cons e rest ih =>
        simp only [List.forall_mem_cons] at hvalid hnow h
        rw [applyRetention_cons rest hvalid.1 hnow.1 h.1, ih hvalid.2 hnow.2 h.2,
          List.filterMap_cons]
        cases purgeDue e <;> rfl
    refine ⟨by rw [hpass], by rw [hpass], ?_⟩
    intro p hp y s faults field bound hstaged
    rw [hpass] at hp
    obtain ⟨e, he, hdue⟩ := List.mem_filterMap.mp hp
    have hbound : bound = p.cutoff.secs * 1000000000 := by
      rw [purgeOldDocs_bound hstaged]
      exact (bound_eq_iff p.command).mpr (h e he p hdue).2
    refine ⟨hbound, fun doc hdates => ?_⟩
    rw [Externals.olderThan, List.any_eq_false]
    intro date hdate
    have hlater : p.cutoff.timestampNanos ≤ date := hdates date hdate
    rw [Instant.timestampNanos] at hlater
    rw [decide_eq_true_eq]
    omega

/-- An index that keeps its documents for a time. -/
def retaining (retention : String) : IndexDefinition where
  name := "logs"
  timestampField := "ts"
  fields := (∅ : Table String FieldDefinition).insert "ts" { fieldType := .datetime }
  retention := some retention

theorem retention_week :
    validateSchema (retaining "1w") = some (.ok ()) ∧
      Exact [(retaining "1w", ⟨1700000000, 5⟩)] ⟨[⟨"logs", ⟨1699395200, 5⟩⟩], true⟩ := by
  have hvalid : validateSchema (retaining "1w") = some (.ok ()) := by decide +kernel
  have hpass : applyRetention .documented [(retaining "1w", ⟨1700000000, 5⟩)] =
      ⟨[⟨"logs", ⟨1699395200, 5⟩⟩], true⟩ := by decide +kernel
  refine ⟨hvalid, ?_⟩
  rw [← hpass]
  refine (retention_iff .documented ?_ ?_).mpr ?_
  · intro e he
    rw [List.mem_singleton.mp he]
    exact hvalid
  · decide +kernel
  · decide +kernel

/-- Of these accepted retentions the first stops the process at each pass, the second is
skipped, and the third puts the cutoff three days ahead. The fourth has its cutoff in 1624, and
the deletion staged for it takes what is older than 2208. -/
theorem retention_out_of_range :
    (validateSchema (retaining "300000y") = some (.ok ()) ∧
      applyRetention .documented [(retaining "300000y", ⟨1700000000, 5⟩)] = ⟨[], false⟩) ∧
    (validateSchema (retaining "18446744073709551615s") = some (.ok ()) ∧
      applyRetention .documented [(retaining "18446744073709551615s", ⟨1700000000, 5⟩)] =
        ⟨[], true⟩) ∧
    (validateSchema (retaining "1920482944660172497y") = some (.ok ()) ∧
      applyRetention .documented [(retaining "1920482944660172497y", ⟨1700000000, 5⟩)] =
        ⟨[⟨"logs", ⟨1700259200, 5⟩⟩], true⟩) ∧
    (validateSchema (retaining "400y") = some (.ok ()) ∧
      applyRetention .documented [(retaining "400y", ⟨1700000000, 5⟩)] =
        ⟨[⟨"logs", ⟨-10914400000, 5⟩⟩], true⟩ ∧
      (RetentionPurge.command ⟨"logs", ⟨-10914400000, 5⟩⟩).bound = 7532344073000000000) ∧
    ¬ ∀ defs : List (IndexDefinition × Instant),
      (∀ e ∈ defs, validateSchema e.1 = some (.ok ())) →
      (∀ e ∈ defs, Chrono.documented.earliest ≤ e.2.secs ∧
        e.2.secs ≤ Chrono.documented.latest) →
      Exact defs (applyRetention .documented defs) := by
  have hvalid : validateSchema (retaining "300000y") = some (.ok ()) := by decide +kernel
  refine ⟨⟨hvalid, by decide +kernel⟩, by decide +kernel, by decide +kernel, by decide +kernel, ?_⟩
  intro halways
  have hexact := halways [(retaining "300000y", ⟨1700000000, 5⟩)]
    (fun e he => by rw [List.mem_singleton.mp he]; exact hvalid) (by decide +kernel)
  have hstops : (applyRetention .documented [(retaining "300000y", ⟨1700000000, 5⟩)]).finished =
      false := by decide +kernel
  rw [hexact.finished] at hstops
  cases hstops

end Edgewit
