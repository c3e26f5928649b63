import Mathlib.Data.List.Basic
import Mathlib.Tactic.Common

/-!
# Write-behind buffers

A store with one log for each key. Operations are staged first; a commit applies what
is staged for its key, in order. What is applied and staged is what was there before and
the key's own operations, whatever happens between them: `log_run`.
-/

namespace WriteBehind

variable {κ Op : Type*}

@[ext]
structure Buffers (κ Op : Type*) where
  applied : κ → List Op
  staged : κ → List Op

inductive Action (κ Op : Type*) where
  | stage (key : κ) (op : Op)
  | commit (key : κ)

/-- The log of a key: applied, then staged. -/
def Buffers.log (b : Buffers κ Op) (k : κ) : List Op := b.applied k ++ b.staged k

variable [DecidableEq κ]

def Buffers.step (b : Buffers κ Op) : Action κ Op → Buffers κ Op
  | .stage key op => { b with staged := fun k => if k = key then b.staged k ++ [op] else b.staged k }
  | .commit key =>
    ⟨fun k => if k = key then b.applied k ++ b.staged k else b.applied k,
      fun k => if k = key then [] else b.staged k⟩

def Buffers.run (b : Buffers κ Op) (as : List (Action κ Op)) : Buffers κ Op := as.foldl step b

/-- The operations staged for a key. -/
def opsOf (k : κ) : List (Action κ Op) → List Op
  | [] => []
  | .stage key op :: as => if k = key then op :: opsOf k as else opsOf k as
  | .commit _ :: as => opsOf k as

@[simp] theorem run_nil (b : Buffers κ Op) : b.run [] = b := rfl

theorem run_append (b : Buffers κ Op) (as bs : List (Action κ Op)) :
    b.run (as ++ bs) = (b.run as).run bs := List.foldl_append

@[simp] theorem opsOf_append (k : κ) (as bs : List (Action κ Op)) :
    opsOf k (as ++ bs) = opsOf k as ++ opsOf k bs := by
  induction as with
  | nil => rfl
  | cons a as ih =>
    cases a with
    | stage key op =>
      by_cases h : k = key
      · subst h
        simp [opsOf, ih]
      · simp [opsOf, h, ih]
    | commit key => simp [opsOf, ih]

theorem log_step (b : Buffers κ Op) (a : Action κ Op) (k : κ) :
    (b.step a).log k = b.log k ++ opsOf k [a] := by
  cases a with
  | stage key op => by_cases h : k = key <;> simp [Buffers.log, Buffers.step, opsOf, h]
  | commit key => by_cases h : k = key <;> simp [Buffers.log, Buffers.step, opsOf, h]

theorem log_run (b : Buffers κ Op) (as : List (Action κ Op)) (k : κ) :
    (b.run as).log k = b.log k ++ opsOf k as := by
  induction as generalizing b with
  | nil => simp [opsOf]
  | cons a as ih =>
    have hstep := log_step b a k
    have hops : opsOf k (a :: as) = opsOf k [a] ++ opsOf k as := opsOf_append k [a] as
    rw [hops, ← List.append_assoc, ← hstep]
    exact ih (b.step a)

end WriteBehind
