/-
  BytecodeFlow.Dominance.Basic — WHICH BLOCKS DOMINATE WHICH.

  The equations are solved pass by pass.  A solver is a table on its way from the largest
  candidate to the solution, with the number of passes made so far.  It carries the fact that
  makes it stop: its equations lie inside its sets, so a pass that changes the table takes weight
  from it (`Solver.weight_pass_lt`).

  The result holds the dominator set of every live block, the backbone, which is the set of the
  last block in program order, and the number of passes it took.  A block that is not live has no
  set; it dominates nothing and nothing dominates it.

  Main statement: `Solver.solves_run` — where a solver ends, every equation holds.
-/
import BytecodeFlow.Dominance.Table

namespace BytecodeFlow

namespace Dominance

/-! ## §1. Solvers -/

/-- A table of `g` on its way to the solution. -/
structure Solver (g : Graph) where
  table : Table
  /-- The number of passes made. -/
  passes : Nat
  descending : table.Descending g

namespace Solver

variable {g : Graph}

/-- The solver before its first pass. -/
def start (g : Graph) : Solver g := ⟨.initial g, 0, Table.descending_initial g⟩

/-- The solver after one more pass over all blocks but the entry. -/
def pass (s : Solver g) : Solver g := ⟨s.table.sweep g, s.passes + 1, s.descending.sweep.1⟩

/-- Whether one more pass would change the table. -/
def isMoving (s : Solver g) : Bool := s.pass.table ≠ s.table

/-- **What ends a run**: a pass that changes the table takes weight from it. -/
theorem weight_pass_lt {s : Solver g} (h : s.isMoving = true) :
    s.pass.table.weight < s.table.weight :=
  s.descending.sweep.2.weight_lt (of_decide_eq_true h)

/-- Passes up to and including the first that changes nothing. -/
def run (s : Solver g) : Solver g :=
  if s.isMoving then s.pass.run else s.pass
termination_by s.table.weight
decreasing_by exact weight_pass_lt (by assumption)

/-! ## §2. Where a solver ends -/

/-- A pass that changes nothing leaves a solver that the next pass does not change either. -/
theorem isMoving_pass {s : Solver g} (h : s.isMoving = false) : s.pass.isMoving = false := by
  have heq : s.pass.table = s.table := by simpa [isMoving] using h
  have hsweep : s.table.sweep g = s.table := heq
  -- both tables of the next pass are this one
  show decide (s.pass.table.sweep g ≠ s.pass.table) = false
  rw [heq, hsweep]
  simp

/-- A run stops only where one more pass would change nothing. -/
theorem isMoving_run (s : Solver g) : s.run.isMoving = false := by
  fun_induction run s with
  | case1 s _ ih => exact ih
  | case2 s h => exact isMoving_pass (by simpa using h)

/-- **Where a solver ends, every equation holds.** -/
theorem solves_run (s : Solver g) {b : Offset} (hb : b ∈ s.run.table.keys) (hne : b ≠ g.entry) :
    s.run.table.get? b = some (s.run.table.evaluate g b) := by
  have heq : s.run.pass.table = s.run.table := by simpa [isMoving] using isMoving_run s
  exact s.run.descending.solves_of_sweep_eq heq hb hne

end Solver

end Dominance

/-- The dominator sets of a graph. -/
structure Dominance where
  /-- The dominators of each live block, itself included. -/
  table : Dominance.Table
  /-- The dominators of the last block; empty if that block is not live. -/
  backbone : OffsetSet
  /-- The number of passes, the last of which changed nothing. -/
  passes : Nat
deriving DecidableEq

namespace Dominance

/-- What a solver comes to when it runs to its end. -/
def ofSolver {g : Graph} (s : Solver g) : Dominance :=
  let final := s.run
  { table := final.table
    backbone := (g.last?.bind final.table.get?).getD ∅
    passes := final.passes }

/-- The dominator sets of `g`. -/
def ofGraph (g : Graph) : Dominance := ofSolver (Solver.start g)

/-! ## §3. Questions -/

/-- The number of blocks with a dominator set. -/
def size (d : Dominance) : Nat := d.table.size

/-- The dominators of the block at `b`. -/
def get? (d : Dominance) (b : Offset) : Option OffsetSet := d.table.get? b

/-- Whether the block at `a` dominates the block at `b`. -/
def dominates (d : Dominance) (a b : Offset) : Bool := (d.get? b).any (a ∈ ·)

/-- Whether the block at `a` dominates the block at `b` and is another one. -/
def strictlyDominates (d : Dominance) (a b : Offset) : Bool := a != b && d.dominates a b

/-- The nearest strict dominator of `b`: the one whose own set is all strict dominators of `b`. -/
def immediate? (d : Dominance) (b : Offset) : Option Offset :=
  (d.get? b).bind fun set =>
    let strict := set.erase b
    strict.toList.find? fun a => d.get? a = some strict

/-- A block without a dominator set is dominated by nothing, not even by itself. -/
theorem dominates_iff {d : Dominance} {a b : Offset} :
    d.dominates a b = true ↔ ∃ s, d.get? b = some s ∧ a ∈ s := by
  simp [dominates, Option.any_eq_true]

/-- An immediate dominator is a strict one that has all the other strict ones as its own. -/
theorem immediate?_eq_some {d : Dominance} {a b : Offset} (h : d.immediate? b = some a) :
    ∃ s, d.get? b = some s ∧ a ∈ s ∧ a ≠ b ∧ d.get? a = some (s.erase b) := by
  simp only [immediate?, Option.bind_eq_some_iff] at h
  obtain ⟨s, hs, hfind⟩ := h
  have hmem := List.mem_of_find?_eq_some hfind
  have heq := List.find?_some hfind
  simp only [OffsetSet.mem_toList, OffsetSet.mem_erase] at hmem
  exact ⟨s, hs, hmem.1, hmem.2, by simpa using heq⟩

end Dominance

end BytecodeFlow
