/-
  BytecodeFlow.Proofs.Dominance.Resume — STEPPING AND SOLVING MEET.

  A solver may be driven pass by pass, or left to run, or left to run after some passes.  It
  comes to the same result wherever it is left:

    • the table, since a run from any covering table ends in a covering table whose equations
      hold, and there is one such table (`Covers.table_run`),
    • the passes, since the passes that change something are the same first ones however they are
      made (`isMoving_iterate_iff`), and a run always makes one more to see that it is done.

  Left to run when it is done already, a solver still makes that one pass, and counts it.

  Main statement: `resume_of_build`.
-/
import BytecodeFlow.Proofs.Dominance.Enclosure

namespace BytecodeFlow.Dominance

namespace Solver

variable {g : Graph} {s : Solver g}

/-! ## §1. Where a run ends -/

/-- **A run from any covering table ends with the dominator table.** -/
theorem table_run_eq (hg : g.Linked) (hs : s.table.Covers g) :
    s.run.table = (ofGraph g).table := by
  have hrun : s.run.table.Covers g :=
    run_keeps (P := Table.Covers g) (fun _ _ hb hne ht => ht.update hg hb hne) s hs
  refine hrun.eq_of_balanced hg ((Table.balanced_iff hg hrun.keys_eq).2 ?_)
  intro b hb hne
  exact s.solves_run hb hne

/-- So all it can differ in from the result is the number of passes. -/
theorem ofSolver_eq (hg : g.Linked) (hs : s.table.Covers g) :
    ofSolver s = { ofGraph g with passes := s.run.passes } := by
  show Dominance.mk s.run.table ((g.last?.bind s.run.table.get?).getD ∅) s.run.passes = _
  rw [table_run_eq hg hs]
  rfl

/-! ## §2. How many passes that takes -/

/-- The passes that change the table are those of a run from the start but the last. -/
theorem isMoving_iterate_iff {j : Nat} :
    (pass^[j] (start g)).isMoving = true ↔ j + 1 < (ofGraph g).passes := by
  obtain ⟨k, hrun, hiff⟩ := (start g).exists_run_eq
  have hpasses : (ofGraph g).passes = k + 1 := by
    show (start g).run.passes = k + 1
    rw [hrun, passes_iterate]
  rw [hiff, hpasses, Nat.add_lt_add_iff_right]

/-- A run that is taken up again ends where the run from the start ends, and makes one pass even if
    that is over. -/
theorem passes_run_iterate {j : Nat} :
    (pass^[j] (start g)).run.passes = max (ofGraph g).passes (j + 1) := by
  obtain ⟨k, hrun, hiff⟩ := (pass^[j] (start g)).exists_run_eq
  have hpasses : (pass^[j] (start g)).run.passes = j + (k + 1) := by
    rw [hrun, passes_iterate_add, passes_iterate]
  -- the passes of the rest that change something, counted from the start
  have hmoving : ∀ i, i + j + 1 < (ofGraph g).passes ↔ i < k := by
    intro i
    rw [← hiff i, ← Function.iterate_add_apply, isMoving_iterate_iff]
  rw [hpasses]
  have hend := hmoving k
  cases k with
  | zero => omega
  | succ k =>
    have hbefore := hmoving k
    omega

end Solver

/-- **Wherever a solver is left to run, it comes to the dominator sets.**  After `j` passes a run
    finds the table and the backbone of a run from the start; it has made as many passes as that
    one, or one more than the `j` if those were enough; and the passes up to the last but one of a
    run from the start note a change, and none after these. -/
theorem resume_of_build {policy : Policy} {labels : OffsetSet} {code : Code} {g : Graph}
    (h : (Graph.build policy labels code).outcome = .ok g) (j : Nat) :
    let s := Solver.pass^[j] (Solver.start g)
    (ofSolver s).table = (ofGraph g).table ∧ (ofSolver s).backbone = (ofGraph g).backbone ∧
    (ofSolver s).passes = max (ofGraph g).passes (j + 1) ∧
    (s.isMoving = true ↔ j < (ofGraph g).passes - 1) ∧
    s.table.sweepNoting g = (s.pass.table, s.isMoving) := by
  intro s
  have hg := Graph.linked_of_build h
  have heq := Solver.ofSolver_eq hg (Solver.covers_iterate hg j)
  have hmoving : s.isMoving = true ↔ j + 1 < (ofGraph g).passes := Solver.isMoving_iterate_iff
  refine ⟨?_, ?_, Solver.passes_run_iterate, ?_, s.sweepNoting_table⟩
  · rw [heq]
  · rw [heq]
  · rw [hmoving]
    omega

/-- Three passes are a run from the start here.  Left to run after one pass a solver ends after
    three as well; left to run after five, after six, and it comes to the same dominators. -/
theorem resume_of_backward :
    ∃ g, (Graph.build .strict {2, 4} Code.deadJumps).outcome = .ok g ∧
      (ofGraph g).passes = 3 ∧
      (ofSolver (Solver.pass^[1] (Solver.start g))).passes = 3 ∧
      (ofSolver (Solver.pass^[5] (Solver.start g))).passes = 6 ∧
      (ofSolver (Solver.pass^[5] (Solver.start g))).table = (ofGraph g).table := by
  obtain ⟨g, hbuild, hmoving, hrest⟩ :
      ∃ g, (Graph.build .strict {2, 4} Code.deadJumps).outcome = .ok g ∧
      (Solver.pass^[1] (Solver.start g)).isMoving = true ∧
      (Solver.pass^[2] (Solver.start g)).isMoving = false :=
    ⟨_, rfl, by decide, by decide⟩
  obtain ⟨_, _, hpasses₁, hiff₁, _⟩ := resume_of_build hbuild 1
  obtain ⟨_, _, _, hiff₂, _⟩ := resume_of_build hbuild 2
  obtain ⟨htable, _, hpasses₅, _, _⟩ := resume_of_build hbuild 5
  have hlow : 1 < (ofGraph g).passes - 1 := hiff₁.1 hmoving
  -- the third pass changes nothing any more
  have hhigh : ¬ 2 < (ofGraph g).passes - 1 := by
    intro hlt
    rw [hiff₂.2 hlt] at hrest
    cases hrest
  have hthree : (ofGraph g).passes = 3 := by omega
  rw [hthree] at hpasses₁ hpasses₅
  exact ⟨g, hbuild, hthree, hpasses₁, hpasses₅, htable⟩

end BytecodeFlow.Dominance
