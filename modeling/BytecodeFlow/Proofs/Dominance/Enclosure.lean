/-
  BytecodeFlow.Proofs.Dominance.Enclosure — EVERY STATE OF THE SOLVER ENCLOSES THE RESULT.

  A pass replaces sets in place, so each right-hand side is computed from sets of which some are
  new and some are old.  Arbitrary tables may grow that way.  The tables on the way from the
  largest candidate do not, for two facts that each single update keeps:

    • the table covers what root paths share (`Table.Covers`), so the dominator sets lie inside it,
    • each right-hand side lies inside the set it is for (`Table.Descending`), so nothing grows.

  A pass can notice by itself whether it is at the end: it notes each update that finds another
  set than it puts there.  On a descending table updates cannot undo each other, so a pass
  notes something exactly if it ends with another table (`Descending.sweepNoting_eq`).

  Main statement: `encloses_of_build` — what holds after any number of passes, what the next pass
  does, and that it notes nothing exactly if the equations hold already.
-/
import BytecodeFlow.Proofs.Dominance.Passes

namespace BytecodeFlow.Dominance

namespace Table

variable {g : Graph} {t : Table} {b : Offset}

/-! ## §1. Tables around the result -/

/-- A table over the live blocks in which each set holds the dominators of its block. -/
structure Encloses (g : Graph) (t : Table) : Prop where
  keys_eq : t.keys = g.live
  subset_live : ∀ b s, t.get? b = some s → s ⊆ g.live
  self_mem : ∀ b s, t.get? b = some s → b ∈ s
  entry_eq : t.get? g.entry = some {g.entry}
  /-- The dominator sets lie inside the sets of the table. -/
  within : Within (ofGraph g).table t

/-- A table that covers what root paths share encloses the result. -/
theorem Covers.encloses (hg : g.Linked) (ht : t.Covers g) : t.Encloses g where
  keys_eq := ht.keys_eq
  subset_live := ht.subset_live
  self_mem := by
    intro b s hs
    have hb : b ∈ g.live := ht.live_of_get? hs
    exact ht.mem_of_shared b s b hs hb fun _ hp => hp.target_mem
  entry_eq := ht.entry_eq
  within := ht.within hg

theorem Covers.eq_of_balanced (hg : g.Linked) (ht : t.Covers g) (h : t.Balanced g) :
    t = (ofGraph g).table := by
  have hsolves : t.Solves g := ⟨ht.keys_eq, ht.subset_live, ht.entry_eq, h⟩
  exact (within_ofGraph hg hsolves).antisymm (ht.within hg)

/-! ## §2. Where the equations hold -/

/-- Updates that leave a table as it is one by one leave it so together. -/
theorem foldl_update_eq_self {bs : List Offset} (h : ∀ b ∈ bs, t.update g b = t) :
    bs.foldl (update g) t = t := by
  induction bs with
  | nil => rfl
  | cons b rest ih =>
    rw [List.foldl_cons, h b List.mem_cons_self]
    exact ih fun c hc => h c (List.mem_cons_of_mem b hc)

/-- **A sweep changes nothing exactly if the equations hold already.** -/
theorem Descending.sweep_eq_self_iff (hg : g.Linked) (h : Descending g t)
    (hkeys : t.keys = g.live) : t.sweep g = t ↔ t.Balanced g := by
  rw [balanced_iff hg hkeys]
  constructor
  · intro heq b hb hne
    exact h.solves_of_sweep_eq heq hb hne
  · intro hsolved
    refine foldl_update_eq_self fun b hb => ?_
    obtain ⟨hkey, hne⟩ := mem_swept_iff.1 hb
    exact update_eq_self_iff.2 (hsolved b hkey hne)

/-! ## §3. What a pass notes -/

/-- Updates the set of `b`, and notes it if another set was there. -/
def updateNoting (g : Graph) (state : Table × Bool) (b : Offset) : Table × Bool :=
  if state.1.get? b = some (state.1.evaluate g b) then state else (state.1.update g b, true)

/-- A sweep that notes whether any of its updates found another set. -/
def sweepNoting (g : Graph) (t : Table) : Table × Bool :=
  (t.keys.erase g.entry).toList.foldl (updateNoting g) (t, false)

/-- **The flag is right**: something is noted exactly if the table is another one in the end.  That
    nothing comes back is what makes it so. -/
theorem Descending.foldl_updateNoting {bs : List Offset} (h : Descending g t)
    (hbs : ∀ b ∈ bs, b ∈ t.keys ∧ b ≠ g.entry) (noted : Bool) :
    bs.foldl (updateNoting g) (t, noted) =
      (bs.foldl (Table.update g) t, noted || decide (bs.foldl (Table.update g) t ≠ t)) := by
  -- on the blocks still to go, whatever the table and the flag so far
  induction bs generalizing t noted with
  | nil => simp
  | cons b rest ih =>
    obtain ⟨hb, hne⟩ := hbs b List.mem_cons_self
    have hrest : ∀ c ∈ rest, c ∈ (t.update g b).keys ∧ c ≠ g.entry := by
      intro c hc
      rw [keys_update hb]
      exact hbs c (List.mem_cons_of_mem b hc)
    rw [List.foldl_cons, List.foldl_cons]
    by_cases hsame : t.get? b = some (t.evaluate g b)
    · have hstay : t.update g b = t := update_eq_self_iff.2 hsame
      rw [hstay] at hrest ⊢
      rw [updateNoting, if_pos hsame, ih h hrest]
    · -- the table is another one now, and no later update brings the old one back
      have hmoved : rest.foldl (Table.update g) (t.update g b) ≠ t := by
        intro heq
        exact hsame (update_eq_self_iff.1 (h.update_eq_of_foldl_eq hbs heq b List.mem_cons_self))
      rw [updateNoting, if_neg hsame, ih (h.update hb hne) hrest]
      simp [hmoved]

/-- **A pass notes something exactly if it ends with another table.** -/
theorem Descending.sweepNoting_eq (h : Descending g t) :
    t.sweepNoting g = (t.sweep g, decide (t.sweep g ≠ t)) := by
  refine (h.foldl_updateNoting (fun _ hb => mem_swept_iff.1 hb) false).trans ?_
  rw [Bool.false_or]
  rfl

end Table

/-! ## §4. Any number of passes -/

namespace Solver

variable {g : Graph} {s : Solver g}

/-- In a run the noted flag is whether the pass changed the table. -/
theorem sweepNoting_table (s : Solver g) :
    s.table.sweepNoting g = (s.pass.table, s.isMoving) := s.descending.sweepNoting_eq

theorem isMoving_eq_false_iff : s.isMoving = false ↔ s.pass.table = s.table := by
  rw [← Bool.not_eq_true, isMoving_iff, not_not]

/-- A solver rests exactly where the equations hold. -/
theorem rests_iff_balanced (hg : g.Linked) (hs : s.table.Covers g) :
    s.isMoving = false ↔ s.table.Balanced g := by
  rw [isMoving_eq_false_iff]
  exact s.descending.sweep_eq_self_iff hg hs.keys_eq

end Solver

/-- **Every state of the solver encloses the result and only shrinks.**  Whatever the number of
    passes, the sets lie between the dominator sets and everything live; one more pass counts
    itself and lets no set grow; and it notes no change exactly if the equations hold before it,
    in which case it ends with the same table, which is the result. -/
theorem encloses_of_build {policy : Policy} {labels : OffsetSet} {code : Code} {g : Graph}
    (h : (Graph.build policy labels code).outcome = .ok g) (n : Nat) :
    let s := Solver.pass^[n] (Solver.start g)
    s.table.Encloses g ∧ s.passes = n ∧
    Table.Within s.pass.table s.table ∧ s.pass.passes = s.passes + 1 ∧
    s.table.sweepNoting g = (s.pass.table, s.isMoving) ∧
    (s.isMoving = false ↔ s.table.Balanced g) ∧
    (s.isMoving = false → s.pass.table = s.table ∧ s.table = (ofGraph g).table) := by
  intro s
  have hg := Graph.linked_of_build h
  -- every pass of a run keeps what root paths share
  have hcovers : s.table.Covers g := Solver.covers_iterate hg n
  have hrest := Solver.rests_iff_balanced hg hcovers
  refine ⟨hcovers.encloses hg, Solver.passes_iterate n, s.descending.sweep.2, rfl,
    s.sweepNoting_table, hrest, ?_⟩
  intro hstays
  constructor
  · exact Solver.isMoving_eq_false_iff.1 hstays
  · exact hcovers.eq_of_balanced hg (hrest.1 hstays)

/-- Two dead jumps in a row lead backwards to a return.  After one pass the set of the return still
    holds the entry, and the next pass takes it out; the pass after that notes nothing. -/
theorem encloses_of_backward :
    ∃ g, (Graph.build .strict {2, 4} Code.deadJumps).outcome = .ok g ∧
      (Solver.pass^[1] (Solver.start g)).table.get? 2 = some {0, 2, 4} ∧
      (Solver.pass^[1] (Solver.start g)).table.Encloses g ∧
      ¬ (Solver.pass^[1] (Solver.start g)).table.Balanced g ∧
      (Solver.pass^[2] (Solver.start g)).table.Balanced g ∧
      (ofGraph g).table.get? 2 = some {2, 4} := by
  obtain ⟨g, hbuild, hfirst, hsecond, hmoving, hrest⟩ :
      ∃ g, (Graph.build .strict {2, 4} Code.deadJumps).outcome = .ok g ∧
      (Solver.pass^[1] (Solver.start g)).table.get? 2 = some {0, 2, 4} ∧
      (Solver.pass^[2] (Solver.start g)).table.get? 2 = some {2, 4} ∧
      (Solver.pass^[1] (Solver.start g)).isMoving = true ∧
      (Solver.pass^[2] (Solver.start g)).isMoving = false :=
    ⟨_, rfl, by decide, by decide, by decide, by decide⟩
  obtain ⟨hencloses, _, _, _, _, hiff, _⟩ := encloses_of_build hbuild 1
  obtain ⟨_, _, _, _, _, hiff', hfinal⟩ := encloses_of_build hbuild 2
  have hunbalanced : ¬ (Solver.pass^[1] (Solver.start g)).table.Balanced g := by
    intro hbalanced
    rw [hiff.2 hbalanced] at hmoving
    cases hmoving
  refine ⟨g, hbuild, hfirst, hencloses, hunbalanced, hiff'.1 hrest, ?_⟩
  rw [← (hfinal hrest).2]
  exact hsecond

end BytecodeFlow.Dominance
