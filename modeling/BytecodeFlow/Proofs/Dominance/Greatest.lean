/-
  BytecodeFlow.Proofs.Dominance.Greatest — THE ORDER OF UPDATES DOES NOT MATTER.

  The solver sweeps the blocks in ascending order.  Any other schedule of updates, with repeats
  and omissions, comes to the same table wherever it comes to rest.  On a cycle the equations
  have many solutions, so a table at rest is not determined by the equations alone:

    • a solution of the equations lies inside the largest candidate, and no update takes
      anything of it away (`Solves.within_update`), so it lies inside every scheduled table,
    • a scheduled table at rest is a solution itself (`Covers.solves`).

  Two scheduled tables at rest therefore lie inside each other.

  Main statement: `schedule_of_build` — every schedule that comes to rest ends with the
  dominator table, and that table is the greatest solution of the equations.
-/
import BytecodeFlow.Proofs.Dominance.Meaning

namespace BytecodeFlow.Dominance

namespace Table

variable {g : Graph} {t u : Table} {b x : Offset}

/-! ## §1. Solutions of the equations -/

/-- The equations of all blocks but the entry hold: a set holds its own block, and what the sets
    of the live predecessors share if there are any. -/
def Balanced (g : Graph) (t : Table) : Prop :=
  ∀ b s, b ≠ g.entry → t.get? b = some s → ∀ x, x ∈ s ↔
    x = b ∨ (∃ a ∈ g.live, g.Edge a b) ∧
      ∀ a ∈ g.live, g.Edge a b → ∀ r, t.get? a = some r → x ∈ r

/-- A table over the live blocks that solves the equations of `g`. -/
structure Solves (g : Graph) (t : Table) : Prop where
  keys_eq : t.keys = g.live
  subset_live : ∀ b s, t.get? b = some s → s ⊆ g.live
  entry_eq : t.get? g.entry = some {g.entry}
  balanced : t.Balanced g

/-- The equations hold exactly if each set is its right-hand side. -/
theorem balanced_iff (hg : g.Linked) (hkeys : t.keys = g.live) :
    t.Balanced g ↔ ∀ b ∈ t.keys, b ≠ g.entry → t.get? b = some (t.evaluate g b) := by
  constructor
  · intro h b hb hne
    obtain ⟨s, hs⟩ := OffsetMap.mem_keys_iff.1 hb
    have heq : s = t.evaluate g b := by
      ext x
      rw [h b s hne hs, mem_evaluate_iff_of_keys hg hkeys]
    rw [hs, heq]
  · intro h b s hne hs x
    rw [h b (OffsetMap.mem_keys_of_get? hs) hne] at hs
    obtain rfl := Option.some.inj hs
    exact mem_evaluate_iff_of_keys hg hkeys

theorem update_eq_self_iff : t.update g b = t ↔ t.get? b = some (t.evaluate g b) := by
  constructor
  · intro h
    calc t.get? b = (t.update g b).get? b := by rw [h]
      _ = some (t.evaluate g b) := by rw [get?_update, if_pos rfl]
  · intro h
    ext1 c
    rw [get?_update]
    split
    · rename_i heq
      rw [heq, h]
    · rfl

theorem Solves.get?_eq (hg : g.Linked) (hu : u.Solves g) (hb : b ∈ u.keys) (hne : b ≠ g.entry) :
    u.get? b = some (u.evaluate g b) :=
  (balanced_iff hg hu.keys_eq).1 hu.balanced b hb hne

/-- Where each set is the right-hand side of its equation, the table is a solution. -/
theorem solves_of_evaluate (hg : g.Linked) (hkeys : t.keys = g.live)
    (hsub : ∀ b s, t.get? b = some s → s ⊆ g.live) (hentry : t.get? g.entry = some {g.entry})
    (hsolved : ∀ b ∈ t.keys, b ≠ g.entry → t.get? b = some (t.evaluate g b)) : t.Solves g :=
  ⟨hkeys, hsub, hentry, (balanced_iff hg hkeys).2 hsolved⟩

theorem Covers.solves (hg : g.Linked) (ht : t.Covers g)
    (hsolved : ∀ b ∈ t.keys, b ≠ g.entry → t.get? b = some (t.evaluate g b)) : t.Solves g :=
  solves_of_evaluate hg ht.keys_eq ht.subset_live ht.entry_eq hsolved

/-! ## §2. Updates take nothing from a solution -/

/-- The largest candidate lies around every solution. -/
theorem Solves.within_initial (hu : u.Solves g) : Within u (initial g) := by
  refine ⟨hu.keys_eq.trans OffsetMap.keys_ofKeys.symm, ?_⟩
  intro b s s' hs hs'
  have hb : b ∈ g.live := hu.keys_eq ▸ OffsetMap.mem_keys_of_get? hs
  rw [get?_initial, if_pos hb] at hs'
  obtain rfl := Option.some.inj hs'
  by_cases hentry : b = g.entry
  · subst hentry
    rw [if_pos rfl]
    obtain rfl := Option.some.inj (hs.symm.trans hu.entry_eq)
    exact OffsetSet.Subset.refl _
  · rw [if_neg hentry]
    exact hu.subset_live b s hs

/-- **No update takes anything from a solution**: the new set lies around the right-hand side that
    the solution has there. -/
theorem Solves.within_update (hg : g.Linked) (hu : u.Solves g) (hb : b ∈ t.keys)
    (hne : b ≠ g.entry) (h : Within u t) : Within u (t.update g b) := by
  refine ⟨h.keys_eq.trans (keys_update hb).symm, ?_⟩
  intro c s s' hs hs'
  rw [get?_update] at hs'
  split at hs'
  · -- the new set is the right-hand side in `t`, and in `u` the set is the right-hand side in `u`
    rename_i heq
    subst heq
    obtain rfl := Option.some.inj hs'
    rw [hu.get?_eq hg (h.keys_eq ▸ hb) hne] at hs
    obtain rfl := Option.some.inj hs
    exact evaluate_mono h c
  · exact h.subset c s s' hs hs'

/-! ## §3. Schedules -/

/-- The table after the blocks of `bs` are updated one by one, from the largest candidate. -/
def scheduled (g : Graph) (bs : List Offset) : Table := bs.foldl (update g) (initial g)

/-- Blocks that a schedule may update: live ones other than the entry. -/
def Updatable (g : Graph) (b : Offset) : Prop := b ∈ g.live ∧ b ≠ g.entry

/-- No further update changes the table. -/
def AtRest (g : Graph) (t : Table) : Prop := ∀ b, Updatable g b → t.update g b = t

theorem scheduled_keeps {P : Table → Prop} {bs : List Offset}
    (hkeep : ∀ t b, b ∈ t.keys → b ≠ g.entry → P t → P (t.update g b))
    (hbs : ∀ b ∈ bs, Updatable g b) (hinit : P (initial g)) : P (scheduled g bs) := by
  refine foldl_update_keeps hkeep bs (initial g) ?_ hinit
  intro b hb
  obtain ⟨hlive, hne⟩ := hbs b hb
  have hkeys : (initial g).keys = g.live := OffsetMap.keys_ofKeys
  exact ⟨hkeys ▸ hlive, hne⟩

theorem solves_scheduled (hg : g.Linked) {bs : List Offset} (hbs : ∀ b ∈ bs, Updatable g b)
    (hrest : (scheduled g bs).AtRest g) : (scheduled g bs).Solves g := by
  have hcovers : (scheduled g bs).Covers g :=
    scheduled_keeps (fun _ _ hb hne ht => ht.update hg hb hne) hbs (covers_initial hg)
  refine hcovers.solves hg ?_
  intro b hb hne
  exact update_eq_self_iff.1 (hrest b ⟨hcovers.keys_eq ▸ hb, hne⟩)

theorem atRest_of_solved (hkeys : t.keys = g.live)
    (hsolved : ∀ b ∈ t.keys, b ≠ g.entry → t.get? b = some (t.evaluate g b)) : t.AtRest g := by
  intro b ⟨hlive, hne⟩
  exact update_eq_self_iff.2 (hsolved b (hkeys ▸ hlive) hne)

end Table

/-! ## §4. The dominator table -/

variable {g : Graph}

theorem solves_ofGraph (hg : g.Linked) : (ofGraph g).table.Solves g :=
  (covers_ofGraph hg).solves hg solved_ofGraph

/-- Every solution lies inside the dominator table. -/
theorem within_ofGraph (hg : g.Linked) {u : Table} (hu : u.Solves g) :
    Table.Within u (ofGraph g).table :=
  Solver.run_keeps (P := Table.Within u) (fun _ _ hb hne ht => hu.within_update hg hb hne ht)
    (Solver.start g) hu.within_initial

/-- The sweeps of the solver are a schedule. -/
theorem exists_schedule :
    ∃ bs, (∀ b ∈ bs, Table.Updatable g b) ∧ Table.scheduled g bs = (ofGraph g).table := by
  have hrun := Solver.run_keeps (g := g)
    (P := fun t => t.keys = g.live ∧ ∃ bs, (∀ b ∈ bs, Table.Updatable g b) ∧
      Table.scheduled g bs = t) ?_ (Solver.start g)
    ⟨OffsetMap.keys_ofKeys, [], by simp, rfl⟩
  · exact hrun.2
  · -- one more update is one more block at the end of the schedule
    intro t b hb hne ⟨hkeys, bs, hbs, ht⟩
    refine ⟨(Table.keys_update hb).trans hkeys, bs ++ [b], ?_, ?_⟩
    · intro c hc
      rcases List.mem_append.1 hc with hc | hc
      · exact hbs c hc
      · obtain rfl := List.mem_singleton.1 hc
        exact ⟨hkeys ▸ hb, hne⟩
    · rw [← ht]
      exact List.foldl_append

/-- **Every schedule that comes to rest ends with the dominator table.**  Some schedule does, and
    the dominator table is the greatest solution of the equations: it solves them, and every
    solution lies inside it block by block. -/
theorem schedule_of_build {policy : Policy} {labels : OffsetSet} {code : Code} {g : Graph}
    (h : (Graph.build policy labels code).outcome = .ok g) :
    (∀ bs, (∀ b ∈ bs, Table.Updatable g b) → (Table.scheduled g bs).AtRest g →
      Table.scheduled g bs = (ofGraph g).table) ∧
    (∃ bs, (∀ b ∈ bs, Table.Updatable g b) ∧ (Table.scheduled g bs).AtRest g) ∧
    (ofGraph g).table.Solves g ∧
    ∀ t : Table, t.Solves g → Table.Within t (ofGraph g).table := by
  have hg := Graph.linked_of_build h
  have hsolves := solves_ofGraph hg
  refine ⟨?_, ?_, hsolves, fun t ht => within_ofGraph hg ht⟩
  · intro bs hbs hrest
    -- the dominator table is a solution too, so no schedule cuts into it
    have hinside : Table.Within (ofGraph g).table (Table.scheduled g bs) :=
      Table.scheduled_keeps (fun _ _ hb hne ht => hsolves.within_update hg hb hne ht) hbs
        hsolves.within_initial
    exact (within_ofGraph hg (Table.solves_scheduled hg hbs hrest)).antisymm hinside
  · obtain ⟨bs, hbs, heq⟩ := exists_schedule (g := g)
    refine ⟨bs, hbs, ?_⟩
    rw [heq]
    exact Table.atRest_of_solved hsolves.keys_eq solved_ofGraph

/-- `0 NOP`, `2 POP_JUMP_IF_TRUE 6`, `4 JUMP_ABSOLUTE 2`, `6 RETURN_VALUE`, `8 JUMP_ABSOLUTE 10`,
    `10 JUMP_ABSOLUTE 8`. -/
def loopAndDeadCycle : Code :=
  [.decode 0 .nop none 2, .decode 2 .popJumpIfTrue (some 6) 4, .decode 4 .jumpAbsolute (some 2) 6,
    .decode 6 .returnValue none 8, .decode 8 .jumpAbsolute (some 10) 10,
    .decode 10 .jumpAbsolute (some 8) 12]

/-- A loop at 2 and 4, and two dead jumps at 8 and 10 that feed each other.  A schedule that goes
    backwards, repeats itself and leaves the dead jumps out ends with the dominator table; a
    solution in which the dead jumps share only themselves lies strictly inside it. -/
theorem schedule_of_deadLoop :
    ∃ g, (Graph.build .strict {2, 6, 8, 10} loopAndDeadCycle).outcome = .ok g ∧
      (Table.scheduled g [6, 4, 2, 6, 4, 6]).AtRest g ∧
      Table.scheduled g [6, 4, 2, 6, 4, 6] = (ofGraph g).table ∧
      ∃ t : Table, t.Solves g ∧ t ≠ (ofGraph g).table ∧ Table.Within t (ofGraph g).table := by
  obtain ⟨g, t, hbuild, hupdatable, hrest, hkeys, hsub, hentry, hsolved, hlarger⟩ :
      ∃ (g : Graph) (t : Table),
      (Graph.build .strict {2, 6, 8, 10} loopAndDeadCycle).outcome = .ok g ∧
      (∀ b ∈ [6, 4, 2, 6, 4, 6], b ∈ g.live ∧ b ≠ g.entry) ∧
      (∀ b ∈ g.live.toList, b ≠ g.entry →
        (Table.scheduled g [6, 4, 2, 6, 4, 6]).update g b = Table.scheduled g [6, 4, 2, 6, 4, 6]) ∧
      t.keys = g.live ∧ (∀ e ∈ t.entries, e.2 ⊆ g.live) ∧ t.get? g.entry = some {g.entry} ∧
      (∀ b ∈ t.keys.toList, b ≠ g.entry → t.get? b = some (t.evaluate g b)) ∧
      t ≠ Table.scheduled g [6, 4, 2, 6, 4, 6] :=
    ⟨_, .ofList [(0, {0}), (2, {0, 2}), (4, {0, 2, 4}), (6, {0, 2, 6}), (8, {8, 10}),
        (10, {8, 10})],
      rfl, by decide, by decide, by decide, by decide, by decide, by decide, by decide⟩
  have hrest' : (Table.scheduled g [6, 4, 2, 6, 4, 6]).AtRest g := fun b hb => hrest b hb.1 hb.2
  -- the other solution: the dead jumps share themselves alone
  have hsolves : t.Solves g := Table.solves_of_evaluate (Graph.linked_of_build hbuild) hkeys
    (fun b s hs => hsub (b, s) (OffsetMap.get?_eq_some_iff.1 hs)) hentry hsolved
  obtain ⟨hschedule, _, _, hgreatest⟩ := schedule_of_build hbuild
  have heq := hschedule _ hupdatable hrest'
  exact ⟨g, hbuild, hrest', heq, t, hsolves, heq ▸ hlarger, hgreatest t hsolves⟩

end BytecodeFlow.Dominance
