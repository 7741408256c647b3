/-
  BytecodeFlow.Proofs.Dominance.Passes — HOW MANY PASSES the solver makes.

  The weight of the table falls with every pass that changes it, which bounds the passes by the
  square of the number of blocks.  Paths give a better bound.  If `d` does not belong in the set
  of `b`, some root path to `b` avoids `d`, and each pass carries that news at least one block
  further along the path:

    • the first pass takes `d` out of the set of the root (or it was never there),
    • a set that lacks `d` takes `d` out of the sets of its successors in the next pass
      (`Lacks.sweep`), whatever order the pass goes in.

  So `d` is gone after as many passes as the path has blocks (`lacks_of_path`).  A path that
  visits nothing twice and avoids `d` has fewer blocks than are live.

  Main statement: `converges_of_build` — all passes that change the table come first, they are
  fewer than the live blocks, and one more pass ends the run.
-/
import Mathlib.Data.List.Perm.Subperm
import Mathlib.Logic.Function.Iterate
import BytecodeFlow.Proofs.Dominance.Greatest

namespace BytecodeFlow.Dominance

/-! ## §1. One pass -/

namespace Table

variable {g : Graph} {t u : Table} {a b d : Offset} {s : OffsetSet}

/-- The set of `b` does not hold `d`. -/
def Lacks (t : Table) (b d : Offset) : Prop := ∀ s, t.get? b = some s → d ∉ s

/-- What a right-hand side lacks, a set inside it lacks. -/
theorem Lacks.of_evaluate (hd : d ∉ t.evaluate g b)
    (h : ∀ s, u.get? b = some s → s ⊆ t.evaluate g b) : u.Lacks b d := by
  intro s hs hmem
  exact hd (h s hs d hmem)

/-- Where `b` is updated among other blocks, its set ends up inside the right-hand side that its
    equation had before. -/
theorem Descending.foldl_update_subset {bs : List Offset} (h : Descending g t)
    (hbs : ∀ c ∈ bs, c ∈ t.keys ∧ c ≠ g.entry) (hb : b ∈ bs)
    (hs : (bs.foldl (Table.update g) t).get? b = some s) : s ⊆ t.evaluate g b := by
  obtain ⟨before, after, rfl⟩ := List.append_of_mem hb
  obtain ⟨hkey, hne⟩ := hbs b hb
  rw [List.foldl_append, List.foldl_cons] at hs
  -- sets have only shrunk when `b` is updated, and shrink further behind that
  obtain ⟨hdesc, hbefore⟩ := h.foldl_update fun c hc => hbs c (List.mem_append_left _ hc)
  set v := before.foldl (Table.update g) t
  have hv : b ∈ v.keys := hbefore.keys_eq ▸ hkey
  have hkeys : (v.update g b).keys = t.keys := (keys_update hv).trans hbefore.keys_eq
  have hrest : ∀ c ∈ after, c ∈ (v.update g b).keys ∧ c ≠ g.entry := by
    intro c hc
    rw [hkeys]
    exact hbs c (List.mem_append_right _ (List.mem_cons_of_mem b hc))
  obtain ⟨_, hafter⟩ := (hdesc.update hv hne).foldl_update hrest
  have hset : (v.update g b).get? b = some (v.evaluate g b) := by
    rw [get?_update, if_pos rfl]
  exact OffsetSet.Subset.trans (hafter.subset b s _ hs hset) (evaluate_mono hbefore b)

/-- After a sweep each set lies inside the right-hand side that its equation had before. -/
theorem Descending.sweep_subset (h : Descending g t) (hb : b ∈ t.keys) (hne : b ≠ g.entry)
    (hs : (t.sweep g).get? b = some s) : s ⊆ t.evaluate g b :=
  h.foldl_update_subset (fun _ hc => mem_swept_iff.1 hc) (mem_swept_iff.2 ⟨hb, hne⟩) hs

/-- A set without `d` keeps `d` out of the right-hand sides of its successors. -/
theorem not_mem_evaluate_of_edge (hg : g.Linked) (hkeys : t.keys = g.live) (ha : a ∈ g.live)
    (hedge : g.Edge a b) (hlacks : t.Lacks a d) (hne : d ≠ b) : d ∉ t.evaluate g b := by
  rw [mem_evaluate_iff_of_keys hg hkeys]
  intro h
  rcases h with heq | ⟨_, hall⟩
  · exact hne heq
  · obtain ⟨s, hs⟩ := OffsetMap.mem_keys_iff.1 (hkeys ▸ ha)
    exact hlacks s hs (hall a ha hedge s hs)

/-- The right-hand side of a root other than the entry holds nothing but the root. -/
theorem not_mem_evaluate_of_root (hg : g.Linked) (hkeys : t.keys = g.live)
    (hnone : ∀ a ∈ g.live, ¬ g.Edge a b) (hne : d ≠ b) : d ∉ t.evaluate g b := by
  rw [mem_evaluate_iff_of_keys hg hkeys]
  intro h
  rcases h with heq | ⟨⟨a, ha, hedge⟩, _⟩
  · exact hne heq
  · exact hnone a ha hedge

theorem Covers.lacks_entry (ht : t.Covers g) (hne : d ≠ g.entry) : t.Lacks g.entry d := by
  intro s hs hmem
  obtain rfl := Option.some.inj (hs.symm.trans ht.entry_eq)
  exact hne (OffsetSet.mem_singleton.1 hmem)

end Table

/-! ## §2. Pass after pass -/

namespace Solver

variable {g : Graph} {b d r : Offset} {p : List Offset}

/-- Passes keep what root paths share. -/
theorem covers_iterate (hg : g.Linked) (k : Nat) :
    (pass^[k] (start g)).table.Covers g := by
  induction k with
  | zero => exact Table.covers_initial hg
  | succ k ih =>
    rw [Function.iterate_succ_apply']
    exact ih.sweep hg

/-- What keeps `d` out of the right-hand side of `b` keeps it out of the set one pass later. -/
theorem lacks_pass {s : Solver g} (hg : g.Linked) (hs : s.table.Covers g) (hb : b ∈ g.live)
    (hne : d ≠ b) (hevaluate : d ∉ s.table.evaluate g b) : s.pass.table.Lacks b d := by
  have hpass : s.pass.table.Covers g := hs.sweep hg
  by_cases hentry : b = g.entry
  · subst hentry
    exact hpass.lacks_entry hne
  · exact .of_evaluate hevaluate fun _ hset =>
      s.descending.sweep_subset (hs.keys_eq ▸ hb) hentry hset

/-- From the first pass on the set of a root holds nothing but the root; that of the entry never
    did. -/
theorem lacks_root (hg : g.Linked) (hr : g.IsRoot r) (hne : d ≠ r) :
    ∀ k, 0 < k → (pass^[k] (start g)).table.Lacks r d := by
  intro k hk
  rcases hr.2 with heq | hnone
  · subst heq
    exact (covers_iterate hg k).lacks_entry hne
  · obtain ⟨k, rfl⟩ := Nat.exists_eq_succ_of_ne_zero (Nat.pos_iff_ne_zero.1 hk)
    have hcovers := covers_iterate hg k
    rw [Function.iterate_succ_apply']
    exact lacks_pass hg hcovers hr.1 hne
      (Table.not_mem_evaluate_of_root hg hcovers.keys_eq hnone hne)

/-- **News travels one block per pass.**  After as many passes as a root path has blocks, the set of
    its last block holds nothing that the path avoids. -/
theorem lacks_of_path (hg : g.Linked) (hr : g.IsRoot r) (hp : g.Path r p b) (hd : d ∉ p) :
    ∀ k, p.length ≤ k → (pass^[k] (start g)).table.Lacks b d := by
  -- on the path: one more block takes one more pass at most
  induction hp with
  | start =>
    intro k hk
    exact lacks_root hg hr (fun heq => hd (List.mem_singleton.2 heq)) k hk
  | @snoc p a b hwalk hedge ih =>
    intro k hk
    rw [List.length_append, List.length_singleton] at hk
    obtain ⟨k, rfl⟩ := Nat.exists_eq_add_of_le' (Nat.le_of_add_left_le hk)
    have hbefore : d ∉ p := fun h => hd (List.mem_append_left _ h)
    have hne : d ≠ b := fun heq => hd (List.mem_append_right _ (List.mem_singleton.2 heq))
    have hlive := hg.live_of_path hr.1 hwalk
    have hcovers := covers_iterate hg k
    -- the block before lost `d` earlier, so this pass takes it out here
    rw [Function.iterate_succ_apply']
    exact lacks_pass hg hcovers (hg.live_of_edge hedge) hne
      (Table.not_mem_evaluate_of_edge hg hcovers.keys_eq (hlive a hwalk.target_mem) hedge
        (ih hbefore k (Nat.le_of_add_le_add_right hk)) hne)

/-! ## §3. Where the passes end -/

/-- A path without repeats has no more blocks than are live. -/
theorem length_le_size (hp : p.Nodup) (hlive : ∀ x ∈ p, x ∈ g.live) : p.length ≤ g.live.size := by
  have hsub : p ⊆ g.live.toList := hlive
  exact (List.subperm_of_subset hp hsub).length_le

/-- If it avoids a live block, it has fewer. -/
theorem length_lt_size (hp : p.Nodup) (hlive : ∀ x ∈ p, x ∈ g.live) (hd : d ∈ g.live)
    (hmem : d ∉ p) : p.length < g.live.size := by
  refine length_le_size (p := d :: p) (List.nodup_cons.2 ⟨hmem, hp⟩) ?_
  intro x hx
  rcases List.mem_cons.1 hx with rfl | hx
  · exact hd
  · exact hlive x hx

/-- What the dominator set of `b` lacks, some root path to `b` avoids that visits nothing twice. -/
theorem exists_path_avoiding (hg : g.Linked) {s : OffsetSet} (hd : d ∈ g.live)
    (hs : (ofGraph g).get? b = some s) (hmem : d ∉ s) :
    ∃ p, g.RootPath p b ∧ p.Nodup ∧ d ∉ p := by
  have hb : b ∈ g.live := (covers_ofGraph hg).live_of_get? hs
  obtain ⟨s', hs', hiff⟩ := exists_dominators hg hb
  obtain rfl := Option.some.inj (hs.symm.trans hs')
  have havoids : ∃ p, g.RootPath p b ∧ d ∉ p := by
    by_contra hnone
    push Not at hnone
    exact hmem ((hiff d).2 ⟨hd, hnone⟩)
  obtain ⟨p, ⟨r, hr, hpath, hlive⟩, hdp⟩ := havoids
  obtain ⟨q, hq, hnodup, hsub⟩ := Walk.exists_nodup hpath
  exact ⟨q, ⟨r, hr, hq, fun x hx => hlive x (hsub x hx)⟩, hnodup, fun h => hdp (hsub d h)⟩

/-- Where the sets lack what the dominator sets lack, the passes have reached the dominator table. -/
theorem table_iterate_eq_of_lacks (hg : g.Linked) {k : Nat}
    (h : ∀ b d s, d ∈ g.live → (ofGraph g).get? b = some s → d ∉ s →
      (pass^[k] (start g)).table.Lacks b d) :
    (pass^[k] (start g)).table = (ofGraph g).table := by
  have hcovers := covers_iterate hg k
  refine Table.Within.antisymm ⟨?_, ?_⟩ (hcovers.within hg)
  · rw [hcovers.keys_eq, (covers_ofGraph hg).keys_eq]
  · intro b s s' hs hs' d hd
    by_contra hmem
    have hlive : d ∈ g.live := hcovers.subset_live b s hs d hd
    exact h b d s' hlive hs' hmem s hs hd

/-- **One pass less than there are live blocks is enough** to come to the dominator table. -/
theorem table_iterate_eq (hg : g.Linked) {k : Nat} (hk : g.live.size ≤ k + 1) :
    (pass^[k] (start g)).table = (ofGraph g).table := by
  refine table_iterate_eq_of_lacks hg ?_
  intro b d s hd hs hmem
  obtain ⟨p, ⟨r, hr, hpath, hlive⟩, hnodup, hdp⟩ := exists_path_avoiding hg hd hs hmem
  have hlt : p.length < g.live.size := length_lt_size hnodup hlive hd hdp
  exact lacks_of_path hg hr hpath hdp k (by omega)

/-- A run makes the passes that change something, and one more. -/
theorem exists_run_eq (s : Solver g) :
    ∃ k, s.run = pass^[k + 1] s ∧ ∀ j, (pass^[j] s).isMoving = true ↔ j < k := by
  -- on the run: the passes that still change the table, and the last one, which does not
  fun_induction run s with
  | case1 s hmoving ih =>
    obtain ⟨k, hrun, hiff⟩ := ih
    refine ⟨k + 1, hrun, ?_⟩
    intro j
    cases j with
    | zero => simpa using hmoving
    | succ j =>
      rw [Function.iterate_succ_apply, hiff]
      omega
  | case2 s hrest =>
    refine ⟨0, rfl, ?_⟩
    intro j
    -- once at rest, always at rest
    have hstays : (pass^[j] s).isMoving = false := by
      induction j with
      | zero => simpa using hrest
      | succ j ih =>
        rw [Function.iterate_succ_apply']
        exact isMoving_pass ih
    simp [hstays]

theorem passes_iterate_add (s : Solver g) (k : Nat) : (pass^[k] s).passes = s.passes + k := by
  induction k with
  | zero => rfl
  | succ k ih =>
    rw [Function.iterate_succ_apply']
    exact congrArg (· + 1) ih

theorem passes_iterate (k : Nat) : (pass^[k] (start g)).passes = k :=
  (passes_iterate_add (start g) k).trans (Nat.zero_add k)

end Solver

/-! ## §4. The number of passes -/

theorem isMoving_iff {g : Graph} {s : Solver g} : s.isMoving = true ↔ s.pass.table ≠ s.table := by
  unfold Solver.isMoving
  rw [decide_eq_true_eq]

/-- **A run ends after fewer changing passes than there are live blocks.**  Of the passes from the
    start just the first `k` change the table, the run is these and one more, and `k` is less than
    the number of live blocks. -/
theorem converges_of_build {policy : Policy} {labels : OffsetSet} {code : Code} {g : Graph}
    (h : (Graph.build policy labels code).outcome = .ok g) :
    ∃ k, (Solver.start g).run = Solver.pass^[k + 1] (Solver.start g) ∧
      (∀ j, (Solver.pass^[j + 1] (Solver.start g)).table ≠
        (Solver.pass^[j] (Solver.start g)).table ↔ j < k) ∧
      k ≤ g.live.size - 1 ∧ (ofGraph g).passes = k + 1 ∧
      1 ≤ (ofGraph g).passes ∧ (ofGraph g).passes ≤ g.live.size := by
  have hg := Graph.linked_of_build h
  obtain ⟨k, hrun, hiff⟩ := (Solver.start g).exists_run_eq
  have hpasses : (ofGraph g).passes = k + 1 := by
    show (Solver.start g).run.passes = k + 1
    rw [hrun, Solver.passes_iterate]
  have hmoves : ∀ j, (Solver.pass^[j + 1] (Solver.start g)).table ≠
      (Solver.pass^[j] (Solver.start g)).table ↔ j < k := by
    intro j
    rw [Function.iterate_succ_apply', ← isMoving_iff, hiff]
  -- one pass less than there are live blocks, and the table is what it is one pass later
  have hlive : 0 < g.live.size := List.length_pos_of_mem hg.entry_live
  have hk : k ≤ g.live.size - 1 := by
    by_contra hlt
    have hmoved := (hmoves (g.live.size - 1)).2 (by omega)
    rw [Solver.table_iterate_eq hg (by omega), Solver.table_iterate_eq hg (by omega)] at hmoved
    exact hmoved rfl
  refine ⟨k, hrun, hmoves, hk, hpasses, ?_, ?_⟩
  · omega
  · omega

/-- Two dead jumps in a row lead backwards to a return: with three live blocks the bound is met.
    The first pass reaches the block at 2 before the root at 4 has lost the entry from its set. -/
theorem converges_of_backward :
    ∃ g, (Graph.build .strict {2, 4} Code.deadJumps).outcome = .ok g ∧
      g.live.toList = [0, 2, 4] ∧ (ofGraph g).passes = g.live.size := by
  obtain ⟨g, hbuild, hlive, hchanges⟩ :
      ∃ g, (Graph.build .strict {2, 4} Code.deadJumps).outcome = .ok g ∧
      g.live.toList = [0, 2, 4] ∧
      (Solver.pass^[2] (Solver.start g)).table ≠ (Solver.pass^[1] (Solver.start g)).table :=
    ⟨_, rfl, by decide, by decide⟩
  obtain ⟨k, _, hmoves, hk, hpasses, _, _⟩ := converges_of_build hbuild
  have hlt : 1 < k := (hmoves 1).1 hchanges
  have hsize : g.live.size = 3 := congrArg List.length hlive
  refine ⟨g, hbuild, hlive, ?_⟩
  omega

end BytecodeFlow.Dominance
