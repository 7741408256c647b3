/-
  BytecodeFlow.Proofs.Dominance.Retreat — RETREATS GOVERN THE PASSES.

  A pass goes over the blocks in ascending order and replaces sets in place.  When the set of `b`
  is computed, the blocks in front of `b` have their new sets already, and the blocks from `b` on
  still have their old ones (`Table.exists_midway`).  So the news that a set has lost `d` travels

    • along an edge to a greater offset within one pass, and on along the next such edge,
    • along an edge to the same or a smaller offset, a retreat, in one more pass.

  The first pass carries it along a root path up to the first retreat, and every further pass past
  one more (`Solver.lacks_of_retreats`).  Root paths that visit nothing twice are enough to tell
  the dominator sets, so the greatest number of retreats on such a path counts all passes but two:
  the first, and the last, which finds nothing to change.

  Main statement: `passes_le_of_build`.
-/
import Mathlib.Order.Lattice.Nat
import BytecodeFlow.Proofs.Neighbours
import BytecodeFlow.Proofs.Dominance.Resume

namespace BytecodeFlow

/-! ## §1. Retreats -/

namespace Graph

/-- The number of steps along `p` that do not lead to a greater offset. -/
def retreats (p : List Offset) : Nat := (p.zip p.tail).countP fun e => e.2 ≤ e.1

/-- `n` retreats are on a root path that visits nothing twice, and no such path has more. -/
def MostRetreats (g : Graph) (n : Nat) : Prop :=
  IsGreatest {k | ∃ p b, g.RootPath p b ∧ p.Nodup ∧ retreats p = k} n

variable {g : Graph} {a b r : Offset} {p : List Offset}

/-- One more block is one more retreat exactly if it does not lie further on. -/
theorem retreats_concat (h : p.getLast? = some a) :
    retreats (p ++ [b]) = retreats p + if b ≤ a then 1 else 0 := by
  unfold retreats
  rw [zip_tail_concat h, List.countP_append, List.countP_singleton]
  simp

theorem retreats_le_length : retreats p ≤ p.length := by
  unfold retreats
  refine List.countP_le_length.trans ?_
  rw [List.length_zip]
  exact Nat.min_le_left _ _

/-- Where all edges lead to greater offsets there are none. -/
theorem retreats_eq_zero (hp : g.Path r p b)
    (hforward : ∀ x ∈ p, ∀ y ∈ p, g.Edge x y → x < y) : retreats p = 0 := by
  induction hp with
  | start => rfl
  | @snoc p a b hwalk hedge ih =>
    have hbefore : retreats p = 0 :=
      ih fun x hx y hy => hforward x (List.mem_append_left _ hx) y (List.mem_append_left _ hy)
    have hlt : a < b :=
      hforward a (List.mem_append_left _ hwalk.target_mem) b
        (List.mem_append_right _ (List.mem_singleton_self b)) hedge
    rw [retreats_concat hwalk.getLast?_eq, hbefore, if_neg (Nat.not_le.2 hlt)]

/-- A path without repeats is no longer than there are live blocks, so the retreats are bounded and
    the most of them are attained. -/
theorem Linked.exists_mostRetreats (hg : g.Linked) : ∃ n, g.MostRetreats n := by
  have hsome : {k | ∃ p b, g.RootPath p b ∧ p.Nodup ∧ retreats p = k}.Nonempty :=
    ⟨0, [g.entry], g.entry, hg.isRoot_entry.rootPath, List.nodup_singleton _, rfl⟩
  have hbounded : BddAbove {k | ∃ p b, g.RootPath p b ∧ p.Nodup ∧ retreats p = k} := by
    refine ⟨g.live.size, ?_⟩
    rintro _ ⟨p, b, hp, hnodup, rfl⟩
    have hlength : p.length ≤ g.live.size :=
      Dominance.Solver.length_le_size hnodup fun x hx => hp.live_of_mem hx
    exact retreats_le_length.trans hlength
  exact ⟨_, Nat.sSup_mem hsome hbounded, fun k hk => le_csSup hbounded hk⟩

end Graph

namespace Dominance

/-! ## §2. Inside a pass -/

namespace Table

variable {g : Graph} {t : Table} {a b : Offset}

/-- Updates of other blocks leave a set alone. -/
theorem get?_foldl_update_of_not_mem {bs : List Offset} (hb : b ∉ bs) :
    (bs.foldl (update g) t).get? b = t.get? b := by
  induction bs generalizing t with
  | nil => rfl
  | cons c rest ih =>
    rw [List.mem_cons, not_or] at hb
    rw [List.foldl_cons, ih hb.2, get?_update, if_neg hb.1]

/-- **The table in the middle of a sweep.**  The new set of `b` comes from a table that is new in
    front of `b` and old from `b` on. -/
theorem exists_midway (hb : b ∈ t.keys) (hne : b ≠ g.entry) :
    ∃ u : Table, u.keys = t.keys ∧ (t.sweep g).get? b = some (u.evaluate g b) ∧
      (∀ a < b, u.get? a = (t.sweep g).get? a) ∧ ∀ a, b ≤ a → u.get? a = t.get? a := by
  obtain ⟨before, after, hsplit⟩ := List.append_of_mem (mem_swept_iff.2 ⟨hb, hne⟩)
  have hascending := (t.keys.erase g.entry).ascending
  rw [hsplit, List.pairwise_append, List.pairwise_cons] at hascending
  obtain ⟨_, ⟨hafter, _⟩, hbefore⟩ := hascending
  -- the blocks in front of `b` are swept, then `b`, then the rest
  have hsweep : t.sweep g = (b :: after).foldl (update g) (before.foldl (update g) t) := by
    unfold sweep
    rw [hsplit, List.foldl_append]
  refine ⟨before.foldl (update g) t, ?_, ?_, ?_, ?_⟩
  · refine foldl_update_keeps (P := fun v => v.keys = t.keys) ?_ before t ?_ rfl
    · intro v c hc _ hv
      rw [keys_update hc, hv]
    · intro c hc
      exact mem_swept_iff.1 (hsplit ▸ List.mem_append_left _ hc)
  · have hnot : b ∉ after := fun h => Nat.lt_irrefl b (hafter b h)
    rw [hsweep, List.foldl_cons, get?_foldl_update_of_not_mem hnot, get?_update, if_pos rfl]
  · intro a hlt
    have hnot : a ∉ b :: after := by
      intro h
      rcases List.mem_cons.1 h with rfl | h
      · exact Nat.lt_irrefl a hlt
      · exact Nat.lt_asymm hlt (hafter a h)
    rw [hsweep, get?_foldl_update_of_not_mem hnot]
  · intro a hle
    have hnot : a ∉ before := fun h =>
      Nat.not_lt.2 hle (hbefore a h b List.mem_cons_self)
    exact get?_foldl_update_of_not_mem hnot

end Table

/-! ## §3. Pass after pass -/

namespace Solver

variable {g : Graph} {s : Solver g} {a b d r : Offset} {p : List Offset}

/-- One pass carries the news along an edge: to a greater offset it is enough that the new set of
    the source lacks `d`, on a retreat the old one has to. -/
theorem lacks_pass_of_edge (hg : g.Linked) (hs : s.table.Covers g) (ha : a ∈ g.live)
    (hedge : g.Edge a b) (hne : d ≠ b) (hnew : a < b → s.pass.table.Lacks a d)
    (hold : b ≤ a → s.table.Lacks a d) : s.pass.table.Lacks b d := by
  have hpass : s.pass.table.Covers g := hs.sweep hg
  by_cases hentry : b = g.entry
  · subst hentry
    exact hpass.lacks_entry hne
  · have hb : b ∈ s.table.keys := hs.keys_eq ▸ hg.live_of_edge hedge
    -- the table at the moment when `b` is updated: new sets in front of `b`, old ones from there on
    obtain ⟨u, hkeys, hset, hfront, hback⟩ := Table.exists_midway hb hentry
    have hlacks : u.Lacks a d := by
      rcases Nat.lt_or_ge a b with hlt | hle
      · intro c hc
        exact hnew hlt c ((hfront a hlt).symm.trans hc)
      · intro c hc
        exact hold hle c ((hback a hle).symm.trans hc)
    have hevaluate : d ∉ u.evaluate g b :=
      Table.not_mem_evaluate_of_edge hg (hkeys.trans hs.keys_eq) ha hedge hlacks hne
    exact .of_evaluate hevaluate fun c hc => by
      obtain rfl := Option.some.inj (hset.symm.trans hc)
      exact OffsetSet.Subset.refl _

/-- **News waits for the next pass only on a retreat.**  After more passes than a root path has
    retreats, the set of its last block holds nothing that the path avoids. -/
theorem lacks_of_retreats (hg : g.Linked) (hr : g.IsRoot r) (hp : g.Path r p b) (hd : d ∉ p) :
    ∀ k, Graph.retreats p < k → (pass^[k] (start g)).table.Lacks b d := by
  -- on the path: a step forward is done in the same pass, a retreat waits for the next
  induction hp with
  | start =>
    intro k hk
    exact lacks_root hg hr (fun heq => hd (List.mem_singleton.2 heq)) k (Nat.zero_lt_of_lt hk)
  | @snoc p a b hwalk hedge ih =>
    intro k hk
    rw [Graph.retreats_concat hwalk.getLast?_eq] at hk
    obtain ⟨k, rfl⟩ := Nat.exists_eq_succ_of_ne_zero (Nat.ne_zero_of_lt hk)
    have hbefore : d ∉ p := fun h => hd (List.mem_append_left _ h)
    have hne : d ≠ b := fun heq => hd (List.mem_append_right _ (List.mem_singleton.2 heq))
    have ha : a ∈ g.live := hg.live_of_path hr.1 hwalk a hwalk.target_mem
    rw [Function.iterate_succ_apply']
    refine lacks_pass_of_edge hg (covers_iterate hg k) ha hedge hne ?_ ?_
    · intro hlt
      rw [← Function.iterate_succ_apply' pass]
      exact ih hbefore (k + 1) (by omega)
    · intro hle
      rw [if_pos hle] at hk
      exact ih hbefore k (by omega)

/-! ## §4. The number of passes -/

/-- Once the passes have come to the dominator table, one more ends the run. -/
theorem passes_le_of_table_eq (hg : g.Linked) {k : Nat}
    (h : (pass^[k] (start g)).table = (ofGraph g).table) : (ofGraph g).passes ≤ k + 1 := by
  have hbalanced : (pass^[k] (start g)).table.Balanced g := by
    rw [h]
    exact (solves_ofGraph hg).balanced
  have hrests := (rests_iff_balanced hg (covers_iterate hg k)).2 hbalanced
  by_contra hlt
  rw [isMoving_iterate_iff.2 (Nat.not_le.1 hlt)] at hrests
  cases hrests

/-- **Two passes more than retreats**: one for the way itself, one that changes nothing. -/
theorem passes_le_of_retreats (hg : g.Linked) {n : Nat}
    (hn : ∀ p b, g.RootPath p b → p.Nodup → Graph.retreats p ≤ n) :
    (ofGraph g).passes ≤ n + 2 := by
  refine passes_le_of_table_eq hg (table_iterate_eq_of_lacks hg ?_)
  intro b d s hd hs hmem
  obtain ⟨p, hp, hnodup, hdp⟩ := exists_path_avoiding hg hd hs hmem
  have hretreats := hn p b hp hnodup
  obtain ⟨r, hr, hpath, _⟩ := hp
  exact lacks_of_retreats hg hr hpath hdp (n + 1) (Nat.lt_succ_of_le hretreats)

end Solver

/-- **A run makes at most two passes more than there are retreats on a root path**, on the one with
    the most of them among those that visit nothing twice.  If every edge between live blocks leads
    to a greater offset, two passes are enough for a graph of any size. -/
theorem passes_le_of_build {policy : Policy} {labels : OffsetSet} {code : Code} {g : Graph}
    (h : (Graph.build policy labels code).outcome = .ok g) :
    (∃ n, g.MostRetreats n ∧ (ofGraph g).passes ≤ n + 2) ∧
    ((∀ a ∈ g.live, ∀ b ∈ g.live, g.Edge a b → a < b) → (ofGraph g).passes ≤ 2) := by
  have hg := Graph.linked_of_build h
  constructor
  · obtain ⟨n, hn⟩ := hg.exists_mostRetreats
    refine ⟨n, hn, Solver.passes_le_of_retreats hg ?_⟩
    intro p b hp hnodup
    exact hn.2 ⟨p, b, hp, hnodup, rfl⟩
  · intro hforward
    refine Solver.passes_le_of_retreats (n := 0) hg ?_
    -- all edges lead forward, so no path has a retreat
    intro p b ⟨r, _, hpath, hlive⟩ _
    exact (Graph.retreats_eq_zero hpath fun x hx y hy =>
      hforward x (hlive x hx) y (hlive y hy)).le

/-- `0 POP_JUMP_IF_TRUE 4`, `2 NOP`, `4 RETURN_VALUE`. -/
def branchForward : Code :=
  [.decode 0 .popJumpIfTrue (some 4) 2, .decode 2 .nop none 4, .decode 4 .returnValue none 6]

/-- The bound is met.  With a dead jump from 4 back to 2 a root path has one retreat at most, and a
    run makes three passes; a branch that meets itself again has none, and a run makes two. -/
theorem passes_of_backward :
    (∃ g, (Graph.build .strict {2, 4} Code.deadJumps).outcome = .ok g ∧
      g.MostRetreats 1 ∧ (ofGraph g).passes = 1 + 2) ∧
    ∃ g, (Graph.build .strict {4} branchForward).outcome = .ok g ∧
      (∀ a ∈ g.live, ∀ b ∈ g.live, g.Edge a b → a < b) ∧ (ofGraph g).passes = 2 := by
  constructor
  · obtain ⟨g, hbuild, hunfed, hlive, hedge, honly, hmoving⟩ :
        ∃ g, (Graph.build .strict {2, 4} Code.deadJumps).outcome = .ok g ∧
        (∀ a ∈ g.live.toList, ¬ g.Edge a 4) ∧ 4 ∈ g.live ∧ g.Edge 4 2 ∧
        (∀ a ∈ g.live.toList, ∀ b ∈ g.live.toList, g.Edge a b → a = 4 ∧ b = 2) ∧
        (Solver.pass^[1] (Solver.start g)).isMoving = true :=
      ⟨_, rfl, by decide, by decide, by decide, by decide, by decide⟩
    have hg := Graph.linked_of_build hbuild
    obtain ⟨⟨n, hn, hfew⟩, _⟩ := passes_le_of_build hbuild
    have hmore : 1 + 1 < (ofGraph g).passes := Solver.isMoving_iterate_iff.1 hmoving
    have hback : g.RootPath [4, 2] 2 :=
      (Graph.IsRoot.rootPath ⟨hlive, .inr hunfed⟩).snoc hedge (hg.live_of_edge hedge)
    have hsome : 1 ≤ n := hn.2 ⟨[4, 2], 2, hback, by decide, by decide⟩
    -- the one edge between live blocks cannot be taken twice in a row
    have hmost : n ≤ 1 := by
      obtain ⟨p, b, ⟨r, _, hpath, hstays⟩, _, rfl⟩ := hn.1
      cases hpath with
      | start => exact Nat.zero_le 1
      | snoc hwalk hstep =>
        have hbefore := fun x hx => hstays x (List.mem_append_left _ hx)
        obtain ⟨rfl, rfl⟩ := honly _ (hbefore _ hwalk.target_mem) _ (hg.live_of_edge hstep) hstep
        cases hwalk with
        | start => exact Nat.le_refl 1
        | snoc hwalk hstep =>
          have hsource := hbefore _ (List.mem_append_left _ hwalk.target_mem)
          exact absurd (honly _ hsource _ hlive hstep).2 (by decide)
    obtain rfl : n = 1 := Nat.le_antisymm hmost hsome
    exact ⟨g, hbuild, hn, Nat.le_antisymm hfew hmore⟩
  · obtain ⟨g, hbuild, hforward, hmoving⟩ :
        ∃ g, (Graph.build .strict {4} branchForward).outcome = .ok g ∧
        (∀ a ∈ g.live.toList, ∀ b ∈ g.live.toList, g.Edge a b → a < b) ∧
        (Solver.pass^[0] (Solver.start g)).isMoving = true :=
      ⟨_, rfl, by decide, by decide⟩
    have hmore : 0 + 1 < (ofGraph g).passes := Solver.isMoving_iterate_iff.1 hmoving
    have hfew : (ofGraph g).passes ≤ 2 := (passes_le_of_build hbuild).2 hforward
    refine ⟨g, hbuild, hforward, ?_⟩
    omega

end Dominance

end BytecodeFlow
