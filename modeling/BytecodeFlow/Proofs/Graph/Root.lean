/-
  BytecodeFlow.Proofs.Graph.Root — PATHS from where control can start.

  A live block without live predecessors is fed by dead code at most, so for the live part of a
  graph control starts there just as it starts at the entry.  Both kinds are roots.  A root path
  starts in a root and stays on live blocks.

  Root paths can be cut and spliced like walks: one may stop at the first block of some kind that
  it visits (`RootPath.exists_first`), and what follows the last such block may be entered by any
  other root path (`RootPath.exists_last`).

  No root path leads into a cycle of dead code (`not_rootPath_of_cycle`).

  In a linked graph an edge leads to a live block whatever it comes from.  Hence a path that
  starts live stays live (`Path.live`), and a path from the entry is a root path
  (`rootPath_of_entry`).
-/
import BytecodeFlow.Proofs.Graph.Link
import BytecodeFlow.Proofs.Walk

namespace BytecodeFlow.Graph

/-- `g.Path a p b`: along edges control can go from `a` to `b` through the blocks of `p`. -/
abbrev Path (g : Graph) : Offset → List Offset → Offset → Prop := Walk g.Edge

/-- A live block that is the entry or has no live predecessor. -/
def IsRoot (g : Graph) (r : Offset) : Prop :=
  r ∈ g.live ∧ (r = g.entry ∨ ∀ a ∈ g.live, ¬ g.Edge a r)

/-- A path to `b` that starts in a root and stays on live blocks. -/
def RootPath (g : Graph) (p : List Offset) (b : Offset) : Prop :=
  ∃ r, g.IsRoot r ∧ g.Path r p b ∧ ∀ x ∈ p, x ∈ g.live

variable {g : Graph} {a b r : Offset} {p : List Offset}

theorem IsRoot.rootPath (h : g.IsRoot r) : g.RootPath [r] r := by
  refine ⟨r, h, .start, ?_⟩
  intro x hx
  obtain rfl := List.mem_singleton.1 hx
  exact h.1

theorem RootPath.target_mem (h : g.RootPath p b) : b ∈ p := by
  obtain ⟨_, _, hpath, _⟩ := h
  exact Walk.target_mem hpath

theorem RootPath.live_of_mem {x : Offset} (h : g.RootPath p b) (hx : x ∈ p) : x ∈ g.live := by
  obtain ⟨_, _, _, hlive⟩ := h
  exact hlive x hx

/-- A root path goes on along any edge to a live block. -/
theorem RootPath.snoc (h : g.RootPath p a) (hedge : g.Edge a b) (hb : b ∈ g.live) :
    g.RootPath (p ++ [b]) b := by
  obtain ⟨r, hr, hpath, hlive⟩ := h
  refine ⟨r, hr, Walk.snoc hpath hedge, ?_⟩
  intro x hx
  rcases List.mem_append.1 hx with hx | hx
  · exact hlive x hx
  · obtain rfl := List.mem_singleton.1 hx
    exact hb

/-- A root path up to the first block of some kind that it visits. -/
theorem RootPath.exists_first {P : Offset → Prop} (h : g.RootPath p b) (hvisit : ∃ x ∈ p, P x) :
    ∃ x q, P x ∧ g.RootPath (q ++ [x]) x ∧ q ++ [x] <+: p ∧ ∀ y ∈ q, ¬ P y := by
  obtain ⟨r, hr, hpath, hlive⟩ := h
  obtain ⟨x, q, hx, hq, hfront, hnone⟩ := Walk.exists_first hpath hvisit
  exact ⟨x, q, hx, ⟨r, hr, hq, fun y hy => hlive y (hfront.subset hy)⟩, hfront, hnone⟩

/-- A root path up to a block that it visits. -/
theorem RootPath.front_of_mem {x : Offset} (h : g.RootPath p b) (hx : x ∈ p) :
    ∃ q, g.RootPath q x ∧ q <+: p := by
  obtain ⟨y, q, rfl, hq, hfront, _⟩ := h.exists_first (P := (· = x)) ⟨x, hx, rfl⟩
  exact ⟨q ++ [y], hq, hfront⟩

/-- From the last block of some kind on, a root path can be entered by any other root path. -/
theorem RootPath.exists_last {P : Offset → Prop} (h : g.RootPath p b) (hvisit : ∃ x ∈ p, P x) :
    ∃ x q, P x ∧ (∀ y ∈ q, ¬ P y) ∧ ∀ p', g.RootPath p' x → g.RootPath (p' ++ q) b := by
  obtain ⟨_, _, hpath, hlive⟩ := h
  obtain ⟨x, q, hx, hq, hback, hnone⟩ := Walk.exists_last hpath hvisit
  refine ⟨x, q, hx, hnone, ?_⟩
  intro p' ⟨r, hr, hp', hlive'⟩
  refine ⟨r, hr, hp'.append hq, ?_⟩
  intro y hy
  -- up to `x` the new path is live by its own account, behind it by that of the old one
  rcases List.mem_append.1 hy with hy | hy
  · exact hlive' y hy
  · exact hlive y (hback.subset (List.mem_cons_of_mem x hy))

/-- Blocks that only feed each other, none of them the entry, are on no root path. -/
theorem not_rootPath_of_cycle {cycle : List Offset}
    (hfed : ∀ c ∈ cycle, c ≠ g.entry ∧ ∃ a ∈ g.live, g.Edge a c)
    (hclosed : ∀ a ∈ g.live, ∀ c ∈ cycle, g.Edge a c → a ∈ cycle) (hb : b ∈ cycle) :
    ∀ p, ¬ g.RootPath p b := by
  intro p ⟨r, hroot, hpath, hlive⟩
  -- backwards along the path, which would have to start in the cycle
  induction hpath with
  | start =>
    obtain ⟨hne, a, ha, hedge⟩ := hfed r hb
    exact hroot.2.resolve_left hne a ha hedge
  | @snoc p a _ hwalk hstep ih =>
    have ha : a ∈ g.live := hlive a (List.mem_append_left _ (Walk.target_mem hwalk))
    exact ih (hclosed a ha _ hb hstep) fun x hx => hlive x (List.mem_append_left _ hx)

theorem Linked.entry_live (hg : g.Linked) : g.entry ∈ g.live := (hg.mem_live_iff _).2 (.inl rfl)

theorem Linked.live_of_edge (hg : g.Linked) (h : g.Edge a b) : b ∈ g.live :=
  (hg.mem_live_iff b).2 (.inr ⟨a, h⟩)

theorem Linked.isRoot_entry (hg : g.Linked) : g.IsRoot g.entry := ⟨hg.entry_live, .inl rfl⟩

/-- A path that starts live stays live. -/
theorem Linked.live_of_path (hg : g.Linked) (ha : a ∈ g.live) (h : g.Path a p b) :
    ∀ x ∈ p, x ∈ g.live := by
  induction h with
  | start =>
    intro x hx
    obtain rfl := List.mem_singleton.1 hx
    exact ha
  | snoc _ hstep ih =>
    intro x hx
    rcases List.mem_append.1 hx with hx | hx
    · exact ih x hx
    · obtain rfl := List.mem_singleton.1 hx
      exact hg.live_of_edge hstep

theorem Linked.rootPath_of_entry (hg : g.Linked) (h : g.Path g.entry p b) : g.RootPath p b :=
  ⟨g.entry, hg.isRoot_entry, h, hg.live_of_path hg.entry_live h⟩

end BytecodeFlow.Graph
