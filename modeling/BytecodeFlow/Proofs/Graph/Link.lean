/-
  BytecodeFlow.Proofs.Graph.Link — HOW THE PARTS OF A BUILT GRAPH HANG TOGETHER.

  A build goes through four steps, and `Graph.build_eq_ok_iff` opens it once and for all: the
  body passes its check, it has segments, their layout settles, and the graph is that layout's.

  What the theory of paths needs of the result is `Graph.Linked`: the entry is a block, the
  predecessor sets read the edges backwards, and live are the entry and whatever an edge leads
  to.  `Graph.linked_of_build` — every graph that a build returns is linked.
-/
import BytecodeFlow.Analysis

namespace BytecodeFlow

/-! ## §1. A build, step by step -/

/-- What settling accepts: with strict edges only a layout without dangling ones. -/
theorem Layout.settle_eq_ok_iff {policy : Policy} {l : Layout} :
    (l.settle policy).outcome = .ok () ↔ (policy.strictEdges = true → l.dangling = []) := by
  by_cases h : policy.strictEdges = true
  · rw [settle_of_strict h]
    cases hd : l.dangling with
    | nil => simp
    | cons e rest => simp [h]
  · have hlenient : policy.strictEdges = false := by simpa using h
    rw [settle_of_lenient hlenient]
    simp [hlenient]

/-- **A build succeeds exactly if each of its steps does**, and the graph is that of the layout. -/
theorem Graph.build_eq_ok_iff {policy : Policy} {labels : OffsetSet} {code : Code} {g : Graph} :
    (Graph.build policy labels code).outcome = .ok g ↔
      code.check policy = .ok () ∧
        ∃ segments, (code.segments policy labels).outcome = .ok segments ∧
          (policy.strictEdges = true → (Layout.ofSegments segments).dangling = []) ∧
          g = (Layout.ofSegments segments).toGraph := by
  unfold Graph.build
  simp only [Logged.outcome_bind_eq_ok_iff, Logged.outcome_lift, Logged.outcome_record,
    Logged.outcome_pure, Except.ok.injEq]
  constructor
  · intro ⟨_, hcheck, segments, hsegments, _, hsettle, _, _, hg⟩
    exact ⟨hcheck, segments, hsegments, Layout.settle_eq_ok_iff.1 hsettle, hg.symm⟩
  · intro ⟨hcheck, segments, hsegments, hstrict, hg⟩
    exact ⟨(), hcheck, segments, hsegments, (), Layout.settle_eq_ok_iff.2 hstrict, (), trivial,
      hg.symm⟩

/-- A body that passes its check has instructions. -/
theorem Code.ne_nil_of_check {policy : Policy} {code : Code} (h : code.check policy = .ok ()) :
    code ≠ [] := by
  intro hnil
  subst hnil
  cases h

/-- A body with instructions has segments. -/
theorem Code.segments_ne_nil {policy : Policy} {labels : OffsetSet} {code : Code}
    {segments : List Segment} (hne : code ≠ [])
    (h : (code.segments policy labels).outcome = .ok segments) : segments ≠ [] := by
  intro hnil
  have hoffsets := Code.flatMap_body_segments h
  rw [hnil] at hoffsets
  exact hne (List.map_eq_nil_iff.1 hoffsets.symm)

/-! ## §2. Edges lead to blocks -/

namespace Layout

variable {segments : List Segment}

theorem mem_starts_ofSegments {o : Offset} :
    o ∈ (ofSegments segments).starts ↔ o ∈ (ofSegments segments).order := by
  simp [starts, ofSegments]

/-- Whatever a segment falls through to is listed. -/
theorem mem_order_of_follower? {l : Layout} {o n : Offset} (h : l.follower? o = some n) :
    n ∈ l.order := by
  obtain ⟨before, after, hzip, -⟩ := List.lookup_eq_some_iff.1 h
  have hmem : (o, n) ∈ l.order.zip l.order.tail := by
    rw [hzip]
    exact List.mem_append_right _ List.mem_cons_self
  exact List.mem_of_mem_tail (List.of_mem_zip hmem).2

/-- Successors are starts: what falls through falls to what is listed, and what branches keeps only
    the targets at which a segment starts. -/
theorem outgoing_subset_starts {s : Segment} :
    (ofSegments segments).outgoing s ⊆ (ofSegments segments).starts := by
  intro o ho
  unfold outgoing at ho
  simp only at ho
  split at ho
  · -- nothing but the segment listed next
    rw [OffsetSet.mem_ofList, Option.mem_toList] at ho
    exact mem_starts_ofSegments.2 (mem_order_of_follower? ho)
  · rw [OffsetSet.mem_filter] at ho
    exact of_decide_eq_true ho.2

/-- An edge of the graph is an outgoing offset of the segment kept under its source. -/
theorem edge_toGraph_iff {l : Layout} {a b : Offset} :
    l.toGraph.Edge a b ↔ ∃ s, l.kept.get? a = some s ∧ b ∈ l.outgoing s := by
  unfold Graph.Edge Graph.successors?
  rw [block?_toGraph]
  cases l.kept.get? a <;> simp

end Layout

/-! ## §3. Linked graphs -/

namespace Graph

/-- The parts of a graph agree with its edges. -/
structure Linked (g : Graph) : Prop where
  entry_mem : g.entry ∈ g.blocks.keys
  /-- Predecessors are the sources of edges. -/
  mem_predecessors_iff : ∀ a b, a ∈ (g.predecessors? b).getD ∅ ↔ g.Edge a b
  /-- Edges lead to blocks. -/
  target_mem : ∀ a b, g.Edge a b → b ∈ g.blocks.keys
  /-- Live are the entry and whatever an edge leads to. -/
  mem_live_iff : ∀ b, b ∈ g.live ↔ b = g.entry ∨ ∃ a, g.Edge a b

theorem edge_iff_of_block? {g : Graph} {a x : Offset} {b : Block}
    (hblock : g.block? a = some b) : g.Edge a x ↔ x ∈ b.outgoing := by
  unfold Edge successors?
  rw [hblock]
  simp

/-- The graph of a layout that has any segment is linked. -/
theorem linked_toGraph {segments : List Segment} (hne : segments ≠ []) :
    (Layout.ofSegments segments).toGraph.Linked := by
  have hedge : ∀ a b, (Layout.ofSegments segments).toGraph.Edge a b →
      b ∈ (Layout.ofSegments segments).starts := by
    intro a b h
    obtain ⟨s, -, hb⟩ := Layout.edge_toGraph_iff.1 h
    exact Layout.outgoing_subset_starts b hb
  have hentry :
      (Layout.ofSegments segments).toGraph.entry ∈ (Layout.ofSegments segments).starts := by
    rw [Layout.mem_starts_ofSegments]
    cases segments with
    | nil => exact absurd rfl hne
    | cons s rest => exact List.mem_cons_self
  refine ⟨?_, ?_, ?_, ?_⟩
  · rw [Layout.keys_toGraph]
    exact hentry
  · intro a b
    rw [Layout.edge_toGraph_iff, ← Layout.mem_sources_iff]
    unfold predecessors?
    rw [Layout.block?_toGraph]
    cases hb : (Layout.ofSegments segments).kept.get? b with
    | some s => rfl
    | none =>
      -- no block begins at `b`, so neither side has anything
      have hnot : b ∉ (Layout.ofSegments segments).starts := OffsetMap.get?_eq_none_iff.1 hb
      constructor
      · intro h
        exact absurd h OffsetSet.not_mem_empty
      · intro h
        exact absurd (hedge a b (Layout.edge_toGraph_iff.2 (Layout.mem_sources_iff.1 h))) hnot
  · intro a b h
    rw [Layout.keys_toGraph]
    exact hedge a b h
  · -- what an edge leads to is a block, so the first half of being live adds nothing
    intro b
    simp only [Layout.mem_live_toGraph, Layout.mem_sources_iff, ← Layout.edge_toGraph_iff]
    constructor
    · intro h
      exact h.2
    · intro h
      refine ⟨?_, h⟩
      rcases h with rfl | ⟨a, ha⟩
      · exact hentry
      · exact hedge a b ha

/-- **Every graph that a build returns is linked.** -/
theorem linked_of_build {policy : Policy} {labels : OffsetSet} {code : Code} {g : Graph}
    (h : (Graph.build policy labels code).outcome = .ok g) : g.Linked := by
  obtain ⟨hcheck, segments, hsegments, -, rfl⟩ := Graph.build_eq_ok_iff.1 h
  exact linked_toGraph (Code.segments_ne_nil (Code.ne_nil_of_check hcheck) hsegments)

end Graph

end BytecodeFlow
