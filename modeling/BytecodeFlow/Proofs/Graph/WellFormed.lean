/-
  BytecodeFlow.Proofs.Graph.WellFormed — EVERY BUILT GRAPH IS WELL FORMED.

  A graph is put together in steps, and each leaves open what a later one settles: targets are
  noted before it is known whether a block begins there, dangling ones are dropped, blocks left
  without successors fall through, and only then are predecessors and live blocks read off.
  `Graph.WellFormed` says what the finished graph keeps of all this.

  Nothing is asked of the body.  Where it repeats offsets the layout keeps the last segment under
  an offset, and every kept segment is a piece of its own: it starts with its offset, has at most
  two targets, and none if it returns (`Segment.ofMoves_wellFormed`).

  Main statement: `Graph.wellFormed_of_build`.
-/
import BytecodeFlow.Proofs.Layout.EdgeLaw
import BytecodeFlow.Proofs.Layout.Parts

namespace BytecodeFlow

/-! ## §1. Well-formed graphs -/

/-- The parts of a graph agree with each other. -/
structure Graph.WellFormed (g : Graph) : Prop where
  order_ne_nil : g.order ≠ []
  /-- The blocks are those that the order lists. -/
  mem_order_iff : ∀ o, o ∈ g.order ↔ o ∈ g.blocks.keys
  /-- A block is kept under its own start, where its body starts too. -/
  start_eq : ∀ o b, g.block? o = some b → b.start = o
  head?_body : ∀ o b, g.block? o = some b → b.body.toList.head? = some o
  /-- Edges begin and end at blocks. -/
  outgoing_subset : ∀ o b, g.block? o = some b → b.outgoing ⊆ g.blocks.keys
  incoming_subset : ∀ o b, g.block? o = some b → b.incoming ⊆ g.blocks.keys
  /-- Predecessors are the successors read backwards. -/
  mirrored : ∀ source target b c, g.block? source = some b → g.block? target = some c →
    (target ∈ b.outgoing ↔ source ∈ c.incoming)
  size_outgoing_le : ∀ o b, g.block? o = some b → b.outgoing.size ≤ 2
  /-- Control does not go on behind a block that terminates. -/
  outgoing_of_terminating : ∀ o b, g.block? o = some b → b.terminating = true → b.outgoing = ∅
  /-- Control goes on behind any other block but the last. -/
  outgoing_ne_empty : ∀ o b, g.block? o = some b → b.terminating = false → g.last? ≠ some o →
    b.outgoing ≠ ∅
  /-- Live are the entry and the blocks with a predecessor. -/
  mem_live_iff : ∀ o, o ∈ g.live ↔
    o = g.entry ∨ ∃ b, g.block? o = some b ∧ b.incoming ≠ ∅

/-- Every entry of the order has a block, which starts there. -/
theorem Graph.WellFormed.exists_block {g : Graph} (hg : g.WellFormed) {o : Offset}
    (ho : o ∈ g.order) : ∃ b, g.block? o = some b ∧ b.start = o := by
  obtain ⟨b, hb⟩ := OffsetMap.mem_keys_iff.1 ((hg.mem_order_iff o).1 ho)
  exact ⟨b, hb, hg.start_eq o b hb⟩

/-! ## §2. Segments -/

/-- A segment that starts with its offset, has at most two targets, and none if it returns. -/
structure Segment.WellFormed (s : Segment) : Prop where
  head?_body : s.body.toList.head? = some s.start
  size_targets_le : s.targets.size ≤ 2
  targets_of_returns : s.returns = true → s.targets = ∅

/-- No instruction has more than two targets, and two only if control branches. -/
theorem Instruction.Does.size_targets_le {policy : Policy} {scopes : Scopes} {i : Instruction}
    {t : Transfer} (h : i.Does policy scopes t) : t.targets.size ≤ 2 := by
  have hpair : ∀ x y : Offset, ({x, y} : OffsetSet).size ≤ 2 := fun x y =>
    Nat.le_trans OffsetSet.size_insert_le (Nat.succ_le_succ OffsetSet.size_singleton_le)
  cases h with
  | iterate => exact hpair _ _
  | branch => exact hpair _ _
  | jump => exact Nat.le_trans OffsetSet.size_singleton_le (by decide)
  | goOn | enterLoop | leaveLoop | leaveFunction => exact Nat.zero_le 2

/-- Only the last move of a piece has targets or returns. -/
theorem Segment.ofMoves_wellFormed {policy : Policy} {labels : OffsetSet} {code : Code}
    {ms p : List Move} (hmoves : code.moves policy [] = .ok ms) (hp : p ∈ pieces labels ms) :
    (Segment.ofMoves p).WellFormed := by
  obtain ⟨before, m, after, q, hq, rfl⟩ := exists_last_of_mem_pieces hp
  obtain ⟨htargets, hreturns⟩ := targets_ofMoves (hq ▸ List.getLast?_concat : p.getLast? = some m)
  refine ⟨?_, ?_, ?_⟩
  · rw [← head?_offsets_of_mem_pieces hp, offsets_map_instruction]
    rfl
  · rw [htargets]
    exact (Code.does_of_moves hmoves).1.size_targets_le
  · intro h
    rw [htargets]
    exact Transfer.targets_of_returns (hreturns ▸ h)

/-! ## §3. Successors -/

namespace Layout

variable {l : Layout} {s : Segment} {o : Offset}

/-- What is listed before the end of the order is followed by something, repeats or not. -/
theorem exists_follower? (ho : o ∈ l.order) (hlast : l.order.getLast? ≠ some o) :
    ∃ n, l.follower? o = some n := by
  obtain ⟨before, after, hsplit⟩ := List.append_of_mem ho
  -- with something listed behind it, `o` is the first half of some pair, and a lookup finds the
  -- first such pair
  cases after with
  | nil =>
    rw [hsplit] at hlast
    exact absurd List.getLast?_concat hlast
  | cons n after =>
    have hpair : (o, n) ∈ l.order.zip l.order.tail :=
      mem_zip_tail_iff.2 ⟨before, after, by rw [hsplit]; simp⟩
    unfold follower?
    cases hlookup : (l.order.zip l.order.tail).lookup o with
    | some n => exact ⟨n, rfl⟩
    | none =>
      have hne := List.lookup_eq_none_iff.1 hlookup _ hpair
      simp at hne

/-- Dropping targets makes them fewer, and falling through gives a block one successor. -/
theorem size_outgoing_le (h : s.targets.size ≤ 2) : (l.outgoing s).size ≤ 2 := by
  have hinside : (l.inside s).size ≤ 2 :=
    Nat.le_trans (OffsetSet.size_le_of_subset fun _ hx => (OffsetSet.mem_filter.1 hx).1) h
  rw [outgoing_eq]
  split
  · cases l.follower? s.start with
    | none => exact Nat.zero_le 2
    | some n => exact Nat.le_trans OffsetSet.size_singleton_le (by decide)
  · exact hinside

/-- A segment that returns has no targets to lose, and it does not fall through either. -/
theorem outgoing_eq_empty_of_returns (h : s.WellFormed) (hreturns : s.returns = true) :
    l.outgoing s = ∅ := by
  refine outgoing_of_returns ?_ hreturns
  unfold inside
  rw [h.targets_of_returns hreturns]
  rfl

/-- Any other segment but the last has a successor, even where all its targets are dangling. -/
theorem outgoing_ne_empty (hs : s.start ∈ l.order) (hreturns : s.returns = false)
    (hlast : l.order.getLast? ≠ some s.start) : l.outgoing s ≠ ∅ := by
  by_cases hinside : l.inside s = ∅
  · -- nothing is left of the targets, so control falls to what is listed next
    obtain ⟨n, hn⟩ := exists_follower? hs hlast
    rw [outgoing_of_falls hinside hreturns, hn]
    exact OffsetSet.ne_empty_iff.2 ⟨n, by simp⟩
  · rw [outgoing_of_inside hinside]
    exact hinside

end Layout

/-! ## §4. The graph -/

/-- In a linked graph an edge leads to a block exactly if the block has a predecessor. -/
theorem Graph.Linked.exists_edge_iff {g : Graph} {o : Offset} (hg : g.Linked) :
    (∃ a, g.Edge a o) ↔ ∃ b, g.block? o = some b ∧ b.incoming ≠ ∅ := by
  simp only [← hg.mem_predecessors_iff, OffsetSet.ne_empty_iff]
  unfold predecessors?
  cases g.block? o <;> simp

namespace Layout

variable {segments : List Segment}

/-- A block is the segment kept under its offset, and that is one of the segments. -/
theorem exists_segment {o : Offset} {b : Block}
    (hb : (ofSegments segments).toGraph.block? o = some b) :
    ∃ s ∈ segments, (ofSegments segments).kept.get? o = some s ∧ s.start = o ∧
      b = ⟨o, s.body, (ofSegments segments).outgoing s, sources (ofSegments segments).successors o,
        s.returns⟩ := by
  rw [block?_toGraph] at hb
  obtain ⟨s, hs, rfl⟩ := Option.map_eq_some_iff.1 hb
  obtain ⟨before, after, hsplit, hstart, _⟩ := get?_ofSegments_iff.1 hs
  refine ⟨s, ?_, hs, hstart, rfl⟩
  rw [hsplit]
  exact List.mem_append_right _ List.mem_cons_self

/-- Well-formed segments are laid out to a well-formed graph. -/
theorem wellFormed_toGraph (hne : segments ≠ []) (hsegments : ∀ s ∈ segments, s.WellFormed) :
    (ofSegments segments).toGraph.WellFormed where
  order_ne_nil := by
    rw [order_toGraph]
    simpa [ofSegments] using hne
  mem_order_iff := by
    intro o
    rw [order_toGraph, keys_toGraph, mem_starts_ofSegments]
  start_eq := by
    intro o b hb
    obtain ⟨s, _, _, _, rfl⟩ := exists_segment hb
    rfl
  head?_body := by
    intro o b hb
    obtain ⟨s, hmem, _, rfl, rfl⟩ := exists_segment hb
    exact (hsegments s hmem).head?_body
  outgoing_subset := by
    intro o b hb
    obtain ⟨s, _, _, _, rfl⟩ := exists_segment hb
    rw [keys_toGraph]
    exact outgoing_subset_starts
  incoming_subset := by
    intro o b hb source hsource
    obtain ⟨s, _, _, _, rfl⟩ := exists_segment hb
    obtain ⟨t, ht, _⟩ := mem_sources_iff.1 hsource
    rw [keys_toGraph]
    exact OffsetMap.mem_keys_of_get? ht
  mirrored := by
    -- both sides say that the segment kept under the source has the target as a successor
    intro source target b c hb hc
    obtain ⟨s, _, hs, _, rfl⟩ := exists_segment hb
    obtain ⟨t, _, _, _, rfl⟩ := exists_segment hc
    rw [mem_sources_iff]
    constructor
    · intro htarget
      exact ⟨s, hs, htarget⟩
    · rintro ⟨s', hs', htarget⟩
      obtain rfl := Option.some.inj (hs.symm.trans hs')
      exact htarget
  size_outgoing_le := by
    intro o b hb
    obtain ⟨s, hmem, _, _, rfl⟩ := exists_segment hb
    exact Layout.size_outgoing_le (hsegments s hmem).size_targets_le
  outgoing_of_terminating := by
    intro o b hb hterm
    obtain ⟨s, hmem, _, _, rfl⟩ := exists_segment hb
    exact outgoing_eq_empty_of_returns (hsegments s hmem) hterm
  outgoing_ne_empty := by
    intro o b hb hterm hlast
    obtain ⟨s, _, hs, rfl, rfl⟩ := exists_segment hb
    have hlisted := mem_starts_ofSegments.1 (OffsetMap.mem_keys_of_get? hs)
    exact Layout.outgoing_ne_empty hlisted hterm hlast
  mem_live_iff := by
    intro o
    have hlinked := Graph.linked_toGraph hne
    rw [hlinked.mem_live_iff, hlinked.exists_edge_iff]

end Layout

/-- **Every graph that a build returns is well formed.** -/
theorem Graph.wellFormed_of_build {policy : Policy} {labels : OffsetSet} {code : Code} {g : Graph}
    (h : (Graph.build policy labels code).outcome = .ok g) : g.WellFormed := by
  obtain ⟨hcheck, ms, hmoves, _, rfl⟩ := Graph.build_eq_ok_iff_moves.1 h
  refine Layout.wellFormed_toGraph ?_ ?_
  · have hms : ms ≠ [] := by
      intro hnil
      have hcode := Code.map_instruction_moves hmoves
      rw [hnil] at hcode
      exact Code.ne_nil_of_check hcheck hcode.symm
    simpa [pieces] using hms
  · intro s hs
    obtain ⟨p, hp, rfl⟩ := List.mem_map.1 hs
    exact Segment.ofMoves_wellFormed hmoves hp

/-- A body that comes back to offset 0 and branches from there to nowhere: the block that is kept
    at 0 has lost its target, is listed last, and still falls through to what follows the first
    0 in the order. -/
theorem Graph.wellFormed_of_repeat :
    ∃ g b, (Graph.build .lenient {2, 99} Code.restart).outcome = .ok g ∧
      g.order = [0, 2, 0] ∧ g.block? 0 = some b ∧ b.body.toList = [0] ∧
      b.outgoing.toList = [2] ∧ b.incoming.toList = [2] ∧ g.WellFormed ∧ 2 ∈ g.live := by
  obtain ⟨g, b, c, hbuild, horder, hblock, hbody, hout, hin, htwo, hfed⟩ : ∃ g b c,
      (Graph.build .lenient {2, 99} Code.restart).outcome = .ok g ∧
      g.order = [0, 2, 0] ∧ g.block? 0 = some b ∧ b.body.toList = [0] ∧
      b.outgoing.toList = [2] ∧ b.incoming.toList = [2] ∧ g.block? 2 = some c ∧ c.incoming ≠ ∅ :=
    ⟨_, _, _, rfl, rfl, rfl, rfl, rfl, rfl, rfl, by decide⟩
  have hwf := Graph.wellFormed_of_build hbuild
  exact ⟨g, b, hbuild, horder, hblock, hbody, hout, hin, hwf,
    (hwf.mem_live_iff 2).2 (.inr ⟨c, htwo, hfed⟩)⟩

end BytecodeFlow
