/-
  BytecodeFlow.Proofs.Dominance.Split — SPLITTING BLOCKS KEEPS DOMINANCE.

  Under more labels a body is cut into more blocks, and the solver works on another graph with
  other live blocks.  Both graphs stand for the same steps between instructions.  So dominance is
  first said of these steps (`LaidOut.dominates_iff_walks`): where the entry reaches every block,
  `a` dominates the block of an instruction exactly if every walk from the first instruction to
  that instruction comes through `a`.  That mentions no labels, and neither does what is asked of
  the graph (`LaidOut.reachable_iff_walks`): every instruction is reachable.

  Main statement: `dominates_iff_of_labels` — what the two analyses say of the blocks of the
  coarser graph is the same, the backbone included.
-/
import BytecodeFlow.Proofs.Dominance.Entry
import BytecodeFlow.Proofs.Flow.Labels

namespace BytecodeFlow

/-! ## §1. Blocks and their instructions -/

section

variable {policy : Policy} {labels : OffsetSet} {code : Code} {ms : List Move}
  {i₀ i : Instruction} {a o : Offset}

/-- The blocks that `p` enters are those whose starts it visits. -/
theorem Graph.mem_entered_iff {g : Graph} {p : Code} (ha : a ∈ g.blocks.keys) :
    a ∈ g.entered p ↔ a ∈ p.offsets := by
  unfold entered
  rw [List.mem_filter, decide_eq_true_eq]
  exact and_iff_left ha

namespace LaidOut

/-- Where a block begins there is an instruction, and it is in that block. -/
theorem exists_first (h : LaidOut policy labels code ms)
    (ho : o ∈ (Layout.ofMoves labels ms).starts) :
    ∃ i ∈ code, i.offset = o ∧ i ∈ bodyAt labels ms o := by
  obtain ⟨before, i, after, hcode, _, hi⟩ := (Layout.mem_starts_iff_leader h.moves_eq).1 ho
  have hmem : i ∈ code := by
    rw [hcode]
    simp
  have hhead := (h.head?_bodyAt_iff hmem).2 ⟨hi ▸ ho, hi⟩
  exact ⟨i, hmem, hi, List.mem_of_head? hhead⟩

/-- The last instruction is in the last block. -/
theorem exists_last (h : LaidOut policy labels code ms) (hi : code.getLast? = some i) :
    ∃ o, (Layout.ofMoves labels ms).toGraph.last? = some o ∧ i ∈ bodyAt labels ms o := by
  rw [← Code.map_instruction_moves h.moves_eq, List.getLast?_map] at hi
  obtain ⟨m, hm, rfl⟩ := Option.map_eq_some_iff.1 hi
  -- the last piece ends with the last move
  rw [← flatten_pieces labels ms, getLast?_flatten_iff fun p hp => ne_nil_of_mem_pieces hp] at hm
  obtain ⟨p, hp, hmp⟩ := hm
  refine ⟨(Segment.ofMoves p).start, ?_, ?_⟩
  · rw [Layout.last?_ofMoves, hp]
    rfl
  · rw [h.bodyAt_start (List.mem_of_getLast? hp)]
    exact List.mem_map_of_mem (List.mem_of_getLast? hmp)

theorem linked (h : LaidOut policy labels code ms) (hi₀ : code.head? = some i₀) :
    (Layout.ofMoves labels ms).toGraph.Linked := by
  obtain ⟨p, hp, _⟩ := h.exists_bodyAt (List.mem_of_head? hi₀)
  refine Graph.linked_toGraph ?_
  intro hnil
  rw [List.map_eq_nil_iff.1 hnil] at hp
  cases hp

/-! ## §2. Dominance between instructions -/

/-- **The entry reaches every block exactly if the first instruction reaches every instruction.** -/
theorem reachable_iff_walks (h : LaidOut policy labels code ms) (hi₀ : code.head? = some i₀) :
    (∀ o ∈ (Layout.ofMoves labels ms).starts, ∃ q, (Layout.ofMoves labels ms).toGraph.Path
        (Layout.ofMoves labels ms).toGraph.entry q o) ↔
      ∀ i ∈ code, ∃ p, Walk code.Step i₀ p i := by
  constructor
  · intro hreach i hi
    obtain ⟨p, hp, hmem⟩ := h.exists_bodyAt hi
    obtain ⟨q, hq⟩ := hreach _ (OffsetMap.mem_keys_of_get? (h.get?_start hp))
    obtain ⟨w, hw, _⟩ := (h.bijOn_bodyAt hi₀ hmem).surjOn hq
    exact ⟨w, hw⟩
  · intro hreach o ho
    obtain ⟨i, hi, _, hmem⟩ := h.exists_first ho
    obtain ⟨w, hw⟩ := hreach i hi
    exact ⟨_, (h.bijOn_bodyAt hi₀ hmem).mapsTo hw⟩

/-- **Dominance, said of the steps between instructions.**  The blocks that a walk enters are the
    path of the graph that it stands for, so a block is on every path exactly if its start is on
    every walk. -/
theorem dominates_iff_walks (h : LaidOut policy labels code ms) (hi₀ : code.head? = some i₀)
    (hreach : ∀ i ∈ code, ∃ p, Walk code.Step i₀ p i)
    (ha : a ∈ (Layout.ofMoves labels ms).starts) (hi : i ∈ bodyAt labels ms o) :
    (Dominance.ofGraph (Layout.ofMoves labels ms).toGraph).dominates a o = true ↔
      ∀ p : Code, Walk code.Step i₀ p i → a ∈ p.offsets := by
  set g := (Layout.ofMoves labels ms).toGraph
  have hg : g.Linked := h.linked hi₀
  have hpaths := h.bijOn_bodyAt hi₀ hi
  have hkey : a ∈ g.blocks.keys := Layout.keys_toGraph ▸ ha
  -- the entry reaches all that is live, so it is on every root path
  have hall : ∀ b ∈ g.live, ∃ q, g.Path g.entry q b := by
    intro b hb
    exact (h.reachable_iff_walks hi₀).2 hreach b (Layout.mem_live_toGraph.1 hb).1
  obtain ⟨w, hw⟩ := hreach i (h.mem_code_of_mem_bodyAt hi)
  have hentry := (Dominance.entryPaths_iff hg (hpaths.mapsTo hw)).2 fun q hq =>
    Dominance.entry_mem_of_rootPath hg hall hq
  rw [hentry a]
  constructor
  · intro hshared p hp
    exact (Graph.mem_entered_iff hkey).1 (hshared _ (hpaths.mapsTo hp))
  · intro hshared q hq
    obtain ⟨p, hp, rfl⟩ := hpaths.surjOn hq
    exact (Graph.mem_entered_iff hkey).2 (hshared p hp)

end LaidOut

end

/-! ## §3. Dominance under more labels -/

namespace LaidOut

variable {policy : Policy} {labels labels' : OffsetSet} {code : Code} {ms : List Move}
  {i₀ i : Instruction} {a o o' : Offset}

/-- In the finer graph the same blocks of the coarser one dominate the block of an instruction. -/
theorem dominates_iff_of_mem_bodyAt (hsub : labels ⊆ labels') (h : LaidOut policy labels code ms)
    (hi₀ : code.head? = some i₀) (hreach : ∀ i ∈ code, ∃ p, Walk code.Step i₀ p i)
    (ha : a ∈ (Layout.ofMoves labels ms).starts) (hi : i ∈ bodyAt labels ms o)
    (hi' : i ∈ bodyAt labels' ms o') :
    (Dominance.ofGraph (Layout.ofMoves labels ms).toGraph).dominates a o = true ↔
      (Dominance.ofGraph (Layout.ofMoves labels' ms).toGraph).dominates a o' = true := by
  have ha' := Layout.starts_mono hsub h.moves_eq a ha
  rw [h.dominates_iff_walks hi₀ hreach ha hi,
    (h.mono hsub).dominates_iff_walks hi₀ hreach ha' hi']

/-- Blocks of the coarser graph dominate each other in both or in none. -/
theorem dominates_iff_of_subset (hsub : labels ⊆ labels') (h : LaidOut policy labels code ms)
    (hi₀ : code.head? = some i₀) (hreach : ∀ i ∈ code, ∃ p, Walk code.Step i₀ p i)
    (ha : a ∈ (Layout.ofMoves labels ms).starts) (ho : o ∈ (Layout.ofMoves labels ms).starts) :
    (Dominance.ofGraph (Layout.ofMoves labels ms).toGraph).dominates a o = true ↔
      (Dominance.ofGraph (Layout.ofMoves labels' ms).toGraph).dominates a o = true := by
  -- the two blocks that start at `o` share their first instruction
  obtain ⟨i, hi, heq, hmem⟩ := h.exists_first ho
  have hhead : (bodyAt labels' ms o).head? = some i := by
    refine ((h.mono hsub).head?_bodyAt_iff hi).2 ⟨?_, heq⟩
    rw [heq]
    exact Layout.starts_mono hsub h.moves_eq o ho
  exact h.dominates_iff_of_mem_bodyAt hsub hi₀ hreach ha hmem (List.mem_of_head? hhead)

/-- The backbone of the coarser graph is the part of the finer one's that it has blocks for. -/
theorem mem_backbone_iff_of_subset (hsub : labels ⊆ labels') (h : LaidOut policy labels code ms)
    (hi₀ : code.head? = some i₀) (hreach : ∀ i ∈ code, ∃ p, Walk code.Step i₀ p i) :
    a ∈ (Dominance.ofGraph (Layout.ofMoves labels ms).toGraph).backbone ↔
      a ∈ (Dominance.ofGraph (Layout.ofMoves labels' ms).toGraph).backbone ∧
        a ∈ (Layout.ofMoves labels ms).starts := by
  -- the last blocks may start apart, but both hold the last instruction
  have hlast := List.getLast?_eq_some_getLast (List.ne_nil_of_mem (List.mem_of_head? hi₀))
  obtain ⟨o, ho, hmem⟩ := h.exists_last hlast
  obtain ⟨o', ho', hmem'⟩ := (h.mono hsub).exists_last hlast
  rw [Dominance.mem_backbone_iff ho, Dominance.mem_backbone_iff ho']
  constructor
  · intro ha
    have hlive := ((Dominance.dominates_iff_shared (h.linked hi₀)).1 ha).2.1
    have hstart := (Layout.mem_live_toGraph.1 hlive).1
    exact ⟨(h.dominates_iff_of_mem_bodyAt hsub hi₀ hreach hstart hmem hmem').1 ha, hstart⟩
  · intro ⟨ha, hstart⟩
    exact (h.dominates_iff_of_mem_bodyAt hsub hi₀ hreach hstart hmem hmem').2 ha

end LaidOut

namespace Dominance

/-- **More labels keep dominance.**  Let a build with strict edges accept a body with ascending
    offsets, and let the entry reach every block.  Then the body is accepted under more labels
    too, blocks begin where they began, and among those the same dominate each other and the same
    are on the backbone. -/
theorem dominates_iff_of_labels {policy : Policy} {labels labels' : OffsetSet} {code : Code}
    {a : Analysis} (hsub : labels ⊆ labels') (hstrict : policy.strictEdges = true)
    (hascending : code.offsets.Pairwise (· < ·))
    (h : (Analysis.run policy labels code).outcome = .ok a)
    (hreach : ∀ b ∈ a.graph.blocks.keys, ∃ p, a.graph.Path a.graph.entry p b) :
    ∃ a', (Analysis.run policy labels' code).outcome = .ok a' ∧
      a.graph.blocks.keys ⊆ a'.graph.blocks.keys ∧
      (∀ x ∈ a.graph.blocks.keys, ∀ y ∈ a.graph.blocks.keys,
        a.dominance.dominates x y = true ↔ a'.dominance.dominates x y = true) ∧
      ∀ x, x ∈ a.backbone ↔ x ∈ a'.backbone ∧ x ∈ a.graph.blocks.keys := by
  obtain ⟨hbuild, hdom⟩ := Analysis.run_eq_ok_iff.1 h
  have hdistinct : code.offsets.Nodup := hascending.imp Nat.ne_of_lt
  obtain ⟨ms, hlaid, hgraph, hbuild'⟩ :=
    Graph.exists_build_of_subset hsub hstrict hdistinct hbuild
  obtain ⟨a', hrun', hgraph', hdom'⟩ := Analysis.exists_of_build hbuild'
  have hne : code ≠ [] := Code.ne_nil_of_check (Graph.build_eq_ok_iff_moves.1 hbuild).1
  have hi₀ := List.head?_eq_some_head hne
  -- that the entry reaches every block is said of the instructions, which no label changes
  rw [hgraph, Layout.keys_toGraph] at hreach
  have hwalks := (hlaid.reachable_iff_walks hi₀).1 hreach
  refine ⟨a', hrun', ?_⟩
  unfold Analysis.backbone
  rw [hdom', hdom, hgraph', hgraph, Layout.keys_toGraph, Layout.keys_toGraph]
  refine ⟨Layout.starts_mono hsub hlaid.moves_eq, ?_, ?_⟩
  · intro x hx y hy
    exact hlaid.dominates_iff_of_subset hsub hi₀ hwalks hx hy
  · intro x
    exact hlaid.mem_backbone_iff_of_subset hsub hi₀ hwalks

/-- A loop whose exit at 6 is split at the return: the last block is then another one, and the
    backbone is the same up to that block. -/
theorem dominates_of_splitExit :
    ∃ a a', (Analysis.run .strict {2} Code.loop).outcome = .ok a ∧
      (Analysis.run .strict {2, 8} Code.loop).outcome = .ok a' ∧
      a.graph.last? = some 6 ∧ a'.graph.last? = some 8 ∧
      (a.dominance.dominates 2 4 = true ↔ a'.dominance.dominates 2 4 = true) ∧
      ∀ x, x ∈ a.backbone ↔ x ∈ a'.backbone ∧ x ∈ a.graph.blocks.keys := by
  obtain ⟨a, hrun, hascending, hlast, hentry, h₂, h₄, h₆, hkeys⟩ : ∃ a,
      (Analysis.run .strict {2} Code.loop).outcome = .ok a ∧
      Code.loop.offsets.Pairwise (· < ·) ∧
      a.graph.last? = some 6 ∧ a.graph.entry = 0 ∧ a.graph.Edge 0 2 ∧ a.graph.Edge 2 4 ∧
      a.graph.Edge 2 6 ∧ a.graph.blocks.keys.toList = [0, 2, 4, 6] :=
    ⟨_, rfl, by decide, by decide, by decide, by decide, by decide, by decide, by decide⟩
  have hmem : ∀ {b}, b ∈ a.graph.blocks.keys ↔ b = 0 ∨ b = 2 ∨ b = 4 ∨ b = 6 := by
    intro b
    rw [← OffsetSet.mem_toList, hkeys]
    simp
  rw [← hentry] at h₂
  have hreach : ∀ b ∈ a.graph.blocks.keys, ∃ p, a.graph.Path a.graph.entry p b := by
    intro b hb
    rcases hmem.1 hb with rfl | rfl | rfl | rfl
    · rw [← hentry]
      exact ⟨_, .start⟩
    · exact ⟨_, .snoc .start h₂⟩
    · exact ⟨_, .snoc (.snoc .start h₂) h₄⟩
    · exact ⟨_, .snoc (.snoc .start h₂) h₆⟩
  have hsub : ({2} : OffsetSet) ⊆ {2, 8} := by decide
  obtain ⟨a', hrun', _, hdominates, hbackbone⟩ :=
    dominates_iff_of_labels hsub rfl hascending hrun hreach
  refine ⟨a, a', hrun, hrun', hlast, ?_,
    hdominates 2 (hmem.2 (by simp)) 4 (hmem.2 (by simp)), hbackbone⟩
  obtain rfl := Except.ok.inj hrun'
  decide

end Dominance

end BytecodeFlow
