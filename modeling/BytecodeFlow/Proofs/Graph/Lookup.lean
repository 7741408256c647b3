/-
  BytecodeFlow.Proofs.Graph.Lookup — WHICH BLOCK AN INSTRUCTION IS IN.

  `Graph.blockOf?` takes the nearest block that starts at or before an offset and searches the body
  of that one by halving.  Two things can go wrong: the search may miss what is there, and another
  block may hold the offset.  Neither happens where the blocks lie one behind the other
  (`Graph.Ascending`), and so they do in the graph of a body whose offsets ascend, since the pieces
  of such a body do (`lt_start_of_lt`).

  Main statement: `Graph.blockOf?_of_build`.
-/
import BytecodeFlow.Proofs.Flow.Step
import BytecodeFlow.Proofs.Layout.Parts

namespace BytecodeFlow

/-! ## §1. Blocks that lie one behind the other -/

/-- Each body ascends, from the start of its block to before the start of the next. -/
structure Graph.Ascending (g : Graph) : Prop where
  head?_body : ∀ o b, g.block? o = some b → b.body.toList.head? = some o
  pairwise_body : ∀ o b, g.block? o = some b → b.body.toList.Pairwise (· < ·)
  /-- A body ends before any later block starts. -/
  lt_of_lt : ∀ o b n, g.block? o = some b → n ∈ g.blocks.keys → o < n → ∀ x ∈ b.body, x < n

namespace Graph.Ascending

variable {g : Graph} {o x : Offset} {b : Block}

theorem start_le (hg : g.Ascending) (hb : g.block? o = some b) (hx : x ∈ b.body) : o ≤ x := by
  have hhead := hg.head?_body o b hb
  have hpairwise := hg.pairwise_body o b hb
  rw [← Array.mem_toList_iff] at hx
  obtain ⟨rest, hbody⟩ := List.head?_eq_some_iff.1 hhead
  rw [hbody] at hpairwise hx
  rcases List.mem_cons.1 hx with rfl | hx
  · exact Nat.le_refl x
  · exact Nat.le_of_lt ((List.pairwise_cons.1 hpairwise).1 x hx)

/-- The search in the body of a block finds exactly its members. -/
theorem contains_iff (hg : g.Ascending) (hb : g.block? o = some b) :
    b.contains x = true ↔ x ∈ b.body :=
  Block.contains_iff (hg.pairwise_body o b hb)

/-- **The block of an offset** is the one whose body holds it. -/
theorem blockOf?_eq_some_iff (hg : g.Ascending) :
    g.blockOf? x = some b ↔ ∃ o, g.block? o = some b ∧ x ∈ b.body := by
  unfold blockOf?
  rw [Option.filter_eq_some_iff, OffsetMap.floor?_eq_some_iff]
  constructor
  · intro ⟨⟨o, hb, _, _⟩, hcontains⟩
    exact ⟨o, hb, (hg.contains_iff hb).1 hcontains⟩
  · intro ⟨o, hb, hx⟩
    refine ⟨⟨o, hb, hg.start_le hb hx, ?_⟩, (hg.contains_iff hb).2 hx⟩
    -- a block that starts later starts behind `x`
    intro n hn hnx
    by_contra hlt
    exact Nat.not_le.2 (hg.lt_of_lt o b n hb hn (Nat.not_le.1 hlt) x hx) hnx

end Graph.Ascending

/-! ## §2. Pieces of a body that ascends -/

section Pieces

variable {labels : OffsetSet} {ms p q : List Move} {m : Move}

theorem pairwise_of_mem_pieces (hascending : (ms.map Move.offset).Pairwise (· < ·))
    (hp : p ∈ pieces labels ms) : (p.map Move.offset).Pairwise (· < ·) := by
  have hsub := (List.sublist_flatten_of_mem hp).map Move.offset
  rw [flatten_pieces] at hsub
  exact hascending.sublist hsub

/-- A piece ends before any later one starts. -/
theorem lt_start_of_lt (hascending : (ms.map Move.offset).Pairwise (· < ·))
    (hp : p ∈ pieces labels ms) (hq : q ∈ pieces labels ms)
    (hlt : (Segment.ofMoves p).start < (Segment.ofMoves q).start) (hm : m ∈ p) :
    m.offset < (Segment.ofMoves q).start := by
  have hheads : ∀ r ∈ pieces labels ms, ∃ n ∈ r, n.offset = (Segment.ofMoves r).start := by
    intro r hr
    have hhead := List.head?_eq_some_head (ne_nil_of_mem_pieces hr)
    exact ⟨_, List.mem_of_head? hhead, (start_of_head? hhead).symm⟩
  obtain ⟨n, hn, hstart⟩ := hheads q hq
  obtain ⟨n', hn', hstart'⟩ := hheads p hp
  -- `p` lies before `q`, is `q`, or lies behind it; only the first is in keeping with `hlt`
  obtain ⟨front, back, hsplit⟩ := List.append_of_mem hq
  rw [← flatten_pieces labels ms, List.pairwise_map, List.pairwise_flatten, hsplit,
    List.pairwise_append, List.pairwise_cons] at hascending
  obtain ⟨_, _, ⟨hback, _⟩, hfront⟩ := hascending
  rw [hsplit, List.mem_append, List.mem_cons] at hp
  rw [← hstart] at hlt ⊢
  rw [← hstart'] at hlt
  rcases hp with hp | rfl | hp
  · exact hfront p hp q List.mem_cons_self m hm n hn
  · rw [hstart, hstart'] at hlt
    exact absurd hlt (Nat.lt_irrefl _)
  · exact absurd (hback p hp n hn n' hn') (Nat.lt_asymm hlt)

end Pieces

/-! ## §3. The graph of a body that ascends -/

namespace Layout

variable {policy : Policy} {labels : OffsetSet} {code : Code} {ms : List Move} {x : Offset}

/-- The blocks of a layout of ascending moves lie one behind the other, as the pieces do. -/
theorem ascending_toGraph (hascending : (ms.map Move.offset).Pairwise (· < ·)) :
    (ofMoves labels ms).toGraph.Ascending := by
  have hdistinct : (ms.map Move.offset).Nodup := hascending.imp Nat.ne_of_lt
  refine ⟨?_, ?_, ?_⟩
  · intro o b hb
    obtain ⟨p, hp, _, rfl, hbody, _⟩ := exists_piece hdistinct hb
    have hhead := List.head?_eq_some_head (ne_nil_of_mem_pieces hp)
    rw [hbody, start_of_head? hhead, List.toList_toArray, List.head?_map, hhead]
    rfl
  · intro o b hb
    obtain ⟨p, hp, _, _, hbody, _⟩ := exists_piece hdistinct hb
    rw [hbody]
    exact pairwise_of_mem_pieces hascending hp
  · intro o b n hb hn hlt x hx
    obtain ⟨p, hp, _, rfl, hbody, _⟩ := exists_piece hdistinct hb
    rw [keys_toGraph] at hn
    obtain ⟨s, hs⟩ := OffsetMap.mem_keys_iff.1 hn
    obtain ⟨q, hq, rfl, rfl⟩ := (get?_ofMoves_iff hdistinct).1 hs
    rw [hbody, List.mem_toArray] at hx
    obtain ⟨m, hm, rfl⟩ := List.mem_map.1 hx
    exact lt_start_of_lt hascending hp hq hlt hm

/-- The offsets of the body are those in the bodies of the blocks. -/
theorem mem_offsets_iff_block (labels : OffsetSet) (hmoves : code.moves policy [] = .ok ms)
    (hdistinct : code.offsets.Nodup) :
    x ∈ code.offsets ↔ ∃ o b, (ofMoves labels ms).toGraph.block? o = some b ∧ x ∈ b.body := by
  have horder : (ofMoves labels ms).toGraph.inOrder.flatMap (·.body.toList) = code.offsets :=
    flatMap_inOrder hmoves hdistinct
  rw [← horder, List.mem_flatMap]
  unfold Graph.inOrder
  simp only [List.mem_filterMap, Array.mem_toList_iff, order_toGraph]
  constructor
  · intro ⟨b, ⟨o, _, hb⟩, hx⟩
    exact ⟨o, b, hb, hx⟩
  · intro ⟨o, b, hb, hx⟩
    have hstart : o ∈ (ofMoves labels ms).starts := by
      rw [← keys_toGraph]
      exact OffsetMap.mem_keys_of_get? hb
    exact ⟨b, ⟨o, mem_starts_ofSegments.1 hstart, hb⟩, hx⟩

end Layout

/-! ## §4. Point lookup -/

/-- **Point lookup is exact.**  An offset has a block exactly if it is the offset of an instruction,
    and that block is the one whose body holds it; the search in a body finds exactly its members.
    What lies between two instructions, between two blocks or behind them all has no block. -/
theorem Graph.blockOf?_of_build {policy : Policy} {labels : OffsetSet} {code : Code} {g : Graph}
    (hbuild : (Graph.build policy labels code).outcome = .ok g)
    (hascending : code.offsets.Pairwise (· < ·)) :
    (∀ x, (∃ b, g.blockOf? x = some b) ↔ x ∈ code.offsets) ∧
    (∀ x b, g.blockOf? x = some b ↔ ∃ o, g.block? o = some b ∧ x ∈ b.body) ∧
    (∀ x, g.blockOf? x = none ↔ x ∉ code.offsets) ∧
    (∀ o b, g.block? o = some b → ∀ x, b.contains x = true ↔ x ∈ b.body) := by
  obtain ⟨_, ms, hmoves, _, rfl⟩ := Graph.build_eq_ok_iff_moves.1 hbuild
  have hdistinct : code.offsets.Nodup := hascending.imp Nat.ne_of_lt
  have hg : (Layout.ofMoves labels ms).toGraph.Ascending := by
    rw [← Code.map_offset_moves hmoves] at hascending
    exact Layout.ascending_toGraph hascending
  have hfound : ∀ x, (∃ b, (Layout.ofMoves labels ms).toGraph.blockOf? x = some b) ↔
      x ∈ code.offsets := by
    intro x
    rw [Layout.mem_offsets_iff_block labels hmoves hdistinct, exists_comm]
    simp only [hg.blockOf?_eq_some_iff]
  refine ⟨hfound, fun x b => hg.blockOf?_eq_some_iff, ?_, fun o b hb x => hg.contains_iff hb⟩
  intro x
  rw [← hfound, not_exists, Option.eq_none_iff_forall_ne_some]

/-- `0 NOP`, `2 NOP`, `6 POP_JUMP_IF_TRUE 0`, `9 RETURN_VALUE`. -/
def Code.gapped : Code :=
  [.decode 0 .nop none 2, .decode 2 .nop none 4, .decode 6 .popJumpIfTrue (some 0) 9,
    .decode 9 .returnValue none 10]

/-- Two instructions in the first block, nothing between 2 and 6, and a branch back: 2 is found in
    the block at 0, and neither the gap at 4 nor the end at 10 in any. -/
theorem Graph.blockOf?_of_gap :
    ∃ (g : Graph) (b : Block), (Graph.build .strict {0, 6} Code.gapped).outcome = .ok g ∧
      Code.gapped.offsets.Pairwise (· < ·) ∧
      g.order = [0, 6, 9] ∧ g.block? 0 = some b ∧ b.contains 2 = true ∧
      g.blockOf? 2 = some b ∧ g.blockOf? 4 = none ∧ g.blockOf? 10 = none := by
  obtain ⟨g, b, hbuild, hascending, horder, hblock, hbody⟩ : ∃ (g : Graph) (b : Block),
      (Graph.build .strict {0, 6} Code.gapped).outcome = .ok g ∧
      Code.gapped.offsets.Pairwise (· < ·) ∧
      g.order = [0, 6, 9] ∧ g.block? 0 = some b ∧ b.body.toList = [0, 2] :=
    ⟨_, _, rfl, by decide, rfl, rfl, rfl⟩
  obtain ⟨_, hsome, hnone, hcontains⟩ := Graph.blockOf?_of_build hbuild hascending
  have hmem : 2 ∈ b.body := by
    rw [← Array.mem_toList_iff, hbody]
    decide
  exact ⟨g, b, hbuild, hascending, horder, hblock, (hcontains 0 b hblock 2).2 hmem,
    (hsome 2 b).2 ⟨0, hblock, hmem⟩, (hnone 4).2 (by decide), (hnone 10).2 (by decide)⟩

end BytecodeFlow
