/-
  BytecodeFlow.Proofs.Flow.Block — BLOCKS, read off the steps between moves.

  In a body that is laid out every block is the block of one piece (`Block.ofPiece`), and what is
  known of it can be said of the moves at the two ends of the piece:

    • its successors are where the last move steps to (`mem_outgoing_iff`),
    • its predecessors end with the moves that step to the first one (`mem_incoming_iff`),
    • it terminates if the last move returns.

  Steps know nothing of labels, and what is a step in a body is one in every longer body.  So two
  graphs over the same moves, or over moves of which one begins with the other, are compared
  through their steps, and neither layout is looked at again.
-/
import BytecodeFlow.Proofs.Flow.Step

namespace BytecodeFlow

/-! ## §1. Steps into a piece -/

namespace LaidOut

variable {policy : Policy} {labels : OffsetSet} {code : Code} {ms p q : List Move} {m n : Move}
  {x : Offset}

theorem nodup_moves (h : LaidOut policy labels code ms) : ms.Nodup := h.distinct.of_map _

theorem eq_of_mem_pieces (h : LaidOut policy labels code ms) (hp : p ∈ pieces labels ms)
    (hq : q ∈ pieces labels ms) (hmp : m ∈ p) (hmq : m ∈ q) : p = q := by
  have hnodup : (pieces labels ms).flatten.Nodup := by
    rw [flatten_pieces]
    exact h.nodup_moves
  exact eq_of_mem_parts hnodup hp hq hmp hmq

theorem nodup_of_mem_pieces (h : LaidOut policy labels code ms) (hp : p ∈ pieces labels ms) :
    p.Nodup := by
  have hsub := List.sublist_flatten_of_mem hp
  rw [flatten_pieces] at hsub
  exact h.nodup_moves.sublist hsub

/-- A step that arrives in a piece goes on inside it, or comes from the end of a piece to its
    front. -/
theorem step_cases (h : LaidOut policy labels code ms) (hp : p ∈ pieces labels ms) (hn : n ∈ p)
    (hstep : Move.Step ms m n) :
    [m, n] <:+: p ∨ p.head? = some n ∧ ∃ q ∈ pieces labels ms, q.getLast? = some m := by
  rcases h.step_iff.1 hstep with ⟨r, hr, hmn⟩ | ⟨q, hq, r, hr, _, hlast, hhead⟩
  · rw [h.eq_of_mem_pieces hp hr hn (hmn.subset (by simp))]
    exact .inl hmn
  · rw [h.eq_of_mem_pieces hp hr hn (List.mem_of_head? hhead)]
    exact .inr ⟨hhead, q, hq, hlast⟩

/-- A step to a move inside a piece comes from the move in front of it. -/
theorem eq_of_step_inside {m' : Move} (h : LaidOut policy labels code ms)
    (hp : p ∈ pieces labels ms) (hmn : [m, n] <:+: p) (hstep : Move.Step ms m' n) : m' = m := by
  have hn : n ∈ p := hmn.subset (by simp)
  rcases h.step_cases hp hn hstep with hinside | ⟨hhead, _⟩
  · exact eq_of_follows (h.nodup_of_mem_pieces hp) hinside hmn
  · exact absurd hhead (head?_ne_of_follows (h.nodup_of_mem_pieces hp) hmn)

/-- A step to the front of a piece comes from the end of a piece. -/
theorem exists_last_of_step (h : LaidOut policy labels code ms) (hp : p ∈ pieces labels ms)
    (hn : p.head? = some n) (hstep : Move.Step ms m n) :
    ∃ q ∈ pieces labels ms, q.getLast? = some m := by
  rcases h.step_cases hp (List.mem_of_head? hn) hstep with hinside | ⟨_, hlast⟩
  · exact absurd hn (head?_ne_of_follows (h.nodup_of_mem_pieces hp) hinside)
  · exact hlast

/-- A move that goes on steps to the move behind it and nowhere else. -/
theorem step_iff_of_follows {n' : Move} (h : LaidOut policy labels code ms)
    (hp : p ∈ pieces labels ms) (hmn : [m, n] <:+: p) : Move.Step ms m n' ↔ n' = n := by
  have hends : m.transfer.endsBlock = false := endsBlock_of_follows hp hmn
  have hnext : [m, n] <:+: ms := by
    rw [← flatten_pieces labels ms]
    exact hmn.trans (List.infix_of_mem_flatten hp)
  constructor
  · intro hstep
    rcases hstep with ⟨_, hmn'⟩ | ⟨_, _, htarget⟩
    · exact next_eq_of_follows h.nodup_moves hmn' hnext
    · -- a branch would end the piece, and `m` does not
      rw [Transfer.endsBlock_of_mem_targets htarget] at hends
      cases hends
  · intro heq
    subst heq
    exact .inl ⟨hends, hnext⟩

/-- **The edges of a piece are the steps of its last move.** -/
theorem edge_iff_step (h : LaidOut policy labels code ms) (hp : p ∈ pieces labels ms)
    (hm : p.getLast? = some m) :
    (Layout.ofMoves labels ms).toGraph.Edge (Segment.ofMoves p).start x ↔
      ∃ n, Move.Step ms m n ∧ n.offset = x := by
  constructor
  · intro hedge
    obtain ⟨q, hq, rfl⟩ := exists_piece_of_edge hedge
    have hhead := List.head?_eq_some_head (ne_nil_of_mem_pieces hq)
    exact ⟨_, h.step_iff.2 (.inr ⟨p, hp, q, hq, hedge, hm, hhead⟩), (start_of_head? hhead).symm⟩
  · intro ⟨n, hstep, hx⟩
    rcases h.step_iff.1 hstep with ⟨q, hq, hmn⟩ | ⟨q, hq, r, _, hedge, hlast, hhead⟩
    · -- nothing follows the last move of a piece inside that piece
      have heq := h.eq_of_mem_pieces hp hq (List.mem_of_getLast? hm) (hmn.subset (by simp))
      subst heq
      exact absurd hm (getLast?_ne_of_follows (h.nodup_of_mem_pieces hp) hmn)
    · have heq := h.eq_of_mem_pieces hp hq (List.mem_of_getLast? hm) (List.mem_of_getLast? hlast)
      subst heq
      rw [← hx, ← start_of_head? hhead]
      exact hedge

end LaidOut

/-! ## §2. The block of a piece -/

/-- The block of the piece `p` in the graph of `ms`. -/
def Block.ofPiece (labels : OffsetSet) (ms p : List Move) : Block :=
  let l := Layout.ofMoves labels ms
  let s := Segment.ofMoves p
  ⟨s.start, s.body, l.outgoing s, Layout.sources l.successors s.start, s.returns⟩

namespace LaidOut

variable {policy : Policy} {labels : OffsetSet} {code : Code} {ms p : List Move} {m n : Move}
  {o x : Offset} {b : Block}

/-- **The block of a piece** is found under the offset where the piece starts. -/
theorem block?_start (h : LaidOut policy labels code ms) (hp : p ∈ pieces labels ms) :
    (Layout.ofMoves labels ms).toGraph.block? (Segment.ofMoves p).start =
      some (Block.ofPiece labels ms p) := by
  rw [Layout.block?_toGraph, h.get?_start hp]
  rfl

/-- **Every block is the block of a piece.** -/
theorem exists_piece_of_block (h : LaidOut policy labels code ms)
    (hb : (Layout.ofMoves labels ms).toGraph.block? o = some b) :
    ∃ p ∈ pieces labels ms, (Segment.ofMoves p).start = o ∧ Block.ofPiece labels ms p = b := by
  obtain ⟨p, hp, _, rfl, _⟩ := Layout.exists_piece h.distinct hb
  rw [h.block?_start hp] at hb
  exact ⟨p, hp, rfl, Option.some.inj hb⟩

/-- The blocks in program order are those of the pieces. -/
theorem inOrder_eq (h : LaidOut policy labels code ms) :
    (Layout.ofMoves labels ms).toGraph.inOrder =
      (pieces labels ms).map (Block.ofPiece labels ms) := by
  unfold Graph.inOrder
  rw [Layout.order_toGraph, Layout.order_ofMoves, List.filterMap_map,
    List.filterMap_eq_map_iff_forall_eq_some]
  intro p hp
  exact h.block?_start hp

theorem toList_body_ofPiece : (Block.ofPiece labels ms p).body.toList = p.map Move.offset := rfl

/-- A block ends the function if its last move does. -/
theorem terminating_ofPiece (hm : p.getLast? = some m) :
    (Block.ofPiece labels ms p).terminating = m.transfer.returns :=
  (Segment.targets_ofMoves hm).2

/-- **The successors of a block** are where its last move steps to. -/
theorem mem_outgoing_iff (h : LaidOut policy labels code ms) (hp : p ∈ pieces labels ms)
    (hm : p.getLast? = some m) :
    x ∈ (Block.ofPiece labels ms p).outgoing ↔ ∃ n, Move.Step ms m n ∧ n.offset = x := by
  rw [← h.edge_iff_step hp hm, Layout.edge_toGraph_iff, h.get?_start hp]
  simp [Block.ofPiece]

/-- **The predecessors of a block** are the pieces whose last moves step to its first one. -/
theorem mem_incoming_iff (h : LaidOut policy labels code ms) (hp : p ∈ pieces labels ms)
    (hn : p.head? = some n) :
    x ∈ (Block.ofPiece labels ms p).incoming ↔
      ∃ q ∈ pieces labels ms, ∃ m, q.getLast? = some m ∧ Move.Step ms m n ∧
        (Segment.ofMoves q).start = x := by
  -- the predecessors of a block are the edges to it, read backwards
  have hedge : x ∈ (Block.ofPiece labels ms p).incoming ↔
      (Layout.ofMoves labels ms).toGraph.Edge x (Segment.ofMoves p).start := by
    rw [Layout.edge_toGraph_iff, ← Layout.mem_sources_iff]
    rfl
  rw [hedge]
  constructor
  · intro hx
    obtain ⟨s, hs, _⟩ := Layout.edge_toGraph_iff.1 hx
    obtain ⟨q, hq, rfl, rfl⟩ := (Layout.get?_ofMoves_iff h.distinct).1 hs
    have hm := List.getLast?_eq_some_getLast (ne_nil_of_mem_pieces hq)
    -- the edge is a step of the last move of its source, and it leads to the first move here
    obtain ⟨n', hstep, hn'⟩ := (h.edge_iff_step hq hm).1 hx
    obtain rfl := Option.some.inj (hn.symm.trans (h.head?_of_start hp hstep.target_mem hn'.symm))
    exact ⟨q, hq, _, hm, hstep, rfl⟩
  · intro ⟨q, hq, m, hm, hstep, hx⟩
    rw [← hx, h.edge_iff_step hq hm]
    exact ⟨n, hstep, (start_of_head? hn).symm⟩

end LaidOut

end BytecodeFlow
