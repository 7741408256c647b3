/-
  BytecodeFlow.Proofs.Flow.Step — STEPS FROM INSTRUCTION TO INSTRUCTION, and where blocks are.

  `Code.Step` says where control can go from an instruction, with no blocks in sight: on to the
  next one, or by a branch.  Here the same relation is found in the pieces of a body whose offsets
  are distinct and whose edges all lead to blocks:

    • steps inside a piece are its neighbours, since only its last move branches,
    • steps to another piece come from a last move and lead to a first one, and they are the
      edges of the graph (`edge_ofMoves_iff`).
-/
import Mathlib.Data.List.Nodup
import BytecodeFlow.Proofs.Layout.EdgeLaw

namespace BytecodeFlow

/-! ## §1. Steps -/

/-- Control can go from `i` to `j`, both in `code`. -/
inductive Code.Step (code : Code) (i j : Instruction) : Prop
  /-- On to the next instruction. -/
  | falls (hflow : i.flow = .sequential ∨ i.flow = .loopEntry ∨ i.flow = .loopExit)
      (hnext : [i, j] <:+: code)
  /-- To where `i` leads by a branch. -/
  | branches {before after : Code} (hcode : code = before ++ i :: after) (hj : j ∈ code)
      (hleads : i.LeadsTo before j.offset)

/-- The same between the moves of a body. -/
def Move.Step (ms : List Move) (m n : Move) : Prop :=
  m.transfer.endsBlock = false ∧ [m, n] <:+: ms ∨ m ∈ ms ∧ n ∈ ms ∧ n.offset ∈ m.transfer.targets

section

variable {policy : Policy} {code : Code} {ms : List Move} {m n : Move} {i j : Instruction}

theorem Move.Step.target_mem (h : Move.Step ms m n) : n ∈ ms := by
  rcases h with ⟨_, hmn⟩ | ⟨_, hn, _⟩
  · exact hmn.subset (by simp)
  · exact hn

theorem eq_of_offset (hdistinct : (ms.map Move.offset).Nodup) (hm : m ∈ ms) (hn : n ∈ ms)
    (h : m.offset = n.offset) : m = n :=
  List.inj_on_of_nodup_map hdistinct hm hn h

/-- Every move of a body passed its checks. -/
theorem Code.does_of_mem (hmoves : code.moves policy [] = .ok ms) (hm : m ∈ ms) :
    ∃ scopes, m.instruction.Does policy scopes m.transfer := by
  obtain ⟨before, after, rfl⟩ := List.append_of_mem hm
  exact ⟨_, (Code.does_of_moves hmoves).1⟩

/-- Every instruction that the scan gets past has its move. -/
theorem Code.exists_move (hmoves : code.moves policy [] = .ok ms) (hi : i ∈ code) :
    ∃ m ∈ ms, m.instruction = i := by
  rw [← Code.map_instruction_moves hmoves] at hi
  exact List.mem_map.1 hi

/-- Where the code is split at an instruction, its moves are split at a move. -/
theorem Code.exists_split {before after : Code} (hmoves : code.moves policy [] = .ok ms)
    (hcode : code = before ++ i :: after) :
    ∃ ms₁ m ms₂, ms = ms₁ ++ m :: ms₂ ∧ ms₁.map (·.instruction) = before ∧ m.instruction = i := by
  rw [← Code.map_instruction_moves hmoves] at hcode
  obtain ⟨ms₁, rest, hms, hbefore, hrest⟩ := List.map_eq_append_iff.1 hcode
  obtain ⟨m, ms₂, rfl, hm, _⟩ := List.map_eq_cons_iff.1 hrest
  exact ⟨ms₁, m, ms₂, hms, hbefore, hm⟩

/-- **Steps are steps between moves.** -/
theorem Code.step_iff_moves (hmoves : code.moves policy [] = .ok ms) :
    code.Step i j ↔ ∃ m n, m.instruction = i ∧ n.instruction = j ∧ Move.Step ms m n := by
  have hcode := Code.map_instruction_moves hmoves
  constructor
  · intro h
    cases h with
    -- falling is to the neighbour, branching is to any instruction; moves do the same two things
    | falls hflow hnext =>
      rw [← hcode] at hnext
      obtain ⟨m, n, hmn, rfl, rfl⟩ := follows_map_iff.1 hnext
      obtain ⟨scopes, hdoes⟩ := Code.does_of_mem hmoves (hmn.subset (List.mem_cons_self))
      exact ⟨m, n, rfl, rfl, .inl ⟨hdoes.falls_iff.2 hflow, hmn⟩⟩
    | @branches before after hsplit hj hleads =>
      obtain ⟨n, hn, rfl⟩ := Code.exists_move hmoves hj
      obtain ⟨ms₁, m, ms₂, rfl, rfl, rfl⟩ := Code.exists_split hmoves hsplit
      exact ⟨m, n, rfl, rfl, .inr ⟨by simp, hn, (Move.mem_targets_iff hmoves).2 hleads⟩⟩
  · intro ⟨m, n, hm, hn, hstep⟩
    subst hm hn
    rcases hstep with ⟨hends, hmn⟩ | ⟨hm, hn, hmem⟩
    · -- what does not end a block falls to the instruction behind it
      obtain ⟨scopes, hdoes⟩ := Code.does_of_mem hmoves (hmn.subset (List.mem_cons_self))
      refine .falls (hdoes.falls_iff.1 hends) ?_
      rw [← hcode]
      exact follows_map_iff.2 ⟨m, n, hmn, rfl, rfl⟩
    · obtain ⟨ms₁, ms₂, rfl⟩ := List.append_of_mem hm
      have hj : n.instruction ∈ code := by
        rw [← hcode]
        exact List.mem_map_of_mem hn
      have hsplit : code =
          ms₁.map (·.instruction) ++ m.instruction :: ms₂.map (·.instruction) := by
        rw [← hcode, List.map_append, List.map_cons]
      exact .branches hsplit hj ((Move.mem_targets_iff hmoves).1 hmem)

end

/-! ## §2. Moves in pieces -/

section

variable {labels : OffsetSet} {ms p : List Move} {m n : Move}

theorem mem_of_mem_pieces (hp : p ∈ pieces labels ms) (hm : m ∈ p) : m ∈ ms := by
  rw [← flatten_pieces labels ms]
  exact List.mem_flatten_of_mem hp hm

theorem exists_piece_of_mem (labels : OffsetSet) (hm : m ∈ ms) : ∃ p ∈ pieces labels ms, m ∈ p := by
  rw [← flatten_pieces labels ms] at hm
  exact List.mem_flatten.1 hm

theorem start_of_head? (hm : p.head? = some m) : (Segment.ofMoves p).start = m.offset := by
  unfold Segment.ofMoves
  rw [hm]
  rfl

/-- Inside a piece no move ends a block. -/
theorem endsBlock_of_follows (hp : p ∈ pieces labels ms) (hmn : [m, n] <:+: p) :
    m.transfer.endsBlock = false := by
  have hchain := List.isChain_of_mem_splitBy hp
  obtain ⟨before, after, rfl⟩ := hmn
  rw [List.append_assoc] at hchain
  have hjoins := (List.isChain_append_cons_cons.1 hchain).2.1
  unfold Move.joins at hjoins
  rw [Bool.and_eq_true, Bool.not_eq_true'] at hjoins
  exact hjoins.1

/-- A move that ends a block is the last of its piece. -/
theorem getLast?_of_endsBlock (hp : p ∈ pieces labels ms) (hm : m ∈ p)
    (hends : m.transfer.endsBlock = true) : p.getLast? = some m := by
  obtain ⟨before, after, hsplit⟩ := List.append_of_mem hm
  cases after with
  | nil => rw [hsplit, List.getLast?_concat]
  | cons n after =>
    have hmn : [m, n] <:+: p := ⟨before, after, by rw [hsplit]; simp⟩
    rw [endsBlock_of_follows hp hmn] at hends
    cases hends

end

/-! ## §3. Steps and edges -/

/-- `code` does `ms`; no two offsets are the same, and every target starts a piece. -/
structure LaidOut (policy : Policy) (labels : OffsetSet) (code : Code) (ms : List Move) : Prop where
  moves_eq : code.moves policy [] = .ok ms
  distinct : (ms.map Move.offset).Nodup
  dangling_eq : (Layout.ofMoves labels ms).dangling = []

namespace LaidOut

variable {policy : Policy} {labels : OffsetSet} {code : Code} {ms p q : List Move} {m n : Move}
  {x : Offset}

theorem nodup_order (h : LaidOut policy labels code ms) : (Layout.ofMoves labels ms).order.Nodup :=
  Layout.nodup_order_ofMoves h.distinct

/-- A piece is known by where it starts. -/
theorem eq_of_start (h : LaidOut policy labels code ms) (hp : p ∈ pieces labels ms)
    (hq : q ∈ pieces labels ms) (hstart : (Segment.ofMoves p).start = (Segment.ofMoves q).start) :
    p = q := by
  have horder := h.nodup_order
  rw [Layout.order_ofMoves] at horder
  exact List.inj_on_of_nodup_map horder hp hq hstart

/-- Distinct offsets make distinct starts, so no piece hides another. -/
theorem get?_start (h : LaidOut policy labels code ms) (hp : p ∈ pieces labels ms) :
    (Layout.ofMoves labels ms).kept.get? (Segment.ofMoves p).start = some (Segment.ofMoves p) :=
  (Layout.get?_ofMoves_iff h.distinct).2 ⟨p, hp, rfl, rfl⟩

/-- Control falls from a piece to the piece behind it. -/
theorem follower?_iff (h : LaidOut policy labels code ms) (hp : p ∈ pieces labels ms) :
    (Layout.ofMoves labels ms).follower? (Segment.ofMoves p).start = some x ↔
      ∃ q, [p, q] <:+: pieces labels ms ∧ (Segment.ofMoves q).start = x := by
  rw [Layout.follower?_eq_some_iff h.nodup_order, Layout.order_ofMoves, follows_map_iff]
  constructor
  · intro ⟨p', q, hpq, hp', hq⟩
    obtain rfl := h.eq_of_start (hpq.subset List.mem_cons_self) hp hp'
    exact ⟨q, hpq, hq⟩
  · intro ⟨q, hpq, hq⟩
    exact ⟨p, q, hpq, rfl, hq⟩

/-- **The edges of a piece** are the targets of its last move, or lead on where that move does. -/
theorem edge_iff (h : LaidOut policy labels code ms) (hp : p ∈ pieces labels ms)
    (hm : p.getLast? = some m) :
    (Layout.ofMoves labels ms).toGraph.Edge (Segment.ofMoves p).start x ↔
      x ∈ m.transfer.targets ∨ m.transfer.endsBlock = false ∧
        ∃ q, [p, q] <:+: pieces labels ms ∧ (Segment.ofMoves q).start = x := by
  rw [← h.follower?_iff hp]
  set l := Layout.ofMoves labels ms
  set s := Segment.ofMoves p
  have hkept : l.kept.get? s.start = some s := h.get?_start hp
  have hinside : l.inside s = s.targets := Layout.inside_of_dangling h.dangling_eq hkept
  obtain ⟨htargets, hreturns⟩ : s.targets = m.transfer.targets ∧ s.returns = m.transfer.returns :=
    Segment.targets_ofMoves hm
  have hedge : l.toGraph.Edge s.start x ↔ x ∈ l.outgoing s := by
    rw [Layout.edge_toGraph_iff, hkept]
    simp
  rw [hedge]
  obtain ⟨scopes, hdoes⟩ :=
    Code.does_of_mem h.moves_eq (mem_of_mem_pieces hp (List.mem_of_getLast? hm))
  -- a last move that ends the block leads to its targets alone; any other has none and falls
  by_cases hends : m.transfer.endsBlock = true
  · have hout : l.outgoing s = m.transfer.targets := by
      by_cases hr : m.transfer.returns = true
      · have hnone := Transfer.targets_of_returns hr
        rw [hnone]
        exact Layout.outgoing_of_returns (by rw [hinside, htargets, hnone]) (hreturns.trans hr)
      · rw [Bool.not_eq_true] at hr
        rw [Layout.outgoing_of_inside, hinside, htargets]
        rw [hinside, htargets]
        exact hdoes.targets_ne_empty hends hr
    rw [hout, hends]
    simp
  · rw [Bool.not_eq_true] at hends
    obtain ⟨hnone, hr⟩ := Transfer.targets_of_goesOn hends
    rw [Layout.outgoing_of_falls (by rw [hinside, htargets, hnone]) (hreturns.trans hr),
      OffsetSet.mem_ofList, Option.mem_toList, hnone]
    simp [hends]

/-- An edge leads to the front of a piece. -/
theorem exists_piece_of_edge {a : Offset}
    (hedge : (Layout.ofMoves labels ms).toGraph.Edge a x) :
    ∃ q ∈ pieces labels ms, (Segment.ofMoves q).start = x := by
  obtain ⟨s, _, hx⟩ := Layout.edge_toGraph_iff.1 hedge
  have hmem : x ∈ (Layout.ofMoves labels ms).order :=
    Layout.mem_starts_ofSegments.1 (Layout.outgoing_subset_starts x hx)
  rw [Layout.order_ofMoves] at hmem
  exact List.mem_map.1 hmem

/-- The front of a piece is the move at the offset where the piece starts. -/
theorem head?_of_start (h : LaidOut policy labels code ms) (hq : q ∈ pieces labels ms)
    (hn : n ∈ ms) (hstart : (Segment.ofMoves q).start = n.offset) : q.head? = some n := by
  have hhead := List.head?_eq_some_head (ne_nil_of_mem_pieces hq)
  rw [start_of_head? hhead] at hstart
  rw [hhead, eq_of_offset h.distinct (mem_of_mem_pieces hq (List.mem_of_head? hhead)) hn hstart]

/-- So does a target: it is where some piece starts, and its move is the last of its piece. -/
theorem exists_piece_of_target (h : LaidOut policy labels code ms) (hm : m ∈ ms)
    (hx : x ∈ m.transfer.targets) :
    ∃ p ∈ pieces labels ms, ∃ q ∈ pieces labels ms, p.getLast? = some m ∧
      (Segment.ofMoves q).start = x ∧
      (Layout.ofMoves labels ms).toGraph.Edge (Segment.ofMoves p).start x := by
  obtain ⟨p, hp, hmp⟩ := exists_piece_of_mem labels hm
  have hlast := getLast?_of_endsBlock hp hmp (Transfer.endsBlock_of_mem_targets hx)
  have hedge := (h.edge_iff hp hlast).2 (.inl hx)
  obtain ⟨q, hq, hstart⟩ := exists_piece_of_edge hedge
  exact ⟨p, hp, q, hq, hlast, hstart, hedge⟩

/-- **Steps between moves**, block by block: a step goes on inside a piece, or from the end of a
    piece to the front of one that an edge leads to. -/
theorem step_iff (h : LaidOut policy labels code ms) :
    Move.Step ms m n ↔ (∃ p ∈ pieces labels ms, [m, n] <:+: p) ∨
      ∃ p ∈ pieces labels ms, ∃ q ∈ pieces labels ms,
        (Layout.ofMoves labels ms).toGraph.Edge (Segment.ofMoves p).start
          (Segment.ofMoves q).start ∧ p.getLast? = some m ∧ q.head? = some n := by
  have hne : ∀ p ∈ pieces labels ms, p ≠ [] := fun p hp => ne_nil_of_mem_pieces hp
  -- neighbours among the moves stand in one piece or where two pieces meet
  have hfollows := follows_flatten_iff (a := m) (b := n) hne
  rw [flatten_pieces] at hfollows
  constructor
  · intro hstep
    rcases hstep with ⟨hends, hmn⟩ | ⟨hm, hn, hmem⟩
    · rcases hfollows.1 hmn with hin | ⟨p, q, hpq, hlast, hhead⟩
      · exact .inl hin
      · have hp : p ∈ pieces labels ms := hpq.subset List.mem_cons_self
        have hq : q ∈ pieces labels ms := hpq.subset (by simp)
        exact .inr ⟨p, hp, q, hq, (h.edge_iff hp hlast).2 (.inr ⟨hends, q, hpq, rfl⟩), hlast, hhead⟩
    · -- with strict edges a target starts a piece, and the branch ends one
      obtain ⟨p, hp, q, hq, hlast, hstart, hedge⟩ := h.exists_piece_of_target hm hmem
      exact .inr ⟨p, hp, q, hq, hstart ▸ hedge, hlast, h.head?_of_start hq hn hstart⟩
  · intro hstep
    rcases hstep with ⟨p, hp, hmn⟩ | ⟨p, hp, q, hq, hedge, hlast, hhead⟩
    · exact .inl ⟨endsBlock_of_follows hp hmn, hfollows.2 (.inl ⟨p, hp, hmn⟩)⟩
    · rcases (h.edge_iff hp hlast).1 hedge with hmem | ⟨hends, q', hpq, hstart⟩
      · rw [start_of_head? hhead] at hmem
        exact .inr ⟨mem_of_mem_pieces hp (List.mem_of_getLast? hlast),
          mem_of_mem_pieces hq (List.mem_of_head? hhead), hmem⟩
      · -- the piece behind `p` and the piece that the edge leads to start alike
        have hsame := h.eq_of_start (hpq.subset (by simp)) hq hstart
        subst hsame
        exact .inl ⟨hends, hfollows.2 (.inr ⟨p, _, hpq, hlast, hhead⟩)⟩

end LaidOut

end BytecodeFlow
