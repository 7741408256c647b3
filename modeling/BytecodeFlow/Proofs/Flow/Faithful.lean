/-
  BytecodeFlow.Proofs.Flow.Faithful — THE GRAPH STANDS FOR THE CODE.

  With strict edges and ascending offsets nothing of the control flow between instructions is
  lost in the graph, and nothing is added:

    • every branch knows its targets, and they are instructions of the body,
    • `i` steps to `j` exactly if they are neighbours in a block, or `i` ends a block, `j` begins
      one, and an edge leads from the first block to the second,
    • so the paths from the first instruction are, one-to-one, the paths from the entry.

  The instructions are cut into blocks in the sense of `Cut` (`LaidOut.cut`), and
  `Graph.faithful_of_build` reads the result off the blocks of the graph.
-/
import BytecodeFlow.Proofs.Flow.Block
import BytecodeFlow.Proofs.Flow.Cut
import BytecodeFlow.Proofs.Graph.Root

namespace BytecodeFlow

/-- The blocks that `p` enters, by where they start. -/
def Graph.entered (g : Graph) (p : Code) : List Offset := p.offsets.filter (· ∈ g.blocks.keys)

/-! ## §1. The instructions of a piece -/

/-- The instructions of the piece that starts at `o`, if there is one. -/
def bodyAt (labels : OffsetSet) (ms : List Move) (o : Offset) : Code :=
  (((pieces labels ms).find? fun p => (Segment.ofMoves p).start = o).getD []).map (·.instruction)

section

variable {labels : OffsetSet} {ms : List Move} {o : Offset} {i : Instruction}

/-- No piece starts at `o`, or the instructions are those of one that does. -/
theorem bodyAt_cases (labels : OffsetSet) (ms : List Move) (o : Offset) :
    bodyAt labels ms o = [] ∨ ∃ p ∈ pieces labels ms, (Segment.ofMoves p).start = o ∧
      bodyAt labels ms o = p.map (·.instruction) := by
  unfold bodyAt
  cases hfind : (pieces labels ms).find? fun p => (Segment.ofMoves p).start = o with
  | none => exact .inl rfl
  | some p =>
    exact .inr ⟨p, List.mem_of_find?_eq_some hfind, by simpa using List.find?_some hfind, rfl⟩

/-- Whoever finds an instruction at `o` finds a piece there. -/
theorem exists_piece_of_ne_nil (h : bodyAt labels ms o ≠ []) :
    ∃ p ∈ pieces labels ms, (Segment.ofMoves p).start = o ∧
      bodyAt labels ms o = p.map (·.instruction) :=
  (bodyAt_cases labels ms o).resolve_left h

end

namespace LaidOut

variable {policy : Policy} {labels : OffsetSet} {code : Code} {ms p : List Move} {o : Offset}
  {i j : Instruction} {b : Block}

/-- Offsets are distinct, so the piece found at the start of `p` is `p`. -/
theorem bodyAt_start (h : LaidOut policy labels code ms) (hp : p ∈ pieces labels ms) :
    bodyAt labels ms (Segment.ofMoves p).start = p.map (·.instruction) := by
  unfold bodyAt
  cases hfind : (pieces labels ms).find? fun q =>
      (Segment.ofMoves q).start = (Segment.ofMoves p).start with
  | none => exact absurd (decide_eq_true rfl) (List.find?_eq_none.1 hfind p hp)
  | some q =>
    -- the search may have found another piece, but it starts where `p` does
    have hstart : (Segment.ofMoves q).start = (Segment.ofMoves p).start := by
      simpa using List.find?_some hfind
    rw [h.eq_of_start (List.mem_of_find?_eq_some hfind) hp hstart]
    rfl

theorem bodyAt_ne_nil (h : LaidOut policy labels code ms) (hp : p ∈ pieces labels ms) :
    bodyAt labels ms (Segment.ofMoves p).start ≠ [] := by
  rw [h.bodyAt_start hp]
  intro hnil
  exact ne_nil_of_mem_pieces hp (List.map_eq_nil_iff.1 hnil)

theorem mem_code_of_mem_bodyAt (h : LaidOut policy labels code ms)
    (hi : i ∈ bodyAt labels ms o) : i ∈ code := by
  obtain ⟨p, hp, _, hbody⟩ := exists_piece_of_ne_nil (List.ne_nil_of_mem hi)
  rw [hbody] at hi
  obtain ⟨m, hm, rfl⟩ := List.mem_map.1 hi
  rw [← Code.map_instruction_moves h.moves_eq]
  exact List.mem_map_of_mem (mem_of_mem_pieces hp hm)

/-- **No instruction is left out of the pieces.** -/
theorem exists_bodyAt (h : LaidOut policy labels code ms) (hi : i ∈ code) :
    ∃ p ∈ pieces labels ms, i ∈ bodyAt labels ms (Segment.ofMoves p).start := by
  obtain ⟨m, hm, rfl⟩ := Code.exists_move h.moves_eq hi
  obtain ⟨p, hp, hmp⟩ := exists_piece_of_mem labels hm
  refine ⟨p, hp, ?_⟩
  rw [h.bodyAt_start hp]
  exact List.mem_map_of_mem hmp

theorem nodup_offsets (h : LaidOut policy labels code ms) : code.offsets.Nodup := by
  rw [← Code.map_offset_moves h.moves_eq]
  exact h.distinct

/-- An offset names one instruction, so what the graph says of offsets it says of instructions. -/
theorem instruction_eq (h : LaidOut policy labels code ms) (hi : i ∈ code) (hj : j ∈ code)
    (heq : i.offset = j.offset) : i = j :=
  List.inj_on_of_nodup_map h.nodup_offsets hi hj heq

/-! ## §2. The cut -/

/-- A step of the code stays inside a piece, or goes from the end of one along an edge to the front
    of another. -/
theorem step_iff_bodyAt (h : LaidOut policy labels code ms) :
    code.Step i j ↔ (∃ o, [i, j] <:+: bodyAt labels ms o) ∨
      ∃ a b, (Layout.ofMoves labels ms).toGraph.Edge a b ∧
        (bodyAt labels ms a).getLast? = some i ∧ (bodyAt labels ms b).head? = some j := by
  rw [Code.step_iff_moves h.moves_eq]
  constructor
  · intro ⟨m, n, hm, hn, hstep⟩
    subst hm hn
    rcases h.step_iff.1 hstep with ⟨p, hp, hmn⟩ | ⟨p, hp, q, hq, hedge, hlast, hhead⟩
    · refine .inl ⟨(Segment.ofMoves p).start, ?_⟩
      rw [h.bodyAt_start hp]
      exact follows_map_iff.2 ⟨m, n, hmn, rfl, rfl⟩
    · refine .inr ⟨_, _, hedge, ?_, ?_⟩
      · rw [h.bodyAt_start hp, List.getLast?_map, hlast]
        rfl
      · rw [h.bodyAt_start hq, List.head?_map, hhead]
        rfl
  · intro hstep
    rcases hstep with ⟨o, hij⟩ | ⟨a, b, hedge, hlast, hhead⟩
    · -- neighbours in a piece are instructions of the neighbouring moves
      obtain ⟨p, hp, _, hbody⟩ :=
        exists_piece_of_ne_nil (List.ne_nil_of_mem (hij.subset List.mem_cons_self))
      rw [hbody] at hij
      obtain ⟨m, n, hmn, hm, hn⟩ := follows_map_iff.1 hij
      exact ⟨m, n, hm, hn, h.step_iff.2 (.inl ⟨p, hp, hmn⟩)⟩
    · -- the ends of two pieces are the instructions of their last and their first move
      obtain ⟨p, hp, rfl, hp'⟩ :=
        exists_piece_of_ne_nil (List.ne_nil_of_mem (List.mem_of_getLast? hlast))
      obtain ⟨q, hq, rfl, hq'⟩ :=
        exists_piece_of_ne_nil (List.ne_nil_of_mem (List.mem_of_head? hhead))
      rw [hp', List.getLast?_map] at hlast
      rw [hq', List.head?_map] at hhead
      obtain ⟨m, hm, hmi⟩ := Option.map_eq_some_iff.1 hlast
      obtain ⟨n, hn, hnj⟩ := Option.map_eq_some_iff.1 hhead
      exact ⟨m, n, hmi, hnj, h.step_iff.2 (.inr ⟨p, hp, q, hq, hedge, hm, hn⟩)⟩

/-- No instruction is in two pieces. -/
theorem eq_of_mem_bodyAt {a b : Offset} (h : LaidOut policy labels code ms)
    (ha : i ∈ bodyAt labels ms a) (hb : i ∈ bodyAt labels ms b) : a = b := by
  obtain ⟨p, hp, rfl, hp'⟩ := exists_piece_of_ne_nil (List.ne_nil_of_mem ha)
  obtain ⟨q, hq, rfl, hq'⟩ := exists_piece_of_ne_nil (List.ne_nil_of_mem hb)
  rw [hp'] at ha
  rw [hq'] at hb
  obtain ⟨m, hm, rfl⟩ := List.mem_map.1 ha
  obtain ⟨n, hn, hsame⟩ := List.mem_map.1 hb
  -- one instruction is the move of one offset, and one move is in one piece
  have hmn : n = m := eq_of_offset h.distinct (mem_of_mem_pieces hq hn) (mem_of_mem_pieces hp hm)
    (congrArg Instruction.offset hsame)
  subst hmn
  rw [h.eq_of_mem_pieces hp hq hm hn]

/-- The first instruction of a piece is the one at the offset where the piece starts. -/
theorem head?_bodyAt_iff (h : LaidOut policy labels code ms) (hi : i ∈ code) :
    (bodyAt labels ms o).head? = some i ↔
      i.offset ∈ (Layout.ofMoves labels ms).starts ∧ i.offset = o := by
  constructor
  · intro hhead
    obtain ⟨p, hp, rfl, hbody⟩ :=
      exists_piece_of_ne_nil (List.ne_nil_of_mem (List.mem_of_head? hhead))
    rw [hbody, List.head?_map] at hhead
    obtain ⟨m, hm, rfl⟩ := Option.map_eq_some_iff.1 hhead
    have hstart : m.instruction.offset = (Segment.ofMoves p).start := (start_of_head? hm).symm
    rw [hstart]
    exact ⟨OffsetMap.mem_keys_of_get? (h.get?_start hp), rfl⟩
  · intro ⟨hstart, ho⟩
    subst ho
    -- a block is kept under the offset of `i`; its piece begins with the move of that offset
    obtain ⟨s, hs⟩ := OffsetMap.mem_keys_iff.1 hstart
    obtain ⟨p, hp, rfl, hstart⟩ := (Layout.get?_ofMoves_iff h.distinct).1 hs
    obtain ⟨m, hm, rfl⟩ := Code.exists_move h.moves_eq hi
    rw [← hstart, h.bodyAt_start hp, List.head?_map, h.head?_of_start hp hm hstart]
    rfl

/-- **The pieces cut the steps of the code.** -/
theorem cut (h : LaidOut policy labels code ms) :
    Cut code.Step (Layout.ofMoves labels ms).toGraph.Edge (bodyAt labels ms)
      fun i => if i.offset ∈ (Layout.ofMoves labels ms).starts then some i.offset else none where
  step_iff _ _ := h.step_iff_bodyAt
  enters?_eq_some_iff hi := by
    rw [h.head?_bodyAt_iff (h.mem_code_of_mem_bodyAt hi), Option.ite_none_right_eq_some,
      Option.some.injEq]
  nodup o := by
    rcases bodyAt_cases labels ms o with hnil | ⟨p, hp, _, hbody⟩
    · rw [hnil]
      exact .nil
    · -- a piece is part of the body, and there no instruction comes twice
      have hsub := (List.sublist_flatten_of_mem hp).map (·.instruction)
      rw [flatten_pieces, Code.map_instruction_moves h.moves_eq] at hsub
      rw [hbody]
      exact (h.nodup_offsets.of_map _).sublist hsub
  disjoint := h.eq_of_mem_bodyAt
  ne_nil_of_edge hedge := by
    obtain ⟨s, hs, _⟩ := Layout.edge_toGraph_iff.1 hedge
    obtain ⟨p, hp, rfl, rfl⟩ := (Layout.get?_ofMoves_iff h.distinct).1 hs
    obtain ⟨q, hq, rfl⟩ := exists_piece_of_edge hedge
    exact ⟨h.bodyAt_ne_nil hp, h.bodyAt_ne_nil hq⟩

/-! ## §3. The blocks of the graph -/

/-- A block lists the offsets of its piece. -/
theorem toList_body (h : LaidOut policy labels code ms)
    (hblock : (Layout.ofMoves labels ms).toGraph.block? o = some b) :
    b.body.toList = (bodyAt labels ms o).offsets := by
  obtain ⟨p, hp, rfl, rfl⟩ := h.exists_piece_of_block hblock
  rw [toList_body_ofPiece, h.bodyAt_start hp]
  unfold Code.offsets
  rw [List.map_map]
  rfl

/-- An offset is in a block exactly if its instruction is in the piece of the block. -/
theorem mem_body_iff (h : LaidOut policy labels code ms)
    (hblock : (Layout.ofMoves labels ms).toGraph.block? o = some b) (hi : i ∈ code) :
    i.offset ∈ b.body ↔ i ∈ bodyAt labels ms o := by
  rw [← Array.mem_toList_iff, h.toList_body hblock]
  constructor
  · intro hmem
    -- the block lists an offset; only one instruction has it
    obtain ⟨j, hj, heq⟩ := List.mem_map.1 hmem
    rw [← h.instruction_eq (h.mem_code_of_mem_bodyAt hj) hi heq]
    exact hj
  · intro hmem
    exact List.mem_map_of_mem hmem

theorem exists_block (h : LaidOut policy labels code ms) (hi : i ∈ bodyAt labels ms o) :
    ∃ b, (Layout.ofMoves labels ms).toGraph.block? o = some b := by
  obtain ⟨p, hp, rfl, _⟩ := exists_piece_of_ne_nil (List.ne_nil_of_mem hi)
  exact ⟨_, h.block?_start hp⟩

/-- Neighbours in the body of a block are neighbours among its instructions. -/
theorem follows_body_iff (h : LaidOut policy labels code ms)
    (hblock : (Layout.ofMoves labels ms).toGraph.block? o = some b) (hi : i ∈ code)
    (hj : j ∈ code) :
    [i.offset, j.offset] <:+: b.body.toList ↔ [i, j] <:+: bodyAt labels ms o := by
  rw [h.toList_body hblock]
  unfold Code.offsets
  rw [follows_map_iff]
  constructor
  · intro ⟨i', j', hij, hi', hj'⟩
    have hsub := hij.subset
    rw [← h.instruction_eq (h.mem_code_of_mem_bodyAt (hsub (by simp))) hi hi',
      ← h.instruction_eq (h.mem_code_of_mem_bodyAt (hsub (by simp))) hj hj']
    exact hij
  · intro hij
    exact ⟨i, j, hij, rfl, rfl⟩

theorem ends_body_iff (h : LaidOut policy labels code ms)
    (hblock : (Layout.ofMoves labels ms).toGraph.block? o = some b) (hi : i ∈ code) :
    (b.body.toList.head? = some i.offset ↔ (bodyAt labels ms o).head? = some i) ∧
      (b.body.toList.getLast? = some i.offset ↔ (bodyAt labels ms o).getLast? = some i) := by
  rw [h.toList_body hblock]
  unfold Code.offsets
  rw [List.head?_map, List.getLast?_map, Option.map_eq_some_iff, Option.map_eq_some_iff]
  refine ⟨⟨?_, fun hhead => ⟨i, hhead, rfl⟩⟩, ⟨?_, fun hlast => ⟨i, hlast, rfl⟩⟩⟩
  · intro ⟨j, hhead, heq⟩
    rw [← h.instruction_eq (h.mem_code_of_mem_bodyAt (List.mem_of_head? hhead)) hi heq]
    exact hhead
  · intro ⟨j, hlast, heq⟩
    rw [← h.instruction_eq (h.mem_code_of_mem_bodyAt (List.mem_of_getLast? hlast)) hi heq]
    exact hlast

/-- The entry begins with the first instruction. -/
theorem head?_bodyAt_entry (h : LaidOut policy labels code ms) (hi : code.head? = some i) :
    (bodyAt labels ms (Layout.ofMoves labels ms).toGraph.entry).head? = some i := by
  rw [← Code.map_instruction_moves h.moves_eq, List.head?_map] at hi
  obtain ⟨m, hm, rfl⟩ := Option.map_eq_some_iff.1 hi
  rw [← flatten_pieces labels ms, head?_flatten_iff fun p hp => ne_nil_of_mem_pieces hp] at hm
  obtain ⟨p, hp, hhead⟩ := hm
  -- the entry is where the first piece starts
  have hentry : (Layout.ofMoves labels ms).toGraph.entry = (Segment.ofMoves p).start := by
    unfold Graph.entry
    rw [Layout.order_toGraph, Layout.order_ofMoves, List.headD_eq_head?_getD, List.head?_map, hp]
    rfl
  rw [hentry, h.bodyAt_start (List.mem_of_head? hp), List.head?_map, hhead]
  rfl

/-- A branch knows its targets, and they are instructions. -/
theorem resolved (h : LaidOut policy labels code ms) {before after : Code}
    (hcode : code = before ++ i :: after) :
    i.Resolved before ∧ ∀ x, i.LeadsTo before x → x ∈ code.offsets := by
  obtain ⟨ms₁, m, ms₂, rfl, rfl, rfl⟩ := Code.exists_split h.moves_eq hcode
  refine ⟨Move.resolved h.moves_eq, ?_⟩
  intro x hx
  -- where `i` leads is where its move does, and with strict edges a piece starts there
  rw [← Move.mem_targets_iff h.moves_eq] at hx
  obtain ⟨_, _, q, hq, _, rfl, _⟩ := h.exists_piece_of_target (by simp) hx
  have hhead := List.head?_eq_some_head (ne_nil_of_mem_pieces hq)
  rw [start_of_head? hhead, ← Code.map_offset_moves h.moves_eq]
  exact List.mem_map_of_mem (mem_of_mem_pieces hq (List.mem_of_head? hhead))

end LaidOut

/-- A strict build lays its body out. -/
theorem Graph.laidOut_of_build {policy : Policy} {labels : OffsetSet} {code : Code} {g : Graph}
    (hbuild : (Graph.build policy labels code).outcome = .ok g)
    (hdistinct : code.offsets.Nodup) (hstrict : policy.strictEdges = true) :
    ∃ ms, LaidOut policy labels code ms ∧ g = (Layout.ofMoves labels ms).toGraph := by
  obtain ⟨_, ms, hmoves, hdangling, rfl⟩ := Graph.build_eq_ok_iff_moves.1 hbuild
  rw [← Code.map_offset_moves hmoves] at hdistinct
  exact ⟨ms, ⟨hmoves, hdistinct, hdangling hstrict⟩, rfl⟩

/-! ## §4. The graph and the code -/

/-- The graph `g` stands for `code`: nothing of its control flow is lost or added. -/
structure Graph.Faithful (g : Graph) (code : Code) : Prop where
  /-- Every branch knows its targets, and they are instructions of the body. -/
  resolved : ∀ before i after, code = before ++ i :: after →
    i.Resolved before ∧ ∀ x, i.LeadsTo before x → x ∈ code.offsets
  /-- Every instruction is in a block. -/
  exists_block : ∀ i ∈ code, ∃ o b, g.block? o = some b ∧ i.offset ∈ b.body
  /-- `i` steps to `j` exactly if `j` stands behind `i` in a block, or `i` ends a block, `j` begins
      one, and the second block is a successor of the first. -/
  step_iff : ∀ i ∈ code, ∀ j ∈ code, code.Step i j ↔
    (∃ o b, g.block? o = some b ∧ [i.offset, j.offset] <:+: b.body.toList) ∨
    ∃ o b o' b', g.block? o = some b ∧ g.block? o' = some b' ∧ o' ∈ b.outgoing ∧
      b.body.toList.getLast? = some i.offset ∧ b'.body.toList.head? = some j.offset
  /-- The paths from the first instruction to `i` are, by the blocks that they enter and
      one-to-one, the paths from the entry to the block of `i`. -/
  bijOn_paths : ∀ i₀ ∈ code.head?, ∀ i ∈ code, ∀ o b, g.block? o = some b → i.offset ∈ b.body →
    Set.BijOn g.entered {p | Walk code.Step i₀ p i} {q | g.Path g.entry q o}
  /-- So an instruction is reachable exactly if its block is. -/
  reachable_iff : ∀ i₀ ∈ code.head?, ∀ i ∈ code, ∀ o b, g.block? o = some b → i.offset ∈ b.body →
    ((∃ p, Walk code.Step i₀ p i) ↔ ∃ q, g.Path g.entry q o)

/-- The blocks that are entered, collected one instruction at a time: the form in which a cut of the
    code counts them. -/
theorem Graph.entered_eq (g : Graph) :
    g.entered = List.filterMap fun i : Instruction =>
      if i.offset ∈ g.blocks.keys then some i.offset else none := by
  funext p
  unfold entered Code.offsets
  induction p with
  | nil => rfl
  | cons i p ih =>
    by_cases hi : i.offset ∈ g.blocks.keys
    · simp [hi, ih]
    · simp [hi, ih]

namespace LaidOut

variable {policy : Policy} {labels : OffsetSet} {code : Code} {ms : List Move}
  {i₀ i j : Instruction} {o : Offset} {b : Block}

/-- **The steps of the code, read off the graph.** -/
theorem step_iff_blocks (h : LaidOut policy labels code ms) (hi : i ∈ code) (hj : j ∈ code) :
    code.Step i j ↔
      (∃ o b, (Layout.ofMoves labels ms).toGraph.block? o = some b ∧
        [i.offset, j.offset] <:+: b.body.toList) ∨
      ∃ o b o' b', (Layout.ofMoves labels ms).toGraph.block? o = some b ∧
        (Layout.ofMoves labels ms).toGraph.block? o' = some b' ∧ o' ∈ b.outgoing ∧
        b.body.toList.getLast? = some i.offset ∧ b'.body.toList.head? = some j.offset := by
  rw [h.step_iff_bodyAt]
  constructor
  · -- each piece is the body of some block
    intro hstep
    rcases hstep with ⟨o, hij⟩ | ⟨a, c, hedge, hlast, hhead⟩
    · obtain ⟨b, hb⟩ := h.exists_block (hij.subset List.mem_cons_self)
      exact .inl ⟨o, b, hb, (h.follows_body_iff hb hi hj).2 hij⟩
    · obtain ⟨b, hb⟩ := h.exists_block (List.mem_of_getLast? hlast)
      obtain ⟨b', hb'⟩ := h.exists_block (List.mem_of_head? hhead)
      exact .inr ⟨a, b, c, b', hb, hb', (Graph.edge_iff_of_block? hb).1 hedge,
        (h.ends_body_iff hb hi).2.2 hlast, (h.ends_body_iff hb' hj).1.2 hhead⟩
  · intro hstep
    rcases hstep with ⟨o, b, hb, hij⟩ | ⟨a, b, c, b', hb, hb', hout, hlast, hhead⟩
    · exact .inl ⟨o, (h.follows_body_iff hb hi hj).1 hij⟩
    · exact .inr ⟨a, c, (Graph.edge_iff_of_block? hb).2 hout,
        (h.ends_body_iff hb hi).2.1 hlast, (h.ends_body_iff hb' hj).1.1 hhead⟩

/-- The cut of the pieces, read off the graph: the blocks that a walk enters are those whose starts
    it visits. -/
theorem bijOn_bodyAt (h : LaidOut policy labels code ms) (hi₀ : code.head? = some i₀)
    (hi : i ∈ bodyAt labels ms o) :
    Set.BijOn (Layout.ofMoves labels ms).toGraph.entered {p | Walk code.Step i₀ p i}
      {q | (Layout.ofMoves labels ms).toGraph.Path
        (Layout.ofMoves labels ms).toGraph.entry q o} := by
  rw [Graph.entered_eq, Layout.keys_toGraph]
  exact h.cut.bijOn (h.head?_bodyAt_entry hi₀) hi

/-- **Paths to an instruction are paths to its block**, one-to-one. -/
theorem bijOn_paths (h : LaidOut policy labels code ms) (hi₀ : code.head? = some i₀) (hi : i ∈ code)
    (hblock : (Layout.ofMoves labels ms).toGraph.block? o = some b) (hmem : i.offset ∈ b.body) :
    Set.BijOn (Layout.ofMoves labels ms).toGraph.entered {p | Walk code.Step i₀ p i}
      {q | (Layout.ofMoves labels ms).toGraph.Path
        (Layout.ofMoves labels ms).toGraph.entry q o} :=
  h.bijOn_bodyAt hi₀ ((h.mem_body_iff hblock hi).1 hmem)

end LaidOut

/-- **The graph of a strict build stands for the code**, whatever the labels. -/
theorem Graph.faithful_of_build {policy : Policy} {labels : OffsetSet} {code : Code} {g : Graph}
    (hbuild : (Graph.build policy labels code).outcome = .ok g)
    (hascending : code.offsets.Pairwise (· < ·)) (hstrict : policy.strictEdges = true) :
    g.Faithful code := by
  have hdistinct : code.offsets.Nodup := hascending.imp Nat.ne_of_lt
  obtain ⟨ms, h, rfl⟩ := Graph.laidOut_of_build hbuild hdistinct hstrict
  refine ⟨?_, ?_, ?_, ?_, ?_⟩
  · intro before i after hcode
    exact h.resolved hcode
  · intro i hi
    -- each instruction is in a piece, and each piece is the body of a block
    obtain ⟨p, _, hmem⟩ := h.exists_bodyAt hi
    obtain ⟨b, hb⟩ := h.exists_block hmem
    exact ⟨_, b, hb, (h.mem_body_iff hb hi).2 hmem⟩
  · intro i hi j hj
    exact h.step_iff_blocks hi hj
  · intro i₀ hi₀ i hi o b hb hmem
    exact h.bijOn_paths hi₀ hi hb hmem
  · intro i₀ hi₀ i hi o b hb hmem
    have hpaths := h.bijOn_paths hi₀ hi hb hmem
    constructor
    · intro ⟨p, hp⟩
      exact ⟨_, hpaths.mapsTo hp⟩
    · intro ⟨q, hq⟩
      -- a path in the graph is the trace of a walk, since every path is met
      obtain ⟨p, hp, _⟩ := hpaths.surjOn hq
      exact ⟨p, hp⟩

/-- A loop: the ways through it to the return at 8 are the ways from the entry to the block at 6,
    which the return is in. -/
theorem Graph.faithful_of_loop :
    ∃ (g : Graph) (b : Block), (Graph.build .strict {2} Code.loop).outcome = .ok g ∧
      Code.loop.offsets.Pairwise (· < ·) ∧ g.block? 6 = some b ∧ b.body.toList = [6, 8] ∧
      Set.BijOn g.entered
        {p | Walk Code.loop.Step (.decode 0 .setupLoop (some 4) 2) p
          (.decode 8 .returnValue none 10)}
        {q | g.Path g.entry q 6} := by
  obtain ⟨g, b, hbuild, hascending, hblock, hbody⟩ : ∃ (g : Graph) (b : Block),
      (Graph.build .strict {2} Code.loop).outcome = .ok g ∧
      Code.loop.offsets.Pairwise (· < ·) ∧ g.block? 6 = some b ∧ b.body.toList = [6, 8] :=
    ⟨_, _, rfl, by decide, rfl, by decide⟩
  have hfaithful := Graph.faithful_of_build hbuild hascending rfl
  refine ⟨g, b, hbuild, hascending, hblock, hbody, ?_⟩
  refine hfaithful.bijOn_paths _ rfl _ ?_ 6 b hblock ?_
  · simp [Code.loop]
  · rw [← Array.mem_toList_iff, hbody]
    decide

end BytecodeFlow
