/-
  BytecodeFlow.Proofs.Flow.Refine — MORE LABELS SPLIT BLOCKS and change nothing else.

  Under more labels a body is cut at more places, so every block falls into one or more blocks of
  the finer graph.  What the instructions do is the same, and so are the steps between them.  That
  settles all edges:

    • inside a block of the coarser graph control can only go on, so the parts of the block form a
      chain, each with the next as its only successor and the one before as its only predecessor;
    • a block is left from its last instruction, and that is the last one of its last part;
    • a block is entered at its first instruction, from the ends of blocks, which are the ends of
      last parts.

  `Graph.Refines` says this of two graphs.  Main statement: `Graph.refines_of_build`.
-/
import BytecodeFlow.Proofs.Flow.Labels

namespace BytecodeFlow

/-! ## §1. Split blocks -/

/-- The blocks of `g` that start inside `b`, in program order. -/
def Graph.startingIn (g : Graph) (b : Block) : List Block :=
  g.inOrder.filter (·.start ∈ b.body.toList)

/-- The blocks `parts` are `b`, split: control enters at the first, goes from each to the next and
    nowhere else, and leaves the last as it leaves `b`. -/
structure Block.SplitInto (b : Block) (parts : List Block) : Prop where
  start_eq : parts.head?.map (·.start) = some b.start
  /-- The parts hold the instructions of `b`. -/
  body_eq : parts.flatMap (·.body.toList) = b.body.toList
  /-- A part is followed by the next one only, which follows on it only. -/
  goesOn : ∀ c d, [c, d] <:+: parts →
    c.outgoing = {d.start} ∧ d.incoming = {c.start} ∧ c.terminating = false
  leaves : ∀ c, parts.getLast? = some c →
    c.outgoing = b.outgoing ∧ c.terminating = b.terminating

/-- `fine` is `coarse` with its blocks split. -/
structure Graph.Refines (fine coarse : Graph) : Prop where
  /-- The parts of the blocks of `coarse`, one after another, are the blocks of `fine`. -/
  inOrder_eq : fine.inOrder = coarse.inOrder.flatMap fine.startingIn
  split : ∀ o b, coarse.block? o = some b → b.SplitInto (fine.startingIn b)
  /-- The first part of a block is entered from the last parts of the block's predecessors. -/
  entered : ∀ o b, coarse.block? o = some b → ∀ c, (fine.startingIn b).head? = some c →
    ∀ x, x ∈ c.incoming ↔ ∃ a ∈ b.incoming, ∃ d, coarse.block? a = some d ∧
      (fine.startingIn d).getLast?.map (·.start) = some x

/-! ## §2. Parts of pieces -/

/-- A relation that joins less cuts the parts of the other further. -/
theorem splitBy_of_imp {α : Type} {r r' : α → α → Bool} {l : List α}
    (h : ∀ a b, r' a b = true → r a b = true) :
    l.splitBy r' = (l.splitBy r).flatMap (List.splitBy r') := by
  have hcut := List.isChain_getLast_head_splitBy r l
  have hne : ∀ p ∈ l.splitBy r, p ≠ [] := fun p hp => List.ne_nil_of_mem_splitBy hp
  have hflat := List.flatten_splitBy r l
  generalize l.splitBy r = parts at hcut hne hflat
  subst hflat
  induction parts with
  | nil => rfl
  | cons p rest ih =>
    have hrest : ∀ q ∈ rest, q ≠ [] := fun q hq => hne q (List.mem_cons_of_mem p hq)
    rw [List.flatten_cons, List.flatMap_cons, ← ih hcut.tail hrest]
    refine List.splitBy_append ?_
    -- behind `p` the coarser relation cuts, and so does the finer one
    intro x hx y hy
    obtain ⟨q, hq, hqy⟩ := (head?_flatten_iff hrest).1 hy
    obtain ⟨hp, hq', hfalse⟩ := (List.isChain_cons.1 hcut).1 q hq
    rw [List.getLast_of_mem_getLast? hx, List.head_of_mem_head? hqy] at hfalse
    rw [← Bool.not_eq_true]
    intro hjoin
    rw [h x y hjoin] at hfalse
    cases hfalse

/-- Where the entries to keep are those of one part, that part is kept. -/
theorem filter_flatMap_of_mem {α β : Type} {parts : List α} {f : α → List β} {keep : β → Bool}
    {p : α} (hparts : parts.Nodup) (hp : p ∈ parts)
    (h : ∀ q ∈ parts, ∀ r ∈ f q, keep r = true ↔ q = p) : (parts.flatMap f).filter keep = f p := by
  -- on the parts: those that come from `p` are kept whole, the others vanish
  induction parts with
  | nil => cases hp
  | cons q rest ih =>
    obtain ⟨hq, hrest⟩ := List.nodup_cons.1 hparts
    have htail : ∀ s ∈ rest, ∀ r ∈ f s, keep r = true ↔ s = p := fun s hs =>
      h s (List.mem_cons_of_mem q hs)
    rw [List.flatMap_cons, List.filter_append]
    rcases List.mem_cons.1 hp with rfl | hp
    · have hself : (f p).filter keep = f p :=
        List.filter_eq_self.2 fun r hr => (h p List.mem_cons_self r hr).2 rfl
      have hnone : (rest.flatMap f).filter keep = [] := by
        rw [List.filter_eq_nil_iff]
        intro r hr
        obtain ⟨s, hs, hrs⟩ := List.mem_flatMap.1 hr
        rw [htail s hs r hrs]
        exact ne_of_mem_of_not_mem hs hq
      rw [hself, hnone, List.append_nil]
    · have hnone : (f q).filter keep = [] := by
        rw [List.filter_eq_nil_iff]
        intro r hr
        rw [h q List.mem_cons_self r hr]
        exact (ne_of_mem_of_not_mem hp hq).symm
      rw [hnone, List.nil_append, ih hrest hp htail]

section Pieces

variable {labels labels' : OffsetSet} {ms p q : List Move}

/-- Fewer labels begin fewer blocks, so what joins goes on joining. -/
theorem Move.joins_of_subset (hsub : labels ⊆ labels') (m n : Move)
    (h : m.joins labels' n = true) : m.joins labels n = true := by
  simp only [joins, Instruction.beginsBlock, Bool.and_eq_true, Bool.not_eq_true',
    Bool.or_eq_false_iff, decide_eq_false_iff_not] at h ⊢
  exact ⟨h.1, fun hmem => h.2.1 (hsub _ hmem), h.2.2⟩

/-- **Under more labels the pieces fall into pieces.** -/
theorem pieces_of_subset (hsub : labels ⊆ labels') (ms : List Move) :
    pieces labels' ms = (pieces labels ms).flatMap (pieces labels') :=
  splitBy_of_imp (Move.joins_of_subset hsub)

/-- A finer cut of one piece is part of the finer cut of the body. -/
theorem mem_pieces_of_subset (hsub : labels ⊆ labels') (hp : p ∈ pieces labels ms)
    (hq : q ∈ pieces labels' p) : q ∈ pieces labels' ms := by
  rw [pieces_of_subset hsub]
  exact List.mem_flatMap.2 ⟨p, hp, hq⟩

end Pieces

/-! ## §3. The two graphs -/

namespace LaidOut

variable {policy : Policy} {labels labels' : OffsetSet} {code : Code} {ms p q : List Move}
  {m n : Move} {x : Offset}

/-- A piece of `q` starts inside the block of `p` exactly if `q` is `p`. -/
theorem start_mem_body_iff (h : LaidOut policy labels code ms) (hp : p ∈ pieces labels ms)
    (hq : q ∈ pieces labels ms) {r : List Move} (hr : r ∈ pieces labels' q) :
    (Segment.ofMoves r).start ∈ (Block.ofPiece labels ms p).body.toList ↔ q = p := by
  have hhead := List.head?_eq_some_head (ne_nil_of_mem_pieces hr)
  have hmem := mem_of_mem_pieces hr (List.mem_of_head? hhead)
  rw [toList_body_ofPiece, start_of_head? hhead]
  constructor
  · intro hx
    -- the offset of a move is in one piece only
    obtain ⟨m, hm, heq⟩ := List.mem_map.1 hx
    rw [eq_of_offset h.distinct (mem_of_mem_pieces hp hm) (mem_of_mem_pieces hq hmem) heq] at hm
    exact h.eq_of_mem_pieces hq hp hmem hm
  · intro heq
    subst heq
    exact List.mem_map_of_mem hmem

theorem nodup_pieces (h : LaidOut policy labels code ms) : (pieces labels ms).Nodup := by
  have horder := h.nodup_order
  rw [Layout.order_ofMoves] at horder
  exact horder.of_map _

/-- **The blocks that start inside the block of a piece** are the blocks of its pieces. -/
theorem startingIn_eq (hsub : labels ⊆ labels') (h : LaidOut policy labels code ms)
    (hp : p ∈ pieces labels ms) :
    (Layout.ofMoves labels' ms).toGraph.startingIn (Block.ofPiece labels ms p) =
      (pieces labels' p).map (Block.ofPiece labels' ms) := by
  unfold Graph.startingIn
  rw [(h.mono hsub).inOrder_eq, List.filter_map, pieces_of_subset hsub]
  congr 1
  refine filter_flatMap_of_mem h.nodup_pieces hp ?_
  intro q hq r hr
  rw [Function.comp_apply, decide_eq_true_eq]
  exact h.start_mem_body_iff hp hq hr

/-- The first block that starts inside the block of a piece begins with the piece. -/
theorem head?_startingIn (hsub : labels ⊆ labels') (h : LaidOut policy labels code ms)
    (hp : p ∈ pieces labels ms) (hn : p.head? = some n) :
    ∃ q ∈ pieces labels' ms, q.head? = some n ∧
      ((Layout.ofMoves labels' ms).toGraph.startingIn (Block.ofPiece labels ms p)).head? =
        some (Block.ofPiece labels' ms q) := by
  rw [← flatten_pieces labels' p, head?_flatten_iff fun q hq => ne_nil_of_mem_pieces hq] at hn
  obtain ⟨q, hq, hqn⟩ := hn
  refine ⟨q, mem_pieces_of_subset hsub hp (List.mem_of_head? hq), hqn, ?_⟩
  rw [h.startingIn_eq hsub hp, List.head?_map, hq]
  rfl

/-- The last block that starts inside the block of a piece ends with the piece. -/
theorem getLast?_startingIn (hsub : labels ⊆ labels') (h : LaidOut policy labels code ms)
    (hp : p ∈ pieces labels ms) (hm : p.getLast? = some m) :
    ∃ q ∈ pieces labels' ms, q.getLast? = some m ∧
      ((Layout.ofMoves labels' ms).toGraph.startingIn (Block.ofPiece labels ms p)).getLast? =
        some (Block.ofPiece labels' ms q) := by
  rw [← flatten_pieces labels' p, getLast?_flatten_iff fun q hq => ne_nil_of_mem_pieces hq] at hm
  obtain ⟨q, hq, hqm⟩ := hm
  refine ⟨q, mem_pieces_of_subset hsub hp (List.mem_of_getLast? hq), hqm, ?_⟩
  rw [h.startingIn_eq hsub hp, List.getLast?_map, hq]
  rfl

/-- Inside a piece control goes on from each of its pieces to the next. -/
theorem goesOn_of_follows (hsub : labels ⊆ labels') (h : LaidOut policy labels code ms)
    (hp : p ∈ pieces labels ms) {r : List Move} (hqr : [q, r] <:+: pieces labels' p) :
    (Block.ofPiece labels' ms q).outgoing = {(Segment.ofMoves r).start} ∧
      (Block.ofPiece labels' ms r).incoming = {(Segment.ofMoves q).start} ∧
      (Block.ofPiece labels' ms q).terminating = false := by
  have h' := h.mono hsub
  have hmem : ∀ s ∈ pieces labels' p, s ∈ pieces labels' ms := fun _ hs =>
    mem_pieces_of_subset hsub hp hs
  have hq : q ∈ pieces labels' p := hqr.subset (by simp)
  have hr : r ∈ pieces labels' p := hqr.subset (by simp)
  have hm := List.getLast?_eq_some_getLast (ne_nil_of_mem_pieces hq)
  have hn := List.head?_eq_some_head (ne_nil_of_mem_pieces hr)
  set m := q.getLast _
  set n := r.head _
  -- where the two pieces meet, two moves of `p` do
  have hmn : [m, n] <:+: p := by
    rw [← flatten_pieces labels' p, follows_flatten_iff fun s hs => ne_nil_of_mem_pieces hs]
    exact .inr ⟨q, r, hqr, hm, hn⟩
  have hstep : ∀ n', Move.Step ms m n' ↔ n' = n := fun _ => h.step_iff_of_follows hp hmn
  refine ⟨?_, ?_, ?_⟩
  · ext x
    rw [h'.mem_outgoing_iff (hmem q hq) hm, OffsetSet.mem_singleton, start_of_head? hn]
    simp only [hstep, exists_eq_left, eq_comm]
  · ext x
    rw [h'.mem_incoming_iff (hmem r hr) hn, OffsetSet.mem_singleton]
    constructor
    · intro ⟨q', hq', m', hm', hstep', hx⟩
      -- only `m` steps to `n`, and `m` is in one piece
      have heq : m' = m := h.eq_of_step_inside hp hmn hstep'
      subst heq
      rw [← hx, h'.eq_of_mem_pieces hq' (hmem q hq) (List.mem_of_getLast? hm')
        (List.mem_of_getLast? hm)]
    · intro hx
      exact ⟨q, hmem q hq, m, hm, (hstep n).2 rfl, hx.symm⟩
  · rw [terminating_ofPiece hm]
    exact (Transfer.targets_of_goesOn (endsBlock_of_follows hp hmn)).2

/-- **A block is split into the blocks that start inside it.** -/
theorem splitInto (hsub : labels ⊆ labels') (h : LaidOut policy labels code ms)
    (hp : p ∈ pieces labels ms) :
    (Block.ofPiece labels ms p).SplitInto
      ((Layout.ofMoves labels' ms).toGraph.startingIn (Block.ofPiece labels ms p)) where
  start_eq := by
    have hn := List.head?_eq_some_head (ne_nil_of_mem_pieces hp)
    obtain ⟨q, _, hqn, hfirst⟩ := h.head?_startingIn hsub hp hn
    rw [hfirst]
    exact congrArg some ((start_of_head? hqn).trans (start_of_head? hn).symm)
  body_eq := by
    rw [h.startingIn_eq hsub hp, List.flatMap_map]
    show (pieces labels' p).flatMap (List.map Move.offset) = p.map Move.offset
    rw [List.flatMap_def, ← List.map_flatten, flatten_pieces]
  goesOn := by
    intro c d hcd
    rw [h.startingIn_eq hsub hp] at hcd
    obtain ⟨q, r, hqr, rfl, rfl⟩ := follows_map_iff.1 hcd
    exact h.goesOn_of_follows hsub hp hqr
  leaves := by
    -- the last part ends where `p` does, so it goes where `p` goes
    intro c hc
    have hm := List.getLast?_eq_some_getLast (ne_nil_of_mem_pieces hp)
    obtain ⟨q, hq, hqm, hlast⟩ := h.getLast?_startingIn hsub hp hm
    obtain rfl := Option.some.inj (hlast.symm.trans hc)
    refine ⟨?_, ?_⟩
    · ext x
      rw [(h.mono hsub).mem_outgoing_iff hq hqm, h.mem_outgoing_iff hp hm]
    · rw [terminating_ofPiece hqm, terminating_ofPiece hm]

/-- **The first part of a block is entered from the last parts of its predecessors.** -/
theorem entered_iff (hsub : labels ⊆ labels') (h : LaidOut policy labels code ms)
    (hp : p ∈ pieces labels ms) {c : Block}
    (hc : ((Layout.ofMoves labels' ms).toGraph.startingIn
      (Block.ofPiece labels ms p)).head? = some c) :
    x ∈ c.incoming ↔ ∃ a ∈ (Block.ofPiece labels ms p).incoming, ∃ d,
      (Layout.ofMoves labels ms).toGraph.block? a = some d ∧
        ((Layout.ofMoves labels' ms).toGraph.startingIn d).getLast?.map (·.start) = some x := by
  have h' := h.mono hsub
  have hn := List.head?_eq_some_head (ne_nil_of_mem_pieces hp)
  obtain ⟨first, hfirst, hfirst', hhead⟩ := h.head?_startingIn hsub hp hn
  obtain rfl := Option.some.inj (hhead.symm.trans hc)
  rw [h'.mem_incoming_iff hfirst hfirst']
  constructor
  · intro ⟨r, hr, m, hrm, hstep, hx⟩
    -- the step comes from the end of some `q`, and `r` is the last part of that
    obtain ⟨q, hq, hqm⟩ := h.exists_last_of_step hp hn hstep
    obtain ⟨last, hlast, hlast', hparts⟩ := h.getLast?_startingIn hsub hq hqm
    have heq := h'.eq_of_mem_pieces hr hlast (List.mem_of_getLast? hrm)
      (List.mem_of_getLast? hlast')
    subst heq
    refine ⟨_, (h.mem_incoming_iff hp hn).2 ⟨q, hq, m, hqm, hstep, rfl⟩, _, h.block?_start hq, ?_⟩
    rw [hparts]
    exact congrArg some hx
  · intro ⟨a, ha, d, hd, hlast⟩
    obtain ⟨q, hq, m, hqm, hstep, rfl⟩ := (h.mem_incoming_iff hp hn).1 ha
    obtain rfl := Option.some.inj ((h.block?_start hq).symm.trans hd)
    obtain ⟨r, hr, hrm, hparts⟩ := h.getLast?_startingIn hsub hq hqm
    rw [hparts] at hlast
    exact ⟨r, hr, m, hrm, hstep, Option.some.inj hlast⟩

/-- **More labels refine the graph.** -/
theorem refines (hsub : labels ⊆ labels') (h : LaidOut policy labels code ms) :
    (Layout.ofMoves labels' ms).toGraph.Refines (Layout.ofMoves labels ms).toGraph where
  inOrder_eq := by
    -- the finer pieces, collected piece by piece of the coarser cut
    rw [h.inOrder_eq, (h.mono hsub).inOrder_eq, pieces_of_subset hsub, List.map_flatMap,
      List.flatMap_map]
    refine List.flatMap_congr ?_
    intro p hp
    exact (h.startingIn_eq hsub hp).symm
  split := by
    intro o b hb
    obtain ⟨p, hp, _, rfl⟩ := h.exists_piece_of_block hb
    exact h.splitInto hsub hp
  entered := by
    intro o b hb c hc x
    obtain ⟨p, hp, _, rfl⟩ := h.exists_piece_of_block hb
    exact h.entered_iff hsub hp hc

end LaidOut

/-! ## §4. Builds under more labels -/

/-- **More labels only refine the graph.**  If a build with strict edges accepts a body with
    ascending offsets, it accepts it under more labels too, and each block of the first graph is
    split into consecutive blocks of the second. -/
theorem Graph.refines_of_build {policy : Policy} {labels labels' : OffsetSet} {code : Code}
    {g : Graph} (hsub : labels ⊆ labels') (hstrict : policy.strictEdges = true)
    (hascending : code.offsets.Pairwise (· < ·))
    (hbuild : (Graph.build policy labels code).outcome = .ok g) :
    ∃ g', (Graph.build policy labels' code).outcome = .ok g' ∧ g'.Refines g := by
  have hdistinct : code.offsets.Nodup := hascending.imp Nat.ne_of_lt
  obtain ⟨ms, h, rfl, hbuild'⟩ := Graph.exists_build_of_subset hsub hstrict hdistinct hbuild
  exact ⟨_, hbuild', h.refines hsub⟩

/-- `0 NOP`, `2 NOP`, `4 NOP`, `6 POP_JUMP_IF_FALSE 2`, `8 RETURN_VALUE`. -/
def Code.branchBack : Code :=
  [.decode 0 .nop none 2, .decode 2 .nop none 4, .decode 4 .nop none 6,
    .decode 6 .popJumpIfFalse (some 2) 8, .decode 8 .returnValue none 10]

/-- A loop of one block, from 2 to the branch at 6 that leads back to 2.  Labels at 4 and 6 split it
    into three; the first is entered from the block in front of the loop and from the last of
    them. -/
theorem Graph.refines_of_branchBack :
    ∃ (g g' : Graph) (b c : Block),
      ({2} : OffsetSet) ⊆ {2, 4, 6} ∧ Policy.strict.strictEdges = true ∧
      Code.branchBack.offsets.Pairwise (· < ·) ∧
      (Graph.build .strict {2} Code.branchBack).outcome = .ok g ∧
      (Graph.build .strict {2, 4, 6} Code.branchBack).outcome = .ok g' ∧ g'.Refines g ∧
      g.block? 2 = some b ∧ b.body.toList = [2, 4, 6] ∧ b.incoming.toList = [0, 2] ∧
      b.SplitInto (g'.startingIn b) ∧ (g'.startingIn b).map (·.start) = [2, 4, 6] ∧
      (g'.startingIn b).head? = some c ∧ c.incoming.toList = [0, 6] := by
  obtain ⟨g, b, hascending, hbuild, hblock, hbody, hin⟩ : ∃ (g : Graph) (b : Block),
      Code.branchBack.offsets.Pairwise (· < ·) ∧
      (Graph.build .strict {2} Code.branchBack).outcome = .ok g ∧
      g.block? 2 = some b ∧ b.body.toList = [2, 4, 6] ∧ b.incoming.toList = [0, 2] :=
    ⟨_, _, by decide, rfl, rfl, rfl, rfl⟩
  have hsub : ({2} : OffsetSet) ⊆ {2, 4, 6} := by decide
  obtain ⟨g', hbuild', hrefines⟩ := Graph.refines_of_build hsub rfl hascending hbuild
  have hsplit := hrefines.split 2 b hblock
  obtain ⟨c, hc, _⟩ := Option.map_eq_some_iff.1 hsplit.start_eq
  refine ⟨g, g', b, c, hsub, rfl, hascending, hbuild, hbuild', hrefines, hblock, hbody, hin, hsplit,
    ?_⟩
  -- what is left is read off the two graphs
  obtain rfl := Except.ok.inj hbuild
  obtain rfl := Option.some.inj hblock
  obtain rfl := Except.ok.inj hbuild'
  obtain rfl := Option.some.inj hc
  exact ⟨by decide, rfl, by decide⟩

end BytecodeFlow
