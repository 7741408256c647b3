/-
  BytecodeFlow.Proofs.Flow.Extend — A LONGER BODY KEEPS WHAT WAS BUILT.

  A build looks at the whole body before it settles any edge, so a graph could change all over when
  instructions are appended.  It does not:

    • the pieces of the longer body begin with those of the shorter one, of which only the last may
      have grown (`exists_pieces_append`);
    • a move that is not the last one steps where it did.  It does not go on to a new move, and it
      does not branch to one, because with strict edges all targets lie in the shorter body already
      (`LaidOut.step_append_iff`).

  So every block but the last is final, the last one may get a longer body and successors that it
  lacked, and blocks further in front may get new predecessors.  `Graph.ExtendedBy` says this of
  two graphs.  Main statement: `Graph.extendedBy_of_build`.
-/
import BytecodeFlow.Proofs.Flow.Faithful
import BytecodeFlow.Proofs.Graph.WellFormed

namespace BytecodeFlow

/-! ## §1. Graphs that go on -/

/-- `b'` is `b` with more instructions behind it, or more neighbours. -/
structure Block.GrowsInto (b b' : Block) : Prop where
  body : b.body.toList <+: b'.body.toList
  outgoing : b.outgoing ⊆ b'.outgoing
  incoming : b.incoming ⊆ b'.incoming

/-- `g'` has the blocks of `g` and may go on behind them. -/
structure Graph.ExtendedBy (g g' : Graph) : Prop where
  order : g.order <+: g'.order
  /-- Every block but the last is final. -/
  settled : ∀ o b, g.block? o = some b → g.last? ≠ some o → ∃ b', g'.block? o = some b' ∧
    b'.body = b.body ∧ b'.outgoing = b.outgoing ∧ b'.terminating = b.terminating
  /-- No block loses anything. -/
  grows : ∀ o b, g.block? o = some b → ∃ b', g'.block? o = some b' ∧ b.GrowsInto b'
  live_subset : g.live ⊆ g'.live

/-- The entry of what goes on is the old one, and what has a predecessor keeps it. -/
theorem Graph.live_subset_of_grows {g g' : Graph} (hg : g.WellFormed) (hg' : g'.WellFormed)
    (horder : g.order <+: g'.order)
    (hgrows : ∀ o b, g.block? o = some b → ∃ b', g'.block? o = some b' ∧ b.GrowsInto b') :
    g.live ⊆ g'.live := by
  have hentry : g'.entry = g.entry := by
    obtain ⟨added, hadded⟩ := horder
    unfold entry
    rw [← hadded, List.headD_eq_head?_getD, List.headD_eq_head?_getD,
      List.head?_append_of_ne_nil _ hg.order_ne_nil]
  intro o ho
  rw [hg'.mem_live_iff, hentry]
  rcases (hg.mem_live_iff o).1 ho with hfirst | ⟨b, hb, hne⟩
  · exact .inl hfirst
  · obtain ⟨b', hb', hinto⟩ := hgrows o b hb
    -- a predecessor of the old block is one of the new block
    obtain ⟨a, ha⟩ := OffsetSet.ne_empty_iff.1 hne
    exact .inr ⟨b', hb', OffsetSet.ne_empty_iff.2 ⟨a, hinto.incoming a ha⟩⟩

/-! ## §2. The pieces of a longer body -/

/-- Behind a list its parts stay, and only the last of them may grow. -/
theorem exists_splitBy_append {α : Type} {r : α → α → Bool} {l : List α} (hl : l ≠ [])
    (added : List α) : ∃ ps p p' rest, l.splitBy r = ps ++ [p] ∧ p <+: p' ∧
      (l ++ added).splitBy r = ps ++ p' :: rest := by
  obtain ⟨ps, p, hps⟩ := (List.eq_nil_or_concat' (l.splitBy r)).resolve_left
    (List.splitBy_ne_nil.2 hl)
  refine ⟨ps, p, ?_⟩
  -- entry by entry: each begins a part of its own or joins the last
  induction added using List.reverseRecOn with
  | nil => exact ⟨p, [], hps, List.prefix_refl p, by rw [List.append_nil, hps]⟩
  | append_singleton added x ih =>
    obtain ⟨p', rest, _, hp', hsplit⟩ := ih
    have hlast := List.getLast?_eq_some_getLast (List.append_ne_nil_of_left_ne_nil hl added)
    set y := (l ++ added).getLast _
    rw [← List.append_assoc]
    cases hjoin : r y x with
    | false =>
      refine ⟨p', rest ++ [[x]], hps, hp', ?_⟩
      rw [splitBy_concat_of_cut, hsplit, List.append_assoc, List.cons_append]
      intro z hz
      rw [← Option.mem_unique hlast hz]
      exact hjoin
    | true =>
      -- the last part ends with the last entry
      have hend : ∀ {qs q}, (l ++ added).splitBy r = qs ++ [q] →
          ∀ z ∈ q.getLast?, r z x = true := by
        intro qs q hqs z hz
        have hz' : (l ++ added).getLast? = some z := by
          rw [← List.flatten_splitBy r (l ++ added),
            getLast?_flatten_iff fun s hs => List.ne_nil_of_mem_splitBy hs, hqs]
          exact ⟨q, List.getLast?_concat, hz⟩
        rw [← Option.mem_unique hlast hz']
        exact hjoin
      rcases List.eq_nil_or_concat' rest with rfl | ⟨rest', q, rfl⟩
      · exact ⟨p' ++ [x], [], hps, hp'.trans (List.prefix_append _ _),
          splitBy_concat_of_join hsplit (hend hsplit)⟩
      · rw [← List.cons_append, ← List.append_assoc] at hsplit
        refine ⟨p', rest' ++ [q ++ [x]], hps, hp', ?_⟩
        rw [splitBy_concat_of_join hsplit (hend hsplit), List.append_assoc, List.cons_append]

section Pieces

variable {labels : OffsetSet} {ms rest p p' : List Move} {m : Move}

/-- **Only the last piece of a body may grow** when the body does. -/
theorem exists_pieces_append (labels : OffsetSet) (hms : ms ≠ []) (rest : List Move) :
    ∃ ps p p' qs, pieces labels ms = ps ++ [p] ∧ p <+: p' ∧
      pieces labels (ms ++ rest) = ps ++ p' :: qs :=
  exists_splitBy_append hms rest

theorem head?_of_grows (h : p <+: p') (hm : p.head? = some m) : p'.head? = some m := by
  obtain ⟨added, rfl⟩ := h
  rw [List.head?_append, hm]
  rfl

/-- Growing at the end leaves the start of a piece where it is. -/
theorem start_of_grows (h : p <+: p') (hp : p ∈ pieces labels ms) :
    (Segment.ofMoves p').start = (Segment.ofMoves p).start := by
  have hm := List.head?_eq_some_head (ne_nil_of_mem_pieces hp)
  rw [start_of_head? hm, start_of_head? (head?_of_grows h hm)]

/-- `p'` is the piece of the longer body `ms ++ rest` that continues the piece `p` of `ms`. -/
structure Continues (labels : OffsetSet) (ms rest p p' : List Move) : Prop where
  mem : p' ∈ pieces labels (ms ++ rest)
  grows : p <+: p'
  settled : p.getLast? ≠ ms.getLast? → p' = p

/-- **Every piece goes on in the longer body**, as it is or, if it is the last, with more behind it.
    -/
theorem exists_continues (hp : p ∈ pieces labels ms) (rest : List Move) :
    ∃ p', Continues labels ms rest p p' := by
  have hms : ms ≠ [] := by
    rw [← flatten_pieces labels ms]
    exact List.flatten_ne_nil_iff.2 ⟨p, hp, ne_nil_of_mem_pieces hp⟩
  -- a piece in front is one of the longer body as well; the last one is where the body goes on
  obtain ⟨ps, q, q', qs, hpieces, hgrows, hlonger⟩ := exists_pieces_append labels hms rest
  rcases List.mem_append.1 (hpieces ▸ hp) with hps | hq
  · refine ⟨p, ?_, List.prefix_refl p, fun _ => rfl⟩
    rw [hlonger]
    exact List.mem_append_left _ hps
  · obtain rfl := List.mem_singleton.1 hq
    refine ⟨q', ?_, hgrows, ?_⟩
    · rw [hlonger]
      exact List.mem_append_right _ List.mem_cons_self
    · -- the last piece ends where the body does
      intro hne
      rw [← flatten_pieces labels ms, hpieces, List.flatten_append, List.flatten_singleton,
        List.getLast?_append_of_ne_nil _ (ne_nil_of_mem_pieces hp)] at hne
      exact absurd rfl hne

theorem Layout.order_append (labels : OffsetSet) (hms : ms ≠ []) (rest : List Move) :
    (Layout.ofMoves labels ms).order <+: (Layout.ofMoves labels (ms ++ rest)).order := by
  obtain ⟨ps, p, p', qs, hpieces, hgrows, hlonger⟩ := exists_pieces_append labels hms rest
  have hp : p ∈ pieces labels ms := by
    rw [hpieces]
    exact List.mem_append_right _ (List.mem_singleton_self p)
  rw [Layout.order_ofMoves, Layout.order_ofMoves, hpieces, hlonger]
  refine ⟨qs.map fun q => (Segment.ofMoves q).start, ?_⟩
  simp [start_of_grows hgrows hp]

end Pieces

/-! ## §3. The steps of a longer body -/

/-- Appending moves takes no step away. -/
theorem Move.Step.append {ms : List Move} {m n : Move} (h : Move.Step ms m n) (rest : List Move) :
    Move.Step (ms ++ rest) m n := by
  rcases h with ⟨hends, hmn⟩ | ⟨hm, hn, htarget⟩
  · exact .inl ⟨hends, hmn.trans (List.prefix_append ms rest).isInfix⟩
  · exact .inr ⟨List.mem_append_left rest hm, List.mem_append_left rest hn, htarget⟩

namespace LaidOut

variable {policy : Policy} {labels : OffsetSet} {code code' : Code} {ms rest p p' : List Move}
  {m n : Move}

/-- **A move that is not the last steps where it did.** -/
theorem step_append_iff (h : LaidOut policy labels code ms)
    (h' : LaidOut policy labels code' (ms ++ rest)) (hm : m ∈ ms) (hlast : ms.getLast? ≠ some m) :
    Move.Step (ms ++ rest) m n ↔ Move.Step ms m n := by
  constructor
  · intro hstep
    rcases hstep with ⟨hends, hmn⟩ | ⟨_, hn, htarget⟩
    · rcases follows_append_iff.1 hmn with hmn | hmn | ⟨hend, _⟩
      · exact .inl ⟨hends, hmn⟩
      · -- new neighbours are both new moves, or the last old one and the first new one
        have hdisjoint := (List.nodup_append'.1 h'.nodup_moves).2.2
        exact absurd (hmn.subset (by simp)) (hdisjoint hm)
      · exact absurd hend hlast
    · -- the target starts a piece of the shorter body, so it is a move of that
      obtain ⟨_, _, q, hq, _, hstart, _⟩ := h.exists_piece_of_target hm htarget
      have hhead := List.head?_eq_some_head (ne_nil_of_mem_pieces hq)
      have hmem := mem_of_mem_pieces hq (List.mem_of_head? hhead)
      rw [start_of_head? hhead] at hstart
      rw [eq_of_offset h'.distinct (List.mem_append_left rest hmem) hn hstart] at hmem
      exact .inr ⟨hm, hmem, htarget⟩
  · exact fun hstep => hstep.append rest

/-- A piece with a successor ends where it did: if it is the last one, it ends with a branch. -/
theorem getLast?_of_continues (h : LaidOut policy labels code ms)
    (hc : Continues labels ms rest p p') (hm : p.getLast? = some m) (hstep : Move.Step ms m n) :
    p'.getLast? = some m := by
  by_cases hlast : p.getLast? = ms.getLast?
  · rcases hstep with ⟨_, hmn⟩ | ⟨_, _, htarget⟩
    · exact absurd (hlast.symm.trans hm) (getLast?_ne_of_follows h.nodup_moves hmn)
    · exact getLast?_of_endsBlock hc.mem (hc.grows.subset (List.mem_of_getLast? hm))
        (Transfer.endsBlock_of_mem_targets htarget)
  · rw [hc.settled hlast]
    exact hm

/-- The block of the piece that ends where the body does is the last one. -/
theorem last?_of_getLast? (h : LaidOut policy labels code ms) (hp : p ∈ pieces labels ms)
    (hm : p.getLast? = some m) (hlast : ms.getLast? = some m) :
    (Layout.ofMoves labels ms).toGraph.last? = some (Segment.ofMoves p).start := by
  rw [← flatten_pieces labels ms,
    getLast?_flatten_iff fun q hq => ne_nil_of_mem_pieces hq] at hlast
  obtain ⟨q, hq, hqm⟩ := hlast
  rw [Layout.last?_ofMoves, hq, h.eq_of_mem_pieces hp (List.mem_of_getLast? hq)
    (List.mem_of_getLast? hm) (List.mem_of_getLast? hqm)]
  rfl

/-! ## §4. The two graphs -/

/-- **A piece that does not end the body keeps its successors.** -/
theorem outgoing_append (h : LaidOut policy labels code ms)
    (h' : LaidOut policy labels code' (ms ++ rest)) (hp : p ∈ pieces labels ms)
    (hp' : p ∈ pieces labels (ms ++ rest)) (hlast : p.getLast? ≠ ms.getLast?) :
    (Block.ofPiece labels (ms ++ rest) p).outgoing = (Block.ofPiece labels ms p).outgoing := by
  have hm := List.getLast?_eq_some_getLast (ne_nil_of_mem_pieces hp)
  rw [hm] at hlast
  have hmem := mem_of_mem_pieces hp (List.mem_of_getLast? hm)
  ext x
  rw [h'.mem_outgoing_iff hp' hm, h.mem_outgoing_iff hp hm]
  simp only [h.step_append_iff h' hmem hlast.symm]

/-- **No piece loses anything.** -/
theorem growsInto_append (h : LaidOut policy labels code ms)
    (h' : LaidOut policy labels code' (ms ++ rest)) (hp : p ∈ pieces labels ms)
    (hc : Continues labels ms rest p p') :
    (Block.ofPiece labels ms p).GrowsInto (Block.ofPiece labels (ms ++ rest) p') where
  body := hc.grows.map Move.offset
  outgoing := by
    intro x hx
    have hm := List.getLast?_eq_some_getLast (ne_nil_of_mem_pieces hp)
    obtain ⟨n, hstep, hn⟩ := (h.mem_outgoing_iff hp hm).1 hx
    exact (h'.mem_outgoing_iff hc.mem (h.getLast?_of_continues hc hm hstep)).2
      ⟨n, hstep.append rest, hn⟩
  incoming := by
    intro x hx
    have hn := List.head?_eq_some_head (ne_nil_of_mem_pieces hp)
    obtain ⟨q, hq, m, hm, hstep, hstart⟩ := (h.mem_incoming_iff hp hn).1 hx
    -- the predecessor may have grown itself, but it ends with the same move
    obtain ⟨q', hq'⟩ := exists_continues hq rest
    exact (h'.mem_incoming_iff hc.mem (head?_of_grows hc.grows hn)).2
      ⟨q', hq'.mem, m, h.getLast?_of_continues hq' hm hstep, hstep.append rest,
        (start_of_grows hq'.grows hq).trans hstart⟩

/-- **The graph of a longer body extends that of the shorter one.** -/
theorem extendedBy (h : LaidOut policy labels code ms)
    (h' : LaidOut policy labels code' (ms ++ rest)) (hms : ms ≠ [])
    (hg : (Layout.ofMoves labels ms).toGraph.WellFormed)
    (hg' : (Layout.ofMoves labels (ms ++ rest)).toGraph.WellFormed) :
    (Layout.ofMoves labels ms).toGraph.ExtendedBy (Layout.ofMoves labels (ms ++ rest)).toGraph := by
  have horder := Layout.order_append labels hms rest
  have hgrows : ∀ o b, (Layout.ofMoves labels ms).toGraph.block? o = some b →
      ∃ b', (Layout.ofMoves labels (ms ++ rest)).toGraph.block? o = some b' ∧ b.GrowsInto b' := by
    intro o b hb
    obtain ⟨p, hp, rfl, rfl⟩ := h.exists_piece_of_block hb
    obtain ⟨p', hc⟩ := exists_continues hp rest
    refine ⟨Block.ofPiece labels (ms ++ rest) p', ?_, h.growsInto_append h' hp hc⟩
    rw [← start_of_grows hc.grows hp]
    exact h'.block?_start hc.mem
  refine ⟨horder, ?_, hgrows, Graph.live_subset_of_grows hg hg' horder hgrows⟩
  intro o b hb hlast
  obtain ⟨p, hp, rfl, rfl⟩ := h.exists_piece_of_block hb
  obtain ⟨p', hc⟩ := exists_continues hp rest
  -- a block that is not listed last is a piece that does not end the body, so it is final
  have hend : p.getLast? ≠ ms.getLast? := by
    intro heq
    have hm := List.getLast?_eq_some_getLast (ne_nil_of_mem_pieces hp)
    exact hlast (h.last?_of_getLast? hp hm (heq.symm.trans hm))
  obtain rfl := hc.settled hend
  exact ⟨_, h'.block?_start hc.mem, rfl, h.outgoing_append h' hp hc.mem hend, rfl⟩

end LaidOut

/-! ## §5. Builds of longer bodies -/

/-- **Appending instructions never rewrites what was built.**  If builds with strict edges accept
    a body and a longer one that begins with it and has ascending offsets, the graph of the longer
    one extends that of the shorter one. -/
theorem Graph.extendedBy_of_build {policy : Policy} {labels : OffsetSet} {s t : Code} {g g' : Graph}
    (hstrict : policy.strictEdges = true) (hascending : (s ++ t).offsets.Pairwise (· < ·))
    (hbuild : (Graph.build policy labels s).outcome = .ok g)
    (hbuild' : (Graph.build policy labels (s ++ t)).outcome = .ok g') : g.ExtendedBy g' := by
  have hdistinct' : (s ++ t).offsets.Nodup := hascending.imp Nat.ne_of_lt
  have hdistinct : s.offsets.Nodup := by
    unfold Code.offsets at hdistinct' ⊢
    rw [List.map_append] at hdistinct'
    exact (List.nodup_append.1 hdistinct').1
  have hg := Graph.wellFormed_of_build hbuild
  have hg' := Graph.wellFormed_of_build hbuild'
  obtain ⟨ms, h, rfl⟩ := Graph.laidOut_of_build hbuild hdistinct hstrict
  obtain ⟨ms', h', rfl⟩ := Graph.laidOut_of_build hbuild' hdistinct' hstrict
  -- the longer body begins with the moves of the shorter one
  obtain ⟨ms₁, rest, hms₁, _, rfl⟩ := Code.moves_append_eq_ok_iff.1 h'.moves_eq
  obtain rfl := Except.ok.inj (h.moves_eq.symm.trans hms₁)
  refine h.extendedBy h' ?_ hg hg'
  intro hnil
  rw [hnil] at hg
  exact hg.order_ne_nil rfl

/-- `0 NOP`, `2 POP_JUMP_IF_FALSE 0`, `4 NOP`. -/
def Code.openLoop : Code :=
  [.decode 0 .nop none 2, .decode 2 .popJumpIfFalse (some 0) 4, .decode 4 .nop none 6]

/-- `6 JUMP_ABSOLUTE 0`. -/
def Code.restOfLoop : Code := [.decode 6 .jumpAbsolute (some 0) 8]

/-- A body that ends inside a loop, and the same body with the rest of the loop.  The block at 0 is
    final, though it gets a predecessor; the block at 4 was the last one and grows. -/
theorem Graph.extendedBy_of_restOfLoop :
    ∃ (g g' : Graph) (b b' c c' : Block),
      Policy.strict.strictEdges = true ∧
      (Code.openLoop ++ Code.restOfLoop).offsets.Pairwise (· < ·) ∧
      (Graph.build .strict {0} Code.openLoop).outcome = .ok g ∧
      (Graph.build .strict {0} (Code.openLoop ++ Code.restOfLoop)).outcome = .ok g' ∧
      g.ExtendedBy g' ∧
      g.block? 0 = some b ∧ g'.block? 0 = some b' ∧ b'.body = b.body ∧ b'.outgoing = b.outgoing ∧
      b.incoming.toList = [0] ∧ b'.incoming.toList = [0, 4] ∧
      g.block? 4 = some c ∧ g'.block? 4 = some c' ∧ c.body.toList <+: c'.body.toList ∧
      c.body.toList = [4] ∧ c'.body.toList = [4, 6] := by
  obtain ⟨g, g', b, c, hascending, hbuild, hbuild', hb, hlast, hc⟩ :
      ∃ (g g' : Graph) (b c : Block),
      (Code.openLoop ++ Code.restOfLoop).offsets.Pairwise (· < ·) ∧
      (Graph.build .strict {0} Code.openLoop).outcome = .ok g ∧
      (Graph.build .strict {0} (Code.openLoop ++ Code.restOfLoop)).outcome = .ok g' ∧
      g.block? 0 = some b ∧ g.last? = some 4 ∧ g.block? 4 = some c :=
    ⟨_, _, _, _, by decide, rfl, rfl, rfl, rfl, rfl⟩
  have hextended := Graph.extendedBy_of_build rfl hascending hbuild hbuild'
  obtain ⟨b', hb', hbody, hout, _⟩ := hextended.settled 0 b hb (by simp [hlast])
  obtain ⟨c', hc', hgrows⟩ := hextended.grows 4 c hc
  refine ⟨g, g', b, b', c, c', rfl, hascending, hbuild, hbuild', hextended, hb, hb', hbody, hout,
    ?_⟩
  -- what is left is read off the two graphs
  obtain rfl := Except.ok.inj hbuild
  obtain rfl := Except.ok.inj hbuild'
  obtain rfl := Option.some.inj hb
  obtain rfl := Option.some.inj hb'
  obtain rfl := Option.some.inj hc
  obtain rfl := Option.some.inj hc'
  exact ⟨rfl, rfl, rfl, rfl, hgrows.body, rfl, rfl⟩

end BytecodeFlow
