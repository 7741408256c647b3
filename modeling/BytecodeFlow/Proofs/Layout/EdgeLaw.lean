/-
  BytecodeFlow.Proofs.Layout.EdgeLaw — WHICH EDGES LEAVE A BLOCK.

  The last instruction of a block decides.  It records the targets that it leads to; those where
  no block begins are dropped, and the order of the two rules behind that matters:

    1. if some recorded target is left, the targets left are the successors;
    2. if none is left and the block does not return, control falls to the block listed next,
       also where there were targets and all were dropped.

  `Graph.outgoing_of_build` states this for every block of every graph that a build returns, for
  all policies, with the loop scopes read off the text of the body.
-/
import BytecodeFlow.Proofs.Layout.Pieces
import BytecodeFlow.Proofs.Scan.Scope

namespace BytecodeFlow

/-! ## §1. The rules on a layout -/

namespace Layout

variable {l : Layout} {s : Segment}

/-- The targets of a segment at which some segment begins. -/
def inside (l : Layout) (s : Segment) : OffsetSet := s.targets.filter (· ∈ l.starts)

theorem outgoing_eq :
    l.outgoing s = if (l.inside s).isEmpty && !s.returns then .ofList (l.follower? s.start).toList
      else l.inside s := rfl

/-- Whatever targets are left are the successors. -/
theorem outgoing_of_inside (h : l.inside s ≠ ∅) : l.outgoing s = l.inside s := by
  have hfalse : (l.inside s).isEmpty = false := by
    rw [← Bool.not_eq_true, OffsetSet.isEmpty_iff]
    exact h
  rw [outgoing_eq, hfalse]
  rfl

/-- A segment that falls through has its follower as the only successor, if it has one. -/
theorem outgoing_of_falls (h : l.inside s = ∅) (hreturns : s.returns = false) :
    l.outgoing s = .ofList (l.follower? s.start).toList := by
  have htrue : (l.inside s).isEmpty = true := OffsetSet.isEmpty_iff.2 h
  rw [outgoing_eq, htrue, hreturns]
  rfl

/-- A segment that returns has no other. -/
theorem outgoing_of_returns (h : l.inside s = ∅) (hreturns : s.returns = true) :
    l.outgoing s = ∅ := by
  rw [outgoing_eq, hreturns, h]
  rfl

/-- The last segment has none to fall through to. -/
theorem outgoing_of_last (hl : l.order.Nodup) (h : l.inside s = ∅)
    (hlast : l.order.getLast? = some s.start) : l.outgoing s = ∅ := by
  by_cases hreturns : s.returns = true
  · exact outgoing_of_returns h hreturns
  · rw [Bool.not_eq_true] at hreturns
    have hnone : l.follower? s.start = none :=
      (follower?_eq_none_iff hl (List.mem_of_getLast? hlast)).2 hlast
    rw [outgoing_of_falls h hreturns, hnone]
    rfl

/-- Any other goes on with what the order lists behind it. -/
theorem outgoing_of_next (hl : l.order.Nodup) (hs : s.start ∈ l.order) (h : l.inside s = ∅)
    (hreturns : s.returns = false) (hlast : l.order.getLast? ≠ some s.start) :
    ∃ n, [s.start, n] <:+: l.order ∧ l.outgoing s = {n} := by
  rw [outgoing_of_falls h hreturns]
  cases hfollower : l.follower? s.start with
  | none => exact absurd ((follower?_eq_none_iff hl hs).1 hfollower) hlast
  | some n => exact ⟨n, (follower?_eq_some_iff hl).1 hfollower, rfl⟩

/-- Without dangling edges every target is kept. -/
theorem inside_of_dangling {o : Offset} (h : l.dangling = []) (hs : l.kept.get? o = some s) :
    l.inside s = s.targets := by
  ext x
  unfold inside
  rw [OffsetSet.mem_filter, decide_eq_true_eq]
  constructor
  · intro hx
    exact hx.1
  · intro hx
    refine ⟨hx, ?_⟩
    by_cases hstart : x ∈ l.starts
    · exact hstart
    · have hdangling : (o, x) ∈ l.dangling := mem_dangling_iff.2 ⟨s, hs, hx, hstart⟩
      rw [h] at hdangling
      cases hdangling

end Layout

/-! ## §2. The blocks of a built graph -/

/-- What is known of a block in the graph of moves with distinct offsets: it is the piece that
    starts where it does. -/
theorem Layout.exists_piece {labels : OffsetSet} {ms : List Move} {o : Offset} {b : Block}
    (hdistinct : (ms.map Move.offset).Nodup)
    (hblock : (ofMoves labels ms).toGraph.block? o = some b) :
    ∃ p ∈ pieces labels ms, (ofMoves labels ms).kept.get? o = some (Segment.ofMoves p) ∧
      (Segment.ofMoves p).start = o ∧ b.body = (p.map Move.offset).toArray ∧
      b.outgoing = (ofMoves labels ms).outgoing (Segment.ofMoves p) ∧
      b.terminating = (Segment.ofMoves p).returns := by
  rw [block?_toGraph] at hblock
  obtain ⟨s, hs, rfl⟩ := Option.map_eq_some_iff.1 hblock
  obtain ⟨p, hp, rfl, hstart⟩ := (get?_ofMoves_iff hdistinct).1 hs
  exact ⟨p, hp, hs, hstart, rfl, rfl, rfl⟩

/-- **Which edges leave a block.**  The last instruction of the block records the targets that it
    leads to, and `kept` are those at which a block begins. -/
theorem Graph.outgoing_of_build {policy : Policy} {labels : OffsetSet} {code : Code} {g : Graph}
    {o : Offset} {b : Block} (hbuild : (Graph.build policy labels code).outcome = .ok g)
    (hdistinct : code.offsets.Nodup) (hblock : g.block? o = some b) :
    ∃ (before after : Code) (i : Instruction) (recorded kept : OffsetSet),
      code = before ++ i :: after ∧ b.last? = some i.offset ∧
      i.Resolved before ∧ (∀ x, x ∈ recorded ↔ i.LeadsTo before x) ∧
      (∀ x, x ∈ kept ↔ x ∈ recorded ∧ x ∈ g.blocks.keys) ∧
      (policy.strictEdges = true → kept = recorded) ∧
      (b.terminating = true ↔ i.flow = .functionReturn) ∧
      (kept ≠ ∅ → b.outgoing = kept) ∧
      (b.terminating = true → b.outgoing = ∅) ∧
      (kept = ∅ → g.last? = some o → b.outgoing = ∅) ∧
      (kept = ∅ → b.terminating = false → g.last? ≠ some o →
        ∃ n, [o, n] <:+: g.order ∧ b.outgoing = {n}) := by
  obtain ⟨_, ms, hmoves, hstrict, rfl⟩ := Graph.build_eq_ok_iff_moves.1 hbuild
  rw [← Code.map_offset_moves hmoves] at hdistinct
  have horder : (Layout.ofMoves labels ms).order.Nodup := Layout.nodup_order_ofMoves hdistinct
  obtain ⟨p, hp, hs, hstart, hbody, hout, hterm⟩ := Layout.exists_piece hdistinct hblock
  -- the piece ends with a move `m`, and `m` decides
  obtain ⟨before, m, after, q, rfl, rfl⟩ := exists_last_of_mem_pieces hp
  set l := Layout.ofMoves labels (before ++ m :: after) with hl
  set s := Segment.ofMoves (q ++ [m]) with hsdef
  obtain ⟨htargets, hreturns⟩ : s.targets = m.transfer.targets ∧ s.returns = m.transfer.returns :=
    Segment.targets_ofMoves List.getLast?_concat
  have hdoes := (Code.does_of_moves hmoves).1
  refine ⟨before.map (·.instruction), after.map (·.instruction), m.instruction, s.targets,
    l.inside s, ?_, ?_, Move.resolved hmoves, ?_, ?_, ?_, ?_, ?_, ?_, ?_, ?_⟩
  · rw [← Code.map_instruction_moves hmoves, List.map_append, List.map_cons]
  · unfold Block.last?
    rw [hbody]
    simp [Move.offset]
  · intro x
    rw [htargets]
    exact Move.mem_targets_iff hmoves
  · intro x
    unfold Layout.inside
    rw [OffsetSet.mem_filter, decide_eq_true_eq, Layout.keys_toGraph]
  · intro h
    exact Layout.inside_of_dangling (hstrict h) hs
  · rw [hterm, hreturns]
    exact hdoes.returns
  · intro h
    rw [hout]
    exact Layout.outgoing_of_inside h
  · -- a return has no targets, so the block has none to keep either
    intro h
    rw [hterm] at h
    have hnone : l.inside s = ∅ := by
      unfold Layout.inside
      rw [htargets, Transfer.targets_of_returns (hreturns ▸ h)]
      rfl
    rw [hout]
    exact Layout.outgoing_of_returns hnone h
  · intro h hlast
    rw [hout]
    exact Layout.outgoing_of_last horder h (hstart ▸ hlast)
  · intro h hfalls hlast
    have hmem : s.start ∈ l.order := by
      rw [hstart]
      exact Layout.mem_starts_ofSegments.1 (OffsetMap.mem_keys_of_get? hs)
    rw [hterm] at hfalls
    rw [hout, ← hstart]
    exact Layout.outgoing_of_next horder hmem h hfalls (hstart ▸ hlast)

/-- A loop: the iteration at 2 leads to the body of the loop and to its exit, and these are the
    successors of its block. -/
theorem Graph.outgoing_of_loop :
    ∃ g b, (Graph.build .strict {2} Code.loop).outcome = .ok g ∧
      g.block? 2 = some b ∧ b.outgoing.toList = [4, 6] ∧
      ∃ (before : Code) (i : Instruction), b.last? = some i.offset ∧
        ∀ x, x ∈ b.outgoing ↔ i.LeadsTo before x := by
  obtain ⟨g, b, hbuild, hblock, hout, hfalls, hlast⟩ :
      ∃ g b, (Graph.build .strict {2} Code.loop).outcome = .ok g ∧
      g.block? 2 = some b ∧ b.outgoing.toList = [4, 6] ∧ b.terminating = false ∧
      g.last? ≠ some 2 := ⟨_, _, rfl, rfl, by decide, by decide, by decide⟩
  obtain ⟨before, _, i, recorded, kept, _, hi, _, hrecorded, _, hstrict, _, hkept, _, _, hnext⟩ :=
    Graph.outgoing_of_build hbuild (by decide) hblock
  refine ⟨g, b, hbuild, hblock, hout, before, i, hi, ?_⟩
  have h₄ : 4 ∈ b.outgoing := by rw [← OffsetSet.mem_toList, hout]; decide
  have h₆ : 6 ∈ b.outgoing := by rw [← OffsetSet.mem_toList, hout]; decide
  -- two successors are more than the block listed next
  have hne : kept ≠ ∅ := by
    intro hempty
    obtain ⟨n, _, hn⟩ := hnext hempty hfalls hlast
    rw [hn, OffsetSet.mem_singleton] at h₄ h₆
    exact absurd (h₄.trans h₆.symm) (by decide)
  intro x
  rw [hkept hne, hstrict rfl, hrecorded]

end BytecodeFlow
