/-
  BytecodeFlow.Proofs.Flow.LoopExit — WHERE AN ITERATION LEAVES ITS LOOP.

  The exit of a loop is named twice.  The target of the loop entry is one of the labels of the
  body; the scan takes the argument of the entry and leaves the target unread.  For an entry that
  was decoded and left alone the two agree.  One whose target was set with
  `Instruction.withTarget` may name two offsets, and then the iterations of the loop lead to the
  one that the argument names, while the label is the other one.

  Main statement: `outgoing_of_iteration` — the successors of a block that ends with an iteration,
  in a body of such instructions, and when the target of the loop entry is one of them.
-/
import BytecodeFlow.Proofs.Flow.Step

namespace BytecodeFlow

/-! ## §1. Instructions whose target may be set -/

/-- Instructions that were decoded, and had their target set afterwards or not. -/
inductive Instruction.Provided : Instruction → Prop
  /-- The target is derived from the argument. -/
  | decode (offset : Offset) (opcode : Opcode) (arg : Option Nat) (next : Offset) :
      Provided (.decode offset opcode arg next)
  /-- The target comes from elsewhere. -/
  | withTarget {i : Instruction} (h : i.Provided) (target : Offset) :
      Provided (i.withTarget target)

/-- Such a loop entry has a target, set or derived. -/
theorem Instruction.Provided.exists_target {e : Instruction} {extent : Nat} (h : e.Provided)
    (hentry : e.flow = .loopEntry) (harg : e.arg = some extent)
    (hle : e.next + extent ≤ Offset.limit) : ∃ t, e.target = some t := by
  cases h with
  | decode offset opcode arg next =>
    obtain rfl : arg = some extent := harg
    exact ⟨next + extent, targetOf_of_loopEntry hentry hle⟩
  | withTarget _ target => exact ⟨target, rfl⟩

/-! ## §2. The successors of a block that ends with a branch -/

/-- Without dangling edges the successors of a block are the targets that its last move notes, if
    it notes any. -/
theorem Layout.outgoing_of_last_move {labels : OffsetSet} {ms : List Move} {m : Move} {o : Offset}
    {b : Block} (hdistinct : (ms.map Move.offset).Nodup)
    (hdangling : (ofMoves labels ms).dangling = [])
    (hblock : (ofMoves labels ms).toGraph.block? o = some b) (hm : m ∈ ms)
    (hlast : b.last? = some m.offset) (htargets : m.transfer.targets ≠ ∅) :
    b.outgoing = m.transfer.targets := by
  obtain ⟨p, hp, hs, _, hbody, hout, _⟩ := exists_piece hdistinct hblock
  obtain ⟨before, m', after, q, rfl, rfl⟩ := exists_last_of_mem_pieces hp
  -- the last move of the piece is the one with the offset of `m`
  have hoffset : m'.offset = m.offset := by
    unfold Block.last? at hlast
    rw [hbody] at hlast
    simpa [Move.offset] using hlast
  obtain rfl : m' = m := eq_of_offset hdistinct (by simp) hm hoffset
  have hinside : (ofMoves labels (before ++ m' :: after)).inside (Segment.ofMoves (q ++ [m'])) =
      m'.transfer.targets := by
    rw [inside_of_dangling hdangling hs]
    exact (Segment.targets_ofMoves List.getLast?_concat).1
  rw [hout, outgoing_of_inside (hinside ▸ htargets), hinside]

/-! ## §3. The exit that an iteration takes -/

namespace Code

variable {policy : Policy} {code : Code} {ms : List Move} {e : Instruction} {extent : Nat}
  {x : Offset}

/-- Inside a loop the innermost exit is the one that its entry names, and there is only that one. -/
theorem scopeExit_iff_of_inLoop (hmoves : code.moves policy [] = .ok ms) (hloop : code.InLoop e)
    (harg : e.arg = some extent) : code.ScopeExit x ↔ x = e.next + extent := by
  obtain ⟨extent', harg', _, hhead⟩ := exists_extent_of_inLoop hmoves hloop
  obtain rfl : extent = extent' := Option.some.inj (harg.symm.trans harg')
  rw [scopeExit_iff hmoves, hhead, Option.some.injEq, eq_comm]

theorem InLoop.mem_and_flow (h : code.InLoop e) : e ∈ code ∧ e.flow = .loopEntry := by
  obtain ⟨outside, inside, rfl, hentry, _⟩ := h
  exact ⟨by simp, hentry⟩

end Code

namespace Move

variable {policy : Policy} {code : Code} {before after : List Move} {m : Move} {e : Instruction}
  {extent : Nat}

/-- An iteration that passes the scan is in a loop. -/
theorem exists_inLoop (hmoves : code.moves policy [] = .ok (before ++ m :: after))
    (hflow : m.instruction.flow = .iteration) :
    ∃ e, Code.InLoop (before.map (·.instruction)) e := by
  have hresolved := Move.resolved hmoves
  unfold Instruction.Resolved at hresolved
  simp only [hflow] at hresolved
  obtain ⟨_, ⟨e, _, hloop, _⟩, _⟩ := hresolved
  exact ⟨e, hloop⟩

/-- An iteration notes the next offset and the exit that the argument of the innermost open entry
    names. -/
theorem targets_of_inLoop (hmoves : code.moves policy [] = .ok (before ++ m :: after))
    (hflow : m.instruction.flow = .iteration)
    (hloop : Code.InLoop (before.map (·.instruction)) e) (harg : e.arg = some extent) :
    m.transfer.targets = {e.next + extent, m.instruction.next} := by
  obtain ⟨_, hbefore⟩ := Code.does_of_moves hmoves
  ext x
  rw [Move.mem_targets_iff hmoves, OffsetSet.mem_insert, OffsetSet.mem_singleton]
  unfold Instruction.LeadsTo
  simp only [hflow]
  rw [Code.scopeExit_iff_of_inLoop hbefore hloop harg]

end Move

/-! ## §4. The successors of a block that ends with an iteration -/

/-- **An iteration leaves its loop where the argument of the loop entry says.**  Some entry is open
    before it, and the innermost one has an argument and a target.  The target is a label of the
    body, but the successors of the block are the next offset and the exit that the argument names.
    They are the next offset and the target exactly if the target is the one that decoding derives
    from the argument, so an entry whose target was set to another offset is not followed. -/
theorem Graph.outgoing_of_iteration {policy : Policy} {labels : OffsetSet}
    {code before after : Code} {g : Graph} {o : Offset} {b : Block} {i : Instruction}
    (hbuild : (Graph.build policy labels code).outcome = .ok g)
    (hstrict : policy.strictEdges = true) (hdistinct : code.offsets.Nodup)
    (hprovided : ∀ i ∈ code, i.Provided) (hblock : g.block? o = some b)
    (hcode : code = before ++ i :: after) (hlast : b.last? = some i.offset)
    (hflow : i.flow = .iteration) :
    (∃ e, before.InLoop e) ∧
    ∀ e, before.InLoop e → ∃ t extent, e.target = some t ∧ t ∈ code.labels ∧
      e.arg = some extent ∧ b.outgoing = {e.next + extent, i.next} ∧
      (b.outgoing = {t, i.next} ↔ e.target = Instruction.targetOf e.opcode e.arg e.next) := by
  obtain ⟨_, ms, hmoves, hsettled, rfl⟩ := Graph.build_eq_ok_iff_moves.1 hbuild
  rw [← Code.map_offset_moves hmoves] at hdistinct
  obtain ⟨ms₁, m, ms₂, rfl, rfl, rfl⟩ := Code.exists_split hmoves hcode
  refine ⟨Move.exists_inLoop hmoves hflow, ?_⟩
  intro e hloop
  obtain ⟨extent, harg, hle, _⟩ :=
    Code.exists_extent_of_inLoop (Code.does_of_moves hmoves).2 hloop
  obtain ⟨hmem, hentry⟩ := hloop.mem_and_flow
  -- the entry stands in front of the iteration, so it is in the body
  have he : e ∈ code := by
    rw [hcode]
    exact List.mem_append_left _ hmem
  obtain ⟨t, htarget⟩ := (hprovided e he).exists_target hentry harg hle
  -- the iteration ends its block, so the block leads where the iteration does
  have hpair : b.outgoing = {e.next + extent, m.instruction.next} := by
    have htargets := Move.targets_of_inLoop hmoves hflow hloop harg
    rw [← htargets]
    refine Layout.outgoing_of_last_move hdistinct (hsettled hstrict) hblock (by simp) hlast ?_
    rw [htargets, OffsetSet.ne_empty_iff]
    exact ⟨_, OffsetSet.mem_insert.2 (.inl rfl)⟩
  have hlabel : t ∈ code.labels :=
    Code.mem_labels_iff.2 ⟨e, he, Opcode.isBranch_of_flow (.inl hentry), htarget⟩
  refine ⟨t, extent, htarget, hlabel, harg, hpair, ?_⟩
  -- the exit that the scan adds up is the target exactly if decoding would have found that target
  rw [hpair, OffsetSet.pair_eq_pair_iff, htarget, harg,
    Instruction.targetOf_of_loopEntry hentry hle, Option.some.injEq, eq_comm]

/-- The entry at 0 of a loop that its argument ends at 6, said to lead to `target`. -/
def entryTo (target : Offset) : Instruction :=
  (Instruction.decode 0 .setupLoop (some 4) 2).withTarget target

/-- A loop whose entry and whose branch back were given their targets: `0 SETUP_LOOP 4 (to 6)`,
    `2 FOR_ITER`, `4 JUMP_ABSOLUTE (to 2)`, `6 POP_BLOCK`, `8 RETURN_VALUE`. -/
def Code.givenTargets : Code :=
  [entryTo 6, .decode 2 .forIter none 4, (Instruction.decode 4 .jumpAbsolute none 6).withTarget 2,
    .decode 6 .popBlock none 8, .decode 8 .returnValue none 10]

/-- A loop whose entry was given another target than its exit: `0 SETUP_LOOP 4 (to 8)`,
    `2 FOR_ITER 2`, `4 JUMP_ABSOLUTE 2`, `6 POP_BLOCK`, `8 RETURN_VALUE`. -/
def Code.otherTarget : Code :=
  [entryTo 8, .decode 2 .forIter (some 2) 4, .decode 4 .jumpAbsolute (some 2) 6,
    .decode 6 .popBlock none 8, .decode 8 .returnValue none 10]

/-- A loop whose entry had its target set to the exit that its argument names, and whose branch
    back has nothing but a target: the iteration at 2 leads to the target of the entry. -/
theorem Graph.outgoing_of_setTarget :
    ∃ (g : Graph) (b : Block),
      (Graph.build .strict Code.givenTargets.labels Code.givenTargets).outcome = .ok g ∧
      Code.givenTargets.offsets.Nodup ∧ (∀ i ∈ Code.givenTargets, i.Provided) ∧
      g.block? 2 = some b ∧ b.last? = some 2 ∧
      ∃ t, (entryTo 6).target = some t ∧ t ∈ Code.givenTargets.labels ∧ b.outgoing = {t, 4} := by
  obtain ⟨g, b, hbuild, hdistinct, hblock, hlast⟩ : ∃ (g : Graph) (b : Block),
      (Graph.build .strict Code.givenTargets.labels Code.givenTargets).outcome = .ok g ∧
      Code.givenTargets.offsets.Nodup ∧ g.block? 2 = some b ∧ b.last? = some 2 :=
    ⟨_, _, rfl, by decide, rfl, rfl⟩
  -- all five are decoded, and two of them are given a target afterwards
  have hprovided : ∀ i ∈ Code.givenTargets, i.Provided := by
    unfold Code.givenTargets
    simp only [List.forall_mem_cons, List.not_mem_nil, false_implies, implies_true, and_true]
    exact ⟨.withTarget (.decode _ _ _ _) _, .decode _ _ _ _, .withTarget (.decode _ _ _ _) _,
      .decode _ _ _ _, .decode _ _ _ _⟩
  have hloop : Code.InLoop [entryTo 6] (entryTo 6) := ⟨[], [], rfl, rfl, .nil⟩
  have hsplit : Code.givenTargets =
      [entryTo 6] ++ .decode 2 .forIter none 4 :: Code.givenTargets.drop 2 := rfl
  obtain ⟨_, hsuccessors⟩ :=
    Graph.outgoing_of_iteration hbuild rfl hdistinct hprovided hblock hsplit hlast rfl
  obtain ⟨t, extent, htarget, hlabel, _, _, hfollowed⟩ := hsuccessors (entryTo 6) hloop
  exact ⟨g, b, hbuild, hdistinct, hprovided, hblock, hlast, t, htarget, hlabel, hfollowed.2 rfl⟩

/-- **The same loop with the target of its entry set to 8.**  It is a label, and a block begins
    there, but the iteration at 2 leads to 6. -/
theorem Graph.outgoing_of_otherTarget :
    ∃ (g : Graph) (b : Block),
      (Graph.build .strict Code.otherTarget.labels Code.otherTarget).outcome = .ok g ∧
      Code.otherTarget.offsets.Nodup ∧ (∀ i ∈ Code.otherTarget, i.Provided) ∧
      Code.otherTarget = [entryTo 8] ++ .decode 2 .forIter (some 2) 4 :: Code.otherTarget.drop 2 ∧
      g.block? 2 = some b ∧ b.last? = some 2 ∧ Code.InLoop [entryTo 8] (entryTo 8) ∧
      (entryTo 8).target = some 8 ∧ 8 ∈ Code.otherTarget.labels ∧ 8 ∈ g.order ∧
      b.outgoing = {6, 4} ∧ b.outgoing ≠ {8, 4} := by
  obtain ⟨g, b, hbuild, hdistinct, hblock, hlast, horder, hout⟩ : ∃ (g : Graph) (b : Block),
      (Graph.build .strict Code.otherTarget.labels Code.otherTarget).outcome = .ok g ∧
      Code.otherTarget.offsets.Nodup ∧ g.block? 2 = some b ∧ b.last? = some 2 ∧ 8 ∈ g.order ∧
      b.outgoing = {6, 4} :=
    ⟨_, _, rfl, by decide, rfl, rfl, by decide, by decide⟩
  have hprovided : ∀ i ∈ Code.otherTarget, i.Provided := by
    unfold Code.otherTarget
    simp only [List.forall_mem_cons, List.not_mem_nil, false_implies, implies_true, and_true]
    exact ⟨.withTarget (.decode _ _ _ _) _, .decode _ _ _ _, .decode _ _ _ _, .decode _ _ _ _,
      .decode _ _ _ _⟩
  have hloop : Code.InLoop [entryTo 8] (entryTo 8) := ⟨[], [], rfl, rfl, .nil⟩
  have hlabel : 8 ∈ Code.otherTarget.labels := by decide
  refine ⟨g, b, hbuild, hdistinct, hprovided, rfl, hblock, hlast, hloop, rfl, hlabel, horder, hout,
    ?_⟩
  rw [hout, Ne, OffsetSet.pair_eq_pair_iff]
  decide

end BytecodeFlow
