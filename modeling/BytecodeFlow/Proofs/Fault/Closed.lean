/-
  BytecodeFlow.Proofs.Fault.Closed — CLOSED BODIES have no dangling edges under their own labels.

  The labels of a body and the edges of its blocks are found in two ways.  Labels are the targets
  that the instructions were decoded with.  The scan takes the targets of branches from there as
  well, but it works out the exit of a loop from the argument of its entry, and where a branch may
  go on it takes the offset behind the branch.

  A body is closed if it has instructions at all these offsets (`Code.Closed`).  Then the two agree:
  where an instruction leads by a branch a part of the body begins, because the offset is a label
  or because it lies behind a branch (`Code.Closed.exists_part_of_leadsTo`).  So no edge dangles.

  Main statement: `Graph.build_of_closed`.
-/
import BytecodeFlow.Proofs.Fault.Leniency
import BytecodeFlow.Proofs.Flow.Labels

namespace BytecodeFlow

/-! ## §1. Closed bodies -/

/-- Wherever control can go from an instruction of `code`, there is an instruction of `code`. -/
structure Code.Closed (code : Code) : Prop where
  /-- An instruction ends where the one behind it starts. -/
  contiguous : List.IsChain (fun i j : Instruction => i.next = j.offset) code
  /-- The last instruction is no branch that may go on. -/
  last : ∀ i ∈ code.getLast?, i.flow ≠ .conditionalBranch ∧ i.flow ≠ .iteration
  /-- The target of a loop entry is the one that it was decoded with. -/
  target_eq : ∀ i ∈ code, i.flow = .loopEntry →
    i.target = Instruction.targetOf i.opcode i.arg i.next
  /-- Branches lead to instructions. -/
  target_mem : ∀ i ∈ code, i.flow = .conditionalBranch ∨ i.flow = .unconditionalBranch →
    ∀ x ∈ i.target, x ∈ code.offsets
  /-- So do the exits of the loops that are iterated. -/
  exit_mem : ∀ (before : Code) i after, code = before ++ i :: after → i.flow = .iteration →
    ∀ x, before.ScopeExit x → x ∈ code.offsets

/-! ## §2. Where parts begin -/

namespace Code

variable {policy : Policy} {labels : OffsetSet} {code before after : Code} {i : Instruction}
  {ms : List Move} {x : Offset}

/-- A part begins at every label that is an instruction. -/
theorem exists_part_of_label (hlabel : x ∈ labels) (hx : x ∈ code.offsets) :
    ∃ p ∈ code.cut labels, p.offsets.head? = some x := by
  obtain ⟨i, hi, rfl⟩ := List.mem_map.1 hx
  obtain ⟨before, after, hcode⟩ := List.append_of_mem hi
  exact exists_part_iff.2 ⟨before, i, after, hcode, .inr (.inl hlabel), rfl⟩

/-- A part begins behind every branch that is not the last instruction. -/
theorem exists_part_of_next {j : Instruction} (hcode : code = before ++ i :: j :: after)
    (hflow : i.flow = .iteration ∨ i.flow = .conditionalBranch) :
    ∃ p ∈ code.cut labels, p.offsets.head? = some j.offset := by
  have hleader : j.IsLeader labels (before ++ [i]) :=
    .inr (.inr (.inr ⟨i, List.getLast?_concat, hflow.imp_right .inl⟩))
  exact exists_part_iff.2 ⟨before ++ [i], j, after, by rw [hcode]; simp, hleader, rfl⟩

/-- Where the scan gets through, the exits that iterations use are among the targets they note. -/
theorem exit_mem_of_moves (hmoves : code.moves policy [] = .ok ms)
    (h : ∀ m ∈ ms, m.instruction.flow = .iteration →
      ∀ x ∈ m.transfer.targets.toList, x ∈ code.offsets)
    (before : Code) (i : Instruction) (after : Code) (hcode : code = before ++ i :: after)
    (hflow : i.flow = .iteration) (x : Offset) (hx : before.ScopeExit x) : x ∈ code.offsets := by
  obtain ⟨ms₁, m, ms₂, rfl, rfl, rfl⟩ := exists_split hmoves hcode
  refine h m (by simp) hflow x ?_
  rw [OffsetSet.mem_toList, Move.mem_targets_iff hmoves]
  unfold Instruction.LeadsTo
  rw [hflow]
  exact .inl hx

namespace Closed

/-- The target of a branch is a label. -/
theorem exists_part_of_target (h : code.Closed) (hi : i ∈ code)
    (hflow : i.flow = .conditionalBranch ∨ i.flow = .unconditionalBranch)
    (htarget : i.target = some x) : ∃ p ∈ code.cut code.labels, p.offsets.head? = some x := by
  have hbranch : i.isBranch = true := Opcode.isBranch_of_flow (.inr (.inr hflow))
  exact exists_part_of_label (mem_labels_iff.2 ⟨i, hi, hbranch, htarget⟩)
    (h.target_mem i hi hflow x htarget)

/-- The exit of a loop is a label: it is the target that the entry was decoded with. -/
theorem exists_part_of_scopeExit (h : code.Closed) (hmoves : before.moves policy [] = .ok ms)
    (hcode : code = before ++ i :: after) (hflow : i.flow = .iteration) (hx : before.ScopeExit x) :
    ∃ p ∈ code.cut code.labels, p.offsets.head? = some x := by
  have hmem := h.exit_mem before i after hcode hflow x hx
  -- the exit fits the word, so decoding the entry has found the same offset
  have hlimit := le_limit_of_scopeExit hmoves hx
  obtain ⟨e, extent, ⟨outside, inside, rfl, hentry, _⟩, harg, rfl⟩ := hx
  have he : e ∈ code := by
    rw [hcode]
    simp
  have hbranch : e.isBranch = true := Opcode.isBranch_of_flow (.inl hentry)
  have htarget : e.target = some (e.next + extent) := by
    rw [h.target_eq e he hentry, harg]
    exact Instruction.targetOf_of_loopEntry hentry hlimit
  exact exists_part_of_label (mem_labels_iff.2 ⟨e, he, hbranch, htarget⟩) hmem

theorem exists_part_of_goesOn (h : code.Closed) (hcode : code = before ++ i :: after)
    (hflow : i.flow = .iteration ∨ i.flow = .conditionalBranch) :
    ∃ p ∈ code.cut code.labels, p.offsets.head? = some i.next := by
  cases after with
  | nil =>
    have hlast := h.last i (by rw [hcode]; exact List.getLast?_concat)
    exact (hflow.elim hlast.2 hlast.1).elim
  | cons j after =>
    have hcontiguous := h.contiguous
    rw [hcode] at hcontiguous
    rw [(List.isChain_append_cons_cons.1 hcontiguous).2.1]
    exact exists_part_of_next hcode hflow

/-- **Where an instruction of a closed body leads by a branch, a part begins.** -/
theorem exists_part_of_leadsTo (h : code.Closed) (hmoves : code.moves policy [] = .ok ms)
    (hcode : code = before ++ i :: after) (hleads : i.LeadsTo before x) :
    ∃ p ∈ code.cut code.labels, p.offsets.head? = some x := by
  have hi : i ∈ code := by
    rw [hcode]
    simp
  -- an iteration, a conditional branch and a jump lead somewhere; nothing else does
  unfold Instruction.LeadsTo at hleads
  split at hleads
  case h_1 hflow =>
    rcases hleads with hexit | rfl
    · rw [hcode] at hmoves
      obtain ⟨_, _, hbefore, _⟩ := moves_append_eq_ok_iff.1 hmoves
      exact h.exists_part_of_scopeExit hbefore hcode hflow hexit
    · exact h.exists_part_of_goesOn hcode (.inl hflow)
  case h_2 hflow =>
    rcases hleads with htarget | rfl
    · exact h.exists_part_of_target hi (.inl hflow) htarget
    · exact h.exists_part_of_goesOn hcode (.inr hflow)
  case h_3 hflow => exact h.exists_part_of_target hi (.inr hflow) hleads
  all_goals exact hleads.elim

/-- **No edge of a closed body dangles** under the labels of the body. -/
theorem not_dangles (h : code.Closed) (hmoves : code.moves policy [] = .ok ms)
    (source target : Offset) : ¬ code.Dangles code.labels source target := by
  rintro ⟨@⟨parts, rest, front, back, i, hcut, _, _, hleads⟩, hnone⟩
  -- the edge is one of an instruction, and so a part begins at its target
  have hcode : code = (parts.flatten ++ front) ++ i :: (back ++ rest.flatten) := by
    have hflat : (code.cut code.labels).flatten = code := cutAtLeaders_cut.flatten_eq
    rw [← hflat, hcut]
    simp
  obtain ⟨p, hp, hstart⟩ := h.exists_part_of_leadsTo hmoves hcode hleads
  exact hnone p hp hstart

end Closed

end Code

/-! ## §3. Builds of closed bodies -/

/-- **Label discovery and the edge rules agree.**  A build of a closed body whose layout has no
    defect, under the labels of the body and however strict about edges, never fails for a dangling
    edge.  If there are instructions it returns a graph whenever the scan raises no fault. -/
theorem Graph.build_of_closed {policy : Policy} {code : Code} (hlayout : code.defect? = none)
    (hclosed : code.Closed) :
    (∀ source target, (Graph.build policy code.labels code).outcome ≠
      .error (.malformed (.danglingEdge source target))) ∧
    ((∃ g, (Graph.build policy code.labels code).outcome = .ok g) ↔
      code ≠ [] ∧ ∃ segments, (code.segments policy code.labels).outcome = .ok segments) := by
  -- with every edge at a part there is nothing left for the last step to refuse
  have hdangling : ∀ ms, code.moves policy [] = .ok ms →
      (Layout.ofMoves code.labels ms).dangling = [] := by
    intro ms hmoves
    rw [List.eq_nil_iff_forall_not_mem]
    intro ⟨source, target⟩ hmem
    exact hclosed.not_dangles hmoves source target ((Layout.mem_dangling_ofMoves_iff hmoves).1 hmem)
  constructor
  · intro source target hfails
    obtain ⟨_, ms, hmoves, _, hhead⟩ := Graph.build_eq_danglingEdge_iff.1 hfails
    rw [hdangling ms hmoves] at hhead
    cases hhead
  · constructor
    · intro ⟨g, hbuild⟩
      obtain ⟨hcheck, segments, hsegments, _⟩ := Graph.build_eq_ok_iff.1 hbuild
      exact ⟨Code.ne_nil_of_check hcheck, segments, hsegments⟩
    · intro ⟨hne, segments, hsegments⟩
      have hcheck : code.check policy = .ok () :=
        Code.check_eq_ok_iff.2 ⟨hne, fun _ _ => Code.not_firstDefect hlayout⟩
      rw [Code.outcome_segments] at hsegments
      cases hmoves : code.moves policy [] with
      | error fault =>
        rw [hmoves] at hsegments
        cases hsegments
      | ok ms =>
        have hsettled := fun _ : policy.strictEdges = true => hdangling ms hmoves
        exact ⟨_, Graph.build_eq_ok_iff_moves.2 ⟨hcheck, ms, hmoves, hsettled, rfl⟩⟩

/-- `0 SETUP_LOOP 4`, `2 FOR_ITER 2`, `4 JUMP_ABSOLUTE 2`, `6 POP_BLOCK`, `8 POP_JUMP_IF_TRUE 12`,
    `10 NOP`, `12 RETURN_VALUE`. -/
def Code.loopAndBranch : Code :=
  [.decode 0 .setupLoop (some 4) 2, .decode 2 .forIter (some 2) 4,
    .decode 4 .jumpAbsolute (some 2) 6, .decode 6 .popBlock none 8,
    .decode 8 .popJumpIfTrue (some 12) 10, .decode 10 .nop none 12, .decode 12 .returnValue none 14]

/-- A loop and a branch over one instruction.  The exit of the loop, which the scan adds up from the
    argument at 0, is the label that the entry was decoded with. -/
theorem Graph.build_of_loopAndBranch :
    Code.loopAndBranch.defect? = none ∧ Code.loopAndBranch.Closed ∧
      Code.loopAndBranch.labels.toList = [2, 6, 12] ∧
      ∃ g, (Graph.build .strict Code.loopAndBranch.labels Code.loopAndBranch).outcome = .ok g := by
  obtain ⟨ms, segments, hdefect, hlabels, hmoves, hsegments⟩ :
      ∃ (ms : List Move) (segments : List Segment), Code.loopAndBranch.defect? = none ∧
      Code.loopAndBranch.labels.toList = [2, 6, 12] ∧
      Code.loopAndBranch.moves .strict [] = .ok ms ∧
      (Code.loopAndBranch.segments .strict Code.loopAndBranch.labels).outcome = .ok segments :=
    ⟨_, _, by decide, by decide, rfl, rfl⟩
  have hclosed : Code.loopAndBranch.Closed := by
    -- the last condition is on the moves, which are a concrete list here
    obtain rfl := Except.ok.inj hmoves
    refine ⟨?_, ?_, ?_, ?_, Code.exit_mem_of_moves hmoves ?_⟩
    · decide
    · decide
    · decide
    · decide
    · decide
  have hne : Code.loopAndBranch ≠ [] := List.cons_ne_nil _ _
  obtain ⟨_, hbuild⟩ := Graph.build_of_closed hdefect hclosed
  exact ⟨hdefect, hclosed, hlabels, hbuild.2 ⟨hne, segments, hsegments⟩⟩

end BytecodeFlow
