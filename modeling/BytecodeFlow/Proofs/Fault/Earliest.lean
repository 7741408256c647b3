/-
  BytecodeFlow.Proofs.Fault.Earliest — FAULTS ARE FOUND AT THE EARLIEST and depend on nothing later.

  A scan reads the instructions in program order and stops at the first that breaks its rule.  What
  the rule asks is the number of open loop scopes, and the scan keeps that in the same way under all
  labels (`Scan.scopes_foldl_take`).  So where a scan fails, and with what fault, can be said
  without labels (`Scan.failsAt_iff`), and what stands behind that instruction does not matter.

  Two other steps of a build look at the body as a whole: the check of the layout in front of the
  scan, and the settling of edges behind it.  The second is never reached where the scan fails.  The
  first finds nothing in a body that begins a longer one without defects.

  Main statement: `Graph.fails_iff_fails_append`.
-/
import BytecodeFlow.Proofs.Fault.Refusal

namespace BytecodeFlow

/-! ## §1. Failing scans -/

/-- `fault` is neither the lack of a body nor a dangling edge.  Where the check of the layout lets a
    body pass, only the scan can raise it. -/
def Fault.OfScan (fault : Fault) : Prop :=
  fault ≠ .emptyCode ∧ ∀ source target, fault ≠ .malformed (.danglingEdge source target)

namespace Scan

/-- The scan gets through `before` and fails at `i`, the instruction behind it. -/
def FailsAt (policy : Policy) (labels : OffsetSet) (before : Code) (i : Instruction)
    (fault : Fault) : Prop :=
  ∃ s, (before.foldlM (step policy labels) {}).outcome = .ok s ∧
    (s.step policy labels i).outcome = .error fault

/-- The scan fails at some instruction of `code`. -/
def FailsIn (policy : Policy) (labels : OffsetSet) (code : Code) (fault : Fault) : Prop :=
  ∃ before i, before ++ [i] <+: code ∧ FailsAt policy labels before i fault

variable {policy : Policy} {labels : OffsetSet} {code before : Code} {i : Instruction}
  {fault : Fault}

/-- **Where a scan fails**: at an instruction that breaks its rule, behind a part that obeys. -/
theorem failsAt_iff : FailsAt policy labels before i fault ↔
    before.Obeys policy ∧ i.Breaks policy before.depth fault := by
  unfold FailsAt
  rw [outcome_foldlM_step, ← Code.exists_moves_iff]
  cases hmoves : Code.moves policy [] before with
  | error e => simp
  | ok ms =>
    -- the step sees the scopes that the moves leave open
    have hstep : ((ms.foldl (take labels) {}).step policy labels i).outcome = .error fault ↔
        i.Breaks policy before.depth fault := by
      rw [outcome_step, scopes_foldl_take, Code.depth_eq hmoves,
        ← Instruction.transfer_eq_error_iff]
      cases i.transfer policy (Scopes.after [] ms) <;> simp
    simpa using hstep

/-- **A scan fails at the first breach**, under any labels. -/
theorem failsIn_iff : FailsIn policy labels code fault ↔ code.FirstBreach policy fault := by
  unfold FailsIn Code.FirstBreach
  simp only [failsAt_iff]
  constructor
  · intro ⟨before, i, ⟨after, hcode⟩, hfails⟩
    exact ⟨before, i, after, by rw [← hcode, List.append_assoc, List.singleton_append], hfails⟩
  · intro ⟨before, i, after, hcode, hfails⟩
    exact ⟨before, i, ⟨after, by rw [hcode, List.append_assoc, List.singleton_append]⟩, hfails⟩

end Scan

/-- The first breach stays the first, whatever follows. -/
theorem Code.FirstBreach.append {policy : Policy} {code : Code} {fault : Fault}
    (h : code.FirstBreach policy fault) (rest : Code) :
    (code ++ rest).FirstBreach policy fault := by
  obtain ⟨before, i, after, hcode, hfails⟩ := h
  exact ⟨before, i, after ++ rest, by rw [hcode, List.append_assoc, List.cons_append], hfails⟩

/-! ## §2. Failing builds -/

/-- A body that begins a longer one without defects has none. -/
theorem Code.defect?_of_append {s t : Code} (h : (s ++ t).defect? = none) : s.defect? = none := by
  rw [Code.defect?_eq_none_iff] at h ⊢
  obtain ⟨hstart, hextent, hascending⟩ := h
  refine ⟨?_, ?_, ?_⟩
  · intro i hi
    exact hstart i (List.mem_head?_append_of_mem_head? hi)
  · intro i hi
    exact hextent i (List.mem_append_left t hi)
  · unfold Code.offsets at hascending ⊢
    rw [List.map_append] at hascending
    exact (List.pairwise_append.1 hascending).1

/-- **Where a build fails in the scan**: at the first breach, if the check of the layout lets the
    body pass. -/
theorem Graph.build_eq_error_iff_firstBreach {policy : Policy} {labels : OffsetSet} {code : Code}
    {fault : Fault} (hlayout : policy.checksCode = true → code.defect? = none)
    (hscan : fault.OfScan) :
    (Graph.build policy labels code).outcome = .error fault ↔ code.FirstBreach policy fault := by
  have hdefect : policy.checksCode = true → ∀ d, ¬ code.FirstDefect d := fun hchecks _ =>
    Code.not_firstDefect (hlayout hchecks)
  rw [Graph.build_eq_error_iff, Code.check_eq_error_iff, Code.check_eq_ok_iff]
  constructor
  · -- of the four steps only the scan ends with such a fault
    rintro ((⟨_, hfault⟩ | ⟨_, hchecks, d, hd, _⟩) | ⟨_, hmoves | ⟨ms, _, hsettle⟩⟩)
    · exact absurd hfault hscan.1
    · exact absurd hd (hdefect hchecks d)
    · exact Code.moves_eq_error_iff.1 hmoves
    · obtain ⟨_, e, _, hfault⟩ := Layout.settle_eq_error_iff.1 hsettle
      exact absurd hfault (hscan.2 e.1 e.2)
  · intro hbreach
    -- a body that breaks a rule has an instruction
    have hne : code ≠ [] := by
      obtain ⟨before, i, after, hcode, _⟩ := hbreach
      rw [hcode]
      simp
    exact .inr ⟨⟨hne, hdefect⟩, .inl (Code.moves_eq_error_iff.2 hbreach)⟩

/-- **Analysis fails fast, and independently of labels.**  A build of `s` fails with a fault of the
    scan exactly if a build of `s ++ t` fails with the same fault at an instruction of `s`, whatever
    the labels of the two. -/
theorem Graph.fails_iff_fails_append {policy : Policy} {labels labels' : OffsetSet} {s t : Code}
    {fault : Fault} (hlayout : policy.checksCode = true → (s ++ t).defect? = none)
    (hscan : fault.OfScan) :
    (Graph.build policy labels s).outcome = .error fault ↔
      (Graph.build policy labels' (s ++ t)).outcome = .error fault ∧
        Scan.FailsIn policy labels' s fault := by
  -- the part in front has no defect that the whole does not have
  have hlayout' : policy.checksCode = true → s.defect? = none := fun hchecks =>
    Code.defect?_of_append (hlayout hchecks)
  rw [Graph.build_eq_error_iff_firstBreach hlayout' hscan,
    Graph.build_eq_error_iff_firstBreach hlayout hscan, Scan.failsIn_iff]
  constructor
  · intro hbreach
    exact ⟨hbreach.append t, hbreach⟩
  · intro ⟨_, hbreach⟩
    exact hbreach

/-- `0 NOP`, `2 FOR_ITER`. -/
def Code.strayIteration : Code := [.decode 0 .nop none 2, .decode 2 .forIter none 4]

/-- `4 JUMP_ABSOLUTE 8`, `6 SETUP_FINALLY 0`. -/
def Code.strayRest : Code :=
  [.decode 4 .jumpAbsolute (some 8) 6, .decode 6 .setupFinally (some 0) 8]

/-- An iteration at 2 with no loop around it.  The longer body fails there as well, although its
    edge to 8 leads nowhere, a transfer without edges stands at 6, and other labels cut it. -/
theorem Graph.fails_of_strayIteration :
    (Policy.strict.checksCode = true → (Code.strayIteration ++ Code.strayRest).defect? = none) ∧
      (Fault.unbalancedScope 2).OfScan ∧
      (Graph.build .strict ∅ Code.strayIteration).outcome = .error (.unbalancedScope 2) ∧
      (Graph.build .strict {2, 6} (Code.strayIteration ++ Code.strayRest)).outcome =
        .error (.unbalancedScope 2) ∧
      Scan.FailsIn .strict {2, 6} Code.strayIteration (.unbalancedScope 2) := by
  have hdefect : (Code.strayIteration ++ Code.strayRest).defect? = none := by decide
  have hshort : (Graph.build .strict ∅ Code.strayIteration).outcome =
      .error (.unbalancedScope 2) := rfl
  have hscan : (Fault.unbalancedScope 2).OfScan := ⟨by simp, by simp⟩
  obtain ⟨hlong, hin⟩ := (Graph.fails_iff_fails_append (fun _ => hdefect) hscan).1 hshort
  exact ⟨fun _ => hdefect, hscan, hshort, hlong, hin⟩

end BytecodeFlow
