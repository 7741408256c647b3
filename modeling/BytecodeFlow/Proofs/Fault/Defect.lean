/-
  BytecodeFlow.Proofs.Fault.Defect — THE FIRST DEFECT in the layout of a body.

  The layout check asks three questions in turn, each of the whole body: whether it starts at 0,
  whether every instruction ends behind its start, and whether the offsets ascend.  The defect
  found is the first one of the first question that fails.  `Code.FirstDefect` says this of the
  body itself, by where it is split: all is well in front of the split, and the defect is there.

  Main statement: `Code.defect?_eq_some_iff`.
-/
import BytecodeFlow.Code
import BytecodeFlow.Proofs.Neighbours

namespace BytecodeFlow

namespace Code

/-! ## §1. Defects by position -/

/-- The offset of `i` lies before that of `j`. -/
def Ascends (i j : Instruction) : Prop := i.offset < j.offset

/-- `code.FirstDefect d`: of all that is wrong with the layout of `code`, `d` comes first. -/
inductive FirstDefect (code : Code) : Defect → Prop
  /-- The body does not start at 0. -/
  | start {i : Instruction} (hfirst : code.head? = some i) (hi : i.offset ≠ 0) :
      FirstDefect code (.startsAt i.offset)
  /-- It does, but an instruction ends at or before its start, and none in front of it. -/
  | extent {before after : Code} {i : Instruction} (hstart : ∀ j ∈ code.head?, j.offset = 0)
      (hcode : code = before ++ i :: after) (hbefore : ∀ j ∈ before, j.offset < j.next)
      (hi : i.next ≤ i.offset) : FirstDefect code (.endsBeforeStart i.offset i.next)
  /-- Each instruction is well, but two neighbours do not ascend, and those in front of them do. -/
  | order {before after : Code} {i j : Instruction} (hstart : ∀ k ∈ code.head?, k.offset = 0)
      (hextent : ∀ k ∈ code, k.offset < k.next) (hcode : code = before ++ i :: j :: after)
      (hbefore : (before ++ [i]).IsChain Ascends) (hj : j.offset ≤ i.offset) :
      FirstDefect code (.outOfOrder i.offset j.offset)

variable {code : Code} {d : Defect}

/-! ## §2. The three questions -/

/-- Only a first instruction away from 0 is reported, and by where it lies. -/
theorem startDefect?_eq_some_iff :
    code.startDefect? = some d ↔
      ∃ i, code.head? = some i ∧ i.offset ≠ 0 ∧ d = .startsAt i.offset := by
  unfold startDefect?
  simp only [Option.bind_eq_some_iff, Option.ite_none_left_eq_some, Option.some.injEq,
    @eq_comm _ d]

/-- Of the instructions that do not end behind their start the first is reported. -/
theorem extentDefect?_eq_some_iff :
    code.extentDefect? = some d ↔ ∃ before i after, code = before ++ i :: after ∧
      (∀ j ∈ before, j.offset < j.next) ∧ i.next ≤ i.offset ∧
      d = .endsBeforeStart i.offset i.next := by
  unfold extentDefect?
  simp only [Option.map_eq_some_iff, List.find?_eq_some_iff_append, decide_eq_true_eq,
    Bool.not_eq_true', decide_eq_false_iff_not, Nat.not_le]
  constructor
  · rintro ⟨i, ⟨hi, before, after, hcode, hbefore⟩, hd⟩
    exact ⟨before, i, after, hcode, hbefore, hi, hd.symm⟩
  · rintro ⟨before, i, after, hcode, hbefore, hi, hd⟩
    exact ⟨i, ⟨hi, before, after, hcode, hbefore⟩, hd.symm⟩

/-- Of the neighbours that do not ascend the first two are reported. -/
theorem orderDefect?_eq_some_iff :
    code.orderDefect? = some d ↔ ∃ before i j after, code = before ++ i :: j :: after ∧
      (before ++ [i]).IsChain Ascends ∧ j.offset ≤ i.offset ∧
      d = .outOfOrder i.offset j.offset := by
  -- the search tests the opposite of ascending
  have hascends : ∀ i j : Instruction, decide (j.offset ≤ i.offset) = false ↔ Ascends i j := by
    intro i j
    rw [decide_eq_false_iff_not, Nat.not_le, Ascends]
  have hfind : ∀ i j,
      (code.zip code.tail).find? (fun e => e.2.offset ≤ e.1.offset) = some (i, j) ↔
        ∃ before after, code = before ++ i :: j :: after ∧ (before ++ [i]).IsChain Ascends ∧
          j.offset ≤ i.offset := by
    intro i j
    have hfirst := find?_neighbours_eq_some_iff (l := code) (a := i) (b := j)
      (p := fun i j => decide (j.offset ≤ i.offset))
    simpa only [hascends, decide_eq_true_eq] using hfirst
  unfold orderDefect?
  rw [Option.map_eq_some_iff]
  constructor
  · rintro ⟨⟨i, j⟩, hpair, hd⟩
    obtain ⟨before, after, hcode, hbefore, hj⟩ := (hfind i j).1 hpair
    exact ⟨before, i, j, after, hcode, hbefore, hj, hd.symm⟩
  · rintro ⟨before, i, j, after, hcode, hbefore, hj, hd⟩
    exact ⟨(i, j), (hfind i j).2 ⟨before, after, hcode, hbefore, hj⟩, hd.symm⟩

/-! ## §3. The first defect -/

/-- **The layout check finds the first defect.** -/
theorem defect?_eq_some_iff : code.defect? = some d ↔ code.FirstDefect d := by
  -- a later check speaks only if the earlier ones found nothing
  have hsome : code.defect? = some d ↔ code.startDefect? = some d ∨ code.startDefect? = none ∧
      (code.extentDefect? = some d ∨ code.extentDefect? = none ∧ code.orderDefect? = some d) := by
    unfold defect?
    cases code.startDefect? <;> cases code.extentDefect? <;> simp
  rw [hsome, startDefect?_eq_some_iff, extentDefect?_eq_some_iff, orderDefect?_eq_some_iff,
    startDefect?_eq_none_iff, extentDefect?_eq_none_iff]
  constructor
  · intro h
    rcases h with ⟨i, hfirst, hi, rfl⟩ | ⟨hstart, ⟨before, i, after, hcode, hbefore, hi, rfl⟩ |
      ⟨hextent, before, i, j, after, hcode, hbefore, hj, rfl⟩⟩
    · exact .start hfirst hi
    · exact .extent hstart hcode hbefore hi
    · exact .order hstart hextent hcode hbefore hj
  · intro h
    cases h with
    | start hfirst hi => exact .inl ⟨_, hfirst, hi, rfl⟩
    | extent hstart hcode hbefore hi => exact .inr ⟨hstart, .inl ⟨_, _, _, hcode, hbefore, hi, rfl⟩⟩
    | order hstart hextent hcode hbefore hj =>
      exact .inr ⟨hstart, .inr ⟨hextent, _, _, _, _, hcode, hbefore, hj, rfl⟩⟩

theorem not_firstDefect (h : code.defect? = none) : ¬ code.FirstDefect d := by
  rw [← defect?_eq_some_iff, h]
  simp

end Code

end BytecodeFlow
