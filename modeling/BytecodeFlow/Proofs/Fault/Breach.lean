/-
  BytecodeFlow.Proofs.Fault.Breach — THE FIRST BREACH of a rule in a body.

  Each class of flow has its rule: a loop may be left or iterated only where one is open, an entry
  needs an argument, room below the limit and an exit inside the word, a branch needs a target,
  and some classes are never accepted.  Whether an instruction keeps its rule depends on the
  number of loop scopes open in front of it, and on nothing else of the body.
  `Instruction.Breaks` lists what an instruction can be refused for.

  The scan stops at the first instruction that breaks its rule:
    • `Code.exists_moves_iff` — a body has moves exactly if all of it keeps the rules,
    • `Code.moves_eq_error_iff` — otherwise the fault is that of the first breach.
-/
import BytecodeFlow.Proofs.Scan.Move

namespace BytecodeFlow

/-! ## §1. Rules -/

/-- `i.Breaks policy depth fault`: where `depth` loop scopes are open, `i` is refused. -/
inductive Instruction.Breaks (policy : Policy) (depth : Nat) (i : Instruction) : Fault → Prop
  /-- The transfer has no edges. -/
  | unsupported (hflow : i.flow = .unsupported) :
      Breaks policy depth i (.unsupported i.opcode i.offset)
  /-- No loop is open that could be left or iterated. -/
  | unbalanced (hflow : i.flow = .loopExit ∨ i.flow = .iteration) (hdepth : depth = 0) :
      Breaks policy depth i (.unbalancedScope i.offset)
  /-- A loop entry does not say where its loop ends. -/
  | noExtent (hflow : i.flow = .loopEntry) (harg : i.arg = none) :
      Breaks policy depth i (.malformed (.noExtent i.opcode i.offset))
  /-- It does, but as many loops as the policy allows are open already. -/
  | nestingLimit {extent : Nat} (hflow : i.flow = .loopEntry) (harg : i.arg = some extent)
      (hdepth : policy.maxLoopDepth ≤ depth) :
      Breaks policy depth i (.nestingLimit policy.maxLoopDepth)
  /-- There is room for the loop, but it ends beyond the word. -/
  | extentOverflow {extent : Nat} (hflow : i.flow = .loopEntry) (harg : i.arg = some extent)
      (hdepth : depth < policy.maxLoopDepth) (hexit : Offset.limit < i.next + extent) :
      Breaks policy depth i (.malformed (.extentOverflow extent i.offset))
  /-- A branch does not say where it leads. -/
  | noTarget (hflow : i.flow = .conditionalBranch ∨ i.flow = .unconditionalBranch)
      (htarget : i.target = none) : Breaks policy depth i (.malformed (.noTarget i.opcode i.offset))

/-- The number of loop scopes open behind `i`, if `depth` are open in front of it. -/
def Instruction.depthBehind (depth : Nat) (i : Instruction) : Nat :=
  match i.flow with
  | .loopEntry => depth + 1
  | .loopExit => depth - 1
  | .sequential | .iteration | .conditionalBranch | .unconditionalBranch | .functionReturn
  | .unsupported => depth

namespace Code

/-- The number of loop scopes open behind `code`. -/
def depth (code : Code) : Nat := code.foldl Instruction.depthBehind 0

/-- Every instruction of `code` keeps its rule. -/
def Obeys (policy : Policy) (code : Code) : Prop :=
  ∀ (before : Code) i after fault, code = before ++ i :: after →
    ¬ i.Breaks policy before.depth fault

/-- Some instruction of `code` breaks its rule, and none in front of it does. -/
def FirstBreach (policy : Policy) (code : Code) (fault : Fault) : Prop :=
  ∃ (before : Code) (i : Instruction) (after : Code), code = before ++ i :: after ∧
    before.Obeys policy ∧ i.Breaks policy before.depth fault

end Code

/-! ## §2. One instruction -/

/-- A computation with one last step that cannot fail fails as it does without that step. -/
theorem bind_pure_eq_error_iff {α β : Type} {x : Except Fault α} {f : α → β} {fault : Fault} :
    (x >>= fun a => pure (f a)) = .error fault ↔ x = .error fault := by
  rw [bind_eq_error_iff]
  simp [Pure.pure, Except.pure]

namespace Instruction

variable {policy : Policy} {scopes : Scopes} {i : Instruction} {fault : Fault} {t : Transfer}

theorem innermostExit_eq_error_iff : i.innermostExit scopes = .error fault ↔
    scopes.length = 0 ∧ fault = .unbalancedScope i.offset := by
  unfold innermostExit
  cases scopes <;> simp [eq_comm]

theorem branchTarget_eq_error_iff : i.branchTarget = .error fault ↔
    i.target = none ∧ fault = .malformed (.noTarget i.opcode i.offset) := by
  unfold branchTarget
  cases i.target <;> simp [eq_comm]

/-- The three ways in which a loop entry fails, in the order in which they are looked for. -/
theorem loopExit_eq_error_iff (hflow : i.flow = .loopEntry) :
    i.loopExit policy scopes = .error fault ↔ i.Breaks policy scopes.length fault := by
  -- the checks stand inside each other, so each fault brings along that the earlier checks passed
  unfold loopExit
  constructor
  · intro h
    split at h
    case h_1 harg =>
      obtain rfl := Except.error.inj h
      exact .noExtent hflow harg
    case h_2 extent harg =>
      split at h
      case isTrue hdepth =>
        obtain rfl := Except.error.inj h
        exact .nestingLimit hflow harg hdepth
      case isFalse hdepth =>
        split at h
        case h_1 => cases h
        case h_2 hexit =>
          obtain rfl := Except.error.inj h
          exact .extentOverflow hflow harg (Nat.not_le.1 hdepth)
            (Offset.advance?_eq_none_iff.1 hexit)
  · intro h
    cases h with
    | noExtent _ harg => rw [harg]
    | nestingLimit _ harg hdepth => simp only [harg, if_pos hdepth]
    | extentOverflow _ harg hdepth hexit =>
      simp only [harg, if_neg (Nat.not_le.2 hdepth), Offset.advance?_eq_none_iff.2 hexit]
    | unsupported hflow' =>
      -- the other rules are for other classes of flow
      rw [hflow] at hflow'
      cases hflow'
    | unbalanced hflow' | noTarget hflow' =>
      rw [hflow] at hflow'
      rcases hflow' with hflow' | hflow' <;> cases hflow'

/-- **The transfer of an instruction fails exactly for the rule that it breaks.** -/
theorem transfer_eq_error_iff :
    i.transfer policy scopes = .error fault ↔ i.Breaks policy scopes.length fault := by
  constructor
  · -- the class of flow leaves one check that can fail, or none
    intro h
    unfold transfer at h
    split at h
    case h_1 | h_7 => cases h
    case h_2 hflow => exact (loopExit_eq_error_iff hflow).1 (bind_pure_eq_error_iff.1 h)
    case h_3 hflow =>
      obtain ⟨hdepth, rfl⟩ := innermostExit_eq_error_iff.1 (bind_pure_eq_error_iff.1 h)
      exact .unbalanced (.inl hflow) hdepth
    case h_4 hflow =>
      obtain ⟨hdepth, rfl⟩ := innermostExit_eq_error_iff.1 (bind_pure_eq_error_iff.1 h)
      exact .unbalanced (.inr hflow) hdepth
    case h_5 hflow =>
      obtain ⟨htarget, rfl⟩ := branchTarget_eq_error_iff.1 (bind_pure_eq_error_iff.1 h)
      exact .noTarget (.inl hflow) htarget
    case h_6 hflow =>
      obtain ⟨htarget, rfl⟩ := branchTarget_eq_error_iff.1 (bind_pure_eq_error_iff.1 h)
      exact .noTarget (.inr hflow) htarget
    case h_8 hflow =>
      obtain rfl := Except.error.inj h
      exact .unsupported hflow
  · intro h
    have hentry : i.flow = .loopEntry → i.transfer policy scopes = .error fault := by
      intro hflow
      unfold transfer
      rw [hflow]
      exact bind_pure_eq_error_iff.2 ((loopExit_eq_error_iff hflow).2 h)
    cases h with
    | noExtent hflow | nestingLimit hflow | extentOverflow hflow => exact hentry hflow
    | unsupported hflow =>
      unfold transfer
      rw [hflow]
    | unbalanced hflow hdepth =>
      have hexit : i.innermostExit scopes = .error (.unbalancedScope i.offset) :=
        innermostExit_eq_error_iff.2 ⟨hdepth, rfl⟩
      unfold transfer
      rcases hflow with hflow | hflow
      · rw [hflow]
        exact bind_pure_eq_error_iff.2 hexit
      · rw [hflow]
        exact bind_pure_eq_error_iff.2 hexit
    | noTarget hflow htarget =>
      have hbranch : i.branchTarget = .error (.malformed (.noTarget i.opcode i.offset)) :=
        branchTarget_eq_error_iff.2 ⟨htarget, rfl⟩
      unfold transfer
      rcases hflow with hflow | hflow
      · rw [hflow]
        exact bind_pure_eq_error_iff.2 hbranch
      · rw [hflow]
        exact bind_pure_eq_error_iff.2 hbranch

/-- The stack of scopes grows and shrinks with the number of open loops. -/
theorem Does.length_scopes (h : i.Does policy scopes t) :
    (t.scopes scopes).length = i.depthBehind scopes.length := by
  unfold depthBehind
  cases h with
  | goOn hflow | enterLoop hflow | leaveLoop hflow | iterate hflow | branch hflow | jump hflow
  | leaveFunction hflow => simp [Transfer.scopes, hflow]

end Instruction

/-! ## §3. A body -/

namespace Code

variable {policy : Policy} {scopes : Scopes} {code : Code} {ms : List Move} {fault : Fault}

/-- What the scan leaves on the stack is as deep as the count of open loops says. -/
theorem length_after (h : moves policy scopes code = .ok ms) :
    (scopes.after ms).length = code.foldl Instruction.depthBehind scopes.length := by
  induction code generalizing scopes ms with
  | nil =>
    obtain rfl := moves_nil_eq_ok_iff.1 h
    rfl
  | cons i rest ih =>
    -- one step of the count is one step of the stack
    obtain ⟨t, ms', hdoes, hrest, rfl⟩ := moves_cons_eq_ok_iff.1 h
    rw [List.foldl_cons, ← hdoes.length_scopes, ← ih hrest]
    rfl

theorem depth_eq (h : moves policy [] code = .ok ms) : code.depth = (Scopes.after [] ms).length :=
  (length_after h).symm

/-- Where the moves of a body fail, some instruction fails behind a part that has moves. -/
theorem exists_error_of_moves (h : moves policy scopes code = .error fault) :
    ∃ before i after ms, code = before ++ i :: after ∧ moves policy scopes before = .ok ms ∧
      i.transfer policy (scopes.after ms) = .error fault := by
  -- on the body, with the scopes open in front of what is left
  induction code generalizing scopes with
  | nil => cases h
  | cons i rest ih =>
    rw [moves] at h
    cases ht : i.transfer policy scopes with
    | error e =>
      rw [ht] at h
      obtain rfl := Except.error.inj h
      exact ⟨[], i, rest, [], rfl, rfl, ht⟩
    | ok t =>
      rw [ht] at h
      have hrest := bind_pure_eq_error_iff.1 h
      obtain ⟨before, j, after, ms, rfl, hms, hj⟩ := ih hrest
      -- the first instruction passes, so it is one of those in front of the failure
      have hdoes := Instruction.transfer_eq_ok_iff.1 ht
      exact ⟨i :: before, j, after, ⟨i, t⟩ :: ms, rfl,
        moves_cons_eq_ok_iff.2 ⟨t, ms, hdoes, hms, rfl⟩, hj⟩

/-- An instruction that fails behind a part with moves fails the whole body. -/
theorem moves_append_of_error {i : Instruction} {rest : Code}
    (h : moves policy scopes code = .ok ms)
    (hi : i.transfer policy (scopes.after ms) = .error fault) :
    moves policy scopes (code ++ i :: rest) = .error fault := by
  -- on what comes in front of the failure; what comes behind is never looked at
  induction code generalizing scopes ms with
  | nil =>
    obtain rfl := moves_nil_eq_ok_iff.1 h
    have hfail : i.transfer policy scopes = .error fault := hi
    rw [List.nil_append, moves, hfail]
    rfl
  | cons j code ih =>
    obtain ⟨t, ms', hdoes, hms', rfl⟩ := moves_cons_eq_ok_iff.1 h
    rw [List.cons_append, moves, Instruction.transfer_eq_ok_iff.2 hdoes]
    exact bind_pure_eq_error_iff.2 (ih hms' hi)

/-- Where a body has moves, none of its instructions fails. -/
theorem obeys_of_moves (h : moves policy [] code = .ok ms) : code.Obeys policy := by
  intro before i after f hcode hbreaks
  subst hcode
  obtain ⟨ms₁, ms₂, h₁, h₂, _⟩ := moves_append_eq_ok_iff.1 h
  obtain ⟨t, _, hdoes, _, _⟩ := moves_cons_eq_ok_iff.1 h₂
  rw [depth_eq h₁] at hbreaks
  have herror := Instruction.transfer_eq_error_iff.2 hbreaks
  rw [Instruction.transfer_eq_ok_iff.2 hdoes] at herror
  cases herror

/-- **A body has moves exactly if all of it keeps the rules.** -/
theorem exists_moves_iff : (∃ ms, moves policy [] code = .ok ms) ↔ code.Obeys policy := by
  constructor
  · intro ⟨ms, h⟩
    exact obeys_of_moves h
  · intro hobeys
    cases h : moves policy [] code with
    | ok ms => exact ⟨ms, rfl⟩
    | error f =>
      obtain ⟨before, i, after, ms, hcode, hms, hi⟩ := exists_error_of_moves h
      have hbreaks := Instruction.transfer_eq_error_iff.1 hi
      rw [← depth_eq hms] at hbreaks
      exact absurd hbreaks (hobeys before i after f hcode)

/-- **The moves of a body fail for its first breach.** -/
theorem moves_eq_error_iff :
    moves policy [] code = .error fault ↔ code.FirstBreach policy fault := by
  constructor
  · intro h
    obtain ⟨before, i, after, ms, hcode, hms, hi⟩ := exists_error_of_moves h
    have hbreaks := Instruction.transfer_eq_error_iff.1 hi
    rw [← depth_eq hms] at hbreaks
    exact ⟨before, i, after, hcode, obeys_of_moves hms, hbreaks⟩
  · intro ⟨before, i, after, hcode, hobeys, hbreaks⟩
    -- the part in front has moves, and the instruction fails behind them
    obtain ⟨ms, hms⟩ := exists_moves_iff.2 hobeys
    rw [depth_eq hms] at hbreaks
    rw [hcode]
    exact moves_append_of_error hms (Instruction.transfer_eq_error_iff.2 hbreaks)

end Code

end BytecodeFlow
