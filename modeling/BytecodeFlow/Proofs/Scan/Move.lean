/-
  BytecodeFlow.Proofs.Scan.Move — MOVES: what each instruction does to control where it stands.

  The scan does two things at once: it works out what each instruction does, which depends on the
  open loop scopes alone, and it puts the instruction into a segment, which depends on the labels
  as well.  The first half by itself is `Code.moves`.  It knows no labels, and it fails exactly
  where the scan fails.

  `Instruction.Does` lists, case by case, what an instruction can do.  Later proofs split on it
  and leave `Instruction.transfer` alone.
-/
import BytecodeFlow.Transfer
import BytecodeFlow.Code

namespace BytecodeFlow

/-! ## §1. What an instruction can do -/

/-- `i.Does policy scopes t`: where `scopes` are open, `i` passes its checks and does `t`. -/
inductive Instruction.Does (policy : Policy) (scopes : Scopes) (i : Instruction) : Transfer → Prop
  where
  | goOn (hflow : i.flow = .sequential) : Does policy scopes i .goOn
  | enterLoop {extent : Nat} (hflow : i.flow = .loopEntry) (harg : i.arg = some extent)
      (hdepth : scopes.length < policy.maxLoopDepth) (hexit : i.next + extent ≤ Offset.limit) :
      Does policy scopes i (.enterLoop (i.next + extent))
  | leaveLoop {exit : Offset} {outer : Scopes} (hflow : i.flow = .loopExit)
      (hscopes : scopes = exit :: outer) : Does policy scopes i .leaveLoop
  | iterate {exit : Offset} {outer : Scopes} (hflow : i.flow = .iteration)
      (hscopes : scopes = exit :: outer) : Does policy scopes i (.branch {exit, i.next})
  | branch {target : Offset} (hflow : i.flow = .conditionalBranch)
      (htarget : i.target = some target) : Does policy scopes i (.branch {target, i.next})
  | jump {target : Offset} (hflow : i.flow = .unconditionalBranch)
      (htarget : i.target = some target) : Does policy scopes i (.branch {target})
  | leaveFunction (hflow : i.flow = .functionReturn) : Does policy scopes i .leaveFunction

namespace Instruction

variable {policy : Policy} {scopes : Scopes} {i : Instruction} {t : Transfer}

/-- The checks of a loop entry, all of which it has to pass. -/
theorem loopExit_eq_ok_iff {exit : Offset} :
    i.loopExit policy scopes = .ok exit ↔
      ∃ extent, i.arg = some extent ∧ scopes.length < policy.maxLoopDepth ∧
        i.next + extent ≤ Offset.limit ∧ exit = i.next + extent := by
  unfold loopExit
  cases harg : i.arg with
  | none => simp
  | some extent =>
    by_cases hdepth : policy.maxLoopDepth ≤ scopes.length
    · simp [hdepth, Nat.not_lt.2 hdepth]
    · have hlt : scopes.length < policy.maxLoopDepth := Nat.not_le.1 hdepth
      simp only [hdepth, if_false]
      -- advancing stays within the word exactly if the exit does
      cases hexit : i.next.advance? extent with
      | none =>
        have hover : ¬ i.next + extent ≤ Offset.limit :=
          Nat.not_le.2 (Offset.advance?_eq_none_iff.1 hexit)
        simp [hover]
      | some e =>
        obtain ⟨hle, rfl⟩ := Offset.advance?_eq_some_iff.1 hexit
        simp [hlt, hle, eq_comm]

theorem innermostExit_eq_ok_iff {exit : Offset} :
    i.innermostExit scopes = .ok exit ↔ ∃ outer, scopes = exit :: outer := by
  unfold innermostExit
  cases scopes <;> simp

theorem branchTarget_eq_ok_iff {target : Offset} :
    i.branchTarget = .ok target ↔ i.target = some target := by
  unfold branchTarget
  cases i.target <;> simp

/-- **What an instruction does, case by case**: the transfer and the list agree. -/
theorem transfer_eq_ok_iff : i.transfer policy scopes = .ok t ↔ i.Does policy scopes t := by
  constructor
  · intro h
    unfold transfer at h
    -- the eight classes of flow, in the order of the definition; the last is not supported
    split at h
    case h_1 hflow => obtain rfl := Except.ok.inj h; exact .goOn hflow
    case h_2 hflow =>
      obtain ⟨exit, hexit, h⟩ := bind_eq_ok_iff.1 h
      obtain rfl := pure_eq_ok_iff.1 h
      obtain ⟨extent, harg, hdepth, hle, rfl⟩ := loopExit_eq_ok_iff.1 hexit
      exact .enterLoop hflow harg hdepth hle
    case h_3 hflow =>
      obtain ⟨exit, hexit, h⟩ := bind_eq_ok_iff.1 h
      obtain rfl := pure_eq_ok_iff.1 h
      obtain ⟨outer, hscopes⟩ := innermostExit_eq_ok_iff.1 hexit
      exact .leaveLoop hflow hscopes
    case h_4 hflow =>
      obtain ⟨exit, hexit, h⟩ := bind_eq_ok_iff.1 h
      obtain rfl := pure_eq_ok_iff.1 h
      obtain ⟨outer, hscopes⟩ := innermostExit_eq_ok_iff.1 hexit
      exact .iterate hflow hscopes
    case h_5 hflow =>
      obtain ⟨target, htarget, h⟩ := bind_eq_ok_iff.1 h
      obtain rfl := pure_eq_ok_iff.1 h
      exact .branch hflow (branchTarget_eq_ok_iff.1 htarget)
    case h_6 hflow =>
      obtain ⟨target, htarget, h⟩ := bind_eq_ok_iff.1 h
      obtain rfl := pure_eq_ok_iff.1 h
      exact .jump hflow (branchTarget_eq_ok_iff.1 htarget)
    case h_7 hflow => obtain rfl := Except.ok.inj h; exact .leaveFunction hflow
    case h_8 => cases h
  · intro h
    unfold transfer
    cases h with
    | goOn hflow => rw [hflow]
    | enterLoop hflow harg hdepth hle =>
      rw [hflow]
      exact bind_eq_ok_iff.2 ⟨_, loopExit_eq_ok_iff.2 ⟨_, harg, hdepth, hle, rfl⟩, rfl⟩
    | leaveLoop hflow hscopes =>
      rw [hflow]
      exact bind_eq_ok_iff.2 ⟨_, innermostExit_eq_ok_iff.2 ⟨_, hscopes⟩, rfl⟩
    | iterate hflow hscopes =>
      rw [hflow]
      exact bind_eq_ok_iff.2 ⟨_, innermostExit_eq_ok_iff.2 ⟨_, hscopes⟩, rfl⟩
    | branch hflow htarget =>
      rw [hflow]
      exact bind_eq_ok_iff.2 ⟨_, branchTarget_eq_ok_iff.2 htarget, rfl⟩
    | jump hflow htarget =>
      rw [hflow]
      exact bind_eq_ok_iff.2 ⟨_, branchTarget_eq_ok_iff.2 htarget, rfl⟩
    | leaveFunction hflow => rw [hflow]

end Instruction

/-! ## §2. Views of a transfer -/

namespace Transfer

/-- Where the transfer branches to. -/
def targets : Transfer → OffsetSet
  | branch targets => targets
  | goOn | enterLoop _ | leaveLoop | leaveFunction => ∅

/-- Whether the transfer leaves the function. -/
def returns : Transfer → Bool
  | leaveFunction => true
  | goOn | enterLoop _ | leaveLoop | branch _ => false

/-- Whether a block ends with the transfer. -/
def endsBlock : Transfer → Bool
  | branch _ | leaveFunction => true
  | goOn | enterLoop _ | leaveLoop => false

variable {t : Transfer}

/-- What does not end a block has no targets and does not return. -/
theorem targets_of_goesOn (h : t.endsBlock = false) : t.targets = ∅ ∧ t.returns = false := by
  cases t with
  | goOn | enterLoop | leaveLoop => exact ⟨rfl, rfl⟩
  | branch | leaveFunction => cases h

/-- What has a target ends a block. -/
theorem endsBlock_of_mem_targets {x : Offset} (h : x ∈ t.targets) : t.endsBlock = true := by
  cases t with
  | branch => rfl
  | goOn | enterLoop | leaveLoop | leaveFunction => exact absurd h OffsetSet.not_mem_empty

/-- A return leads nowhere in the body. -/
theorem targets_of_returns (h : t.returns = true) : t.targets = ∅ := by
  cases t with
  | leaveFunction => rfl
  | goOn | enterLoop | leaveLoop | branch => cases h

end Transfer

namespace Instruction.Does

variable {policy : Policy} {scopes : Scopes} {i : Instruction} {t : Transfer}

theorem falls_iff (h : i.Does policy scopes t) :
    t.endsBlock = false ↔ i.flow = .sequential ∨ i.flow = .loopEntry ∨ i.flow = .loopExit := by
  cases h with
  | goOn hflow | enterLoop hflow | leaveLoop hflow | iterate hflow | branch hflow | jump hflow
  | leaveFunction hflow => simp [Transfer.endsBlock, hflow]

theorem returns (h : i.Does policy scopes t) : t.returns = true ↔ i.flow = .functionReturn := by
  cases h with
  | goOn hflow | enterLoop hflow | leaveLoop hflow | iterate hflow | branch hflow | jump hflow
  | leaveFunction hflow => simp [Transfer.returns, hflow]

/-- What ends a block without a return leads somewhere. -/
theorem targets_ne_empty (h : i.Does policy scopes t) (hends : t.endsBlock = true)
    (hreturns : t.returns = false) : t.targets ≠ ∅ := by
  intro hempty
  have hnone : ∀ x, x ∉ t.targets := by
    intro x
    rw [hempty]
    exact OffsetSet.not_mem_empty
  cases h with
  | goOn | enterLoop | leaveLoop => cases hends
  | leaveFunction => cases hreturns
  | iterate => exact hnone i.next (by simp [Transfer.targets])
  | branch => exact hnone i.next (by simp [Transfer.targets])
  | @jump target => exact hnone target (by simp [Transfer.targets])

end Instruction.Does

/-! ## §3. The moves of a body -/

/-- An instruction and what it does to control where it stands. -/
structure Move where
  instruction : Instruction
  transfer : Transfer

/-- Where the instruction starts. -/
def Move.offset (m : Move) : Offset := m.instruction.offset

/-- The scopes open behind `ms` if `before` are open in front of them. -/
def Scopes.after (before : Scopes) (ms : List Move) : Scopes :=
  ms.foldl (fun scopes m => m.transfer.scopes scopes) before

/-- The moves of a body that starts where `scopes` are open. -/
def Code.moves (policy : Policy) : Scopes → Code → Except Fault (List Move)
  | _, [] => .ok []
  | scopes, i :: rest => do
    let transfer ← i.transfer policy scopes
    let moves ← Code.moves policy (transfer.scopes scopes) rest
    return ⟨i, transfer⟩ :: moves

namespace Code

variable {policy : Policy} {scopes : Scopes} {i : Instruction} {code : Code} {ms : List Move}

theorem moves_nil_eq_ok_iff : moves policy scopes [] = .ok ms ↔ ms = [] := by
  unfold moves
  simp [eq_comm]

/-- The first instruction moves, and the rest goes on from the scopes that it leaves. -/
theorem moves_cons_eq_ok_iff :
    moves policy scopes (i :: code) = .ok ms ↔
      ∃ t rest, i.Does policy scopes t ∧ moves policy (t.scopes scopes) code = .ok rest ∧
        ms = ⟨i, t⟩ :: rest := by
  rw [moves]
  constructor
  · intro h
    obtain ⟨t, ht, h⟩ := bind_eq_ok_iff.1 h
    obtain ⟨rest, hrest, h⟩ := bind_eq_ok_iff.1 h
    exact ⟨t, rest, Instruction.transfer_eq_ok_iff.1 ht, hrest, pure_eq_ok_iff.1 h⟩
  · intro ⟨t, rest, ht, hrest, hms⟩
    refine bind_eq_ok_iff.2 ⟨t, Instruction.transfer_eq_ok_iff.2 ht, ?_⟩
    exact bind_eq_ok_iff.2 ⟨rest, hrest, pure_eq_ok_iff.2 hms⟩

/-- The moves of a body in two parts are those of either part, the second where the first ends. -/
theorem moves_append_eq_ok_iff {rest : Code} :
    moves policy scopes (code ++ rest) = .ok ms ↔
      ∃ ms₁ ms₂, moves policy scopes code = .ok ms₁ ∧
        moves policy (scopes.after ms₁) rest = .ok ms₂ ∧ ms = ms₁ ++ ms₂ := by
  induction code generalizing scopes ms with
  | nil => simp [moves, Scopes.after]
  | cons i code ih =>
    simp only [List.cons_append, moves_cons_eq_ok_iff, ih]
    constructor
    · -- the first move goes with the first part on either side
      intro ⟨t, _, ht, ⟨ms₁, ms₂, h₁, h₂, hrest⟩, hms⟩
      exact ⟨⟨i, t⟩ :: ms₁, ms₂, ⟨t, ms₁, ht, h₁, rfl⟩, h₂, by rw [hms, hrest]; rfl⟩
    · intro ⟨_, ms₂, ⟨t, ms₁, ht, h₁, hcons⟩, h₂, hms⟩
      subst hcons
      exact ⟨t, ms₁ ++ ms₂, ht, ⟨ms₁, ms₂, h₁, h₂, rfl⟩, hms⟩

/-- Moves forget no instruction. -/
theorem map_instruction_moves (h : moves policy scopes code = .ok ms) :
    ms.map (·.instruction) = code := by
  induction code generalizing scopes ms with
  | nil => rw [moves_nil_eq_ok_iff.1 h]; rfl
  | cons i code ih =>
    obtain ⟨t, rest, _, hrest, rfl⟩ := moves_cons_eq_ok_iff.1 h
    rw [List.map_cons, ih hrest]

theorem map_offset_moves (h : moves policy scopes code = .ok ms) :
    ms.map Move.offset = code.offsets := by
  rw [← map_instruction_moves h]
  unfold offsets
  rw [List.map_map]
  rfl

/-- A move somewhere in a body is what its instruction does behind the part before it. -/
theorem does_of_moves {before after : List Move} {m : Move}
    (h : moves policy scopes code = .ok (before ++ m :: after)) :
    m.instruction.Does policy (scopes.after before) m.transfer ∧
      moves policy scopes (before.map (·.instruction)) = .ok before := by
  have hcode := map_instruction_moves h
  rw [List.map_append, List.map_cons] at hcode
  -- split the body where the moves are split; the two splits agree by their lengths
  rw [← hcode] at h
  obtain ⟨ms₁, ms₂, h₁, h₂, heq⟩ := moves_append_eq_ok_iff.1 h
  have hlen : before.length = ms₁.length := by
    have := congrArg List.length (map_instruction_moves h₁)
    simpa using this.symm
  obtain ⟨rfl, htail⟩ := List.append_inj heq hlen
  obtain ⟨t, rest, ht, -, hms₂⟩ := moves_cons_eq_ok_iff.1 h₂
  have hm : m = ⟨m.instruction, t⟩ := (List.cons.inj (htail.trans hms₂)).1
  rw [hm]
  exact ⟨ht, h₁⟩

end Code

end BytecodeFlow
