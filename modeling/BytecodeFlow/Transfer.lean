/-
  BytecodeFlow.Transfer — WHAT ONE INSTRUCTION DOES to control.

  A loop entry opens a scope that ends at a known exit, a loop exit closes the innermost scope,
  and an iteration may leave for that exit.  So what an instruction does depends on the scopes
  that are open before it, and on nothing else of the code: labels play no part
  (`Instruction.transfer`).

  Where several faults meet in one loop entry the order is: no argument, too many scopes, exit
  beyond the word.
-/
import BytecodeFlow.Code

namespace BytecodeFlow

/-! ## §1. Transfers -/

/-- What an instruction does to control. -/
inductive Transfer where
  /-- Goes on with the next instruction. -/
  | goOn
  /-- Opens a loop scope that ends at `exit`, and goes on. -/
  | enterLoop (exit : Offset)
  /-- Closes the innermost loop scope, and goes on. -/
  | leaveLoop
  /-- Goes to one of `targets`. -/
  | branch (targets : OffsetSet)
  /-- Leaves the function. -/
  | leaveFunction
deriving DecidableEq

/-- The exits of the open loop scopes, from the innermost out. -/
abbrev Scopes := List Offset

/-- The scopes open behind an instruction that does `t`. -/
def Transfer.scopes (t : Transfer) (before : Scopes) : Scopes :=
  match t with
  | enterLoop exit => exit :: before
  | leaveLoop => before.tail
  | goOn | branch _ | leaveFunction => before

/-! ## §2. The transfer of an instruction -/

namespace Instruction

/-- Where the loop that `i` enters ends: as far past the next instruction as the argument says. -/
def loopExit (policy : Policy) (scopes : Scopes) (i : Instruction) : Except Fault Offset :=
  match i.arg with
  | none => .error (.malformed (.noExtent i.opcode i.offset))
  | some extent =>
    if policy.maxLoopDepth ≤ scopes.length then .error (.nestingLimit policy.maxLoopDepth)
    else match i.next.advance? extent with
      | some exit => .ok exit
      | none => .error (.malformed (.extentOverflow extent i.offset))

/-- Where the branch `i` leads. -/
def branchTarget (i : Instruction) : Except Fault Offset :=
  match i.target with
  | some target => .ok target
  | none => .error (.malformed (.noTarget i.opcode i.offset))

/-- The exit of the innermost open scope, asked for by `i`. -/
def innermostExit (scopes : Scopes) (i : Instruction) : Except Fault Offset :=
  match scopes with
  | exit :: _ => .ok exit
  | [] => .error (.unbalancedScope i.offset)

/-- What `i` does to control when the given loop scopes are open before it. -/
def transfer (policy : Policy) (scopes : Scopes) (i : Instruction) : Except Fault Transfer :=
  match i.flow with
  | .sequential => .ok .goOn
  | .loopEntry => do return .enterLoop (← i.loopExit policy scopes)
  | .loopExit => do
    let _ ← i.innermostExit scopes
    return .leaveLoop
  | .iteration => do return .branch {← i.innermostExit scopes, i.next}
  | .conditionalBranch => do return .branch {← i.branchTarget, i.next}
  | .unconditionalBranch => do return .branch {← i.branchTarget}
  | .functionReturn => .ok .leaveFunction
  | .unsupported => .error (.unsupported i.opcode i.offset)

end Instruction

end BytecodeFlow
