/-
  BytecodeFlow.Opcode.Flow — HOW CONTROL LEAVES an opcode.

  Every opcode has one class of flow, and the class alone decides where blocks begin and end:

  | flow                  | opens a block | ends a block | edges                           |
  |-----------------------|---------------|--------------|---------------------------------|
  | `sequential`          | no            | no           | none of its own                 |
  | `loopEntry`           | yes           | no           | none; opens a loop scope        |
  | `loopExit`            | no            | no           | none; closes a loop scope       |
  | `iteration`           | no            | yes          | exit of the scope, next offset  |
  | `conditionalBranch`   | no            | yes          | its target, next offset         |
  | `unconditionalBranch` | no            | yes          | its target                      |
  | `functionReturn`      | no            | yes          | none, and no fallthrough        |
  | `unsupported`         | no            | no           | the analysis stops here         |

  A branch opcode also says how its argument names the target (`Addressing`).
-/
import BytecodeFlow.Opcode.Basic

namespace BytecodeFlow

/-! ## §1. Flow classes -/

/-- What an opcode does to the flow of control. -/
inductive Flow where
  /-- Goes on with the next instruction. -/
  | sequential
  /-- Opens a loop scope and goes on. -/
  | loopEntry
  /-- Closes the innermost loop scope and goes on. -/
  | loopExit
  /-- Goes on with the next item, or to the exit of the innermost loop scope. -/
  | iteration
  /-- Goes on, or to the target. -/
  | conditionalBranch
  /-- Goes to the target. -/
  | unconditionalBranch
  /-- Leaves the function. -/
  | functionReturn
  /-- Transfers control in a way the analysis has no edges for. -/
  | unsupported
deriving DecidableEq, Repr

namespace Flow

/-- Whether an instruction of this class is always the first of its block. -/
def opensBlock : Flow → Bool
  | loopEntry => true
  | _ => false

/-- Whether an instruction of this class is always the last of its block. -/
def endsBlock : Flow → Bool
  | iteration | conditionalBranch | unconditionalBranch | functionReturn => true
  | _ => false

end Flow

/-- The flow class of an opcode. -/
def Opcode.flow : Opcode → Flow
  | .setupLoop => .loopEntry
  | .popBlock => .loopExit
  | .forIter => .iteration
  | .popJumpIfFalse | .popJumpIfTrue => .conditionalBranch
  | .jumpAbsolute => .unconditionalBranch
  | .returnValue => .functionReturn
  | .jumpForward | .jumpIfFalseOrPop | .jumpIfTrueOrPop | .continueLoop
  | .setupExcept | .setupFinally | .setupWith => .unsupported
  | _ => .sequential

/-! ## §2. Branch arguments -/

/-- How the argument of a branch names its target. -/
inductive Addressing where
  /-- The target lies the argument's number of bytes past the next instruction. -/
  | relative
  /-- The argument is the target. -/
  | absolute
deriving DecidableEq, Repr

namespace Opcode

/-- How the opcode's argument names a target; `none` for an opcode that is no branch. -/
def addressing? : Opcode → Option Addressing
  | .setupLoop | .forIter | .jumpForward | .setupExcept | .setupFinally | .setupWith =>
    some .relative
  | .popJumpIfFalse | .popJumpIfTrue | .jumpAbsolute | .jumpIfFalseOrPop | .jumpIfTrueOrPop
  | .continueLoop => some .absolute
  | _ => none

/-- Whether the opcode carries a branch target. -/
def isBranch (o : Opcode) : Bool := o.addressing?.isSome

/-- Every flow class that needs a target belongs to branch opcodes only. -/
theorem isBranch_of_flow {o : Opcode}
    (h : o.flow = .loopEntry ∨ o.flow = .iteration ∨ o.flow = .conditionalBranch ∨
      o.flow = .unconditionalBranch) : o.isBranch = true := by
  revert h
  cases o <;> decide

/-- The argument of a loop entry is relative. -/
theorem addressing?_of_loopEntry {o : Opcode} (h : o.flow = .loopEntry) :
    o.addressing? = some .relative := by
  revert h
  cases o <;> decide

end Opcode

end BytecodeFlow
