/-
  BytecodeFlow.Opcode.Basic — OPCODES of a stack machine, and their names.

  An opcode is written as its mnemonic (`LOAD_CONST`) and read back from exactly that text: case,
  blanks and underscores all count.  The order of the constructors is the order of opcodes.

  Main statement: `Opcode.parse_mnemonic` — every opcode is read back from its own mnemonic.
-/

namespace BytecodeFlow

/-! ## §1. The opcodes -/

/-- The operation of one instruction. -/
inductive Opcode where
  /-- Does nothing. -/
  | nop
  /-- Drops the top of the stack. -/
  | popTop
  /-- Swaps the two topmost values. -/
  | rotTwo
  /-- Rotates the three topmost values. -/
  | rotThree
  /-- Pushes the top once more. -/
  | dupTop
  /-- Pushes a constant. -/
  | loadConst
  /-- Pushes a local variable. -/
  | loadFast
  /-- Pops into a local variable. -/
  | storeFast
  /-- Unbinds a local variable. -/
  | deleteFast
  /-- Pushes a global variable. -/
  | loadGlobal
  /-- Pops into a global variable. -/
  | storeGlobal
  /-- Replaces an object by one of its attributes. -/
  | loadAttr
  /-- Pops into an attribute. -/
  | storeAttr
  /-- Pushes the content of a closure cell. -/
  | loadDeref
  /-- Arithmetic negation. -/
  | unaryNegative
  /-- Logical negation. -/
  | unaryNot
  /-- Bitwise complement. -/
  | unaryInvert
  /-- Sum. -/
  | binaryAdd
  /-- Difference. -/
  | binarySubtract
  /-- Product. -/
  | binaryMultiply
  /-- Quotient. -/
  | binaryDivide
  /-- Quotient rounded down. -/
  | binaryFloorDivide
  /-- Remainder. -/
  | binaryModulo
  /-- Power. -/
  | binaryPower
  /-- Reads an item of a container. -/
  | binarySubscr
  /-- Sum, into the left operand. -/
  | inplaceAdd
  /-- Difference, into the left operand. -/
  | inplaceSubtract
  /-- Product, into the left operand. -/
  | inplaceMultiply
  /-- Compares the two topmost values. -/
  | compareOp
  /-- Writes an item of a container. -/
  | storeSubscr
  /-- Collects values into a tuple. -/
  | buildTuple
  /-- Collects values into a list. -/
  | buildList
  /-- Spreads a sequence over the stack. -/
  | unpackSequence
  /-- Replaces a value by an iterator over it. -/
  | getIter
  /-- Calls a function. -/
  | callFunction
  /-- Makes a function object. -/
  | makeFunction
  /-- Prints the top of the stack. -/
  | printItem
  /-- Prints a line end. -/
  | printNewline
  /-- Opens a loop scope; the argument is its extent. -/
  | setupLoop
  /-- Closes the innermost loop scope. -/
  | popBlock
  /-- Fetches the next item, or leaves the loop when there is none. -/
  | forIter
  /-- Pops a value and jumps if it is false. -/
  | popJumpIfFalse
  /-- Pops a value and jumps if it is true. -/
  | popJumpIfTrue
  /-- Jumps. -/
  | jumpAbsolute
  /-- Leaves the function. -/
  | returnValue
  /-- Jumps forward; no edge rule. -/
  | jumpForward
  /-- Jumps if the top is false, or else pops it; no edge rule. -/
  | jumpIfFalseOrPop
  /-- Jumps if the top is true, or else pops it; no edge rule. -/
  | jumpIfTrueOrPop
  /-- Jumps to the next round of a loop; no edge rule. -/
  | continueLoop
  /-- Opens a scope with a handler; no edge rule. -/
  | setupExcept
  /-- Opens a scope with a clean-up; no edge rule. -/
  | setupFinally
  /-- Opens the scope of a managed resource; no edge rule. -/
  | setupWith
deriving DecidableEq, Ord, Repr, Inhabited

namespace Opcode

/-- Every opcode, in order. -/
def all : List Opcode :=
  [.nop, .popTop, .rotTwo, .rotThree, .dupTop, .loadConst, .loadFast, .storeFast, .deleteFast,
    .loadGlobal, .storeGlobal, .loadAttr, .storeAttr, .loadDeref, .unaryNegative, .unaryNot,
    .unaryInvert, .binaryAdd, .binarySubtract, .binaryMultiply, .binaryDivide,
    .binaryFloorDivide, .binaryModulo, .binaryPower, .binarySubscr, .inplaceAdd,
    .inplaceSubtract, .inplaceMultiply, .compareOp, .storeSubscr, .buildTuple, .buildList,
    .unpackSequence, .getIter, .callFunction, .makeFunction, .printItem, .printNewline,
    .setupLoop, .popBlock, .forIter, .popJumpIfFalse, .popJumpIfTrue, .jumpAbsolute,
    .returnValue, .jumpForward, .jumpIfFalseOrPop, .jumpIfTrueOrPop, .continueLoop,
    .setupExcept, .setupFinally, .setupWith]

theorem mem_all (o : Opcode) : o ∈ all := by
  cases o <;> decide

/-- The opcodes of a list in ascending order, repeats kept. -/
def sorted (os : List Opcode) : List Opcode := os.mergeSort fun a b => (compare a b).isLE

/-! ## §2. Names -/

/-- The written name of an opcode. -/
def mnemonic : Opcode → String
  | .nop => "NOP"
  | .popTop => "POP_TOP"
  | .rotTwo => "ROT_TWO"
  | .rotThree => "ROT_THREE"
  | .dupTop => "DUP_TOP"
  | .loadConst => "LOAD_CONST"
  | .loadFast => "LOAD_FAST"
  | .storeFast => "STORE_FAST"
  | .deleteFast => "DELETE_FAST"
  | .loadGlobal => "LOAD_GLOBAL"
  | .storeGlobal => "STORE_GLOBAL"
  | .loadAttr => "LOAD_ATTR"
  | .storeAttr => "STORE_ATTR"
  | .loadDeref => "LOAD_DEREF"
  | .unaryNegative => "UNARY_NEGATIVE"
  | .unaryNot => "UNARY_NOT"
  | .unaryInvert => "UNARY_INVERT"
  | .binaryAdd => "BINARY_ADD"
  | .binarySubtract => "BINARY_SUBTRACT"
  | .binaryMultiply => "BINARY_MULTIPLY"
  | .binaryDivide => "BINARY_DIVIDE"
  | .binaryFloorDivide => "BINARY_FLOOR_DIVIDE"
  | .binaryModulo => "BINARY_MODULO"
  | .binaryPower => "BINARY_POWER"
  | .binarySubscr => "BINARY_SUBSCR"
  | .inplaceAdd => "INPLACE_ADD"
  | .inplaceSubtract => "INPLACE_SUBTRACT"
  | .inplaceMultiply => "INPLACE_MULTIPLY"
  | .compareOp => "COMPARE_OP"
  | .storeSubscr => "STORE_SUBSCR"
  | .buildTuple => "BUILD_TUPLE"
  | .buildList => "BUILD_LIST"
  | .unpackSequence => "UNPACK_SEQUENCE"
  | .getIter => "GET_ITER"
  | .callFunction => "CALL_FUNCTION"
  | .makeFunction => "MAKE_FUNCTION"
  | .printItem => "PRINT_ITEM"
  | .printNewline => "PRINT_NEWLINE"
  | .setupLoop => "SETUP_LOOP"
  | .popBlock => "POP_BLOCK"
  | .forIter => "FOR_ITER"
  | .popJumpIfFalse => "POP_JUMP_IF_FALSE"
  | .popJumpIfTrue => "POP_JUMP_IF_TRUE"
  | .jumpAbsolute => "JUMP_ABSOLUTE"
  | .returnValue => "RETURN_VALUE"
  | .jumpForward => "JUMP_FORWARD"
  | .jumpIfFalseOrPop => "JUMP_IF_FALSE_OR_POP"
  | .jumpIfTrueOrPop => "JUMP_IF_TRUE_OR_POP"
  | .continueLoop => "CONTINUE_LOOP"
  | .setupExcept => "SETUP_EXCEPT"
  | .setupFinally => "SETUP_FINALLY"
  | .setupWith => "SETUP_WITH"

instance : ToString Opcode := ⟨mnemonic⟩

/-- The words of the mnemonic, each with a capital letter, joined into one identifier. -/
def identifier (o : Opcode) : String :=
  String.join ((o.mnemonic.splitOn "_").map fun word => word.toLower.capitalize)

/-! ## §3. Reading -/

/-- A text that no opcode has as its mnemonic. -/
structure UnknownMnemonic where
  text : String
deriving DecidableEq, Repr

/-- What is said about an unknown mnemonic; the text itself is not repeated. -/
def UnknownMnemonic.message (_ : UnknownMnemonic) : String := "Matching variant not found"

/-- The opcode with the given mnemonic. -/
def parse (text : String) : Except UnknownMnemonic Opcode :=
  match all.find? (·.mnemonic = text) with
  | some o => .ok o
  | none => .error ⟨text⟩

/-- Reading a mnemonic gives back its opcode, so no two opcodes share one. -/
@[simp] theorem parse_mnemonic (o : Opcode) : parse o.mnemonic = .ok o := by
  cases o <;> rfl

/-- Reading succeeds on mnemonics only. -/
theorem parse_eq_ok_iff {text : String} {o : Opcode} : parse text = .ok o ↔ o.mnemonic = text := by
  refine ⟨fun h => ?_, fun h => h ▸ parse_mnemonic o⟩
  unfold parse at h
  split at h
  · rename_i o' hfind
    cases h
    simpa using List.find?_some hfind
  · cases h

end Opcode

end BytecodeFlow
