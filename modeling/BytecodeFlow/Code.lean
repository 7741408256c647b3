/-
  BytecodeFlow.Code — INSTRUCTIONS, and function bodies as lists of them.

  An instruction knows its own offset, the offset behind it, its raw argument and, for a branch,
  where it leads.  The target is derived from the argument when the instruction is decoded;
  whoever knows the target from elsewhere can set it with `Instruction.withTarget`.

  A body is its instructions in program order.  Two questions are asked of it as a whole: which
  offsets its branches lead to (`Code.labels`), and whether its offsets are laid out as they
  should be (`Code.defect?`).

  Main statement: `Code.defect?_eq_none_iff` — no defect is found exactly in a body that starts
  at 0, whose instructions each end behind their start, and whose offsets ascend.
-/
import BytecodeFlow.Offset.Set
import BytecodeFlow.Fault

namespace BytecodeFlow

/-- One decoded instruction. -/
structure Instruction where
  /-- Where the instruction starts. -/
  offset : Offset
  opcode : Opcode
  /-- The raw argument, if the opcode takes one. -/
  arg : Option Nat
  /-- Where the instruction after it starts. -/
  next : Offset
  /-- Where the branch leads, if it is one and its target is known. -/
  target : Option Offset
deriving DecidableEq, Repr

namespace Instruction

/-! ## §1. Decoding -/

/-- The target that an argument names for an opcode; a relative target beyond the word is none. -/
def targetOf (opcode : Opcode) (arg : Option Nat) (next : Offset) : Option Offset :=
  match opcode.addressing?, arg with
  | some .relative, some n => next.advance? n
  | some .absolute, some n => some n
  | _, _ => none

/-- The argument of a loop entry names the exit of the loop. -/
theorem targetOf_of_loopEntry {opcode : Opcode} {extent : Nat} {next : Offset}
    (h : opcode.flow = .loopEntry) (hle : next + extent ≤ Offset.limit) :
    targetOf opcode (some extent) next = some (next + extent) := by
  unfold targetOf
  rw [Opcode.addressing?_of_loopEntry h]
  exact Offset.advance?_eq_some_iff.2 ⟨hle, rfl⟩

/-- The instruction with its target derived from the argument. -/
def decode (offset : Offset) (opcode : Opcode) (arg : Option Nat) (next : Offset) : Instruction :=
  { offset, opcode, arg, next, target := targetOf opcode arg next }

/-- The same instruction leading to `target`, whatever its argument says. -/
def withTarget (i : Instruction) (target : Offset) : Instruction := { i with target := some target }

/-! ## §2. Views -/

/-- The flow class of the opcode. -/
def flow (i : Instruction) : Flow := i.opcode.flow

/-- Whether the opcode carries a branch target. -/
def isBranch (i : Instruction) : Bool := i.opcode.isBranch

/-- The number of bytes up to the next instruction; none if that lies before this one. -/
def size (i : Instruction) : Nat := i.next - i.offset

/-! ## §3. Text -/

/-- The offset column of a listing: four places, blanks to the left, wider if it must be. -/
def offsetColumn (o : Offset) : String :=
  let digits := toString o
  "".pushn ' ' (4 - digits.length) ++ digits

/-- One line of a listing: offset, mnemonic, argument if any, target if any. -/
def text (i : Instruction) : String :=
  let arg := match i.arg with
    | some n => s!" {n}"
    | none => ""
  let target := match i.target with
    | some t => s!" (to {t})"
    | none => ""
  s!"{offsetColumn i.offset}: {i.opcode}{arg}{target}"

instance : ToString Instruction := ⟨text⟩

end Instruction

/-- A function body: its instructions in program order. -/
abbrev Code := List Instruction

namespace Code

/-- The offsets of the instructions, in program order. -/
def offsets (code : Code) : List Offset := code.map (·.offset)

/-! ## §4. Labels -/

/-- The offsets that the branches of the body lead to. -/
def labels (code : Code) : OffsetSet :=
  .ofList ((code.filter (·.isBranch)).filterMap (·.target))

/-- Labels come from branches alone, and from those only whose target is known. -/
theorem mem_labels_iff {code : Code} {x : Offset} :
    x ∈ code.labels ↔ ∃ i ∈ code, i.isBranch = true ∧ i.target = some x := by
  simp [labels, and_assoc]

/-! ## §5. Layout -/

/-- The defect of a first instruction away from offset 0. -/
def startDefect? (code : Code) : Option Defect :=
  code.head?.bind fun i => if i.offset = 0 then none else some (.startsAt i.offset)

/-- The defect of the first instruction that does not end behind its start. -/
def extentDefect? (code : Code) : Option Defect :=
  (code.find? fun i => i.next ≤ i.offset).map fun i => .endsBeforeStart i.offset i.next

/-- The defect of the first two neighbours whose offsets do not ascend. -/
def orderDefect? (code : Code) : Option Defect :=
  ((code.zip code.tail).find? fun (i, j) => j.offset ≤ i.offset).map fun (i, j) =>
    .outOfOrder i.offset j.offset

/-- The first defect in the layout of a body: of its start, then of its instructions one by one,
    then of its neighbours. -/
def defect? (code : Code) : Option Defect :=
  code.startDefect? <|> code.extentDefect? <|> code.orderDefect?

/-- An empty body has no start that could be wrong. -/
theorem startDefect?_eq_none_iff {code : Code} :
    code.startDefect? = none ↔ ∀ i ∈ code.head?, i.offset = 0 := by
  cases code <;> simp [startDefect?]

theorem extentDefect?_eq_none_iff {code : Code} :
    code.extentDefect? = none ↔ ∀ i ∈ code, i.offset < i.next := by
  simp [extentDefect?]

/-- Neighbours that ascend make the whole list ascend. -/
theorem orderDefect?_eq_none_iff {code : Code} :
    code.orderDefect? = none ↔ code.offsets.Pairwise (· < ·) := by
  -- the check sees neighbours only; transitivity carries the order to the rest of the list
  induction code with
  | nil => simp [orderDefect?, offsets]
  | cons i rest ih => cases rest with
    | nil => simp [orderDefect?, offsets]
    | cons j rest =>
      have hstep : orderDefect? (i :: j :: rest) = none ↔
          i.offset < j.offset ∧ orderDefect? (j :: rest) = none := by
        simp only [orderDefect?, List.tail_cons, List.zip_cons_cons, List.find?_cons]
        by_cases h : j.offset ≤ i.offset
        · simp [h, Nat.not_lt.2 h]
        · simp [h, Nat.not_le.1 h]
      rw [hstep, ih]
      simp only [offsets, List.map_cons, List.pairwise_cons, List.mem_cons]
      constructor
      · rintro ⟨hij, hj, hrest⟩
        refine ⟨fun k hk => ?_, hj, hrest⟩
        rcases hk with rfl | hk
        · exact hij
        · exact Nat.lt_trans hij (hj k hk)
      · rintro ⟨hi, hj, hrest⟩
        exact ⟨hi _ (.inl rfl), hj, hrest⟩

/-- **What the layout check accepts.** -/
theorem defect?_eq_none_iff {code : Code} :
    code.defect? = none ↔ (∀ i ∈ code.head?, i.offset = 0) ∧ (∀ i ∈ code, i.offset < i.next) ∧
      code.offsets.Pairwise (· < ·) := by
  simp [defect?, startDefect?_eq_none_iff, extentDefect?_eq_none_iff, orderDefect?_eq_none_iff]

/-! ## §6. Bodies to look at

Three small bodies that several modules apply their theorems to.  A body that one module alone
looks at is named there. -/

/-- A loop over an iterator, and a return behind it:

    ```
    0  SETUP_LOOP  4    the loop ends at 6
    2  FOR_ITER         to the body at 4, or to the exit at 6
    4  JUMP_ABSOLUTE 2
    6  POP_BLOCK
    8  RETURN_VALUE
    ``` -/
def loop : Code :=
  [.decode 0 .setupLoop (some 4) 2, .decode 2 .forIter none 4, .decode 4 .jumpAbsolute (some 2) 6,
    .decode 6 .popBlock none 8, .decode 8 .returnValue none 10]

/-- Two returns, and two dead jumps that lead backwards, the second to the first and that one to
    the second return:

    ```
    0  RETURN_VALUE
    2  RETURN_VALUE
    4  JUMP_ABSOLUTE 2
    6  JUMP_ABSOLUTE 4
    ``` -/
def deadJumps : Code :=
  [.decode 0 .returnValue none 2, .decode 2 .returnValue none 4, .decode 4 .jumpAbsolute (some 2) 6,
    .decode 6 .jumpAbsolute (some 4) 8]

/-- A body that comes back to offset 0, and jumps from there to where nothing is:

    ```
    0  NOP
    2  JUMP_ABSOLUTE 0
    0  JUMP_ABSOLUTE 98
    ``` -/
def restart : Code :=
  [.decode 0 .nop none 2, .decode 2 .jumpAbsolute (some 0) 4, .decode 0 .jumpAbsolute (some 98) 2]

end Code

end BytecodeFlow
