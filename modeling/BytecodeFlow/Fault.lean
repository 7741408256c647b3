/-
  BytecodeFlow.Fault — WHY NO GRAPH IS BUILT, and how strict an analysis is.

  A fault names its cause with the data that cause needs; `Fault.message` is the only place that
  words it.  Faults of malformed code are a type of their own, `Defect`, because several
  checks can find one.

  | fault              | raised for                                               |
  |--------------------|----------------------------------------------------------|
  | `emptyCode`        | a body without instructions                              |
  | `unsupported`      | a control transfer that has no edges                     |
  | `unbalancedScope`  | a loop closed or iterated outside every loop scope       |
  | `nestingLimit`     | one more loop scope than the policy allows               |
  | `malformed`        | offsets, arguments, targets or edges that do not fit     |

  Three settings decide what is refused beyond what no graph can be built from.  `Policy.strict`
  is the default.  `Policy.lenient` goes on wherever a graph can still be built.

  A step that may fail is an `Except Fault`; the lemmas at the end take such steps apart.
-/
import BytecodeFlow.Offset.Basic
import BytecodeFlow.Opcode.Flow

namespace BytecodeFlow

/-! ## §1. Defects of malformed code -/

/-- What is wrong with malformed code. -/
inductive Defect where
  /-- The first instruction lies elsewhere than at offset 0. -/
  | startsAt (first : Offset)
  /-- The instruction at `offset` is said to end at or before its start. -/
  | endsBeforeStart (offset next : Offset)
  /-- `second` comes after `first` in the code without lying behind it. -/
  | outOfOrder (first second : Offset)
  /-- A loop entry has no argument. -/
  | noExtent (opcode : Opcode) (offset : Offset)
  /-- The exit of a loop lies beyond the word. -/
  | extentOverflow (extent : Nat) (offset : Offset)
  /-- A branch has no target. -/
  | noTarget (opcode : Opcode) (offset : Offset)
  /-- An edge leads where no block begins. -/
  | danglingEdge (source target : Offset)
deriving DecidableEq, Repr

/-- The wording of a defect. -/
def Defect.message : Defect → String
  | startsAt first => s!"Function body starts at offset {first} instead of 0"
  | endsBeforeStart offset next => s!"Instruction at offset {offset} is followed by offset {next}"
  | outOfOrder first second => s!"Offset {second} does not follow offset {first}"
  | noExtent opcode offset => s!"{opcode} at offset {offset} has no loop extent"
  | extentOverflow extent offset => s!"Loop extent {extent} at offset {offset} overflows"
  | noTarget opcode offset => s!"{opcode} at offset {offset} has no jump target"
  | danglingEdge source target =>
    s!"Edge from block {source} leads to offset {target}, which does not start a block"

/-! ## §2. Faults -/

/-- Why no graph is built. -/
inductive Fault where
  /-- There are no instructions. -/
  | emptyCode
  /-- The instruction at `offset` transfers control in a way that has no edges. -/
  | unsupported (opcode : Opcode) (offset : Offset)
  /-- The instruction at `offset` closes or iterates a loop, and no loop scope is open. -/
  | unbalancedScope (offset : Offset)
  /-- A loop entry finds `limit` loop scopes open already. -/
  | nestingLimit (limit : Nat)
  /-- The code has a defect. -/
  | malformed (defect : Defect)
deriving DecidableEq, Repr

/-- The wording of a fault. -/
def Fault.message : Fault → String
  | emptyCode => "Provided instruction stream was empty"
  | unsupported opcode offset => s!"Unsupported control transfer {opcode} at offset {offset}"
  | unbalancedScope offset => s!"Unbalanced loop scope at offset {offset}"
  | nestingLimit limit => s!"Reached the maximum loop nesting depth allowed - {limit}"
  | malformed defect => defect.message

instance : ToString Fault := ⟨Fault.message⟩

/-! ## §3. Reports -/

/-- The line of a file that a report of malformed code points to. -/
structure Site where
  file : String
  line : Nat
deriving DecidableEq, Repr

/-- A report of malformed code: the site, then what is wrong. -/
def Site.report (site : Site) (message : String) : String :=
  s!"Malformed - {site.file}:{site.line}: {message}"

/-! ## §4. Policies -/

/-- What an analysis refuses. -/
structure Policy where
  /-- Require offsets that start at 0 and ascend, each instruction ending behind its start. -/
  checksCode : Bool := true
  /-- Refuse an edge to an offset where no block begins; otherwise such edges are dropped. -/
  strictEdges : Bool := true
  /-- How many loop scopes may be open at once. -/
  maxLoopDepth : Nat := 20
deriving DecidableEq, Repr

namespace Policy

/-- Every check, and at most twenty nested loops. -/
def strict : Policy := {}

/-- No check that can be done without, and as many nested loops as a word can count. -/
def lenient : Policy := ⟨false, false, Offset.limit⟩

/-- `p ≤ q` if `q` refuses no more than `p`. -/
instance : LE Policy :=
  ⟨fun p q => (q.checksCode → p.checksCode) ∧ (q.strictEdges → p.strictEdges) ∧
    p.maxLoopDepth ≤ q.maxLoopDepth⟩

end Policy

/-! ## §5. Steps that may fail -/

section Composites

variable {α β : Type} {x : Except Fault α} {f : α → Except Fault β}

/-- A composite succeeds exactly if both parts do. -/
theorem bind_eq_ok_iff {b : β} : x >>= f = .ok b ↔ ∃ a, x = .ok a ∧ f a = .ok b := by
  cases x with
  | error fault => simp [Bind.bind, Except.bind]
  | ok a => simp [Bind.bind, Except.bind]

/-- A composite fails as its first part does, or behind it as the second does. -/
theorem bind_eq_error_iff {fault : Fault} :
    x >>= f = .error fault ↔ x = .error fault ∨ ∃ a, x = .ok a ∧ f a = .error fault := by
  cases x with
  | error e => simp [Bind.bind, Except.bind]
  | ok a => simp [Bind.bind, Except.bind]

theorem pure_eq_ok_iff {a b : α} : (pure a : Except Fault α) = .ok b ↔ b = a := by
  simp [Pure.pure, Except.pure, eq_comm]

end Composites

end BytecodeFlow
