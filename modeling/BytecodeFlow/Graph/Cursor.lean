/-
  BytecodeFlow.Graph.Cursor — WALKING ALONG THE BLOCKS of a graph from both ends.

  A cursor holds the part of the program order that is still ahead.  `next` takes the block at its
  front, `nextBack` the one at its back, and both look the block up in the graph.  `nth k` and
  `nthBack k` pass `k` blocks over first; running off the end leaves nothing ahead.
-/
import BytecodeFlow.Graph.Basic

namespace BytecodeFlow

/-- A position between the blocks of `g`, seen from both ends. -/
structure Cursor (g : Graph) where
  /-- Where the blocks still ahead start, in program order. -/
  ahead : List Offset
deriving DecidableEq

namespace Cursor

variable {g : Graph}

/-- The cursor in front of all blocks. -/
def start (g : Graph) : Cursor g := ⟨g.order⟩

/-! ## §1. Steps -/

/-- The first block ahead, and the cursor behind it. -/
def next (c : Cursor g) : Option Block × Cursor g :=
  match c.ahead with
  | [] => (none, c)
  | o :: rest => (g.block? o, ⟨rest⟩)

/-- The last block ahead, and the cursor that ends before it. -/
def nextBack (c : Cursor g) : Option Block × Cursor g :=
  match c.ahead.getLast? with
  | none => (none, c)
  | some o => (g.block? o, ⟨c.ahead.dropLast⟩)

/-- The answer of a step comes from what lies ahead; the ends of the whole graph play no part. -/
theorem next_fst (c : Cursor g) : c.next.1 = c.ahead.head?.bind g.block? := by
  obtain ⟨l⟩ := c
  cases l <;> rfl

/-- A step takes the front off what lies ahead, and nothing once that is empty. -/
theorem ahead_next (c : Cursor g) : c.next.2.ahead = c.ahead.tail := by
  obtain ⟨l⟩ := c
  cases l <;> rfl

theorem nextBack_fst (c : Cursor g) : c.nextBack.1 = c.ahead.getLast?.bind g.block? := by
  unfold nextBack
  cases c.ahead.getLast? <;> rfl

theorem ahead_nextBack (c : Cursor g) : c.nextBack.2.ahead = c.ahead.dropLast := by
  unfold nextBack
  cases h : c.ahead.getLast? with
  | none => rw [List.getLast?_eq_none_iff.1 h]; rfl
  | some o => rfl

/-- Repeats a step `k` times and once more, giving up where it finds no block. -/
def repeatStep (step : Cursor g → Option Block × Cursor g) :
    Nat → Cursor g → Option Block × Cursor g
  | 0, c => step c
  | k + 1, c =>
    match step c with
    | (some _, c) => repeatStep step k c
    | (none, c) => (none, c)

/-- Passes `k` blocks over at the front and takes the next one. -/
def nth (k : Nat) (c : Cursor g) : Option Block × Cursor g := repeatStep next k c

/-- Passes `k` blocks over at the back and takes the next one. -/
def nthBack (k : Nat) (c : Cursor g) : Option Block × Cursor g := repeatStep nextBack k c

/-! ## §2. What is ahead -/

/-- The number of blocks ahead. -/
def size (c : Cursor g) : Nat := c.ahead.length

/-- The least and the greatest number of blocks that can still come. -/
def bounds (c : Cursor g) : Nat × Nat := (c.size, c.size)

/-- The blocks ahead, in program order. -/
def toList (c : Cursor g) : List Block := c.ahead.filterMap g.block?

/-- The last block ahead. -/
def last? (c : Cursor g) : Option Block := c.toList.getLast?

end Cursor

end BytecodeFlow
