/-
  BytecodeFlow.Graph.Basic — BASIC BLOCKS, control-flow graphs, and the questions they answer.

  A block is a straight-line run of instructions together with the blocks that control comes
  from and goes to.  Neighbours are named by the offsets where they start, so a loop of blocks is
  a loop of names.  Within a graph the start is the block's identity: `Block.same` and the hash of
  a block look at nothing else.

  A graph holds its blocks under the offsets where they start, the order in which the blocks
  begin in the code, and the set of live blocks: the entry and every block with a predecessor.

  Code that was not checked can reach one offset twice.  Then `order` lists that offset twice,
  and the block kept under it is the one that began last.
-/
import BytecodeFlow.Offset.Map

namespace BytecodeFlow

/-- A basic block of a control-flow graph. -/
structure Block where
  /-- Where the first instruction starts. -/
  start : Offset
  /-- The offsets of the instructions, in program order. -/
  body : Array Offset
  /-- Where the successors start. -/
  outgoing : OffsetSet
  /-- Where the predecessors start. -/
  incoming : OffsetSet
  /-- Whether control leaves the function behind the block. -/
  terminating : Bool
deriving DecidableEq

namespace Block

/-! ## §1. Identity -/

/-- Whether two blocks start at the same offset. -/
def same (a b : Block) : Bool := a.start == b.start

instance : Hashable Block := ⟨fun b => hash b.start⟩

/-- Blocks of one identity have one hash, whatever else is in them. -/
theorem hash_eq_of_same {a b : Block} (h : a.same b = true) : hash a = hash b := by
  show hash a.start = hash b.start
  rw [eq_of_beq h]

/-! ## §2. Views -/

/-- The number of instructions. -/
def size (b : Block) : Nat := b.body.size

/-- Whether there are no instructions. -/
def isEmpty (b : Block) : Bool := b.body.isEmpty

/-- Where the last instruction starts. -/
def last? (b : Block) : Option Offset := b.body.back?

/-- Whether the instruction at `x` is in the block, found by bisection. -/
def contains (b : Block) (x : Offset) : Bool := bisect b.body x

/-- Whether the block has no successors. -/
def isExit (b : Block) : Bool := b.outgoing.isEmpty

/-- In an ascending body the search finds exactly the members. -/
theorem contains_iff {b : Block} {x : Offset} (h : b.body.toList.Pairwise (· < ·)) :
    b.contains x = true ↔ x ∈ b.body :=
  bisect_iff h

/-! ## §3. Text -/

/-- The block in one line: its body in square brackets, its neighbours in braces. -/
def text (b : Block) : String :=
  let set (s : OffsetSet) := String.singleton '{' ++ Offset.joined s.toList ++ String.singleton '}'
  "block(body: [" ++ Offset.joined b.body.toList ++ "], outgoing: " ++ set b.outgoing
    ++ ", incoming: " ++ set b.incoming ++ ")"

instance : ToString Block := ⟨text⟩

end Block

/-- A control-flow graph. -/
structure Graph where
  /-- The blocks, each under the offset where it starts. -/
  blocks : OffsetMap Block
  /-- Where the blocks start, in program order. -/
  order : List Offset
  /-- Where the live blocks start. -/
  live : OffsetSet
deriving DecidableEq

namespace Graph

/-! ## §4. Blocks of a graph -/

/-- Where the first block starts. -/
def entry (g : Graph) : Offset := g.order.headD 0

/-- Where the last block in program order starts. -/
def last? (g : Graph) : Option Offset := g.order.getLast?

/-- The block that starts at `o`. -/
def block? (g : Graph) (o : Offset) : Option Block := g.blocks.get? o

/-- The number of blocks. -/
def size (g : Graph) : Nat := g.blocks.size

/-- The blocks in program order. -/
def inOrder (g : Graph) : List Block := g.order.filterMap g.block?

/-- The block that holds the instruction at `x`: of the blocks that start at or before `x` the
    nearest one, if `x` is in it. -/
def blockOf? (g : Graph) (x : Offset) : Option Block := (g.blocks.floor? x).filter (·.contains x)

/-- Where the blocks without successors start, in program order. -/
def exits (g : Graph) : List Offset := (g.inOrder.filter (·.isExit)).map (·.start)

/-! ## §5. Edges -/

/-- Where the successors of the block at `o` start. -/
def successors? (g : Graph) (o : Offset) : Option OffsetSet := (g.block? o).map (·.outgoing)

/-- Where the predecessors of the block at `o` start. -/
def predecessors? (g : Graph) (o : Offset) : Option OffsetSet := (g.block? o).map (·.incoming)

/-- Whether the block at `o` is live. -/
def isLive (g : Graph) (o : Offset) : Bool := o ∈ g.live

/-- Control can go from the block at `a` to the block at `b`. -/
def Edge (g : Graph) (a b : Offset) : Prop := ∃ s, g.successors? a = some s ∧ b ∈ s

instance (g : Graph) (a b : Offset) : Decidable (g.Edge a b) :=
  decidable_of_iff ((g.successors? a).any (b ∈ ·) = true) (by simp [Edge, Option.any_eq_true])

end Graph

end BytecodeFlow
