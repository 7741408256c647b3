/-
  BytecodeFlow.Analysis — A FUNCTION BODY ANALYSED: its graph and its dominator sets.

  A body is checked as a whole, cut into segments, laid out, and its edges are settled; the first
  of these steps that finds a fault ends the build.  A finished graph is reported with its
  numbers of blocks, live blocks and instructions.

  The dominator sets are computed from the finished graph, so only the graph can fail.  The last
  record of a run that succeeds tells in how many passes the sets were found.
-/
import BytecodeFlow.Dominance.Basic
import BytecodeFlow.Layout

namespace BytecodeFlow

/-! ## §1. From code to graph -/

/-- What is asked of a body before any instruction is looked at on its own. -/
def Code.check (policy : Policy) (code : Code) : Except Fault Unit :=
  if code.isEmpty then .error .emptyCode
  else if policy.checksCode then
    match code.defect? with
    | some defect => .error (.malformed defect)
    | none => .ok ()
  else .ok ()

/-- The control-flow graph of a body whose branch targets are among `labels`. -/
def Graph.build (policy : Policy) (labels : OffsetSet) (code : Code) : Logged Graph := do
  code.check policy
  let segments ← code.segments policy labels
  let layout := Layout.ofSegments segments
  layout.settle policy
  let g := layout.toGraph
  Logged.record (.graphBuilt g.size g.live.size code.length)
  return g

/-! ## §2. From graph to dominator sets -/

/-- The graph of a body and its dominator sets. -/
structure Analysis where
  graph : Graph
  dominance : Dominance
deriving DecidableEq

namespace Analysis

/-- Analyses a body whose branch targets are among `labels`. -/
def run (policy : Policy) (labels : OffsetSet) (code : Code) : Logged Analysis := do
  let graph ← Graph.build policy labels code
  let dominance := Dominance.ofGraph graph
  Logged.record (.dominatorsFound dominance.passes dominance.size)
  return { graph, dominance }

/-- The dominators of the last block in program order. -/
def backbone (a : Analysis) : OffsetSet := a.dominance.backbone

end Analysis

end BytecodeFlow
