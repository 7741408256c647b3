import BytecodeFlow.Analysis
import BytecodeFlow.Graph.Cursor
import BytecodeFlow.Graph.Dot
import BytecodeFlow.Proofs.Dominance.Meaning
import BytecodeFlow.Proofs.Dominance.Entry
import BytecodeFlow.Proofs.Scan.Move
import BytecodeFlow.Proofs.Scan.Piece
import BytecodeFlow.Proofs.Scan.Scope
import BytecodeFlow.Proofs.Layout.Pieces
import BytecodeFlow.Proofs.Layout.EdgeLaw
import BytecodeFlow.Proofs.Flow.Cut
import BytecodeFlow.Proofs.Flow.Step
import BytecodeFlow.Proofs.Flow.Block
import BytecodeFlow.Proofs.Flow.Faithful
import BytecodeFlow.Proofs.Flow.LoopExit
import BytecodeFlow.Proofs.Flow.Labels
import BytecodeFlow.Proofs.Flow.Refine
import BytecodeFlow.Proofs.Flow.Extend
import BytecodeFlow.Proofs.Dominance.Greatest
import BytecodeFlow.Proofs.Dominance.Passes
import BytecodeFlow.Proofs.Dominance.Enclosure
import BytecodeFlow.Proofs.Dominance.Resume
import BytecodeFlow.Proofs.Dominance.Retreat
import BytecodeFlow.Proofs.Dominance.Order
import BytecodeFlow.Proofs.Dominance.Nearest
import BytecodeFlow.Proofs.Dominance.Unreached
import BytecodeFlow.Proofs.Dominance.Split
import BytecodeFlow.Proofs.Layout.Parts
import BytecodeFlow.Proofs.Graph.WellFormed
import BytecodeFlow.Proofs.Graph.Lookup
import BytecodeFlow.Proofs.Graph.Ends
import BytecodeFlow.Proofs.Fault.Defect
import BytecodeFlow.Proofs.Fault.Breach
import BytecodeFlow.Proofs.Fault.Refusal
import BytecodeFlow.Proofs.Fault.Leniency
import BytecodeFlow.Proofs.Fault.Earliest
import BytecodeFlow.Proofs.Fault.Closed
import BytecodeFlow.Proofs.Dot.Quoted
import BytecodeFlow.Proofs.Dot.Lines
import BytecodeFlow.Proofs.Dot.Determined
import BytecodeFlow.Proofs.Records.Trace
import BytecodeFlow.Proofs.Records.Run
