/-
  BytecodeFlow.Segment — CUTTING A BODY into straight-line segments, in one pass.

  A segment is a run of instructions that control enters at the first and leaves behind the last.
  The scan opens one
    • at the first instruction,
    • at every label,
    • at every loop entry,
    • behind every branch, iteration and return,
  and every other instruction joins the segment before it.  Along the way each segment notes the
  offsets it branches to; whether a block begins there is settled later, because the target may
  lie ahead.  The first fault of an instruction ends the scan.

  Main statement: `Code.flatMap_body_segments` — the segments of a body, read one after another,
  hold its offsets in program order.
-/
import BytecodeFlow.Transfer
import BytecodeFlow.Journal

namespace BytecodeFlow

/-! ## §1. Segments -/

/-- A straight-line run of instructions, as the scan leaves it. -/
structure Segment where
  /-- Where the first instruction starts. -/
  start : Offset
  /-- The offsets of the instructions, in program order. -/
  body : Array Offset
  /-- Where the last instruction branches to. -/
  targets : OffsetSet
  /-- Whether the last instruction leaves the function. -/
  returns : Bool
deriving DecidableEq

namespace Segment

/-- The segment that begins at `start`, before its first instruction is in. -/
def opened (start : Offset) : Segment := ⟨start, #[], ∅, false⟩

/-- The segment with one more instruction. -/
def push (s : Segment) (o : Offset) : Segment := { s with body := s.body.push o }

end Segment

/-! ## §2. The scan -/

/-- Whether the instruction begins a block, whatever comes before it. -/
def Instruction.beginsBlock (labels : OffsetSet) (i : Instruction) : Bool :=
  i.offset ∈ labels || i.flow.opensBlock

/-- How far a scan has come. -/
structure Scan where
  /-- The finished segments, the latest first. -/
  closed : List Segment := []
  /-- The segment that the next instruction joins unless it begins one. -/
  current : Option Segment := none
  /-- The loop scopes that are open. -/
  scopes : Scopes := []
deriving DecidableEq

namespace Scan

/-- The segments in program order, the unfinished one included. -/
def segments (s : Scan) : List Segment := s.closed.reverse ++ s.current.toList

/-- Puts the instruction where it belongs: the segments that are finished by then, and the segment
    that now ends with it. -/
def place (labels : OffsetSet) (s : Scan) (i : Instruction) : Logged (List Segment × Segment) :=
  match s.current, i.beginsBlock labels with
  | some segment, false => return (s.closed, segment.push i.offset)
  | current, _ => do
    Logged.record (.blockOpened i.offset)
    return (current.toList ++ s.closed, (Segment.opened i.offset).push i.offset)

/-- One instruction further. -/
def step (policy : Policy) (labels : OffsetSet) (s : Scan) (i : Instruction) : Logged Scan := do
  let (closed, segment) ← s.place labels i
  -- the instruction is in its segment before it can fail, so its segment is on record
  let transfer ← i.transfer policy s.scopes
  let scopes := transfer.scopes s.scopes
  match transfer with
  | .goOn | .leaveLoop => return { closed, current := some segment, scopes }
  | .enterLoop exit =>
    Logged.record (.scopeOpened i.offset exit)
    return { closed, current := some segment, scopes }
  -- behind these two no segment is current, so the next instruction opens one
  | .branch targets => return { closed := { segment with targets } :: closed, scopes }
  | .leaveFunction => return { closed := { segment with returns := true } :: closed, scopes }

/-! ## §3. No instruction is lost -/

/-- The offsets in the segments so far, in the order in which the segments list them. -/
def offsets (s : Scan) : List Offset := s.segments.flatMap (·.body.toList)

/-- Placing an instruction never fails, and it adds that instruction at the end. -/
theorem place_offsets (labels : OffsetSet) (s : Scan) (i : Instruction) :
    ∃ closed segment, (s.place labels i).outcome = .ok (closed, segment) ∧
      closed.reverse.flatMap (·.body.toList) ++ segment.body.toList = s.offsets ++ [i.offset] := by
  unfold place
  -- either the instruction joins the current segment, or that one is finished and it opens the next
  split
  · rename_i segment hcurrent _
    refine ⟨_, _, rfl, ?_⟩
    simp [offsets, segments, hcurrent, Segment.push]
  · refine ⟨_, _, rfl, ?_⟩
    cases hcurrent : s.current <;> simp [offsets, segments, hcurrent, Segment.push, Segment.opened]

/-- A step adds the offset of its instruction behind those of the earlier ones. -/
theorem offsets_step {policy : Policy} {labels : OffsetSet} {s s' : Scan} {i : Instruction}
    (h : (s.step policy labels i).outcome = .ok s') : s'.offsets = s.offsets ++ [i.offset] := by
  obtain ⟨closed, segment, hplace, hoffsets⟩ := s.place_offsets labels i
  obtain ⟨_, hok, h⟩ := Logged.outcome_bind_eq_ok_iff.1 h
  obtain rfl : (closed, segment) = _ := Except.ok.inj (hplace.symm.trans hok)
  obtain ⟨transfer, -, h⟩ := Logged.outcome_bind_eq_ok_iff.1 h
  rw [← hoffsets]
  cases transfer <;> cases h <;> simp [offsets, segments]

/-- A scan that gets through has added the offsets of the whole body. -/
theorem offsets_foldlM {policy : Policy} {labels : OffsetSet} {code : Code} {s s' : Scan}
    (h : (code.foldlM (step policy labels) s).outcome = .ok s') :
    s'.offsets = s.offsets ++ code.offsets := by
  induction code generalizing s with
  | nil =>
    cases h
    simp [Code.offsets]
  | cons i rest ih =>
    rw [List.foldlM_cons] at h
    obtain ⟨t, hstep, hrest⟩ := Logged.outcome_bind_eq_ok_iff.1 h
    rw [ih hrest, offsets_step hstep]
    simp [Code.offsets]

end Scan

/-- The segments of a body, in program order. -/
def Code.segments (policy : Policy) (labels : OffsetSet) (code : Code) : Logged (List Segment) :=
  Scan.segments <$> code.foldlM (Scan.step policy labels) {}

/-- **The segments of a body hold its offsets**, all of them and in program order. -/
theorem Code.flatMap_body_segments {policy : Policy} {labels : OffsetSet} {code : Code}
    {segments : List Segment} (h : (code.segments policy labels).outcome = .ok segments) :
    segments.flatMap (·.body.toList) = code.offsets := by
  rw [Code.segments, Logged.outcome_map] at h
  cases hscan : (code.foldlM (Scan.step policy labels) {}).outcome with
  | error fault =>
    rw [hscan] at h
    cases h
  | ok s =>
    rw [hscan] at h
    cases h
    exact Scan.offsets_foldlM hscan

end BytecodeFlow
