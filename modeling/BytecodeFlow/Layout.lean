/-
  BytecodeFlow.Layout — WHERE THE BLOCKS LIE, and the edges between them.

  A layout is what the scan leaves: the order in which segments begin, and under each offset the
  segment that begins there last.  With all starts known the edges can be settled:

    1. a noted target where no segment begins is a dangling edge; it is refused or dropped,
       as the policy says;
    2. a segment that is left without targets and does not return falls through to the segment
       listed behind it;
    3. predecessors are the successors read backwards.

  The order matters: a segment whose targets are all dropped falls through as well.
-/
import BytecodeFlow.Segment
import BytecodeFlow.Graph.Basic

namespace BytecodeFlow

/-- The segments of a body, by where they start. -/
structure Layout where
  /-- Where the segments start, in program order. -/
  order : List Offset
  /-- The segments, each under its start; of several with one start the last. -/
  kept : OffsetMap Segment
deriving DecidableEq

namespace Layout

/-- The layout of segments given in program order. -/
def ofSegments (segments : List Segment) : Layout where
  order := segments.map (·.start)
  kept := .ofList (segments.map fun s => (s.start, s))

/-- Where blocks begin. -/
def starts (l : Layout) : OffsetSet := l.kept.keys

/-! ## §1. Dangling edges -/

/-- The edges that lead where no block begins, by source and then by target. -/
def dangling (l : Layout) : List (Offset × Offset) :=
  let starts := l.starts
  l.kept.entries.flatMap fun (source, s) =>
    (s.targets.toList.filter (· ∉ starts)).map (source, ·)

/-- Refuses the first dangling edge, or reports each one as dropped. -/
def settle (policy : Policy) (l : Layout) : Logged Unit :=
  if policy.strictEdges then
    match l.dangling with
    | [] => return
    | (source, target) :: _ => Logged.fail (.malformed (.danglingEdge source target))
  else
    l.dangling.forM fun (source, target) => Logged.record (.edgeDropped source target)

/-- An edge dangles if the segment that is kept under its source branches where no block begins. -/
theorem mem_dangling_iff {l : Layout} {source target : Offset} :
    (source, target) ∈ l.dangling ↔
      ∃ s, l.kept.get? source = some s ∧ target ∈ s.targets ∧ target ∉ l.starts := by
  simp only [dangling, OffsetMap.get?_eq_some_iff, List.mem_flatMap, List.mem_map, List.mem_filter,
    OffsetSet.mem_toList, decide_eq_true_eq]
  constructor
  · rintro ⟨⟨source, s⟩, hs, target, ht, heq⟩
    cases heq
    exact ⟨s, hs, ht⟩
  · rintro ⟨s, hs, ht⟩
    exact ⟨(source, s), hs, target, ht, rfl⟩

/-- Without strict edges every dangling edge is reported, and nothing is refused. -/
theorem settle_of_lenient {policy : Policy} {l : Layout} (h : policy.strictEdges = false) :
    l.settle policy = ⟨l.dangling.map fun e => .edgeDropped e.1 e.2, .ok ()⟩ := by
  unfold settle
  rw [h]
  exact Logged.forM_record (fun e => .edgeDropped e.1 e.2) l.dangling

/-- With strict edges the first dangling edge is refused, and nothing is reported. -/
theorem settle_of_strict {policy : Policy} {l : Layout} (h : policy.strictEdges = true) :
    l.settle policy = match l.dangling.head? with
      | none => pure ()
      | some e => Logged.fail (.malformed (.danglingEdge e.1 e.2)) := by
  unfold settle
  rw [h]
  cases l.dangling <;> rfl

/-! ## §2. Successors and predecessors -/

/-- Where control falls from the segment at `o`: to the one listed behind the first `o`. -/
def follower? (l : Layout) (o : Offset) : Option Offset := (l.order.zip l.order.tail).lookup o

/-- Where the successors of a segment start. -/
def outgoing (l : Layout) (s : Segment) : OffsetSet :=
  let starts := l.starts
  let inside := s.targets.filter (· ∈ starts)
  -- asked after the dangling targets are gone, so losing them all means falling through
  if inside.isEmpty && !s.returns then .ofList (l.follower? s.start).toList else inside

/-- The successors of every segment, under its start. -/
def successors (l : Layout) : OffsetMap OffsetSet := l.kept.mapValues fun _ s => l.outgoing s

/-! ## §3. The graph -/

/-- The keys whose sets of successors hold `o`. -/
def sources (successors : OffsetMap OffsetSet) (o : Offset) : OffsetSet :=
  successors.keysWhere fun _ out => o ∈ out

/-- The graph of a layout: the segments as blocks, live where control can arrive. -/
def toGraph (l : Layout) : Graph :=
  let successors := l.successors
  let blocks := l.kept.mapValues fun start s =>
    { start, body := s.body, outgoing := l.outgoing s, incoming := sources successors start
      terminating := s.returns : Block }
  { blocks, order := l.order
    live := blocks.keysWhere fun start b => start = l.order.headD 0 || !b.incoming.isEmpty }

@[simp] theorem order_toGraph {l : Layout} : l.toGraph.order = l.order := rfl

@[simp] theorem keys_toGraph {l : Layout} : l.toGraph.blocks.keys = l.starts := by
  simp [toGraph, starts]

/-- The predecessors are the successors read backwards. -/
theorem mem_sources_iff {l : Layout} {a b : Offset} :
    a ∈ sources l.successors b ↔ ∃ s, l.kept.get? a = some s ∧ b ∈ l.outgoing s := by
  simp only [sources, successors, OffsetMap.mem_keysWhere, OffsetMap.get?_mapValues,
    Option.map_eq_some_iff, decide_eq_true_eq]
  constructor
  · rintro ⟨_, ⟨s, hs, rfl⟩, hb⟩
    exact ⟨s, hs, hb⟩
  · rintro ⟨s, hs, hb⟩
    exact ⟨_, ⟨s, hs, rfl⟩, hb⟩

/-- The block kept under `o`, field by field. -/
theorem block?_toGraph {l : Layout} {o : Offset} :
    l.toGraph.block? o = (l.kept.get? o).map fun s =>
      ⟨o, s.body, l.outgoing s, sources l.successors o, s.returns⟩ := by
  simp [toGraph, Graph.block?]

/-- Live are the entry and every block that some block leads to. -/
theorem mem_live_toGraph {l : Layout} {o : Offset} :
    o ∈ l.toGraph.live ↔ o ∈ l.starts ∧
      (o = l.toGraph.entry ∨ ∃ a, a ∈ sources l.successors o) := by
  simp only [toGraph, Graph.entry, OffsetMap.mem_keysWhere, OffsetMap.get?_mapValues,
    Option.map_eq_some_iff, Bool.or_eq_true, decide_eq_true_eq, Bool.not_eq_true',
    OffsetSet.isEmpty_eq_false_iff, starts, OffsetMap.mem_keys_iff]
  -- the two sides name the same segment, once behind the map of its values
  constructor
  · rintro ⟨_, ⟨s, hs, rfl⟩, hlive⟩
    exact ⟨⟨s, hs⟩, hlive⟩
  · rintro ⟨⟨s, hs⟩, hlive⟩
    exact ⟨_, ⟨s, hs, rfl⟩, hlive⟩

end Layout

end BytecodeFlow
