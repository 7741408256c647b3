/-
  BytecodeFlow.Proofs.Records.Run — THE RECORDS OF A RUN are a faithful trace of it.

  A run that succeeds reports, in this order:

    1. the trace of the body: its blocks and its loop scopes, instruction by instruction,
    2. each edge that is dropped, by source and then by target,
    3. the finished graph,
    4. the final dominator sets.

  A run that fails reports a beginning of this, up to the point where it fails (`Code.FailsAfter`).

  No edge is lost silently.  What the scan notes for a block is an edge of the graph or dangles, and
  not both (`Layout.accounted`); the edge that a block is given when it has lost all others leads
  to a block, so it is none of those that dangle.  Where a body repeats offsets, a block can be
  replaced by a later one with all it noted, and nothing is said of that.

  Main statement: `Analysis.records_run`.
-/
import Mathlib.Data.List.Count
import BytecodeFlow.Proofs.Fault.Leniency
import BytecodeFlow.Proofs.Records.Trace

namespace BytecodeFlow

/-! ## §1. How runs end -/

/-- A block that begins at `source` notes an edge to `target`: an instruction in a part that starts
    there leads to `target`. -/
inductive Code.Notes (labels : OffsetSet) (code : Code) (source target : Offset) : Prop
  | intro {before after : List Code} {front back : Code} {i : Instruction}
      (hcut : code.cut labels = before ++ (front ++ i :: back) :: after)
      (hstart : (front ++ i :: back).offsets.head? = some source)
      (hleads : i.LeadsTo (before.flatten ++ front) target)

/-- `code.FailsAfter policy labels fault records`: a run that fails with `fault` has come as far as
    `records` say. -/
inductive Code.FailsAfter (policy : Policy) (labels : OffsetSet) (code : Code) :
    Fault → List Record → Prop
  /-- The body as a whole does not pass its check, and no instruction is looked at. -/
  | check {fault : Fault} (hcheck : code.check policy = .error fault) :
      FailsAfter policy labels code fault []
  /-- An instruction breaks its rule, and it is the last one that is looked at. -/
  | breach {before after : Code} {i : Instruction} {fault : Fault}
      (hcheck : code.check policy = .ok ()) (hcode : code = before ++ i :: after)
      (hobeys : before.Obeys policy) (hbreaks : i.Breaks policy before.depth fault) :
      FailsAfter policy labels code fault ((before ++ [i]).trace policy labels)
  /-- All instructions have been looked at, and an edge dangles that may not. -/
  | edge {source target : Offset} (hcheck : code.check policy = .ok ())
      (hobeys : code.Obeys policy) (hstrict : policy.strictEdges = true)
      (hdangles : code.Dangles labels source target) :
      FailsAfter policy labels code (.malformed (.danglingEdge source target))
        (code.trace policy labels)

/-- What a run that comes to `a` reports, if it drops the edges `dropped`. -/
structure Analysis.Reports (policy : Policy) (labels : OffsetSet) (code : Code) (a : Analysis)
    (dropped : List (Offset × Offset)) (records : List Record) : Prop where
  records_eq : records = code.trace policy labels ++
    dropped.map (fun e => .edgeDropped e.1 e.2) ++
      [.graphBuilt a.graph.size a.graph.live.size code.length,
        .dominatorsFound a.dominance.passes a.dominance.size]
  /-- Dropped are the edges that lead where no block begins, by source and then by target. -/
  mem_dropped_iff : ∀ source target, (source, target) ∈ dropped ↔ code.Dangles labels source target
  ascending : dropped.Pairwise fun e f => e.1 < f.1 ∨ e.1 = f.1 ∧ e.2 < f.2
  /-- The blocks are reported in program order. -/
  opened_eq : records.filterMap Record.opened? = a.graph.order
  /-- With strict edges there is no warning. -/
  level_ne_warn : policy.strictEdges = true → ∀ r ∈ records, r.level ≠ .warn
  /-- What is noted is an edge of the graph or is warned of once, never both. -/
  accounted : code.offsets.Nodup → ∀ source target, code.Notes labels source target →
    a.graph.Edge source target ∧ records.count (.edgeDropped source target) = 0 ∨
      ¬ a.graph.Edge source target ∧ records.count (.edgeDropped source target) = 1

/-! ## §2. No edge is lost -/

section Edges

variable {policy : Policy} {labels : OffsetSet} {code : Code} {ms : List Move}
  {source target : Offset}

/-- Where no offset is repeated, every block is kept with what it notes. -/
theorem Code.Notes.records (hdistinct : code.offsets.Nodup)
    (h : code.Notes labels source target) : code.Records labels source target := by
  obtain ⟨hcut, hstart, hleads⟩ := h
  refine .intro hcut hstart ?_ hleads
  intro p hp hsame
  -- the part at `source` and a later one that starts there would share that offset
  have hoffsets : ((code.cut labels).map Code.offsets).flatten.Nodup := by
    have hflat : (code.cut labels).flatten = code := List.flatten_splitBy _ code
    unfold Code.offsets at hdistinct ⊢
    rw [← List.map_flatten, hflat]
    exact hdistinct
  rw [hcut, List.map_append, List.map_cons, List.flatten_append, List.flatten_cons,
    List.nodup_append] at hoffsets
  have hlater := (List.nodup_append.1 hoffsets.2.1).2.2
  refine hlater source (List.mem_of_head? hstart) source ?_ rfl
  exact List.mem_flatten.2 ⟨p.offsets, List.mem_map_of_mem hp, List.mem_of_head? hsame⟩

/-- **An edge that a block notes is an edge of the graph or dangles**, and not both. -/
theorem Layout.accounted (hmoves : code.moves policy [] = .ok ms)
    (hrecords : code.Records labels source target) :
    (Layout.ofMoves labels ms).toGraph.Edge source target ∧
        (source, target) ∉ (Layout.ofMoves labels ms).dangling ∨
      ¬ (Layout.ofMoves labels ms).toGraph.Edge source target ∧
        (source, target) ∈ (Layout.ofMoves labels ms).dangling := by
  have hdangling : (source, target) ∈ (Layout.ofMoves labels ms).dangling ↔
      ¬ (Layout.ofMoves labels ms).toGraph.Edge source target := by
    have hnoted := (Layout.records_iff hmoves).2 hrecords
    unfold Layout.ofMoves at hnoted ⊢
    rw [Layout.mem_dangling_iff_edge]
    exact and_iff_right hnoted
  rw [hdangling, not_not]
  by_cases hedge : (Layout.ofMoves labels ms).toGraph.Edge source target
  · exact .inl ⟨hedge, hedge⟩
  · exact .inr ⟨hedge, hedge⟩

/-- Dangling edges are listed once. -/
theorem Layout.nodup_dangling {l : Layout} : l.dangling.Nodup := by
  refine l.pairwise_dangling.imp ?_
  rintro e f hlt rfl
  rcases hlt with hlt | ⟨_, hlt⟩
  · exact Nat.lt_irrefl _ hlt
  · exact Nat.lt_irrefl _ hlt

/-- Of the records of a run only those of the dropped edges say that an edge is dropped. -/
theorem Code.count_edgeDropped {dropped : List (Offset × Offset)} {last : List Record}
    (hlast : ∀ r ∈ last, r.level = .debug) :
    (code.trace policy labels ++ dropped.map (fun e => Record.edgeDropped e.1 e.2) ++ last).count
      (.edgeDropped source target) = dropped.count (source, target) := by
  have htrace : (code.trace policy labels).count (.edgeDropped source target) = 0 := by
    rw [List.count_eq_zero]
    intro hmem
    have hlevel : Level.warn = .trace := Code.level_of_mem_trace hmem
    cases hlevel
  have hbehind : last.count (.edgeDropped source target) = 0 := by
    rw [List.count_eq_zero]
    intro hmem
    have hlevel : Level.warn = .debug := hlast _ hmem
    cases hlevel
  -- different edges have different records, so counting one counts the other
  have hinj : Function.Injective fun e : Offset × Offset => Record.edgeDropped e.1 e.2 := by
    intro e f heq
    obtain ⟨hsource, htarget⟩ := Record.edgeDropped.inj heq
    exact Prod.ext hsource htarget
  rw [List.count_append, List.count_append, htrace, hbehind, Nat.zero_add, Nat.add_zero]
  exact List.count_map_of_injective dropped _ hinj (source, target)

end Edges

/-! ## §3. The records -/

section Run

variable {policy : Policy} {labels : OffsetSet} {code : Code} {fault : Fault} {a : Analysis}

/-- A run that fails reports what its build does. -/
theorem Analysis.records_of_error
    (h : (Graph.build policy labels code).outcome = .error fault) :
    (Analysis.run policy labels code).records = (Graph.build policy labels code).records := by
  unfold run
  exact Logged.records_bind_of_error h

/-- A run that succeeds reports the dominator sets behind its build. -/
theorem Analysis.records_of_ok (h : (Analysis.run policy labels code).outcome = .ok a) :
    (Analysis.run policy labels code).records = (Graph.build policy labels code).records ++
      [.dominatorsFound a.dominance.passes a.dominance.size] := by
  obtain ⟨hbuild, hdom⟩ := Analysis.run_eq_ok_iff.1 h
  rw [hdom]
  unfold run
  exact Logged.records_bind_of_ok hbuild

/-- Behind a build nothing fails any more. -/
theorem Analysis.run_eq_error_iff : (Analysis.run policy labels code).outcome = .error fault ↔
    (Graph.build policy labels code).outcome = .error fault := by
  unfold run
  rw [Logged.outcome_bind, bind_eq_error_iff]
  simp

/-- A build that fails has come as far as its records say. -/
theorem Graph.failsAfter_of_error (h : (Graph.build policy labels code).outcome = .error fault) :
    code.FailsAfter policy labels fault (Graph.build policy labels code).records := by
  rcases Graph.build_eq_error_iff.1 h with hcheck | ⟨hcheck, hmoves | ⟨ms, hmoves, hsettle⟩⟩
  · rw [Graph.records_build_of_check hcheck]
    exact .check hcheck
  · obtain ⟨before, i, after, rfl, hobeys, hbreaks⟩ := Code.moves_eq_error_iff.1 hmoves
    rw [Graph.records_build_of_breaks hcheck hobeys hbreaks]
    exact .breach hcheck rfl hobeys hbreaks
  · rw [Graph.records_build_of_settle hcheck hmoves hsettle]
    obtain ⟨hstrict, source, target, hdangles, _, rfl⟩ :=
      (Layout.settle_ofMoves_eq_error_iff hmoves).1 hsettle
    exact .edge hcheck (Code.obeys_of_moves hmoves) hstrict hdangles

/-- A run that succeeds drops the dangling edges of its layout. -/
theorem Analysis.reports_of_ok (h : (Analysis.run policy labels code).outcome = .ok a) :
    ∃ dropped, Analysis.Reports policy labels code a dropped
      (Analysis.run policy labels code).records := by
  obtain ⟨hbuild, _⟩ := Analysis.run_eq_ok_iff.1 h
  obtain ⟨hcheck, ms, hmoves, hstrict, hgraph⟩ := Graph.build_eq_ok_iff_moves.1 hbuild
  have hrecords : (Analysis.run policy labels code).records = code.trace policy labels ++
      (Layout.ofMoves labels ms).dangling.map (fun e => .edgeDropped e.1 e.2) ++
        [.graphBuilt a.graph.size a.graph.live.size code.length,
          .dominatorsFound a.dominance.passes a.dominance.size] := by
    rw [records_of_ok h, Graph.records_build_of_moves hcheck hmoves hstrict, ← hgraph]
    simp only [List.append_assoc, List.cons_append, List.nil_append]
  have hlast : ∀ r ∈ [Record.graphBuilt a.graph.size a.graph.live.size code.length,
      .dominatorsFound a.dominance.passes a.dominance.size], r.level = .debug := by
    intro r hr
    simp only [List.mem_cons, List.not_mem_nil, or_false] at hr
    rcases hr with rfl | rfl
    · rfl
    · rfl
  rw [hrecords]
  refine ⟨(Layout.ofMoves labels ms).dangling, rfl, ?dropped, Layout.pairwise_dangling, ?opened,
    ?warn, ?accounted⟩
  case dropped =>
    intro source target
    exact Layout.mem_dangling_ofMoves_iff hmoves
  case opened =>
    -- neither the dropped edges nor the last two records open a block
    have hdropped : ((Layout.ofMoves labels ms).dangling.map fun e =>
        Record.edgeDropped e.1 e.2).filterMap Record.opened? = [] := by
      rw [List.filterMap_map, List.filterMap_eq_nil_iff]
      exact fun _ _ => rfl
    rw [List.filterMap_append, List.filterMap_append, hdropped, Code.filterMap_opened?_trace,
      hgraph, Layout.order_toGraph, Layout.order_eq_cut hmoves]
    simp only [List.filterMap_cons, List.filterMap_nil, Record.opened?, List.append_nil]
  case warn =>
    intro hon r hr
    rw [hstrict hon, List.map_nil, List.append_nil, List.mem_append] at hr
    rcases hr with hr | hr
    · rw [Code.level_of_mem_trace hr]
      decide
    · rw [hlast r hr]
      decide
  case accounted =>
    intro hdistinct source target hnotes
    rw [Code.count_edgeDropped hlast, hgraph]
    have hrecorded : code.Records labels source target := hnotes.records hdistinct
    rcases Layout.accounted hmoves hrecorded with ⟨hedge, hkept⟩ | ⟨hnone, hdropped⟩
    · exact .inl ⟨hedge, List.count_eq_zero.2 hkept⟩
    · exact .inr ⟨hnone, List.count_eq_one_of_mem Layout.nodup_dangling hdropped⟩

end Run

/-- **The records of a run are a faithful trace of it.**  A run that fails has reported exactly the
    instructions up to its failure.  A run that succeeds reports its instructions, the edges it
    drops, the graph and the dominator sets; its blocks are reported in program order, and what
    a block notes is an edge of the graph or is warned of once. -/
theorem Analysis.records_run (policy : Policy) (labels : OffsetSet) (code : Code) :
    (∀ fault, (Analysis.run policy labels code).outcome = .error fault →
      code.FailsAfter policy labels fault (Analysis.run policy labels code).records) ∧
    ∀ a, (Analysis.run policy labels code).outcome = .ok a →
      ∃ dropped, Analysis.Reports policy labels code a dropped
        (Analysis.run policy labels code).records := by
  refine ⟨?_, fun a h => Analysis.reports_of_ok h⟩
  intro fault h
  have hbuild := Analysis.run_eq_error_iff.1 h
  rw [Analysis.records_of_error hbuild]
  exact Graph.failsAfter_of_error hbuild

/-- `0 SETUP_LOOP 8`, `2 POP_JUMP_IF_FALSE 5`, `4 POP_BLOCK`, `6 RETURN_VALUE`. -/
def Code.branchToNowhere : Code :=
  [.decode 0 .setupLoop (some 8) 2, .decode 2 .popJumpIfFalse (some 5) 4,
    .decode 4 .popBlock none 6, .decode 6 .returnValue none 8]

/-- `0 SETUP_LOOP 4`, `2 POP_BLOCK`, `4 POP_BLOCK`. -/
def Code.closedTwice : Code :=
  [.decode 0 .setupLoop (some 4) 2, .decode 2 .popBlock none 4, .decode 4 .popBlock none 6]

/-- A loop entry and a branch that leads nowhere: the branch is dropped with a warning, and its
    block keeps its other edge.  A loop that is closed twice: the second exit begins a block, and
    that is the last record. -/
theorem Analysis.records_of_droppedBranch :
    (∃ a dropped, Analysis.Reports { Policy.strict with strictEdges := false } ∅
        Code.branchToNowhere a dropped
        [.blockOpened 0, .scopeOpened 0 10, .blockOpened 4, .edgeDropped 0 5,
          .graphBuilt 2 2 4, .dominatorsFound 1 2] ∧
      Code.branchToNowhere.Notes ∅ 0 5 ∧ a.graph.Edge 0 4 ∧ ¬ a.graph.Edge 0 5) ∧
    Code.FailsAfter .strict {4} Code.closedTwice (.unbalancedScope 4)
      [.blockOpened 0, .scopeOpened 0 6, .blockOpened 4] := by
  constructor
  · have hrecords : (Analysis.run { Policy.strict with strictEdges := false } ∅
        Code.branchToNowhere).records =
        [.blockOpened 0, .scopeOpened 0 10, .blockOpened 4, .edgeDropped 0 5,
          .graphBuilt 2 2 4, .dominatorsFound 1 2] := by decide +kernel
    obtain ⟨a, hrun, hkept, hgone⟩ : ∃ a,
        (Analysis.run { Policy.strict with strictEdges := false } ∅
          Code.branchToNowhere).outcome = .ok a ∧
        a.graph.Edge 0 4 ∧ ¬ a.graph.Edge 0 5 := ⟨_, rfl, by decide, by decide⟩
    obtain ⟨dropped, hreports⟩ := (Analysis.records_run _ _ _).2 a hrun
    rw [hrecords] at hreports
    -- the branch ends the first of two parts
    have hcut : Code.branchToNowhere.cut ∅ =
        [] ++ ([.decode 0 .setupLoop (some 8) 2] ++ [.decode 2 .popJumpIfFalse (some 5) 4]) ::
          [[.decode 4 .popBlock none 6, .decode 6 .returnValue none 8]] := rfl
    exact ⟨a, dropped, hreports, .intro hcut rfl (Or.inl rfl), hkept, hgone⟩
  · exact (Analysis.records_run .strict {4} Code.closedTwice).1 _ rfl

end BytecodeFlow
