/-
  BytecodeFlow.Proofs.Fault.Leniency — A MORE LENIENT POLICY accepts more, and changes nothing else.

  Each setting of a policy decides one question of a build: whether the layout is checked, whether
  there is room for one more loop, and whether a dangling edge is refused.  No setting has a say
  in what is built.  So whatever a policy accepts, a more lenient one accepts with the same result
  (`Graph.build_of_le`).

  Dangling edges are where two policies that differ in nothing else part ways.  The strict build
  is refused for the first of them.  The lenient one warns of each, in the same order, and of
  nothing else (`Graph.warnings_of_lenient`), so its first warning names the edge that the strict
  one is refused for.

  Main statement: `Analysis.accepts_of_le`.
-/
import BytecodeFlow.Proofs.Dominance.Entry
import BytecodeFlow.Proofs.Fault.Refusal
import BytecodeFlow.Proofs.Records.Trace

namespace BytecodeFlow

/-! ## §1. What a more lenient policy accepts -/

section Accepting

variable {p q : Policy} {labels : OffsetSet} {code : Code}

theorem Code.check_of_le (hpq : p ≤ q) (h : code.check p = .ok ()) : code.check q = .ok () := by
  obtain ⟨hchecks, _, _⟩ := hpq
  rw [Code.check_eq_ok_iff] at h ⊢
  exact ⟨h.1, fun hq => h.2 (hchecks hq)⟩

/-- With more room for loops an instruction does what it did. -/
theorem Instruction.Does.of_le {scopes : Scopes} {i : Instruction} {t : Transfer}
    (hdepth : p.maxLoopDepth ≤ q.maxLoopDepth) (h : i.Does p scopes t) : i.Does q scopes t := by
  cases h with
  | goOn hflow => exact .goOn hflow
  | enterLoop hflow harg hroom hexit =>
    exact .enterLoop hflow harg (Nat.lt_of_lt_of_le hroom hdepth) hexit
  | leaveLoop hflow hscopes => exact .leaveLoop hflow hscopes
  | iterate hflow hscopes => exact .iterate hflow hscopes
  | branch hflow htarget => exact .branch hflow htarget
  | jump hflow htarget => exact .jump hflow htarget
  | leaveFunction hflow => exact .leaveFunction hflow

/-- Room for more scopes lets every body through that went through before, with the same moves. -/
theorem Code.moves_of_le {scopes : Scopes} {ms : List Move}
    (hdepth : p.maxLoopDepth ≤ q.maxLoopDepth) (h : code.moves p scopes = .ok ms) :
    code.moves q scopes = .ok ms := by
  induction code generalizing scopes ms with
  | nil =>
    rw [moves_nil_eq_ok_iff] at h ⊢
    exact h
  | cons i rest ih =>
    obtain ⟨t, ms', hdoes, hrest, rfl⟩ := moves_cons_eq_ok_iff.1 h
    exact moves_cons_eq_ok_iff.2 ⟨t, ms', hdoes.of_le hdepth, ih hrest, rfl⟩

/-- **A more lenient policy builds the same graph.** -/
theorem Graph.build_of_le {g : Graph} (hpq : p ≤ q)
    (h : (Graph.build p labels code).outcome = .ok g) :
    (Graph.build q labels code).outcome = .ok g := by
  obtain ⟨hcheck, ms, hmoves, hdangling, hg⟩ := Graph.build_eq_ok_iff_moves.1 h
  have ⟨_, hstrict, hdepth⟩ := hpq
  exact Graph.build_eq_ok_iff_moves.2 ⟨Code.check_of_le hpq hcheck, ms,
    Code.moves_of_le hdepth hmoves, fun hq => hdangling (hstrict hq), hg⟩

end Accepting

/-! ## §2. Warnings -/

/-- The warnings among the records. -/
def Logged.warnings {α : Type} (x : Logged α) : List Record := x.records.filter (·.level = .warn)

section Warnings

variable {policy : Policy} {labels : OffsetSet} {code : Code}

/-- **A lenient build warns of the dangling edges**, in order, and of nothing else. -/
theorem Graph.warnings_of_lenient {ms : List Move} (hlenient : policy.strictEdges = false)
    (hcheck : code.check policy = .ok ()) (hmoves : code.moves policy [] = .ok ms) :
    (Graph.build policy labels code).warnings =
      (Layout.ofMoves labels ms).dangling.map fun e => .edgeDropped e.1 e.2 := by
  have hstrict : policy.strictEdges = true → (Layout.ofMoves labels ms).dangling = [] := by
    intro h
    rw [hlenient] at h
    cases h
  -- in front of the dropped edges is a trace, and behind them the record of the finished graph
  have htrace : (code.trace policy labels).filter (·.level = .warn) = [] := by
    rw [List.filter_eq_nil_iff]
    intro r hr
    rw [Code.level_of_mem_trace hr]
    decide
  have hdropped : ((Layout.ofMoves labels ms).dangling.map fun e =>
      Record.edgeDropped e.1 e.2).filter (·.level = .warn) =
        (Layout.ofMoves labels ms).dangling.map fun e => .edgeDropped e.1 e.2 := by
    rw [List.filter_eq_self, List.forall_mem_map]
    exact fun _ _ => rfl
  unfold Logged.warnings
  rw [Graph.records_build_of_moves hcheck hmoves hstrict, List.filter_append, List.filter_append,
    htrace, hdropped]
  exact List.append_nil _

end Warnings

/-! ## §3. Dangling edges, refused and dropped -/

section Dangling

variable {policy : Policy} {labels : OffsetSet} {code : Code} {source target : Offset}

/-- A build is refused for a dangling edge only where its edges are settled. -/
theorem Graph.build_eq_danglingEdge_iff :
    (Graph.build policy labels code).outcome =
        .error (.malformed (.danglingEdge source target)) ↔
      code.check policy = .ok () ∧ ∃ ms, code.moves policy [] = .ok ms ∧
        policy.strictEdges = true ∧
        (Layout.ofMoves labels ms).dangling.head? = some (source, target) := by
  rw [Graph.build_eq_error_iff]
  constructor
  · rintro (hcheck | ⟨hcheck, hmoves | ⟨ms, hmoves, hsettle⟩⟩)
    · -- no check of the layout finds this defect
      obtain ⟨_, hfault⟩ | ⟨_, _, d, hdefect, hfault⟩ := Code.check_eq_error_iff.1 hcheck
      · cases hfault
      · obtain rfl := Fault.malformed.inj hfault
        cases hdefect
    · -- and no instruction fails with it
      obtain ⟨_, _, _, _, _, hbreaks⟩ := Code.moves_eq_error_iff.1 hmoves
      cases hbreaks
    · obtain ⟨hstrict, e, he, hfault⟩ := Layout.settle_eq_error_iff.1 hsettle
      obtain ⟨rfl, rfl⟩ := Defect.danglingEdge.inj (Fault.malformed.inj hfault)
      exact ⟨hcheck, ms, hmoves, hstrict, he⟩
  · intro ⟨hcheck, ms, hmoves, hstrict, hhead⟩
    exact .inr ⟨hcheck, .inr ⟨ms, hmoves, Layout.settle_eq_error_iff.2 ⟨hstrict, _, hhead, rfl⟩⟩⟩

/-- The dangling edges are the noted ones that are no edges of the graph. -/
theorem Layout.mem_dangling_iff_edge {segments : List Segment} :
    (source, target) ∈ (Layout.ofSegments segments).dangling ↔
      (∃ s, (Layout.ofSegments segments).kept.get? source = some s ∧ target ∈ s.targets) ∧
        ¬ (Layout.ofSegments segments).toGraph.Edge source target := by
  set l := Layout.ofSegments segments
  -- a recorded target becomes a successor exactly if a block begins there
  have hedge : ∀ {s}, l.kept.get? source = some s → target ∈ s.targets →
      (l.toGraph.Edge source target ↔ target ∈ l.starts) := by
    intro s hs htarget
    rw [edge_toGraph_iff]
    constructor
    · intro ⟨s', _, hout⟩
      exact outgoing_subset_starts target hout
    · intro hstart
      have hinside : target ∈ l.inside s := OffsetSet.mem_filter.2 ⟨htarget, decide_eq_true hstart⟩
      refine ⟨s, hs, ?_⟩
      rw [outgoing_of_inside (OffsetSet.ne_empty_iff.2 ⟨target, hinside⟩)]
      exact hinside
  rw [mem_dangling_iff]
  constructor
  · intro ⟨s, hs, htarget, hoff⟩
    exact ⟨⟨s, hs, htarget⟩, fun h => hoff ((hedge hs htarget).1 h)⟩
  · intro ⟨⟨s, hs, htarget⟩, hnone⟩
    exact ⟨s, hs, htarget, fun h => hnone ((hedge hs htarget).2 h)⟩

/-- **The first warning names the edge that the strict build is refused for**, where two policies
    differ in that only the first is strict about edges. -/
theorem Graph.refused_iff_warned {p q : Policy} (hchecks : p.checksCode = q.checksCode)
    (hdepth : p.maxLoopDepth = q.maxLoopDepth) (hp : p.strictEdges = true)
    (hq : q.strictEdges = false) :
    (Graph.build p labels code).outcome = .error (.malformed (.danglingEdge source target)) ↔
      (∃ g, (Graph.build q labels code).outcome = .ok g) ∧
      (Graph.build q labels code).warnings.head? = some (.edgeDropped source target) := by
  -- up to the edges the two builds are one: neither the check nor the moves ask for the setting
  have hcheck_eq : code.check p = code.check q := by
    unfold Code.check
    rw [hchecks]
  have hmoves_iff : ∀ ms, code.moves p [] = .ok ms ↔ code.moves q [] = .ok ms := fun _ =>
    ⟨Code.moves_of_le (Nat.le_of_eq hdepth), Code.moves_of_le (Nat.le_of_eq hdepth.symm)⟩
  simp only [Graph.build_eq_danglingEdge_iff, hcheck_eq, hmoves_iff]
  constructor
  · intro ⟨hcheck, ms, hmoves, _, hhead⟩
    refine ⟨⟨_, Graph.build_eq_ok_iff_moves.2 ⟨hcheck, ms, hmoves, ?_, rfl⟩⟩, ?_⟩
    · intro hstrict
      rw [hq] at hstrict
      cases hstrict
    · rw [Graph.warnings_of_lenient hq hcheck hmoves, List.head?_map, hhead]
      rfl
  · intro ⟨⟨g, hbuild⟩, hwarned⟩
    obtain ⟨hcheck, ms, hmoves, _, _⟩ := Graph.build_eq_ok_iff_moves.1 hbuild
    rw [Graph.warnings_of_lenient hq hcheck hmoves, List.head?_map] at hwarned
    obtain ⟨e, hhead, he⟩ := Option.map_eq_some_iff.1 hwarned
    obtain ⟨rfl, rfl⟩ := Record.edgeDropped.inj he
    exact ⟨hcheck, ms, hmoves, hp, hhead⟩

/-- A lenient build drops and warns of the edges that a block records and the graph lacks. -/
theorem Graph.mem_warnings_iff {g : Graph} (hlenient : policy.strictEdges = false)
    (h : (Graph.build policy labels code).outcome = .ok g) :
    .edgeDropped source target ∈ (Graph.build policy labels code).warnings ↔
      code.Records labels source target ∧ ¬ g.Edge source target := by
  obtain ⟨hcheck, ms, hmoves, _, rfl⟩ := Graph.build_eq_ok_iff_moves.1 h
  -- the warnings are the dangling edges; these are recorded and no edges of the graph
  have hdropped : (source, target) ∈ (Layout.ofMoves labels ms).dangling ↔
      code.Records labels source target ∧
        ¬ (Layout.ofMoves labels ms).toGraph.Edge source target := by
    rw [← Layout.records_iff hmoves]
    exact Layout.mem_dangling_iff_edge
  rw [Graph.warnings_of_lenient hlenient hcheck hmoves, List.mem_map, ← hdropped]
  constructor
  · intro ⟨e, he, heq⟩
    obtain ⟨rfl, rfl⟩ := Record.edgeDropped.inj heq
    exact he
  · intro h
    exact ⟨_, h, rfl⟩

end Dangling

/-! ## §4. Leniency -/

/-- **Leniency only adds accepted bodies.**  Whatever a policy accepts, a more lenient one accepts
    with the same graph and the same dominators.  With and without strict edges, a build is refused
    for a dangling edge exactly if it is accepted with that edge as the first that it warns of, and
    what it warns of are the recorded edges that the graph lacks. -/
theorem Analysis.accepts_of_le (policy : Policy) (labels : OffsetSet) (code : Code) :
    (∀ policy' a, policy ≤ policy' → (Analysis.run policy labels code).outcome = .ok a →
      (Analysis.run policy' labels code).outcome = .ok a) ∧
    (∀ source target,
      (Graph.build { policy with strictEdges := true } labels code).outcome =
          .error (.malformed (.danglingEdge source target)) ↔
        (∃ g, (Graph.build { policy with strictEdges := false } labels code).outcome = .ok g) ∧
        (Graph.build { policy with strictEdges := false } labels code).warnings.head? =
          some (.edgeDropped source target)) ∧
    ∀ g, (Graph.build { policy with strictEdges := false } labels code).outcome = .ok g →
      ∀ source target,
        .edgeDropped source target ∈
            (Graph.build { policy with strictEdges := false } labels code).warnings ↔
          code.Records labels source target ∧ ¬ g.Edge source target := by
  refine ⟨?_, ?_, ?_⟩
  · intro policy' a hle h
    obtain ⟨hbuild, hdom⟩ := Analysis.run_eq_ok_iff.1 h
    exact Analysis.run_eq_ok_iff.2 ⟨Graph.build_of_le hle hbuild, hdom⟩
  · intro source target
    exact Graph.refused_iff_warned rfl rfl rfl rfl
  · intro g h source target
    exact Graph.mem_warnings_iff rfl h

/-- `0 POP_JUMP_IF_FALSE 4`, `2 NOP`, `4 RETURN_VALUE`. -/
def Code.branchAhead : Code :=
  [.decode 0 .popJumpIfFalse (some 4) 2, .decode 2 .nop none 4, .decode 4 .returnValue none 6]

/-- A loop that the strict policy accepts, and the lenient one too.  A branch from 0 to 4, where
    without labels no block begins: the strict build is refused for it, the lenient one drops it. -/
theorem Analysis.accepts_of_branch :
    (∃ a, (Analysis.run .strict {2} Code.loop).outcome = .ok a ∧ Policy.strict ≤ .lenient ∧
      (Analysis.run .lenient {2} Code.loop).outcome = .ok a) ∧
    ∃ g, (Graph.build { Policy.strict with strictEdges := false } ∅ Code.branchAhead).outcome =
        .ok g ∧
      (Graph.build { Policy.strict with strictEdges := false } ∅
        Code.branchAhead).warnings.head? = some (.edgeDropped 0 4) ∧
      Code.branchAhead.Records ∅ 0 4 ∧ ¬ g.Edge 0 4 := by
  have hle : Policy.strict ≤ .lenient := ⟨fun _ => rfl, fun _ => rfl, by decide⟩
  constructor
  · obtain ⟨a, hrun⟩ : ∃ a, (Analysis.run .strict {2} Code.loop).outcome = .ok a := ⟨_, rfl⟩
    exact ⟨a, hrun, hle, (Analysis.accepts_of_le _ _ _).1 _ a hle hrun⟩
  · -- the strict build names the edge; the lenient one warns of the same edge first
    have hrefused : (Graph.build { Policy.strict with strictEdges := true } ∅
        Code.branchAhead).outcome = .error (.malformed (.danglingEdge 0 4)) := rfl
    have hleniency := Analysis.accepts_of_le .strict ∅ Code.branchAhead
    obtain ⟨⟨g, hbuild⟩, hwarned⟩ := (hleniency.2.1 0 4).1 hrefused
    have hdropped := (hleniency.2.2 g hbuild 0 4).1 (List.mem_of_head? hwarned)
    exact ⟨g, hbuild, hwarned, hdropped⟩

end BytecodeFlow
