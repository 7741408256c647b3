/-
  BytecodeFlow.Proofs.Records.Trace — WHAT A SCAN REPORTS, told without the scan.

  An instruction is reported at most twice: as the beginning of a block if it is a leader, and
  behind that as the opening of a loop scope if it is a loop entry that passes its checks.  Either
  depends on the part of the body in front of it alone (`Instruction.reports`), so a body has a
  trace before anything is known of its blocks or edges (`Code.trace`).

  The records of a scan are this trace:
    • `Code.records_foldlM` — of the whole body, where all of it keeps the rules,
    • `Code.records_foldlM_of_breaks` — of the part that ends with the first breach, otherwise.

  `Graph.records_build_of_moves` puts the other records of a build behind the trace.
-/
import BytecodeFlow.Proofs.Fault.Breach
import BytecodeFlow.Proofs.Layout.Pieces
import BytecodeFlow.Proofs.Scan.Leader
import BytecodeFlow.Proofs.Scan.Scope

namespace BytecodeFlow

/-! ## §1. Traces -/

instance {labels : OffsetSet} {before : Code} {i : Instruction} :
    Decidable (i.IsLeader labels before) :=
  decidable_of_iff _ Instruction.isLeader_iff.symm

/-- The exit of the loop scope that `i` opens where `depth` scopes are open, if it is a loop entry
    that passes its checks. -/
def Instruction.opens? (policy : Policy) (depth : Nat) (i : Instruction) : Option Offset :=
  match i.flow, i.arg with
  | .loopEntry, some extent =>
    if depth < policy.maxLoopDepth ∧ i.next + extent ≤ Offset.limit then some (i.next + extent)
    else none
  | _, _ => none

/-- What is reported of `i`, with `before` in front of it. -/
def Instruction.reports (policy : Policy) (labels : OffsetSet) (before : Code) (i : Instruction) :
    List Record :=
  (if i.IsLeader labels before then [.blockOpened i.offset] else []) ++
    (i.opens? policy before.depth).toList.map (.scopeOpened i.offset)

namespace Code

/-- What is reported of a part of a body, with `before` in front of it. -/
def reportsBehind (policy : Policy) (labels : OffsetSet) (before : Code) : Code → List Record
  | [] => []
  | i :: rest =>
    i.reports policy labels before ++ reportsBehind policy labels (before ++ [i]) rest

/-- What is reported of the instructions of a body, one after another. -/
def trace (policy : Policy) (labels : OffsetSet) (code : Code) : List Record :=
  reportsBehind policy labels [] code

variable {policy : Policy} {labels : OffsetSet} {before code rest : Code} {i : Instruction}

theorem reportsBehind_append : reportsBehind policy labels before (code ++ rest) =
    reportsBehind policy labels before code ++
      reportsBehind policy labels (before ++ code) rest := by
  induction code generalizing before with
  | nil => rw [List.append_nil]; rfl
  | cons i code ih =>
    rw [List.cons_append, reportsBehind, reportsBehind, ih, List.append_assoc, List.append_assoc,
      List.singleton_append]

/-- One more instruction adds its own reports to the trace. -/
theorem trace_concat : (code ++ [i]).trace policy labels =
    code.trace policy labels ++ i.reports policy labels code := by
  unfold trace
  rw [reportsBehind_append, reportsBehind, reportsBehind, List.append_nil, List.nil_append]

/-- A trace holds single steps only. -/
theorem level_of_mem_trace {r : Record} (h : r ∈ code.trace policy labels) : r.level = .trace := by
  induction code using List.reverseRecOn with
  | nil => cases h
  | append_singleton code i ih =>
    rw [trace_concat, List.mem_append] at h
    rcases h with h | h
    · exact ih h
    · -- either of the two things that an instruction reports is a single step
      unfold Instruction.reports at h
      rcases List.mem_append.1 h with h | h
      · split at h
        · obtain rfl := List.mem_singleton.1 h
          rfl
        · cases h
      · obtain ⟨exit, _, rfl⟩ := List.mem_map.1 h
        rfl

end Code

/-! ## §2. One step of a scan -/

/-- The scope that is opened is the one that the transfer enters. -/
theorem Instruction.opens?_eq_some_iff {policy : Policy} {scopes : Scopes} {i : Instruction}
    {exit : Offset} :
    i.opens? policy scopes.length = some exit ↔
      i.transfer policy scopes = .ok (.enterLoop exit) := by
  rw [transfer_eq_ok_iff]
  unfold opens?
  constructor
  · intro h
    split at h
    case h_1 extent hflow harg =>
      split at h
      case isTrue hchecks =>
        obtain rfl := Option.some.inj h
        exact .enterLoop hflow harg hchecks.1 hchecks.2
      case isFalse => cases h
    case h_2 => cases h
  · intro h
    cases h with
    | enterLoop hflow harg hdepth hexit => simp only [hflow, harg, hdepth, hexit, and_self, if_true]

/-- Whatever else an instruction does, it opens no scope. -/
theorem Instruction.opens?_eq_none {policy : Policy} {scopes : Scopes} {i : Instruction}
    (h : ∀ exit, i.transfer policy scopes ≠ .ok (.enterLoop exit)) :
    i.opens? policy scopes.length = none := by
  rw [Option.eq_none_iff_forall_ne_some]
  intro exit hopens
  exact h exit (opens?_eq_some_iff.1 hopens)

namespace Scan

variable {policy : Policy} {labels : OffsetSet} {s : Scan} {i : Instruction} {before : Code}
  {ms : List Move}

theorem records_place : (s.place labels i).records =
    if s.current = none ∨ i.beginsBlock labels = true then [.blockOpened i.offset] else [] := by
  unfold place
  cases s.current with
  | none => cases i.beginsBlock labels <;> rfl
  | some segment => cases i.beginsBlock labels <;> rfl

/-- A step reports the block that the instruction begins, and then the scope that it opens. -/
theorem records_step : (s.step policy labels i).records =
    (if s.current = none ∨ i.beginsBlock labels = true then [.blockOpened i.offset] else []) ++
      (i.opens? policy s.scopes.length).toList.map (.scopeOpened i.offset) := by
  rw [← records_place]
  unfold step
  rw [Logged.records_bind_of_ok (outcome_place i .goOn)]
  congr 1
  -- the transfer itself reports nothing, and of what follows it only a new scope is reported
  cases ht : i.transfer policy s.scopes with
  | error fault =>
    rw [Instruction.opens?_eq_none (by simp [ht])]
    rfl
  | ok t =>
    cases t with
    | enterLoop exit =>
      rw [Instruction.opens?_eq_some_iff.2 ht]
      rfl
    | goOn | leaveLoop | branch | leaveFunction =>
      rw [Instruction.opens?_eq_none (by simp [ht])]
      rfl

/-- Behind `before` a scan begins a block exactly at a leader. -/
theorem begins_iff_isLeader (hmoves : before.moves policy [] = .ok ms) :
    (ms.foldl (take labels) {}).current = none ∨ i.beginsBlock labels = true ↔
      i.IsLeader labels before := by
  -- what the last move does ends a block exactly if the class of its instruction does
  have hends : ∀ m ∈ ms.getLast?, m.instruction.flow.endsBlock = m.transfer.endsBlock := by
    intro m hm
    obtain ⟨front, rfl⟩ := List.getLast?_eq_some_iff.1 hm
    exact (Code.does_of_moves hmoves).1.flow_endsBlock
  rw [(reads_foldl labels ms).current_eq_none_iff, Instruction.isLeader_iff,
    ← Code.map_instruction_moves hmoves, List.getLast?_map]
  unfold Instruction.joins
  cases hlast : ms.getLast? with
  | none => simp
  | some m =>
    rw [hlast] at hends
    simp only [Option.mem_some_iff, forall_eq', Option.map_some, hends m rfl]
    cases m.transfer.endsBlock <;> simp

/-- **What a step reports of an instruction depends on the part in front of it alone.** -/
theorem records_step_of_moves (hmoves : before.moves policy [] = .ok ms) :
    ((ms.foldl (take labels) {}).step policy labels i).records =
      i.reports policy labels before := by
  unfold Instruction.reports
  rw [records_step, scopes_foldl_take, Code.depth_eq hmoves]
  simp only [begins_iff_isLeader hmoves]

end Scan

/-! ## §3. The scan of a body -/

namespace Code

variable {policy : Policy} {labels : OffsetSet} {before code after : Code} {i : Instruction}
  {ms : List Move} {fault : Fault}

/-- Behind a part that keeps the rules the scan goes on from the state it has by then. -/
theorem records_foldlM_append (hmoves : before.moves policy [] = .ok ms) :
    ((before ++ code).foldlM (Scan.step policy labels) {}).records =
      (before.foldlM (Scan.step policy labels) {}).records ++
        (code.foldlM (Scan.step policy labels) (ms.foldl (Scan.take labels) {})).records := by
  have hbefore : (before.foldlM (Scan.step policy labels) {}).outcome =
      .ok (ms.foldl (Scan.take labels) {}) := by
    rw [Scan.outcome_foldlM_step, hmoves]
    rfl
  rw [List.foldlM_append, Logged.records_bind_of_ok hbefore]

/-- **The records of a scan are the trace of the body**, where all of it keeps the rules. -/
theorem records_foldlM (hmoves : code.moves policy [] = .ok ms) :
    (code.foldlM (Scan.step policy labels) {}).records = code.trace policy labels := by
  induction code using List.reverseRecOn generalizing ms with
  | nil => rfl
  | append_singleton code i ih =>
    obtain ⟨ms', t, hms', _, rfl⟩ := moves_concat_eq_ok_iff.1 hmoves
    rw [records_foldlM_append hms', ih hms', trace_concat, List.foldlM_cons]
    simp only [List.foldlM_nil, bind_pure, Scan.records_step_of_moves hms']

/-- A scan that fails reports the instruction that it fails at, and nothing behind it. -/
theorem records_foldlM_of_breaks (hobeys : before.Obeys policy)
    (hbreaks : i.Breaks policy before.depth fault) :
    ((before ++ i :: after).foldlM (Scan.step policy labels) {}).records =
      (before ++ [i]).trace policy labels := by
  obtain ⟨ms, hms⟩ := exists_moves_iff.2 hobeys
  have hfails : ((ms.foldl (Scan.take labels) {}).step policy labels i).outcome =
      .error fault := by
    rw [depth_eq hms] at hbreaks
    rw [Scan.outcome_step, Scan.scopes_foldl_take, Instruction.transfer_eq_error_iff.2 hbreaks]
    rfl
  rw [records_foldlM_append hms, records_foldlM hms, trace_concat, List.foldlM_cons,
    Logged.records_bind_of_error hfails, Scan.records_step_of_moves hms]

end Code

/-! ## §4. The blocks of a trace -/

/-- The block that a record says begins. -/
def Record.opened? : Record → Option Offset
  | blockOpened offset => some offset
  | scopeOpened _ _ | edgeDropped _ _ | graphBuilt _ _ _ | dominatorsFound _ _ => none

section Blocks

variable {policy : Policy} {labels : OffsetSet} {before code : Code} {i : Instruction}

theorem Instruction.filterMap_opened?_reports :
    (i.reports policy labels before).filterMap Record.opened? =
      if i.IsLeader labels before then [i.offset] else [] := by
  have hscope : ((i.opens? policy before.depth).toList.map (Record.scopeOpened i.offset)).filterMap
      Record.opened? = [] := by
    rw [List.filterMap_map, List.filterMap_eq_nil_iff]
    exact fun _ _ => rfl
  unfold reports
  rw [List.filterMap_append, hscope, List.append_nil]
  split
  · rfl
  · rfl

/-- One more instruction begins a part if it is a leader, and joins the last part otherwise. -/
theorem Code.starts_cut_concat :
    (Code.cut labels (code ++ [i])).filterMap (·.offsets.head?) =
      (code.cut labels).filterMap (·.offsets.head?) ++
        if i.IsLeader labels code then [i.offset] else [] := by
  unfold cut
  by_cases hleader : i.IsLeader labels code
  · rw [splitBy_concat_of_cut (Instruction.isLeader_iff.1 hleader), List.filterMap_append,
      if_pos hleader]
    rfl
  · obtain ⟨j, hlast, hjoins⟩ : ∃ j, code.getLast? = some j ∧ j.joins labels i = true := by
      simpa [Instruction.isLeader_iff] using hleader
    have hne : code.splitBy (Instruction.joins labels) ≠ [] := by
      rw [List.splitBy_ne_nil]
      rintro rfl
      cases hlast
    obtain ⟨ps, p, hparts⟩ := (List.eq_nil_or_concat' _).resolve_left hne
    have hp : p ≠ [] := by
      apply List.ne_nil_of_mem_splitBy (r := Instruction.joins labels) (l := code)
      rw [hparts]
      exact List.mem_append_right _ (List.mem_singleton_self p)
    -- the instruction joins the last part, which starts as before
    have hjoin : ∀ k ∈ p.getLast?, k.joins labels i = true := by
      intro k hk
      rw [← List.flatten_splitBy (Instruction.joins labels) code, hparts, List.flatten_concat,
        List.getLast?_append_of_ne_nil _ hp] at hlast
      rwa [Option.mem_unique hk hlast]
    have hstart : Code.offsets (p ++ [i]) = Code.offsets p ++ [i.offset] := List.map_append
    have hoffsets : Code.offsets p ≠ [] := fun h => hp (List.map_eq_nil_iff.1 h)
    rw [splitBy_concat_of_join hparts hjoin, hparts, if_neg hleader, List.append_nil,
      List.filterMap_append, List.filterMap_append, List.filterMap_cons, List.filterMap_cons,
      hstart, List.head?_append_of_ne_nil _ hoffsets]

/-- **The blocks that a trace reports are the parts between leaders**, by where they start. -/
theorem Code.filterMap_opened?_trace : (code.trace policy labels).filterMap Record.opened? =
    (code.cut labels).filterMap (·.offsets.head?) := by
  induction code using List.reverseRecOn with
  | nil => rfl
  | append_singleton code i ih =>
    rw [trace_concat, List.filterMap_append, ih, Instruction.filterMap_opened?_reports,
      starts_cut_concat]

end Blocks

/-! ## §5. A build -/

section Build

variable {policy : Policy} {labels : OffsetSet} {before code after : Code} {i : Instruction}
  {ms : List Move} {fault : Fault}

/-- Settling reports the dangling edges, unless they are not allowed. -/
theorem Layout.records_settle {l : Layout} : (l.settle policy).records =
    if policy.strictEdges = true then [] else l.dangling.map fun e => .edgeDropped e.1 e.2 := by
  by_cases hstrict : policy.strictEdges = true
  · rw [settle_of_strict hstrict, if_pos hstrict]
    cases l.dangling.head? <;> rfl
  · rw [settle_of_lenient (by simpa using hstrict), if_neg hstrict]

theorem Code.records_segments :
    (code.segments policy labels).records = (code.foldlM (Scan.step policy labels) {}).records := by
  unfold segments
  rw [Logged.records_map]

/-- A body that does not pass its check is not scanned. -/
theorem Graph.records_build_of_check (hcheck : code.check policy = .error fault) :
    (Graph.build policy labels code).records = [] := by
  have hchecks : (liftM (code.check policy) : Logged Unit).outcome = .error fault := hcheck
  unfold Graph.build
  rw [Logged.records_bind_of_error hchecks]
  rfl

/-- A build that fails in its scan reports what the scan does. -/
theorem Graph.records_build_of_breaks (hcheck : Code.check policy (before ++ i :: after) = .ok ())
    (hobeys : before.Obeys policy) (hbreaks : i.Breaks policy before.depth fault) :
    (Graph.build policy labels (before ++ i :: after)).records =
      (before ++ [i]).trace policy labels := by
  have hchecks :
      (liftM (Code.check policy (before ++ i :: after)) : Logged Unit).outcome = .ok () := hcheck
  have hfails : (Code.segments policy labels (before ++ i :: after)).outcome = .error fault := by
    rw [Code.outcome_segments, Code.moves_eq_error_iff.2 ⟨before, i, after, rfl, hobeys, hbreaks⟩]
    rfl
  unfold Graph.build
  rw [Logged.records_bind_of_ok hchecks, Logged.records_bind_of_error hfails,
    Code.records_segments, Code.records_foldlM_of_breaks hobeys hbreaks]
  rfl

/-- Where the scan succeeds, the edges are settled behind its trace. -/
theorem Graph.records_build_of_scan (hcheck : code.check policy = .ok ())
    (hmoves : code.moves policy [] = .ok ms) :
    (Graph.build policy labels code).records = code.trace policy labels ++
      ((Layout.ofMoves labels ms).settle policy >>= fun _ => do
        let g := (Layout.ofMoves labels ms).toGraph
        Logged.record (.graphBuilt g.size g.live.size code.length)
        return g).records := by
  have hchecks : (liftM (code.check policy) : Logged Unit).outcome = .ok () := hcheck
  have hsegments : (code.segments policy labels).outcome =
      .ok ((pieces labels ms).map Segment.ofMoves) := by
    rw [Code.outcome_segments, hmoves]
    rfl
  unfold Graph.build
  rw [Logged.records_bind_of_ok hchecks, Logged.records_bind_of_ok hsegments,
    Code.records_segments, Code.records_foldlM hmoves]
  rfl

/-- A build that is refused for an edge reports its whole trace and nothing of the edges. -/
theorem Graph.records_build_of_settle (hcheck : code.check policy = .ok ())
    (hmoves : code.moves policy [] = .ok ms)
    (hsettle : ((Layout.ofMoves labels ms).settle policy).outcome = .error fault) :
    (Graph.build policy labels code).records = code.trace policy labels := by
  have hstrict : policy.strictEdges = true := by
    by_contra hlenient
    rw [Layout.settle_of_lenient (by simpa using hlenient)] at hsettle
    cases hsettle
  rw [records_build_of_scan hcheck hmoves, Logged.records_bind_of_error hsettle,
    Layout.records_settle, if_pos hstrict, List.append_nil]

/-- **A build that succeeds** reports its trace, then the edges that it drops, then the graph. -/
theorem Graph.records_build_of_moves (hcheck : code.check policy = .ok ())
    (hmoves : code.moves policy [] = .ok ms)
    (hstrict : policy.strictEdges = true → (Layout.ofMoves labels ms).dangling = []) :
    (Graph.build policy labels code).records = code.trace policy labels ++
      ((Layout.ofMoves labels ms).dangling.map (fun e => .edgeDropped e.1 e.2) ++
        [.graphBuilt (Layout.ofMoves labels ms).toGraph.size
          (Layout.ofMoves labels ms).toGraph.live.size code.length]) := by
  have hsettles := Layout.settle_eq_ok_iff.2 hstrict
  rw [records_build_of_scan hcheck hmoves, Logged.records_bind_of_ok hsettles,
    Layout.records_settle]
  split
  case isTrue h =>
    rw [hstrict h]
    rfl
  case isFalse => rfl

end Build

end BytecodeFlow
