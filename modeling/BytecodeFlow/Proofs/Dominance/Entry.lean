/-
  BytecodeFlow.Proofs.Dominance.Entry — DOMINANCE SEEN FROM THE ENTRY.

  For a block that the entry reaches, `d` ought to dominate it exactly if no path from the entry
  avoids `d`.  One half always holds: a dominator is on every path from the entry.  The other
  half asks for something, because live is whatever has a predecessor, dead predecessors
  included.  A live block that only dead code feeds is a root of its own, and its paths run
  without the entry into blocks that the entry reaches as well.

  Main statement: `dominates_iff_of_reachable` — what holds of every block that the entry
  reaches, and that the missing half holds at it exactly if every root path to it meets the
  entry.  `dominates_lacks_entry` is the smallest shape where one does not: there the entry is on
  every path from itself to the last block, and yet it does not dominate that block.
-/
import BytecodeFlow.Proofs.Dominance.Meaning

namespace BytecodeFlow

/-- An analysis succeeds exactly if the build does; its dominator sets are those of the graph. -/
theorem Analysis.run_eq_ok_iff {policy : Policy} {labels : OffsetSet} {code : Code} {a : Analysis} :
    (Analysis.run policy labels code).outcome = .ok a ↔
      (Graph.build policy labels code).outcome = .ok a.graph ∧
        a.dominance = Dominance.ofGraph a.graph := by
  unfold Analysis.run
  simp only [Logged.outcome_bind_eq_ok_iff, Logged.outcome_record, Logged.outcome_pure,
    Except.ok.injEq]
  constructor
  · intro ⟨g, hbuild, _, _, ha⟩
    subst ha
    exact ⟨hbuild, rfl⟩
  · intro ⟨hbuild, hdom⟩
    refine ⟨a.graph, hbuild, (), trivial, ?_⟩
    rw [← hdom]

theorem Analysis.exists_of_build {policy : Policy} {labels : OffsetSet} {code : Code} {g : Graph}
    (h : (Graph.build policy labels code).outcome = .ok g) :
    ∃ a, (Analysis.run policy labels code).outcome = .ok a ∧ a.graph = g ∧
      a.dominance = Dominance.ofGraph g :=
  ⟨⟨g, Dominance.ofGraph g⟩, Analysis.run_eq_ok_iff.2 ⟨h, rfl⟩, rfl, rfl⟩

namespace Dominance

variable {g : Graph} {b d o : Offset} {p : List Offset}

/-! ## §1. Paths from the entry among the root paths -/

/-- At a block that the entry reaches, dominators are what all root paths share. -/
theorem dominates_iff_of_path (hg : g.Linked) (hb : g.Path g.entry p b) :
    (ofGraph g).dominates d b = true ↔ ∀ q, g.RootPath q b → d ∈ q :=
  dominates_iff_of_rootPath hg (hg.rootPath_of_entry hb)

/-- No path from the entry avoids a dominator of its end: it is a root path. -/
theorem mem_of_dominates (hg : g.Linked) (h : (ofGraph g).dominates d b = true)
    (hb : g.Path g.entry p b) : d ∈ p :=
  ((dominates_iff_shared hg).1 h).2.2 p (hg.rootPath_of_entry hb)

/-- A root path that meets the entry goes on from there as a path from the entry. -/
theorem mem_of_entryPaths (hshared : ∀ q, g.Path g.entry q b → d ∈ q) (hp : g.RootPath p b)
    (hentry : g.entry ∈ p) : d ∈ p := by
  obtain ⟨r, _, hpath, _⟩ := hp
  obtain ⟨q, hq, hsub⟩ := Walk.suffix_of_mem hpath hentry
  exact hsub d (hshared q hq)

/-- At a block that the entry reaches, dominance is what all paths from the entry share exactly if
    every root path meets the entry. -/
theorem entryPaths_iff (hg : g.Linked) (hb : g.Path g.entry p b) :
    (∀ d, (ofGraph g).dominates d b = true ↔ ∀ q, g.Path g.entry q b → d ∈ q) ↔
      ∀ q, g.RootPath q b → g.entry ∈ q := by
  constructor
  · intro hiff q hq
    -- the entry is on each of its own paths, so it dominates
    have hdom := (hiff g.entry).2 fun q hq => Walk.source_mem hq
    exact (dominates_iff_of_path hg hb).1 hdom q hq
  · intro hmeet d
    constructor
    · intro h q hq
      exact mem_of_dominates hg h hq
    · intro hshared
      rw [dominates_iff_of_path hg hb]
      intro q hq
      exact mem_of_entryPaths hshared hq (hmeet q hq)

/-- Where the entry reaches all that is live there is no other root. -/
theorem entry_mem_of_rootPath (hg : g.Linked)
    (hall : ∀ b ∈ g.live, ∃ p, g.Path g.entry p b) (hp : g.RootPath p b) : g.entry ∈ p := by
  obtain ⟨r, hroot, hpath, _⟩ := hp
  have hr : r = g.entry := by
    obtain ⟨q, hq⟩ := hall r hroot.1
    cases hq with
    | start => rfl
    | @snoc q c _ hwalk hedge =>
      -- `r` has a live predecessor, so it is a root as the entry or not at all
      have hc : c ∈ g.live := hg.live_of_path hg.entry_live hwalk c (Walk.target_mem hwalk)
      rcases hroot.2 with heq | hnone
      · exact heq
      · exact absurd hedge (hnone c hc)
  rw [← hr]
  exact Walk.source_mem hpath

/-! ## §2. The backbone -/

theorem mem_backbone_iff (hlast : g.last? = some o) :
    d ∈ (ofGraph g).backbone ↔ (ofGraph g).dominates d o = true := by
  have hbackbone : (ofGraph g).backbone = ((ofGraph g).get? o).getD ∅ := by
    show (g.last?.bind (ofGraph g).table.get?).getD ∅ = _
    rw [hlast]
    rfl
  rw [hbackbone, dominates_iff]
  cases (ofGraph g).get? o <;> simp

/-! ## §3. Dominance from the entry -/

/-- **Dominance at a block that the entry reaches.**  The dominators are what all root paths to
    it share; each is on every path from the entry; and they are all that these paths share
    exactly if every root path to the block meets the entry, as they all do where the entry
    reaches all that is live.  The same holds of the backbone when the entry reaches the last
    block. -/
theorem dominates_iff_of_reachable {labels : OffsetSet} {code : Code} {a : Analysis}
    (h : (Analysis.run .strict labels code).outcome = .ok a) :
    (∀ b, (∃ p, a.graph.Path a.graph.entry p b) →
      (∀ d, a.dominance.dominates d b = true ↔ ∀ p, a.graph.RootPath p b → d ∈ p) ∧
      (∀ d, a.dominance.dominates d b = true → ∀ p, a.graph.Path a.graph.entry p b → d ∈ p) ∧
      ((∀ d, a.dominance.dominates d b = true ↔ ∀ p, a.graph.Path a.graph.entry p b → d ∈ p) ↔
        ∀ p, a.graph.RootPath p b → a.graph.entry ∈ p)) ∧
    (∀ o, a.graph.last? = some o → (∃ p, a.graph.Path a.graph.entry p o) →
      (∀ d, d ∈ a.backbone ↔ ∀ p, a.graph.RootPath p o → d ∈ p) ∧
      (∀ d ∈ a.backbone, ∀ p, a.graph.Path a.graph.entry p o → d ∈ p) ∧
      ((∀ d, d ∈ a.backbone ↔ ∀ p, a.graph.Path a.graph.entry p o → d ∈ p) ↔
        ∀ p, a.graph.RootPath p o → a.graph.entry ∈ p)) ∧
    ((∀ b ∈ a.graph.live, ∃ p, a.graph.Path a.graph.entry p b) →
      ∀ b p, a.graph.RootPath p b → a.graph.entry ∈ p) := by
  obtain ⟨hbuild, hdom⟩ := Analysis.run_eq_ok_iff.1 h
  have hg := Graph.linked_of_build hbuild
  unfold Analysis.backbone
  rw [hdom]
  refine ⟨?_, ?_, ?_⟩
  · intro b ⟨p, hp⟩
    exact ⟨fun d => dominates_iff_of_path hg hp, fun d hd q hq => mem_of_dominates hg hd hq,
      entryPaths_iff hg hp⟩
  · -- the backbone asks of the last block what is asked of any other
    intro o hlast ⟨p, hp⟩
    simp only [mem_backbone_iff hlast]
    exact ⟨fun d => dominates_iff_of_path hg hp, fun d hd q hq => mem_of_dominates hg hd hq,
      entryPaths_iff hg hp⟩
  · intro hall b p hp
    exact entry_mem_of_rootPath hg hall hp

/-- `0 POP_JUMP_IF_FALSE 6`, `2 LOAD_FAST 0`, `4 STORE_FAST 0`, `6 RETURN_VALUE`. -/
def branchAround : Code :=
  [.decode 0 .popJumpIfFalse (some 6) 2, .decode 2 .loadFast (some 0) 4,
    .decode 4 .storeFast (some 0) 6, .decode 6 .returnValue none 8]

/-- A branch around one block: the entry reaches every block, so the backbone is what all paths
    from it to the last block share. -/
theorem backbone_of_branch :
    ∃ a, (Analysis.run .strict {6} branchAround).outcome = .ok a ∧
      a.graph.last? = some 6 ∧
      ∀ d, d ∈ a.backbone ↔ ∀ p, a.graph.Path a.graph.entry p 6 → d ∈ p := by
  obtain ⟨a, hrun, hlast, hentry, h₂, h₆, hlive⟩ :
      ∃ a, (Analysis.run .strict {6} branchAround).outcome = .ok a ∧
      a.graph.last? = some 6 ∧ a.graph.entry = 0 ∧ a.graph.Edge 0 2 ∧ a.graph.Edge 0 6 ∧
      a.graph.live.toList = [0, 2, 6] :=
    ⟨_, rfl, by decide, by decide, by decide, by decide, by decide⟩
  have hfrom := dominates_iff_of_reachable hrun
  rw [← hentry] at h₂ h₆
  -- the entry reaches each of the three blocks
  have hall : ∀ b ∈ a.graph.live, ∃ p, a.graph.Path a.graph.entry p b := by
    intro b hb
    rw [← OffsetSet.mem_toList, hlive, ← hentry] at hb
    simp only [List.mem_cons, List.not_mem_nil, or_false] at hb
    rcases hb with rfl | rfl | rfl
    · exact ⟨_, .start⟩
    · exact ⟨_, .snoc .start h₂⟩
    · exact ⟨_, .snoc .start h₆⟩
  exact ⟨a, hrun, hlast, (hfrom.2.1 6 hlast ⟨_, .snoc .start h₆⟩).2.2.2 (hfrom.2.2 hall 6)⟩

/-- `0 JUMP_ABSOLUTE 6`, `2 JUMP_ABSOLUTE 4`, `4 NOP`, `6 RETURN_VALUE`. -/
def deadFeeder : Code :=
  [.decode 0 .jumpAbsolute (some 6) 2, .decode 2 .jumpAbsolute (some 4) 4, .decode 4 .nop none 6,
    .decode 6 .returnValue none 8]

/-- **Dead code can take the entry out of the dominators of a block that the entry reaches.**
    The jump at 2 is dead and leads to 4, which is thereby live and a root; 4 falls through to 6,
    where the entry leads as well. -/
theorem dominates_lacks_entry :
    ∃ a, (Analysis.run .strict {4, 6} deadFeeder).outcome = .ok a ∧
      a.graph.last? = some 6 ∧ (∃ p, a.graph.Path a.graph.entry p 6) ∧
      (∀ p, a.graph.Path a.graph.entry p 6 → a.graph.entry ∈ p) ∧
      a.dominance.dominates a.graph.entry 6 = false ∧ a.graph.entry ∉ a.backbone := by
  obtain ⟨a, hrun, hlast, hentry, hreach, hlive, hnone, hfall⟩ :
      ∃ a, (Analysis.run .strict {4, 6} deadFeeder).outcome = .ok a ∧
      a.graph.last? = some 6 ∧ a.graph.entry = 0 ∧ a.graph.Edge 0 6 ∧ 4 ∈ a.graph.live ∧
      (∀ b ∈ a.graph.live.toList, ¬ a.graph.Edge b 4) ∧ a.graph.Edge 4 6 :=
    ⟨_, rfl, by decide, by decide, by decide, by decide, by decide, by decide⟩
  obtain ⟨hbuild, hdom⟩ := Analysis.run_eq_ok_iff.1 hrun
  have hg := Graph.linked_of_build hbuild
  -- the path from the root 4 to 6 avoids the entry
  have hroot : a.graph.RootPath [4, 6] 6 :=
    Graph.RootPath.snoc (Graph.IsRoot.rootPath ⟨hlive, .inr hnone⟩) hfall (hg.live_of_edge hfall)
  have hlacks : ¬ a.dominance.dominates a.graph.entry 6 = true := by
    intro h
    rw [hdom, dominates_iff_shared hg, hentry] at h
    exact absurd (h.2.2 _ hroot) (by decide)
  refine ⟨a, hrun, hlast, ?_, fun p hp => Walk.source_mem hp, by simpa using hlacks, ?_⟩
  · rw [hentry]
    exact ⟨_, .snoc .start hreach⟩
  · unfold Analysis.backbone
    rw [hdom, mem_backbone_iff hlast, ← hdom]
    exact hlacks

end Dominance

end BytecodeFlow
