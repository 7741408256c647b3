/-
  BytecodeFlow.Proofs.Layout.Parts — BLOCKS ARE THE PARTS BETWEEN LEADERS.

  The scan reads a body once, with a current segment that it fills, closes and replaces.  What it
  leaves can be read off the body without it: cut the body in front of its leaders, and the parts
  are the blocks.  The body may repeat offsets; then several parts start alike, the order lists
  the offset once for each, and the last of them is the block that is kept.

  Main statement: `Graph.parts_of_build` — order, blocks, bodies and terminations of every graph
  that a build returns, said in terms of the cut.  Two things follow: the bodies in program order
  hold each instruction once if no offset is repeated, and labels away from the instructions
  change nothing (`Graph.build_congr`).
-/
import BytecodeFlow.Proofs.Layout.Pieces
import BytecodeFlow.Proofs.Scan.Leader

namespace BytecodeFlow

/-! ## §1. What a layout keeps -/

namespace Layout

/-- Of several segments with one start the last is kept. -/
theorem get?_ofSegments_iff {segments : List Segment} {o : Offset} {s : Segment} :
    (ofSegments segments).kept.get? o = some s ↔ ∃ before after,
      segments = before ++ s :: after ∧ s.start = o ∧ ∀ t ∈ after, t.start ≠ o := by
  unfold ofSegments
  rw [OffsetMap.get?_ofList, List.lookup_eq_some_iff, ← List.map_reverse]
  constructor
  · intro ⟨l₁, l₂, hsplit, hother⟩
    -- what the lookup passes over, read from the end, lies behind the segment
    obtain ⟨after, rest, hrev, hafter, hrest⟩ := List.map_eq_append_iff.1 hsplit
    obtain ⟨s', before, rfl, hs', _⟩ := List.map_eq_cons_iff.1 hrest
    obtain ⟨hstart, rfl⟩ := Prod.mk.inj hs'
    refine ⟨before.reverse, after.reverse, ?_, hstart, ?_⟩
    · rw [List.reverse_eq_append_iff] at hrev
      rw [hrev]
      simp
    · intro t ht heq
      have hmem : (t.start, t) ∈ l₁ := by
        rw [← hafter]
        exact List.mem_map_of_mem (List.mem_reverse.1 ht)
      have hne := hother _ hmem
      simp [heq] at hne
  · intro ⟨before, after, hsplit, hstart, hother⟩
    subst hsplit hstart
    -- the latest segment is looked up first, so those behind it are passed over
    refine ⟨after.reverse.map fun t => (t.start, t), before.reverse.map fun t => (t.start, t),
      by simp, ?_⟩
    intro e he
    obtain ⟨t, ht, rfl⟩ := List.mem_map.1 he
    simpa using (hother t (List.mem_reverse.1 ht)).symm

end Layout

/-! ## §2. Pieces and parts -/

section Parts

variable {policy : Policy} {labels : OffsetSet} {code : Code} {ms p : List Move}

theorem offsets_map_instruction : Code.offsets (p.map (·.instruction)) = p.map Move.offset := by
  unfold Code.offsets
  rw [List.map_map]
  rfl

/-- A piece starts with the first offset of its part. -/
theorem head?_offsets_of_mem_pieces (hp : p ∈ pieces labels ms) :
    (Code.offsets (p.map (·.instruction))).head? = some (Segment.ofMoves p).start := by
  rw [offsets_map_instruction]
  cases p with
  | nil => exact absurd rfl (ne_nil_of_mem_pieces hp)
  | cons m rest => rfl

/-- The order lists where the parts begin. -/
theorem Layout.order_eq_cut (hmoves : code.moves policy [] = .ok ms) :
    (Layout.ofMoves labels ms).order = (code.cut labels).filterMap (·.offsets.head?) := by
  rw [Layout.order_ofMoves, ← Code.map_pieces hmoves, List.filterMap_map, eq_comm,
    List.filterMap_eq_map_iff_forall_eq_some]
  intro p hp
  exact head?_offsets_of_mem_pieces hp

/-- Blocks begin where parts do. -/
theorem Layout.mem_starts_iff_part {o : Offset} (hmoves : code.moves policy [] = .ok ms) :
    o ∈ (Layout.ofMoves labels ms).starts ↔ ∃ p ∈ code.cut labels, p.offsets.head? = some o := by
  have horder : o ∈ (Layout.ofMoves labels ms).starts ↔ o ∈ (Layout.ofMoves labels ms).order :=
    Layout.mem_starts_ofSegments
  rw [horder, Layout.order_eq_cut hmoves, List.mem_filterMap]

/-- The segment kept at `o` is the last part that starts there. -/
theorem Layout.get?_ofMoves_iff_part {o : Offset} {s : Segment} :
    (Layout.ofMoves labels ms).kept.get? o = some s ↔
      ∃ before p after, pieces labels ms = before ++ p :: after ∧ s = Segment.ofMoves p ∧
        (Code.offsets (p.map (·.instruction))).head? = some o ∧
        ∀ q ∈ after, (Code.offsets (q.map (·.instruction))).head? ≠ some o := by
  -- a piece and its part start alike, so the two conditions on what is behind agree
  have hstart : ∀ q ∈ pieces labels ms, ((Code.offsets (q.map (·.instruction))).head? = some o ↔
      (Segment.ofMoves q).start = o) := by
    intro q hq
    rw [head?_offsets_of_mem_pieces hq, Option.some.injEq]
  unfold ofMoves
  rw [get?_ofSegments_iff]
  constructor
  · intro ⟨_, _, hsplit, hs, hother⟩
    obtain ⟨before, rest, hpieces, rfl, hrest⟩ := List.map_eq_append_iff.1 hsplit
    obtain ⟨p, after, rfl, rfl, rfl⟩ := List.map_eq_cons_iff.1 hrest
    rw [hpieces] at hstart
    refine ⟨before, p, after, hpieces, rfl, (hstart p (by simp)).2 hs, ?_⟩
    intro q hq heq
    exact hother _ (List.mem_map_of_mem hq) ((hstart q (by simp [hq])).1 heq)
  · intro ⟨before, p, after, hpieces, hs, hp, hother⟩
    subst hs
    rw [hpieces] at hstart ⊢
    refine ⟨before.map Segment.ofMoves, after.map Segment.ofMoves, by simp,
      (hstart p (by simp)).1 hp, ?_⟩
    intro t ht heq
    obtain ⟨q, hq, rfl⟩ := List.mem_map.1 ht
    exact hother q hq ((hstart q (by simp [hq])).2 heq)

/-- A piece returns exactly if its last instruction does. -/
theorem Segment.returns_ofMoves_iff (hmoves : code.moves policy [] = .ok ms)
    (hp : p ∈ pieces labels ms) : (Segment.ofMoves p).returns = true ↔
      ∃ i, (p.map (·.instruction)).getLast? = some i ∧ i.flow = .functionReturn := by
  obtain ⟨before, m, after, q, rfl, rfl⟩ := exists_last_of_mem_pieces hp
  rw [(Segment.targets_ofMoves List.getLast?_concat).2, (Code.does_of_moves hmoves).1.returns]
  simp

/-- Where no offset is repeated, the blocks in program order hold the offsets of the body. -/
theorem Layout.flatMap_inOrder (hmoves : code.moves policy [] = .ok ms)
    (hdistinct : code.offsets.Nodup) :
    (Layout.ofMoves labels ms).toGraph.inOrder.flatMap (·.body.toList) = code.offsets := by
  rw [← Code.map_offset_moves hmoves] at hdistinct ⊢
  set l := Layout.ofMoves labels ms with hl
  have hkept : ∀ p ∈ pieces labels ms,
      l.kept.get? (Segment.ofMoves p).start = some (Segment.ofMoves p) :=
    fun p hp => (Layout.get?_ofMoves_iff hdistinct).2 ⟨p, hp, rfl, rfl⟩
  -- so each piece is found under its start, and the blocks in order are the pieces
  have hblocks : l.toGraph.inOrder.map (·.body.toList) =
      (pieces labels ms).map (List.map Move.offset) := by
    unfold Graph.inOrder
    rw [order_toGraph, hl, order_ofMoves, List.filterMap_map, List.map_filterMap,
      List.filterMap_eq_map_iff_forall_eq_some]
    intro p hp
    rw [Function.comp_apply, block?_toGraph, ← hl, hkept p hp]
    rfl
  rw [List.flatMap_def, hblocks, ← List.map_flatten, flatten_pieces]

end Parts

/-! ## §3. Labels that no instruction has -/

section Labels

variable {policy : Policy} {labels labels' : OffsetSet} {code : Code}

/-- A step asks for a label at the offset of its instruction only. -/
theorem Scan.step_congr {s : Scan} {i : Instruction} (h : i.offset ∈ labels' ↔ i.offset ∈ labels) :
    s.step policy labels' i = s.step policy labels i := by
  have hbegins : i.beginsBlock labels' = i.beginsBlock labels := by
    unfold Instruction.beginsBlock
    rw [decide_eq_decide.2 h]
  unfold Scan.step Scan.place
  rw [hbegins]

/-- The scan asks for labels at the offsets of the body only. -/
theorem Code.segments_congr (h : ∀ x ∈ code.offsets, x ∈ labels' ↔ x ∈ labels) :
    code.segments policy labels' = code.segments policy labels := by
  -- over every state of the scan, since the states of the steps differ
  have hfold : ∀ s : Scan, code.foldlM (Scan.step policy labels') s =
      code.foldlM (Scan.step policy labels) s := by
    induction code with
    | nil => intro s; rfl
    | cons i rest ih =>
      intro s
      rw [List.foldlM_cons, List.foldlM_cons, Scan.step_congr (h i.offset List.mem_cons_self)]
      congr 1
      funext t
      exact ih (fun x hx => h x (List.mem_cons_of_mem _ hx)) t
  unfold Code.segments
  rw [hfold]

/-- Labels that agree at the offsets of the body give the same run, records and faults included. -/
theorem Graph.build_congr (h : ∀ x ∈ code.offsets, x ∈ labels' ↔ x ∈ labels) :
    Graph.build policy labels' code = Graph.build policy labels code := by
  unfold Graph.build
  rw [Code.segments_congr h]

end Labels

/-! ## §4. The blocks of a built graph -/

/-- **The blocks of a built graph are the parts of its body between leaders.**  The order lists the
    first offset of each part; the block kept at an offset is the last part that starts there, and
    it terminates exactly if that part ends with a return. -/
theorem Graph.parts_of_build {policy : Policy} {labels : OffsetSet} {code : Code} {g : Graph}
    (h : (Graph.build policy labels code).outcome = .ok g) :
    code.CutAtLeaders labels (code.cut labels) ∧
    g.order = (code.cut labels).filterMap (·.offsets.head?) ∧
    (∀ o, o ∈ g.blocks.keys ↔ o ∈ g.order) ∧
    (∀ o b, g.block? o = some b → ∃ before p after, code.cut labels = before ++ p :: after ∧
      p.offsets.head? = some o ∧ (∀ q ∈ after, q.offsets.head? ≠ some o) ∧
      b.body.toList = p.offsets ∧
      (b.terminating = true ↔ ∃ i, p.getLast? = some i ∧ i.flow = .functionReturn)) ∧
    (code.offsets.Nodup → g.inOrder.flatMap (·.body.toList) = code.offsets) ∧
    (∀ labels' : OffsetSet, (∀ x ∈ code.offsets, x ∈ labels' ↔ x ∈ labels) →
      Graph.build policy labels' code = Graph.build policy labels code) := by
  obtain ⟨_, ms, hmoves, _, rfl⟩ := Graph.build_eq_ok_iff_moves.1 h
  refine ⟨Code.cutAtLeaders_cut, ?_, ?_, ?_, ?_, ?_⟩
  · rw [Layout.order_toGraph, Layout.order_eq_cut hmoves]
  · intro o
    rw [Layout.keys_toGraph, Layout.order_toGraph]
    exact Layout.mem_starts_ofSegments
  · intro o b hblock
    rw [Layout.block?_toGraph] at hblock
    obtain ⟨s, hs, rfl⟩ := Option.map_eq_some_iff.1 hblock
    obtain ⟨before, p, after, hpieces, rfl, hstart, hother⟩ := Layout.get?_ofMoves_iff_part.1 hs
    have hp : p ∈ pieces labels ms := by
      rw [hpieces]
      simp
    refine ⟨before.map (List.map (·.instruction)), p.map (·.instruction),
      after.map (List.map (·.instruction)), ?_, hstart, ?_, ?_, ?_⟩
    · rw [← Code.map_pieces hmoves, hpieces, List.map_append, List.map_cons]
    · intro part hpart
      obtain ⟨q, hq, rfl⟩ := List.mem_map.1 hpart
      exact hother q hq
    · rw [offsets_map_instruction]
      rfl
    · exact Segment.returns_ofMoves_iff hmoves hp
  · exact fun hdistinct => Layout.flatMap_inOrder hmoves hdistinct
  · exact fun labels' hlabels => Graph.build_congr hlabels

/-- `0 NOP`, `2 RETURN_VALUE`. -/
def Code.firstPart : Code := [.decode 0 .nop none 2, .decode 2 .returnValue none 4]

/-- `0 NOP`, `2 NOP`, `4 JUMP_ABSOLUTE 0`. -/
def Code.secondPart : Code :=
  [.decode 0 .nop none 2, .decode 2 .nop none 4, .decode 4 .jumpAbsolute (some 0) 6]

/-- A body that comes back to offset 0: of its two parts, both listed under 0, the second is the
    block, and the return in the first is gone.  A loop without repeats: its blocks in program
    order hold each offset once.  In either body a label at 99 changes nothing. -/
theorem Graph.parts_of_repeat :
    (∃ g b, (Graph.build .lenient {99} (Code.firstPart ++ Code.secondPart)).outcome = .ok g ∧
      g.order = [0, 0] ∧ g.block? 0 = some b ∧ b.body.toList = [0, 2, 4] ∧
      b.terminating = false) ∧
    (∃ g, (Graph.build .strict {2, 99} Code.loop).outcome = .ok g ∧
      g.inOrder.flatMap (·.body.toList) = [0, 2, 4, 6, 8] ∧
      (Graph.build .strict {2} Code.loop).outcome = .ok g) := by
  constructor
  · obtain ⟨g, b, hbuild, hblock⟩ : ∃ g b,
        (Graph.build .lenient {99} (Code.firstPart ++ Code.secondPart)).outcome = .ok g ∧
        g.block? 0 = some b := ⟨_, _, rfl, rfl⟩
    obtain ⟨_, horder, _, hparts, _, _⟩ := Graph.parts_of_build hbuild
    obtain ⟨before, p, after, hcut, hstart, hother, hbody, hterm⟩ := hparts 0 b hblock
    have hcuts : before ++ p :: after = [Code.firstPart, Code.secondPart] := hcut.symm
    -- the first part is followed by another that starts at 0, so the kept one is the second
    obtain ⟨rfl, rfl, rfl⟩ :
        before = [Code.firstPart] ∧ p = Code.secondPart ∧ after = [] := by
      match before, hcuts with
      | [], hcuts =>
        obtain ⟨rfl, rfl⟩ := List.cons.inj hcuts
        exact absurd rfl (hother _ List.mem_cons_self)
      | [_], hcuts =>
        obtain ⟨rfl, hrest⟩ := List.cons.inj hcuts
        obtain ⟨rfl, rfl⟩ := List.cons.inj hrest
        exact ⟨rfl, rfl, rfl⟩
      | _ :: _ :: _, hcuts =>
        have hlen := congrArg List.length hcuts
        simp at hlen
    refine ⟨g, b, hbuild, horder, hblock, hbody, ?_⟩
    rw [← Bool.not_eq_true, hterm]
    decide
  · obtain ⟨g, hbuild⟩ : ∃ g, (Graph.build .strict {2, 99} Code.loop).outcome = .ok g := ⟨_, rfl⟩
    obtain ⟨_, _, _, _, hdistinct, hlabels⟩ := Graph.parts_of_build hbuild
    refine ⟨g, hbuild, hdistinct (by decide), ?_⟩
    rw [hlabels {2} (by decide), hbuild]

end BytecodeFlow
