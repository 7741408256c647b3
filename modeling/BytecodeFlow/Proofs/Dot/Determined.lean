/-
  BytecodeFlow.Proofs.Dot.Determined — A DRAWING DETERMINES ITS GRAPH.

  A drawing says outright which blocks there are, in which order, what is in them and where the
  edges go.  In a built graph the rest hangs on that: predecessors are the edges read backwards,
  and live are the entry and what an edge leads to (`Graph.Linked`).  How a block ends shows in its
  style, unless it is the entry, whose style is taken.

  So two built graphs with one drawing can differ in how their entries end and in nothing else
  (`Graph.Agrees`), and two that agree so are drawn alike.

  Main statement: `Graph.toDot_eq_iff_of_build`.
-/
import Mathlib.Data.List.Forall2
import BytecodeFlow.Proofs.Dot.Lines
import BytecodeFlow.Proofs.Graph.WellFormed

namespace BytecodeFlow

/-- Two graphs that differ at most in how their entries end. -/
structure Graph.Agrees (g h : Graph) : Prop where
  order_eq : g.order = h.order
  keys_eq : g.blocks.keys = h.blocks.keys
  live_eq : g.live = h.live
  body_eq : ∀ o b c, g.block? o = some b → h.block? o = some c → b.body = c.body
  outgoing_eq : ∀ o b c, g.block? o = some b → h.block? o = some c → b.outgoing = c.outgoing
  incoming_eq : ∀ o b c, g.block? o = some b → h.block? o = some c → b.incoming = c.incoming
  terminating_eq : ∀ o b c, g.block? o = some b → h.block? o = some c → o ≠ g.entry →
    b.terminating = c.terminating

namespace Dot

/-! ## §1. Titles -/

/-- What a drawing keeps of a title. -/
def withoutReturns (title : String) : List Char := title.toList.filter (· ≠ '\r')

/-- Carriage returns have no tokens, so the title without them has the same ones. -/
theorem titleTokens_eq (title : String) :
    titleTokens title = (withoutReturns title).flatMap tokensOf := by
  unfold titleTokens withoutReturns
  induction title.toList with
  | nil => rfl
  | cons c rest ih =>
    rw [List.flatMap_cons, ih, List.filter_cons]
    by_cases hc : c = '\r'
    · rw [hc]
      rfl
    · rw [if_pos (decide_eq_true hc), List.flatMap_cons]

/-- Titles are written alike exactly if they differ in carriage returns only. -/
theorem escape_inj {title title' : String} :
    escape title = escape title' ↔ withoutReturns title = withoutReturns title' := by
  constructor
  · intro h
    have hchars : (titleTokens title).flatMap Token.chars =
        (titleTokens title').flatMap Token.chars := by
      rw [← toList_escape, ← toList_escape, h]
    -- the tokens can be read off the text, and the title off the tokens
    have htokens : titleTokens title = titleTokens title' := by
      apply Option.some.inj
      rw [← tokens?_chars (plain_not_mem_titleTokens title (by decide)), hchars,
        tokens?_chars (plain_not_mem_titleTokens title' (by decide))]
    apply Option.some.inj
    unfold withoutReturns
    rw [← mapM_titleTokens, ← mapM_titleTokens, htokens]
  · intro h
    rw [← String.toList_inj, toList_escape, toList_escape, titleTokens_eq, titleTokens_eq, h]

theorem titleLine_inj {title title' : String} :
    titleLine title = titleLine title' ↔ withoutReturns title = withoutReturns title' := by
  rw [← String.toList_inj, toList_titleLine, toList_titleLine, List.append_cancel_left_eq,
    List.append_cancel_left_eq, List.append_cancel_right_eq, String.toList_inj, escape_inj]

theorem map_titleLine_inj {title title' : Option String} :
    title.map titleLine = title'.map titleLine ↔
      title.map withoutReturns = title'.map withoutReturns := by
  cases title with
  | none => cases title' <;> simp
  | some t => cases title' <;> simp [titleLine_inj]

/-! ## §2. Drawings, line by line -/

variable {g h : Graph}

/-- The lines of a drawing, in a row: what is fixed stands between what varies. -/
theorem lines_eq (g : Graph) (title : Option String) :
    lines g title = heading :: ((title.map titleLine).toList ++ "    labelloc=t;" ::
      "    node [shape=box, fontname=\"Courier\", fontsize=10];" :: "" ::
        (g.inOrder.map (blockLine g) ++ "" :: (g.inOrder.flatMap edgeLines ++ [closing]))) := by
  unfold lines
  simp only [List.append_assoc, List.cons_append, List.nil_append]

/-- A line tells whether it is that of a title. -/
theorem titleLine_ne {title : String} : titleLine title ≠ "    labelloc=t;" := by
  intro heq
  rw [← String.toList_inj, toList_titleLine] at heq
  simp at heq

theorem blockLine_ne_empty {b : Block} : blockLine g b ≠ "" := by
  intro heq
  rw [← String.toList_inj, toList_blockLine] at heq
  simp at heq

/-- Below the title an empty line parts the blocks from the edges. -/
theorem parts_inj {edges edges' : List String} :
    g.inOrder.map (blockLine g) ++ "" :: (edges ++ [closing]) =
        h.inOrder.map (blockLine h) ++ "" :: (edges' ++ [closing]) ↔
      g.inOrder.map (blockLine g) = h.inOrder.map (blockLine h) ∧ edges = edges' := by
  -- the line of a block names it, so the empty line is none of theirs
  have hblocks : ∀ g : Graph, ∀ line ∈ g.inOrder.map (blockLine g), decide (line ≠ "") = true := by
    intro g line hline
    obtain ⟨b, _, rfl⟩ := List.mem_map.1 hline
    exact decide_eq_true blockLine_ne_empty
  rw [append_cons_inj (hblocks g) (hblocks h) (by decide) (by decide),
    List.append_cancel_right_eq]
  simp only [true_and]

/-- **Equal drawings have equal titles, equal blocks and equal edges.** A missing title is told by
    the line that comes first then. -/
theorem lines_inj {title title' : Option String} : lines g title = lines h title' ↔
    title.map titleLine = title'.map titleLine ∧
      g.inOrder.map (blockLine g) = h.inOrder.map (blockLine h) ∧
      g.inOrder.flatMap edgeLines = h.inOrder.flatMap edgeLines := by
  rw [lines_eq, lines_eq, ← parts_inj]
  -- the line that comes first below the heading says whether there is a title
  cases title with
  | none =>
    cases title' with
    | none => simp
    | some t' => simp [titleLine_ne.symm]
  | some t =>
    cases title' with
    | none => simp [titleLine_ne]
    | some t' => simp

/-- Off the entry the style says how a block ends. -/
theorem terminating_of_style {b c : Block} (hb : b.start ≠ g.entry) (hc : c.start ≠ h.entry)
    (hstyle : style g b = style h c) : b.terminating = c.terminating := by
  -- coral is the style of the blocks that terminate, and of no other
  have hcoral : ∀ (g : Graph) (b : Block), b.start ≠ g.entry →
      (style g b = ", style=filled, fillcolor=lightcoral" ↔ b.terminating = true) := by
    intro g b hb
    unfold style
    rw [if_neg hb]
    cases b.terminating with
    | true => simp
    | false => cases g.isLive b.start <;> simp
  rw [Bool.eq_iff_iff, ← hcoral g b hb, ← hcoral h c hc, hstyle]

end Dot

/-! ## §3. Graphs -/

namespace Graph

section WellFormed

variable {g : Graph}

/-- The blocks in program order are the blocks kept under their starts. -/
theorem WellFormed.mem_inOrder_iff (hg : g.WellFormed) {b : Block} :
    b ∈ g.inOrder ↔ g.block? b.start = some b := by
  unfold inOrder
  rw [List.mem_filterMap]
  constructor
  · intro ⟨o, _, hb⟩
    rw [hg.start_eq o b hb]
    exact hb
  · intro hb
    exact ⟨b.start, (hg.mem_order_iff b.start).2 (OffsetMap.mem_keys_of_get? hb), hb⟩

theorem WellFormed.map_start_inOrder (hg : g.WellFormed) :
    g.inOrder.map (·.start) = g.order := by
  have hstart : ∀ o ∈ g.order, (g.block? o).map (·.start) = some o := by
    intro o ho
    obtain ⟨b, hb, hstart⟩ := hg.exists_block ho
    rw [hb, Option.map_some, hstart]
  unfold inOrder
  rw [List.map_filterMap, List.filterMap_congr hstart, List.filterMap_some]

/-- A drawing has a line for every edge and for nothing else. -/
theorem WellFormed.mem_edgeLines_iff (hg : g.WellFormed) {source target : Offset} :
    Dot.edgeLine source target ∈ g.inOrder.flatMap Dot.edgeLines ↔ g.Edge source target := by
  simp only [List.mem_flatMap, Dot.edgeLines_eq, List.mem_map, Dot.edgeLine_inj]
  constructor
  · rintro ⟨b, hb, _, htarget, rfl, rfl⟩
    exact (edge_iff_of_block? (hg.mem_inOrder_iff.1 hb)).2 htarget
  · intro ⟨s, hs, htarget⟩
    obtain ⟨b, hb, rfl⟩ := Option.map_eq_some_iff.1 hs
    obtain rfl := hg.start_eq source b hb
    exact ⟨b, hg.mem_inOrder_iff.2 hb, target, htarget, rfl, rfl⟩

end WellFormed

variable {g h : Graph}

/-- The entry is the first in the order. -/
theorem entry_eq_of_order_eq (horder : g.order = h.order) : g.entry = h.entry := by
  unfold entry
  rw [horder]

/-- The lines of the blocks list where they start. -/
theorem order_eq_of_blockLines (hg : g.WellFormed) (hh : h.WellFormed)
    (hblocks : g.inOrder.map (Dot.blockLine g) = h.inOrder.map (Dot.blockLine h)) :
    g.order = h.order := by
  -- the two lists of lines agree place by place
  have hlines : List.Forall₂ (fun b c => Dot.blockLine g b = Dot.blockLine h c)
      g.inOrder h.inOrder := by
    rw [← List.forall₂_eq_eq_eq, List.forall₂_map_left_iff, List.forall₂_map_right_iff] at hblocks
    exact hblocks
  have hstarts : List.Forall₂ (fun b c : Block => b.start = c.start) g.inOrder h.inOrder :=
    hlines.imp fun _ _ hline => (Dot.blockLine_inj.1 hline).1
  rw [← hg.map_start_inOrder, ← hh.map_start_inOrder, ← List.forall₂_eq_eq_eq,
    List.forall₂_map_left_iff, List.forall₂_map_right_iff]
  exact hstarts

/-- Under one offset both graphs have a block with the same line. -/
theorem blockLine_eq_of_blockLines (hg : g.WellFormed) (hh : h.WellFormed)
    (hblocks : g.inOrder.map (Dot.blockLine g) = h.inOrder.map (Dot.blockLine h)) {o : Offset}
    {b c : Block} (hb : g.block? o = some b) (hc : h.block? o = some c) :
    Dot.blockLine g b = Dot.blockLine h c := by
  obtain rfl := hg.start_eq o b hb
  have hmem : Dot.blockLine g b ∈ h.inOrder.map (Dot.blockLine h) := by
    rw [← hblocks]
    exact List.mem_map_of_mem (hg.mem_inOrder_iff.2 hb)
  obtain ⟨c', hc', hline⟩ := List.mem_map.1 hmem
  -- the line names the start, and under it there is one block only
  have hstart : c'.start = b.start := (Dot.blockLine_inj.1 hline).1
  have hc'' := hh.mem_inOrder_iff.1 hc'
  rw [hstart, hc] at hc''
  rw [← hline, Option.some.inj hc'']

/-- The lines of the blocks and the edges determine whatever two graphs can agree in. -/
theorem agrees_of_lines (hg : g.WellFormed) (hh : h.WellFormed) (hlinked : g.Linked)
    (hlinked' : h.Linked)
    (hblocks : g.inOrder.map (Dot.blockLine g) = h.inOrder.map (Dot.blockLine h))
    (hedges : g.inOrder.flatMap Dot.edgeLines = h.inOrder.flatMap Dot.edgeLines) : g.Agrees h := by
  have horder : g.order = h.order := order_eq_of_blockLines hg hh hblocks
  have hentry : g.entry = h.entry := entry_eq_of_order_eq horder
  have hedge : ∀ source target, g.Edge source target ↔ h.Edge source target := by
    intro source target
    rw [← hg.mem_edgeLines_iff, ← hh.mem_edgeLines_iff, hedges]
  -- the rest follows from order, edges and the lines of single blocks
  refine ⟨horder, ?keys, ?live, ?body, ?outgoing, ?incoming, ?terminating⟩
  case keys =>
    ext o
    rw [← hg.mem_order_iff, ← hh.mem_order_iff, horder]
  case live =>
    ext o
    simp only [hlinked.mem_live_iff, hlinked'.mem_live_iff, hentry, hedge]
  case body =>
    intro o b c hb hc
    exact (Dot.blockLine_inj.1 (blockLine_eq_of_blockLines hg hh hblocks hb hc)).2.2.1
  case outgoing =>
    intro o b c hb hc
    ext target
    rw [← edge_iff_of_block? hb, ← edge_iff_of_block? hc, hedge]
  case incoming =>
    intro o b c hb hc
    ext source
    have hsources := hlinked.mem_predecessors_iff source o
    have hsources' := hlinked'.mem_predecessors_iff source o
    unfold predecessors? at hsources hsources'
    rw [hb, Option.map_some, Option.getD_some] at hsources
    rw [hc, Option.map_some, Option.getD_some] at hsources'
    rw [hsources, hsources', hedge]
  case terminating =>
    intro o b c hb hc ho
    have hstyle := (Dot.blockLine_inj.1 (blockLine_eq_of_blockLines hg hh hblocks hb hc)).2.2.2
    refine Dot.terminating_of_style ?_ ?_ hstyle
    · rw [hg.start_eq o b hb]
      exact ho
    · rw [hh.start_eq o c hc, ← hentry]
      exact ho

/-- Blocks that graphs agree in are drawn alike. -/
theorem Agrees.blockLine_eq (hg : g.WellFormed) (hh : h.WellFormed) (hagrees : g.Agrees h)
    {o : Offset} {b c : Block} (hb : g.block? o = some b) (hc : h.block? o = some c) :
    Dot.blockLine g b = Dot.blockLine h c ∧ Dot.edgeLines b = Dot.edgeLines c := by
  have hentry : g.entry = h.entry := entry_eq_of_order_eq hagrees.order_eq
  have hstart : b.start = c.start := (hg.start_eq o b hb).trans (hh.start_eq o c hc).symm
  constructor
  · rw [Dot.blockLine_inj]
    refine ⟨hstart, ?_, hagrees.body_eq o b c hb hc, ?_⟩
    · unfold Dot.role
      rw [hstart, hentry]
    · unfold Dot.style isLive
      rw [hstart, hentry, hagrees.live_eq]
      -- only at the entry may the graphs end differently, and there the style does not show it
      by_cases ho : c.start = h.entry
      · rw [if_pos ho, if_pos ho]
      · have ho' : o ≠ g.entry := by
          rw [hentry, ← hh.start_eq o c hc]
          exact ho
        rw [hagrees.terminating_eq o b c hb hc ho']
  · rw [Dot.edgeLines_eq, Dot.edgeLines_eq, hstart, hagrees.outgoing_eq o b c hb hc]

theorem Agrees.lines_eq (hg : g.WellFormed) (hh : h.WellFormed) (hagrees : g.Agrees h) :
    g.inOrder.map (Dot.blockLine g) = h.inOrder.map (Dot.blockLine h) ∧
      g.inOrder.flatMap Dot.edgeLines = h.inOrder.flatMap Dot.edgeLines := by
  -- each listed offset has a block in either graph, and the two are drawn alike
  have hlines : ∀ o ∈ g.order,
      (g.block? o).map (Dot.blockLine g) = (h.block? o).map (Dot.blockLine h) ∧
        (g.block? o).map Dot.edgeLines = (h.block? o).map Dot.edgeLines := by
    intro o ho
    obtain ⟨b, hb, _⟩ := hg.exists_block ho
    obtain ⟨c, hc, _⟩ := hh.exists_block (hagrees.order_eq ▸ ho)
    obtain ⟨hblock, hedges⟩ := hagrees.blockLine_eq hg hh hb hc
    rw [hb, hc, Option.map_some, Option.map_some, Option.map_some, Option.map_some, hblock, hedges]
    exact ⟨rfl, rfl⟩
  unfold inOrder
  rw [List.flatMap_def, List.flatMap_def, List.map_filterMap, List.map_filterMap,
    List.map_filterMap, List.map_filterMap, ← hagrees.order_eq,
    List.filterMap_congr fun o ho => (hlines o ho).1,
    List.filterMap_congr fun o ho => (hlines o ho).2]
  exact ⟨rfl, rfl⟩

/-- **A drawing determines the graph it was made of.**  Two built graphs, under any titles, are
    drawn alike exactly if both titles are missing or both are the same up to carriage returns, and
    the graphs differ at most in how their entries end.  No title helps or hinders: what a
    drawing says of blocks and edges is said by their own lines. -/
theorem toDot_eq_iff_of_build {policy policy' : Policy} {labels labels' : OffsetSet}
    {code code' : Code} (hg : (Graph.build policy labels code).outcome = .ok g)
    (hh : (Graph.build policy' labels' code').outcome = .ok h) (title title' : Option String) :
    (g.toDot title = h.toDot title' ↔
        title.map Dot.withoutReturns = title'.map Dot.withoutReturns ∧ g.Agrees h) ∧
      Dot.drawn (g.toDot title) =
        (g.inOrder.map (Dot.blockLine g) ++ g.inOrder.flatMap Dot.edgeLines).map String.toList := by
  have hwf := wellFormed_of_build hg
  have hwf' := wellFormed_of_build hh
  refine ⟨?_, Dot.drawn_toDot⟩
  rw [Dot.toDot_inj, Dot.lines_inj, Dot.map_titleLine_inj]
  constructor
  · intro ⟨htitle, hblocks, hedges⟩
    have hagrees : g.Agrees h :=
      agrees_of_lines hwf hwf' (linked_of_build hg) (linked_of_build hh) hblocks hedges
    exact ⟨htitle, hagrees⟩
  · intro ⟨htitle, hagrees⟩
    exact ⟨htitle, hagrees.lines_eq hwf hwf'⟩

/-- `0 NOP`, `2 RETURN_VALUE`. -/
def endsByReturn : Code :=
  [.decode 0 .nop none 2, .decode 2 .returnValue none 4]

/-- `0 NOP`, `2 NOP`. -/
def justStops : Code :=
  [.decode 0 .nop none 2, .decode 2 .nop none 4]

/-- A body that ends its function and one that just stops have one drawing, under titles that
    differ in a carriage return.  A title that looks like the end of its line and an edge draws no
    edge. -/
theorem toDot_of_hiddenEnd :
    ∃ g h : Graph,
      (Graph.build .strict ∅ endsByReturn).outcome = .ok g ∧
      (Graph.build .lenient ∅ justStops).outcome = .ok h ∧
      g ≠ h ∧ g.toDot (some "f\r\n") = h.toDot (some "f\n") ∧ g.Agrees h ∧
      Dot.drawn (g.toDot (some "\";\n    B0 -> B2;")) = Dot.drawn (g.toDot none) := by
  obtain ⟨g, h, hg, hh, hne, htext⟩ : ∃ g h : Graph,
      (Graph.build .strict ∅ endsByReturn).outcome = .ok g ∧
      (Graph.build .lenient ∅ justStops).outcome = .ok h ∧
      g ≠ h ∧ g.toDot (some "f\r\n") = h.toDot (some "f\n") :=
    ⟨_, _, rfl, rfl, by decide, by decide +kernel⟩
  have hagrees := ((toDot_eq_iff_of_build hg hh (some "f\r\n") (some "f\n")).1.1 htext).2
  have hforged := (toDot_eq_iff_of_build hg hh (some "\";\n    B0 -> B2;") none).2
  have hplain := (toDot_eq_iff_of_build hg hh none none).2
  exact ⟨g, h, hg, hh, hne, htext, hagrees, hforged.trans hplain.symm⟩

end Graph

end BytecodeFlow
