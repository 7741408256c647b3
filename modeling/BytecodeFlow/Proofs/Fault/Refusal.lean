/-
  BytecodeFlow.Proofs.Fault.Refusal — WHICH FAULT a build ends with.

  Four things can go wrong with a body, and a build looks for them one after another:

    1. it is empty,
    2. its layout has a defect, where the policy asks for a check,
    3. one of its instructions breaks the rule of its class,
    4. an edge leads where no block begins, where the policy is strict about edges.

  Of several faults of one kind the first counts; for edges that is the least one, by source and
  then by target.  `Code.Refused` says all this of the body, its labels and the policy, with the
  blocks read off the cut at the leaders.

  Main statement: `Graph.build_refused_iff` — a build fails with exactly these faults, and where
  there is none it returns a graph.
-/
import BytecodeFlow.Proofs.Fault.Breach
import BytecodeFlow.Proofs.Fault.Defect
import BytecodeFlow.Proofs.Flow.Step
import BytecodeFlow.Proofs.Layout.Parts

namespace BytecodeFlow

/-! ## §1. Faults of a body -/

namespace Code

/-- An instruction in the block kept at `source` leads to `target`.  That block is the last part
    between leaders that starts at `source`. -/
inductive Records (labels : OffsetSet) (code : Code) (source target : Offset) : Prop
  | intro {before after : List Code} {front back : Code} {i : Instruction}
      (hcut : code.cut labels = before ++ (front ++ i :: back) :: after)
      (hstart : (front ++ i :: back).offsets.head? = some source)
      (hkept : ∀ p ∈ after, p.offsets.head? ≠ some source)
      (hleads : i.LeadsTo (before.flatten ++ front) target)

/-- The block at `source` records an edge to `target`, and no block begins there. -/
def Dangles (labels : OffsetSet) (code : Code) (source target : Offset) : Prop :=
  code.Records labels source target ∧ ∀ p ∈ code.cut labels, p.offsets.head? ≠ some target

/-- `code.Refused policy labels fault`: `fault` is the first that a build meets. -/
inductive Refused (policy : Policy) (labels : OffsetSet) (code : Code) : Fault → Prop
  /-- There is nothing to build from. -/
  | empty (hcode : code = []) : Refused policy labels code .emptyCode
  /-- The policy asks for a check of the layout, and the layout has a defect. -/
  | layout {d : Defect} (hcode : code ≠ []) (hchecks : policy.checksCode = true)
      (hdefect : code.FirstDefect d) : Refused policy labels code (.malformed d)
  /-- The layout passes, but some instruction breaks its rule. -/
  | breach {fault : Fault} (hcode : code ≠ [])
      (hlayout : policy.checksCode = true → ∀ d, ¬ code.FirstDefect d)
      (hbreach : code.FirstBreach policy fault) : Refused policy labels code fault
  /-- All instructions keep their rules, but the policy is strict and an edge dangles. -/
  | edge {source target : Offset} (hcode : code ≠ [])
      (hlayout : policy.checksCode = true → ∀ d, ¬ code.FirstDefect d)
      (hobeys : code.Obeys policy) (hstrict : policy.strictEdges = true)
      (hdangles : code.Dangles labels source target)
      (hleast : ∀ source' target', code.Dangles labels source' target' →
        source < source' ∨ source = source' ∧ target ≤ target') :
      Refused policy labels code (.malformed (.danglingEdge source target))

end Code

/-! ## §2. Dangling edges -/

section Dangling

variable {policy : Policy} {labels : OffsetSet} {code : Code} {ms p : List Move}
  {source target : Offset}

/-- A piece leads where some move in it does: only the last one has targets. -/
theorem Segment.mem_targets_ofMoves_iff (hp : p ∈ pieces labels ms) {x : Offset} :
    x ∈ (Segment.ofMoves p).targets ↔ ∃ m ∈ p, x ∈ m.transfer.targets := by
  constructor
  · intro hx
    obtain ⟨_, m, _, q, rfl, _⟩ := exists_last_of_mem_pieces hp
    rw [(Segment.targets_ofMoves List.getLast?_concat).1] at hx
    exact ⟨m, by simp, hx⟩
  · intro ⟨m, hm, hx⟩
    have hlast := getLast?_of_endsBlock hp hm (Transfer.endsBlock_of_mem_targets hx)
    rw [(Segment.targets_ofMoves hlast).1]
    exact hx

/-- What a move in a piece leads to, seen from the parts of the body. -/
theorem Move.mem_targets_iff_of_pieces {before after : List (List Move)} {front back : List Move}
    {m : Move} {x : Offset} (hmoves : code.moves policy [] = .ok ms)
    (hpieces : pieces labels ms = before ++ (front ++ m :: back) :: after) :
    x ∈ m.transfer.targets ↔ m.instruction.LeadsTo
      ((before.map (List.map (·.instruction))).flatten ++ front.map (·.instruction)) x := by
  have hms : ms = (before.flatten ++ front) ++ m :: (back ++ after.flatten) := by
    rw [← flatten_pieces labels ms, hpieces]
    simp
  rw [hms] at hmoves
  rw [Move.mem_targets_iff hmoves, List.map_append, List.map_flatten]

/-- **The segment kept at `source` notes the targets that the block there records.** -/
theorem Layout.records_iff (hmoves : code.moves policy [] = .ok ms) :
    (∃ s, (Layout.ofMoves labels ms).kept.get? source = some s ∧ target ∈ s.targets) ↔
      code.Records labels source target := by
  have hcut : (pieces labels ms).map (List.map (·.instruction)) = code.cut labels :=
    Code.map_pieces hmoves
  constructor
  · intro ⟨s, hs, htarget⟩
    obtain ⟨before, p, after, hpieces, rfl, hstart, hother⟩ := Layout.get?_ofMoves_iff_part.1 hs
    have hp : p ∈ pieces labels ms := by
      rw [hpieces]
      simp
    obtain ⟨m, hm, hx⟩ := (Segment.mem_targets_ofMoves_iff hp).1 htarget
    obtain ⟨front, back, rfl⟩ := List.append_of_mem hm
    rw [hpieces, List.map_append, List.map_cons, List.map_append, List.map_cons] at hcut
    rw [List.map_append, List.map_cons] at hstart
    refine .intro hcut.symm hstart ?_ ((Move.mem_targets_iff_of_pieces hmoves hpieces).1 hx)
    intro q' hq'
    obtain ⟨q, hq, rfl⟩ := List.mem_map.1 hq'
    exact hother q hq
  · intro ⟨hcut', hstart, hkept, hleads⟩
    -- the parts are the pieces, seen without what the instructions do
    obtain ⟨before, rest, hpieces, rfl, hrest⟩ := List.map_eq_append_iff.1 (hcut.trans hcut')
    obtain ⟨p, after, rfl, hp, rfl⟩ := List.map_eq_cons_iff.1 hrest
    obtain ⟨front, back, rfl, rfl, hback⟩ := List.map_eq_append_iff.1 hp
    obtain ⟨m, back, rfl, rfl, rfl⟩ := List.map_eq_cons_iff.1 hback
    have hmem : front ++ m :: back ∈ pieces labels ms := by
      rw [hpieces]
      simp
    refine ⟨Segment.ofMoves (front ++ m :: back), ?_, ?_⟩
    · refine Layout.get?_ofMoves_iff_part.2 ⟨before, _, after, hpieces, rfl, ?_, ?_⟩
      · rw [List.map_append, List.map_cons]
        exact hstart
      · intro q hq
        exact hkept _ (List.mem_map_of_mem hq)
    · have hx := (Move.mem_targets_iff_of_pieces hmoves hpieces).2 hleads
      exact (Segment.mem_targets_ofMoves_iff hmem).2 ⟨m, by simp, hx⟩

/-- The dangling edges of the layout are those of the body. -/
theorem Layout.mem_dangling_ofMoves_iff (hmoves : code.moves policy [] = .ok ms) :
    (source, target) ∈ (Layout.ofMoves labels ms).dangling ↔
      code.Dangles labels source target := by
  have hstarts : target ∉ (Layout.ofMoves labels ms).starts ↔
      ∀ p ∈ code.cut labels, p.offsets.head? ≠ some target := by
    rw [Layout.mem_starts_iff_part hmoves]
    simp
  rw [Layout.mem_dangling_iff, Code.Dangles, ← Layout.records_iff hmoves, ← hstarts]
  constructor
  · intro ⟨s, hs, htarget, hoff⟩
    exact ⟨⟨s, hs, htarget⟩, hoff⟩
  · intro ⟨⟨s, hs, htarget⟩, hoff⟩
    exact ⟨s, hs, htarget, hoff⟩

/-- Dangling edges are listed by source, and for one source by target. -/
theorem Layout.pairwise_dangling {l : Layout} :
    l.dangling.Pairwise fun e f => e.1 < f.1 ∨ e.1 = f.1 ∧ e.2 < f.2 := by
  unfold dangling
  rw [List.pairwise_flatMap]
  constructor
  · intro (source, s) _
    rw [List.pairwise_map]
    refine (s.targets.ascending.filter _).imp ?_
    intro a b hab
    exact .inr ⟨rfl, hab⟩
  · -- edges of two segments stand in the order of the segments
    refine (List.pairwise_map.1 l.kept.ascending).imp ?_
    intro (a, s) (b, t) hab e he f hf
    obtain ⟨_, _, rfl⟩ := List.mem_map.1 he
    obtain ⟨_, _, rfl⟩ := List.mem_map.1 hf
    exact .inl hab

/-- The first dangling edge is the least. -/
theorem Layout.head?_dangling_iff {l : Layout} {e : Offset × Offset} :
    l.dangling.head? = some e ↔ e ∈ l.dangling ∧
      ∀ f ∈ l.dangling, e.1 < f.1 ∨ e.1 = f.1 ∧ e.2 ≤ f.2 := by
  have hsorted := l.pairwise_dangling
  generalize l.dangling = edges at hsorted ⊢
  cases edges with
  | nil => simp
  | cons d rest =>
    have hrest := (List.pairwise_cons.1 hsorted).1
    rw [List.head?_cons, Option.some.injEq]
    constructor
    · intro hd
      subst hd
      refine ⟨List.mem_cons_self, ?_⟩
      intro f hf
      rcases List.mem_cons.1 hf with rfl | hf
      · exact .inr ⟨rfl, Nat.le_refl _⟩
      · exact (hrest f hf).imp_right fun h => ⟨h.1, Nat.le_of_lt h.2⟩
    · intro ⟨he, hleast⟩
      rcases List.mem_cons.1 he with rfl | he
      · rfl
      · -- an edge behind the first is greater, and the least is not
        have hlt : d.1 < e.1 ∨ d.1 = e.1 ∧ d.2 < e.2 := hrest e he
        have hle : e.1 < d.1 ∨ e.1 = d.1 ∧ e.2 ≤ d.2 := hleast d List.mem_cons_self
        grind

end Dangling

/-! ## §3. The steps of a build -/

/-- The check of a body fails for two reasons: there is nothing in it, or its layout has a defect
    and that is asked about. -/
theorem Code.check_eq_error_iff {policy : Policy} {code : Code} {fault : Fault} :
    code.check policy = .error fault ↔ code = [] ∧ fault = .emptyCode ∨
      code ≠ [] ∧ policy.checksCode = true ∧ ∃ d, code.FirstDefect d ∧ fault = .malformed d := by
  simp only [← Code.defect?_eq_some_iff]
  unfold check
  cases code with
  | nil => simp [@eq_comm _ fault]
  | cons i rest =>
    cases policy.checksCode with
    | false => simp
    | true => cases Code.defect? (i :: rest) <;> simp [@eq_comm _ fault]

theorem Code.check_eq_ok_iff {policy : Policy} {code : Code} :
    code.check policy = .ok () ↔
      code ≠ [] ∧ (policy.checksCode = true → ∀ d, ¬ code.FirstDefect d) := by
  simp only [← Code.defect?_eq_some_iff]
  unfold check
  cases code with
  | nil => simp
  | cons i rest =>
    cases policy.checksCode with
    | false => simp
    | true => cases Code.defect? (i :: rest) <;> simp

/-- What settling refuses is the first dangling edge. -/
theorem Layout.settle_eq_error_iff {policy : Policy} {l : Layout} {fault : Fault} :
    (l.settle policy).outcome = .error fault ↔ policy.strictEdges = true ∧
      ∃ e, l.dangling.head? = some e ∧ fault = .malformed (.danglingEdge e.1 e.2) := by
  by_cases h : policy.strictEdges = true
  · rw [settle_of_strict h]
    cases l.dangling.head? <;> simp [h, eq_comm]
  · have hlenient : policy.strictEdges = false := by simpa using h
    rw [settle_of_lenient hlenient]
    simp [hlenient]

/-- **A build fails as the first of its steps that fails.** -/
theorem Graph.build_eq_error_iff {policy : Policy} {labels : OffsetSet} {code : Code}
    {fault : Fault} :
    (Graph.build policy labels code).outcome = .error fault ↔
      code.check policy = .error fault ∨ code.check policy = .ok () ∧
        (code.moves policy [] = .error fault ∨ ∃ ms, code.moves policy [] = .ok ms ∧
          ((Layout.ofMoves labels ms).settle policy).outcome = .error fault) := by
  unfold Graph.build
  simp only [Logged.outcome_bind, Logged.outcome_lift, bind_eq_error_iff, Code.outcome_segments]
  cases Code.moves policy [] code <;> simp [Layout.ofMoves, Unique.exists_iff]

/-! ## §4. The fault of a build -/

/-- With strict edges a layout is refused for its least dangling edge. -/
theorem Layout.settle_ofMoves_eq_error_iff {policy : Policy} {labels : OffsetSet} {code : Code}
    {ms : List Move} {fault : Fault} (hmoves : code.moves policy [] = .ok ms) :
    ((Layout.ofMoves labels ms).settle policy).outcome = .error fault ↔
      policy.strictEdges = true ∧ ∃ source target, code.Dangles labels source target ∧
        (∀ source' target', code.Dangles labels source' target' →
          source < source' ∨ source = source' ∧ target ≤ target') ∧
        fault = .malformed (.danglingEdge source target) := by
  simp only [Layout.settle_eq_error_iff, Layout.head?_dangling_iff, Prod.exists, Prod.forall,
    Layout.mem_dangling_ofMoves_iff hmoves, and_assoc]

/-- **Which fault a build ends with.** -/
theorem Graph.build_refused_iff (policy : Policy) (labels : OffsetSet) (code : Code) :
    (∀ fault, (Graph.build policy labels code).outcome = .error fault ↔
      code.Refused policy labels fault) ∧
    ((∃ g, (Graph.build policy labels code).outcome = .ok g) ↔
      ∀ fault, ¬ code.Refused policy labels fault) := by
  have hrefused : ∀ fault, (Graph.build policy labels code).outcome = .error fault ↔
      code.Refused policy labels fault := by
    intro fault
    rw [Graph.build_eq_error_iff, Code.check_eq_error_iff, Code.check_eq_ok_iff]
    constructor
    · -- a step is reached only behind steps that pass, which is what each case of `Refused` asks
      rintro ((⟨hcode, rfl⟩ | ⟨hcode, hchecks, d, hdefect, rfl⟩) |
        ⟨⟨hcode, hlayout⟩, hmoves | ⟨ms, hmoves, hsettle⟩⟩)
      · exact .empty hcode
      · exact .layout hcode hchecks hdefect
      · exact .breach hcode hlayout (Code.moves_eq_error_iff.1 hmoves)
      · obtain ⟨hstrict, source, target, hdangles, hleast, rfl⟩ :=
          (Layout.settle_ofMoves_eq_error_iff hmoves).1 hsettle
        exact .edge hcode hlayout (Code.obeys_of_moves hmoves) hstrict hdangles hleast
    · intro h
      cases h with
      | empty hcode => exact .inl (.inl ⟨hcode, rfl⟩)
      | layout hcode hchecks hdefect => exact .inl (.inr ⟨hcode, hchecks, _, hdefect, rfl⟩)
      | breach hcode hlayout hbreach =>
        exact .inr ⟨⟨hcode, hlayout⟩, .inl (Code.moves_eq_error_iff.2 hbreach)⟩
      | edge hcode hlayout hobeys hstrict hdangles hleast =>
        obtain ⟨ms, hmoves⟩ := Code.exists_moves_iff.2 hobeys
        refine .inr ⟨⟨hcode, hlayout⟩, .inr ⟨ms, hmoves, ?_⟩⟩
        exact (Layout.settle_ofMoves_eq_error_iff hmoves).2
          ⟨hstrict, _, _, hdangles, hleast, rfl⟩
  refine ⟨hrefused, ?_⟩
  constructor
  · intro ⟨g, hg⟩ fault hfault
    rw [← hrefused, hg] at hfault
    cases hfault
  · -- a build has one of two outcomes
    intro hnone
    cases hout : (Graph.build policy labels code).outcome with
    | ok g => exact ⟨g, rfl⟩
    | error fault => exact absurd ((hrefused fault).1 hout) (hnone fault)

/-- The entry at 2 has no argument, and no room below the limit either: the argument is asked for
    first.  The instruction at 4 does not end behind its start; where the layout is checked, that
    is found before any rule is looked at. -/
example :
    let code : Code := [.decode 0 .setupLoop (some 4) 2, .decode 2 .setupLoop none 4,
      .decode 4 .nop none 3]
    (Graph.build { maxLoopDepth := 1, checksCode := false, strictEdges := true } ∅ code).outcome =
        .error (.malformed (.noExtent .setupLoop 2)) ∧
      (Graph.build { maxLoopDepth := 1, checksCode := true, strictEdges := true } ∅ code).outcome =
        .error (.malformed (.endsBeforeStart 4 3)) :=
  ⟨rfl, rfl⟩

end BytecodeFlow
