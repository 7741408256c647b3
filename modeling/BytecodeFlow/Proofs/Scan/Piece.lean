/-
  BytecodeFlow.Proofs.Scan.Piece — PIECES: the moves of a body, cut where blocks begin.

  A move joins the one before it unless that one ends a block or it begins one itself.  Cutting a
  body's moves wherever one does not join gives its pieces, and the scan's segments are the
  pieces, read as segments (`Code.outcome_segments`).  The cut is the library's `List.splitBy`,
  which brings its own lemmas: the pieces are not empty, they join inside and not outside, and
  one after another they are all the moves.

  The scan is opened once, by `Scan.outcome_step`: it is the instruction's transfer followed by
  `Scan.take`, which cannot fail.
-/
import Mathlib.Data.List.SplitBy
import Mathlib.Data.List.Induction
import BytecodeFlow.Segment
import BytecodeFlow.Proofs.Scan.Move

namespace BytecodeFlow

/-! ## §1. Cutting at the end of a list -/

section SplitBy

variable {α : Type} {r : α → α → Bool} {l : List α} {x : α}

/-- What does not join the last entry is a part of its own. -/
theorem splitBy_concat_of_cut (h : ∀ y ∈ l.getLast?, r y x = false) :
    (l ++ [x]).splitBy r = l.splitBy r ++ [[x]] :=
  List.splitBy_append_cons [] h

/-- What joins the last entry ends the last part. -/
theorem splitBy_concat_of_join {ps : List (List α)} {p : List α} (hl : l.splitBy r = ps ++ [p])
    (h : ∀ y ∈ p.getLast?, r y x = true) : (l ++ [x]).splitBy r = ps ++ [p ++ [x]] := by
  obtain ⟨hflat, hnil, hjoin, hcut⟩ := List.splitBy_eq_iff.1 hl
  rw [List.splitBy_eq_iff]
  refine ⟨?_, ?_, ?_, ?_⟩
  · rw [hflat]
    simp
  · simp only [List.mem_append, List.mem_singleton, not_or] at hnil ⊢
    exact ⟨hnil.1, by simp⟩
  · intro m hm
    rcases List.mem_append.1 hm with hm | hm
    · exact hjoin m (List.mem_append_left _ hm)
    · obtain rfl := List.mem_singleton.1 hm
      rw [List.isChain_append]
      refine ⟨hjoin p (List.mem_append_right _ (List.mem_singleton_self p)), .singleton x, ?_⟩
      intro y hy z hz
      obtain rfl : x = z := by simpa using hz
      exact h y hy
  · -- the last part has the same first entry as before, so the cut before it stays a cut
    rw [List.isChain_append] at hcut ⊢
    refine ⟨hcut.1, .singleton _, ?_⟩
    intro y hy z hz
    obtain rfl : p ++ [x] = z := by simpa using hz
    obtain ⟨hy', hp, hfalse⟩ := hcut.2.2 y hy p rfl
    refine ⟨hy', by simp, ?_⟩
    rw [List.head_append_of_ne_nil hp]
    exact hfalse

end SplitBy

/-! ## §2. Pieces -/

/-- Whether `n` stays in the block of the move `m` before it. -/
def Move.joins (labels : OffsetSet) (m n : Move) : Bool :=
  !m.transfer.endsBlock && !n.instruction.beginsBlock labels

/-- The moves of a body, cut wherever one does not join the one before it. -/
def pieces (labels : OffsetSet) (ms : List Move) : List (List Move) :=
  ms.splitBy (Move.joins labels)

theorem flatten_pieces (labels : OffsetSet) (ms : List Move) : (pieces labels ms).flatten = ms :=
  List.flatten_splitBy (Move.joins labels) ms

theorem ne_nil_of_mem_pieces {labels : OffsetSet} {ms p : List Move} (h : p ∈ pieces labels ms) :
    p ≠ [] :=
  List.ne_nil_of_mem_splitBy h

/-- A piece as a segment. -/
def Segment.ofMoves (ms : List Move) : Segment where
  start := ms.head?.elim 0 Move.offset
  body := (ms.map Move.offset).toArray
  targets := ms.getLast?.elim ∅ (·.transfer.targets)
  returns := ms.getLast?.elim false (·.transfer.returns)

namespace Segment

/-- One more move at the end brings its own targets; those before it had none. -/
theorem ofMoves_concat {ms : List Move} {m : Move} (hne : ms ≠ []) :
    ofMoves (ms ++ [m]) =
      { (ofMoves ms).push m.offset with
        targets := m.transfer.targets, returns := m.transfer.returns } := by
  have hlast : (ms ++ [m]).getLast? = some m := List.getLast?_concat
  unfold ofMoves
  rw [hlast]
  cases ms with
  | nil => exact absurd rfl hne
  | cons n rest => simp [push]

/-- A piece leads where its last move does. -/
theorem targets_ofMoves {ms : List Move} {m : Move} (hm : ms.getLast? = some m) :
    (ofMoves ms).targets = m.transfer.targets ∧ (ofMoves ms).returns = m.transfer.returns := by
  unfold ofMoves
  rw [hm]
  exact ⟨rfl, rfl⟩

end Segment

/-! ## §3. The scan, with the transfers known -/

namespace Scan

variable {policy : Policy} {labels : OffsetSet} {s : Scan} {ms : List Move} {m : Move}

/-- The segment that a move ends up in, and those finished before it. -/
def placed (labels : OffsetSet) (s : Scan) (m : Move) : List Segment × Segment :=
  match s.current, m.instruction.beginsBlock labels with
  | some segment, false => (s.closed, segment.push m.offset)
  | current, _ => (current.toList ++ s.closed, (Segment.opened m.offset).push m.offset)

/-- One move further. -/
def take (labels : OffsetSet) (s : Scan) (m : Move) : Scan :=
  let (closed, segment) := s.placed labels m
  let scopes := m.transfer.scopes s.scopes
  match m.transfer with
  | .goOn | .enterLoop _ | .leaveLoop => { closed, current := some segment, scopes }
  | .branch targets => { closed := { segment with targets } :: closed, scopes }
  | .leaveFunction => { closed := { segment with returns := true } :: closed, scopes }

theorem scopes_take : (s.take labels m).scopes = m.transfer.scopes s.scopes := by
  unfold take
  cases m.transfer <;> rfl

/-- What scopes are open does not depend on labels. -/
theorem scopes_foldl_take (labels : OffsetSet) (s : Scan) (ms : List Move) :
    (ms.foldl (take labels) s).scopes = s.scopes.after ms := by
  induction ms generalizing s with
  | nil => rfl
  | cons m rest ih =>
    rw [List.foldl_cons, ih, scopes_take]
    rfl

/-- Behind a move no segment is current exactly if the move ends a block. -/
theorem current_take_eq_none_iff :
    (s.take labels m).current = none ↔ m.transfer.endsBlock = true := by
  unfold take
  cases m.transfer <;> simp [Transfer.endsBlock]

theorem outcome_place (i : Instruction) (t : Transfer) :
    (s.place labels i).outcome = .ok (s.placed labels ⟨i, t⟩) := by
  unfold place placed
  show _ = Except.ok (match s.current, i.beginsBlock labels with
    | some segment, false => (s.closed, segment.push i.offset)
    | current, _ => (current.toList ++ s.closed, (Segment.opened i.offset).push i.offset))
  cases s.current with
  | none => cases i.beginsBlock labels <;> rfl
  | some segment => cases i.beginsBlock labels <;> rfl

/-- **A step of the scan**: what the instruction does, and then the move. -/
theorem outcome_step {i : Instruction} :
    (s.step policy labels i).outcome =
      (fun t => s.take labels ⟨i, t⟩) <$> i.transfer policy s.scopes := by
  unfold step
  rw [Logged.outcome_bind]
  -- an instruction is placed either way, and only its transfer decides
  cases ht : i.transfer policy s.scopes with
  | error fault =>
    rw [outcome_place i .goOn]
    simp only [Logged.outcome_bind, Logged.outcome_lift]
    rfl
  | ok t =>
    rw [outcome_place i t]
    simp only [Logged.outcome_bind, Logged.outcome_lift]
    unfold take
    cases t <;> rfl

/-- The scan of a body takes its moves one by one. -/
theorem outcome_foldlM_step {code : Code} :
    (code.foldlM (step policy labels) s).outcome =
      (fun ms => ms.foldl (take labels) s) <$> code.moves policy s.scopes := by
  induction code generalizing s with
  | nil => rfl
  | cons i rest ih =>
    -- the scopes are the same on both sides, so both fail together or go on together
    rw [List.foldlM_cons, Logged.outcome_bind, outcome_step, Code.moves]
    cases i.transfer policy s.scopes with
    | error fault => rfl
    | ok t =>
      show ((rest.foldlM (step policy labels) (s.take labels ⟨i, t⟩)).outcome : Except _ _) = _
      rw [ih, scopes_take]
      show _ = _ <$> ((Code.moves policy (t.scopes s.scopes) rest) >>= _)
      cases Code.moves policy (t.scopes s.scopes) rest <;> rfl

/-! ## §4. The scan reads off the pieces -/

/-- The scan `s` has read the moves `ms`: its segments are their pieces, and the last of them is
    unfinished unless it ends with a move that ends blocks. -/
structure Reads (labels : OffsetSet) (ms : List Move) (s : Scan) : Prop where
  segments_eq : s.segments = (pieces labels ms).map Segment.ofMoves
  current_eq_none_iff : s.current = none ↔ ∀ m ∈ ms.getLast?, m.transfer.endsBlock = true

theorem Reads.nil : Reads labels [] {} := by
  refine ⟨rfl, ?_⟩
  simp

/-- What a move adds to the segments, if the segment it joins has no targets yet. -/
theorem segments_take
    (h : ∀ segment ∈ s.current, segment.targets = ∅ ∧ segment.returns = false) :
    (s.take labels m).segments = (s.placed labels m).1.reverse ++
      [{ (s.placed labels m).2 with
          targets := m.transfer.targets, returns := m.transfer.returns }] := by
  have hfresh : (s.placed labels m).2.targets = ∅ ∧ (s.placed labels m).2.returns = false := by
    unfold placed
    split
    case h_1 segment hcurrent _ => exact h segment hcurrent
    case h_2 => exact ⟨rfl, rfl⟩
  obtain ⟨htargets, hreturns⟩ := hfresh
  unfold take segments
  cases m.transfer <;> simp [Transfer.targets, Transfer.returns, ← htargets, ← hreturns]

/-- The segment that is current is the last piece, and that piece goes on. -/
theorem Reads.last_piece {segment : Segment} (h : Reads labels ms s)
    (hcurrent : s.current = some segment) :
    ∃ ps p, pieces labels ms = ps ++ [p] ∧ p ≠ [] ∧ Segment.ofMoves p = segment ∧
      s.closed.reverse = ps.map Segment.ofMoves ∧
      ∀ m ∈ p.getLast?, m ∈ ms.getLast? ∧ m.transfer.endsBlock = false := by
  have hsegments := h.segments_eq
  unfold segments at hsegments
  rw [hcurrent, Option.toList_some] at hsegments
  -- the segments are the pieces, and the current one comes last among them
  obtain ⟨ps, last, hps, hclosed, hlast⟩ := List.map_eq_append_iff.1 hsegments.symm
  obtain ⟨p, rfl, hp⟩ := List.map_eq_singleton_iff.1 hlast
  have hmem : p ∈ pieces labels ms := by
    rw [hps]
    exact List.mem_append_right _ (List.mem_singleton_self p)
  have hne : p ≠ [] := ne_nil_of_mem_pieces hmem
  have hflat : ms = ps.flatten ++ p := by
    rw [← flatten_pieces labels ms, hps, List.flatten_append, List.flatten_singleton]
  have hlast : ms.getLast? = p.getLast? := by
    rw [hflat, List.getLast?_append_of_ne_nil _ hne]
  refine ⟨ps, p, hps, hne, hp, hclosed.symm, ?_⟩
  intro m hm
  refine ⟨hlast ▸ hm, ?_⟩
  -- had the last move ended a block, no segment would be current
  by_cases hends : m.transfer.endsBlock = true
  · have hnone : s.current = none := h.current_eq_none_iff.2 (by
      intro n hn
      rw [hlast] at hn
      rw [← Option.mem_unique hm hn]
      exact hends)
    rw [hnone] at hcurrent
    cases hcurrent
  · simpa using hends

/-- Where the move begins a segment, it is a piece of its own so far. -/
theorem Reads.take_opened (h : Reads labels ms s)
    (hcut : ∀ n ∈ ms.getLast?, n.joins labels m = false)
    (hplaced : (s.placed labels m).1.reverse = s.segments ∧
      (s.placed labels m).2 = (Segment.opened m.offset).push m.offset)
    (hfresh : ∀ segment ∈ s.current, segment.targets = ∅ ∧ segment.returns = false) :
    (s.take labels m).segments = (pieces labels (ms ++ [m])).map Segment.ofMoves := by
  have hpieces : pieces labels (ms ++ [m]) = pieces labels ms ++ [[m]] :=
    splitBy_concat_of_cut hcut
  rw [segments_take hfresh, hplaced.1, hplaced.2, h.segments_eq, hpieces, List.map_append]
  rfl

/-- A move is read: the segments keep up with the pieces. -/
theorem Reads.take (h : Reads labels ms s) : Reads labels (ms ++ [m]) (s.take labels m) := by
  -- the current segment goes on, so its last move has noted nothing yet
  have hfresh : ∀ segment ∈ s.current, segment.targets = ∅ ∧ segment.returns = false := by
    intro segment hsegment
    obtain ⟨_, p, _, hne, hp, _, hgoes⟩ := h.last_piece hsegment
    have hlast := List.getLast?_eq_some_getLast hne
    obtain ⟨htargets, hreturns⟩ := Segment.targets_ofMoves hlast
    rw [← hp, htargets, hreturns]
    exact Transfer.targets_of_goesOn (hgoes _ hlast).2
  refine ⟨?_, ?_⟩
  · -- three cases: nothing to join, a move that begins a segment, and a move that joins
    cases hcurrent : s.current with
    | none =>
      refine h.take_opened ?_ ?_ hfresh
      · intro n hn
        unfold Move.joins
        rw [h.current_eq_none_iff.1 hcurrent n hn]
        rfl
      · unfold placed segments
        rw [hcurrent]
        simp
    | some segment =>
      by_cases hbegins : m.instruction.beginsBlock labels = true
      · refine h.take_opened ?_ ?_ hfresh
        · intro n _
          unfold Move.joins
          rw [hbegins]
          simp
        · unfold placed segments
          rw [hcurrent, hbegins]
          simp
      · rw [Bool.not_eq_true] at hbegins
        obtain ⟨ps, p, hps, hne, hp, hclosed, hgoes⟩ := h.last_piece hcurrent
        have hjoin : ∀ n ∈ p.getLast?, n.joins labels m = true := by
          intro n hn
          unfold Move.joins
          rw [(hgoes n hn).2, hbegins]
          rfl
        have hpieces : pieces labels (ms ++ [m]) = ps ++ [p ++ [m]] :=
          splitBy_concat_of_join hps hjoin
        have hplaced : s.placed labels m = (s.closed, segment.push m.offset) := by
          unfold placed
          rw [hcurrent, hbegins]
        rw [segments_take hfresh, hplaced, hpieces, List.map_append, ← hclosed,
          List.map_singleton, Segment.ofMoves_concat hne, hp]
  · rw [current_take_eq_none_iff]
    simp

/-- So the scan reads any number of moves. -/
theorem reads_foldl (labels : OffsetSet) (ms : List Move) :
    Reads labels ms (ms.foldl (Scan.take labels) {}) := by
  induction ms using List.reverseRecOn with
  | nil => exact .nil
  | append_singleton ms m ih =>
    rw [List.foldl_append]
    exact ih.take

end Scan

/-- **The segments of a body are the pieces of its moves.** -/
theorem Code.outcome_segments {policy : Policy} {labels : OffsetSet} {code : Code} :
    (code.segments policy labels).outcome =
      (fun ms => (pieces labels ms).map Segment.ofMoves) <$> code.moves policy [] := by
  unfold Code.segments
  rw [Logged.outcome_map, Scan.outcome_foldlM_step]
  cases Code.moves policy [] code with
  | error fault => rfl
  | ok ms => exact congrArg Except.ok (Scan.reads_foldl labels ms).segments_eq

end BytecodeFlow
