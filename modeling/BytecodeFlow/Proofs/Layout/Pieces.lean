/-
  BytecodeFlow.Proofs.Layout.Pieces — THE LAYOUT OF A BODY whose offsets are distinct.

  A built graph is the graph of the layout of its body's pieces (`Graph.build_eq_ok_iff_moves`).
  If no offset of the body is repeated, no two pieces start alike.  Then a layout hides nothing:
    • the block kept at `o` is the one piece that starts there (`get?_ofMoves_iff`),
    • control falls from `o` to whatever the order lists behind it (`follower?_eq_some_iff`).
-/
import BytecodeFlow.Proofs.Graph.Link
import BytecodeFlow.Proofs.Neighbours
import BytecodeFlow.Proofs.Scan.Piece

namespace BytecodeFlow

/-! ## §1. Lookup without repeats -/

/-- Where no key is repeated, every entry of an association list is found. -/
theorem lookup_eq_some_iff_mem {α : Type} {l : List (Offset × α)} (h : (l.map Prod.fst).Nodup)
    {k : Offset} {v : α} : l.lookup k = some v ↔ (k, v) ∈ l := by
  rw [List.lookup_eq_some_iff]
  constructor
  · intro ⟨before, after, hl, _⟩
    rw [hl]
    exact List.mem_append_right _ List.mem_cons_self
  · intro hmem
    obtain ⟨before, after, rfl⟩ := List.append_of_mem hmem
    -- an entry in front with the same key would repeat it
    refine ⟨before, after, rfl, ?_⟩
    intro e he
    rw [List.map_append, List.nodup_append] at h
    have hne := h.2.2 e.1 (List.mem_map_of_mem he) k List.mem_cons_self
    simpa using hne.symm

namespace Layout

/-- Without repeats, what follows a start is the next one listed. -/
theorem follower?_eq_some_iff {l : Layout} (hl : l.order.Nodup) {o n : Offset} :
    l.follower? o = some n ↔ [o, n] <:+: l.order := by
  unfold follower?
  have hkeys : ((l.order.zip l.order.tail).map Prod.fst).Nodup := by
    rw [List.zip_eq_zip_take_min, List.map_fst_zip (by simp)]
    exact hl.sublist (List.take_sublist _ _)
  rw [lookup_eq_some_iff_mem hkeys, mem_zip_tail_iff]

/-- Only the last one listed has nothing to follow it. -/
theorem follower?_eq_none_iff {l : Layout} (hl : l.order.Nodup) {o : Offset} (ho : o ∈ l.order) :
    l.follower? o = none ↔ l.order.getLast? = some o := by
  constructor
  · intro hnone
    obtain ⟨before, after, hsplit⟩ := List.append_of_mem ho
    cases after with
    | nil => rw [hsplit, List.getLast?_concat]
    | cons n after =>
      have hsome : l.follower? o = some n :=
        (follower?_eq_some_iff hl).2 ⟨before, after, by rw [hsplit]; simp⟩
      rw [hnone] at hsome
      cases hsome
  · intro hlast
    cases hfollower : l.follower? o with
    | none => rfl
    | some n =>
      exact absurd hlast (getLast?_ne_of_follows hl ((follower?_eq_some_iff hl).1 hfollower))

end Layout

/-! ## §2. Pieces -/

section Pieces

variable {labels : OffsetSet} {ms p : List Move}

/-- A piece ends with some move of the body. -/
theorem exists_last_of_mem_pieces (h : p ∈ pieces labels ms) :
    ∃ before m after q, p = q ++ [m] ∧ ms = before ++ m :: after := by
  obtain ⟨q, m, hp⟩ := (List.eq_nil_or_concat' p).resolve_left (ne_nil_of_mem_pieces h)
  obtain ⟨ps₁, ps₂, hps⟩ := List.append_of_mem h
  refine ⟨ps₁.flatten ++ q, m, ps₂.flatten, q, hp, ?_⟩
  rw [← flatten_pieces labels ms, hps, hp]
  simp

/-- The pieces start at some of the offsets of the body, in the body's order. -/
theorem starts_sublist {ps : List (List Move)} (hne : ∀ p ∈ ps, p ≠ []) :
    (ps.map fun p => (Segment.ofMoves p).start).Sublist (ps.flatten.map Move.offset) := by
  induction ps with
  | nil => exact .slnil
  | cons p ps ih =>
    -- a piece starts at its first move; the rest of it is skipped
    have ih' := ih fun q hq => hne q (List.mem_cons_of_mem p hq)
    cases p with
    | nil => exact absurd rfl (hne [] List.mem_cons_self)
    | cons m rest =>
      rw [List.map_cons, List.flatten_cons, List.map_append]
      exact (ih'.trans (List.sublist_append_right _ _)).cons_cons _

end Pieces

/-! ## §3. The layout of the pieces -/

namespace Layout

/-- The layout of a body with the moves `ms`. -/
def ofMoves (labels : OffsetSet) (ms : List Move) : Layout :=
  ofSegments ((pieces labels ms).map Segment.ofMoves)

variable {labels : OffsetSet} {ms : List Move} {o : Offset} {s : Segment}

theorem order_ofMoves :
    (ofMoves labels ms).order = (pieces labels ms).map fun p => (Segment.ofMoves p).start := by
  unfold ofMoves ofSegments
  rw [List.map_map]
  rfl

theorem last?_ofMoves : (ofMoves labels ms).toGraph.last? =
    (pieces labels ms).getLast?.map fun p => (Segment.ofMoves p).start := by
  unfold Graph.last?
  rw [order_toGraph, order_ofMoves, List.getLast?_map]

/-- The layout of distinct offsets lists each start once. -/
theorem nodup_order_ofMoves (h : (ms.map Move.offset).Nodup) :
    (ofMoves labels ms).order.Nodup := by
  rw [order_ofMoves]
  have hne : ∀ p ∈ pieces labels ms, p ≠ [] := fun p hp => ne_nil_of_mem_pieces hp
  have hsub := starts_sublist hne
  rw [flatten_pieces] at hsub
  exact h.sublist hsub

/-- The segment kept at `o` is the one piece that starts there. -/
theorem get?_ofMoves_iff (h : (ms.map Move.offset).Nodup) :
    (ofMoves labels ms).kept.get? o = some s ↔
      ∃ p ∈ pieces labels ms, Segment.ofMoves p = s ∧ s.start = o := by
  have hnodup : (ofMoves labels ms).order.Nodup := nodup_order_ofMoves h
  unfold ofMoves ofSegments at hnodup ⊢
  -- distinct starts make the lookup plain membership, whatever way the list is read
  have hkeys : ((((pieces labels ms).map Segment.ofMoves).map fun s => (s.start, s)).reverse.map
      Prod.fst).Nodup := by
    rw [List.map_reverse, (List.reverse_perm _).nodup_iff, List.map_map]
    exact hnodup
  rw [OffsetMap.get?_ofList, lookup_eq_some_iff_mem hkeys, List.mem_reverse, List.mem_map]
  simp only [List.mem_map, Prod.mk.injEq]
  constructor
  · intro ⟨s', ⟨p, hp, hs'⟩, ho, hs⟩
    subst hs
    exact ⟨p, hp, hs', ho⟩
  · intro ⟨p, hp, hs, ho⟩
    exact ⟨s, ⟨p, hp, hs⟩, ho, rfl⟩

end Layout

/-- **A build lays out the pieces of the body's moves.** -/
theorem Graph.build_eq_ok_iff_moves {policy : Policy} {labels : OffsetSet} {code : Code}
    {g : Graph} :
    (Graph.build policy labels code).outcome = .ok g ↔
      code.check policy = .ok () ∧ ∃ ms, code.moves policy [] = .ok ms ∧
        (policy.strictEdges = true → (Layout.ofMoves labels ms).dangling = []) ∧
        g = (Layout.ofMoves labels ms).toGraph := by
  rw [Graph.build_eq_ok_iff, Code.outcome_segments]
  cases Code.moves policy [] code with
  | error fault => simp
  | ok ms =>
    constructor
    · intro ⟨hcheck, segments, hsegments, hstrict, hg⟩
      obtain rfl := Except.ok.inj hsegments
      exact ⟨hcheck, ms, rfl, hstrict, hg⟩
    · intro ⟨hcheck, ms', hms, hstrict, hg⟩
      obtain rfl := Except.ok.inj hms
      exact ⟨hcheck, _, rfl, hstrict, hg⟩

end BytecodeFlow
