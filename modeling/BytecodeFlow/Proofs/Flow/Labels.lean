/-
  BytecodeFlow.Proofs.Flow.Labels — MORE LABELS cut a body finer.

  Labels decide where blocks begin and nothing else.  An instruction that leads a block does so
  under more labels too (`Instruction.IsLeader.mono`), so blocks begin wherever they did before.
  What the instructions do is the same, and each target still starts a block: a body that is laid
  out stays laid out (`LaidOut.mono`), and a strict build that accepts it still does
  (`Graph.exists_build_of_subset`).
-/
import BytecodeFlow.Proofs.Flow.Faithful
import BytecodeFlow.Proofs.Layout.Parts

namespace BytecodeFlow

/-! ## §1. Where blocks begin -/

section Starts

variable {policy : Policy} {labels labels' : OffsetSet} {code : Code} {ms : List Move} {o : Offset}

theorem Instruction.IsLeader.mono {before : Code} {i : Instruction} (hsub : labels ⊆ labels')
    (h : i.IsLeader labels before) : i.IsLeader labels' before := by
  rcases h with hfirst | hlabel | hrest
  · exact .inl hfirst
  · exact .inr (.inl (hsub _ hlabel))
  · exact .inr (.inr hrest)

/-- The parts of a body start with its leaders. -/
theorem Code.exists_part_iff :
    (∃ p ∈ code.cut labels, p.offsets.head? = some o) ↔
      ∃ before i after, code = before ++ i :: after ∧ i.IsLeader labels before ∧ i.offset = o := by
  have hcut : code.CutAtLeaders labels (code.cut labels) := Code.cutAtLeaders_cut
  constructor
  · -- the first instruction of a part leads it
    intro ⟨p, hp, hstart⟩
    obtain ⟨ps, qs, hparts⟩ := List.append_of_mem hp
    cases p with
    | nil => cases hstart
    | cons i rest =>
      have hcode : code = ps.flatten ++ i :: (rest ++ qs.flatten) := by
        rw [← hcut.flatten_eq, hparts]
        simp
      exact ⟨ps.flatten, i, _, hcode, (hcut.leader_iff _ i _ hcode).2 ⟨ps, rest, qs, hparts, rfl⟩,
        Option.some.inj hstart⟩
  · intro ⟨before, i, after, hcode, hleader, ho⟩
    obtain ⟨ps, p, qs, hparts, _⟩ := (hcut.leader_iff before i after hcode).1 hleader
    refine ⟨i :: p, ?_, congrArg some ho⟩
    rw [hparts]
    exact List.mem_append_right _ List.mem_cons_self

theorem Layout.mem_starts_iff_leader (hmoves : code.moves policy [] = .ok ms) :
    o ∈ (Layout.ofMoves labels ms).starts ↔
      ∃ before i after, code = before ++ i :: after ∧ i.IsLeader labels before ∧ i.offset = o := by
  rw [Layout.mem_starts_iff_part hmoves, Code.exists_part_iff]

/-- Under more labels blocks begin wherever they did. -/
theorem Layout.starts_mono (hsub : labels ⊆ labels') (hmoves : code.moves policy [] = .ok ms) :
    (Layout.ofMoves labels ms).starts ⊆ (Layout.ofMoves labels' ms).starts := by
  intro o ho
  rw [mem_starts_iff_leader hmoves] at ho ⊢
  obtain ⟨before, i, after, hcode, hleader, heq⟩ := ho
  exact ⟨before, i, after, hcode, hleader.mono hsub, heq⟩

end Starts

/-! ## §2. Bodies that are laid out -/

namespace LaidOut

variable {policy : Policy} {labels labels' : OffsetSet} {code : Code} {ms : List Move} {m : Move}
  {o : Offset}

/-- A target is where some block begins. -/
theorem target_mem_starts (h : LaidOut policy labels code ms) (hm : m ∈ ms)
    (ho : o ∈ m.transfer.targets) : o ∈ (Layout.ofMoves labels ms).starts := by
  obtain ⟨_, _, q, hq, _, rfl, _⟩ := h.exists_piece_of_target hm ho
  exact OffsetMap.mem_keys_of_get? (h.get?_start hq)

/-- **What is laid out stays laid out under more labels.** -/
theorem mono (hsub : labels ⊆ labels') (h : LaidOut policy labels code ms) :
    LaidOut policy labels' code ms := by
  refine ⟨h.moves_eq, h.distinct, ?_⟩
  rw [List.eq_nil_iff_forall_not_mem]
  intro ⟨source, target⟩ hdangling
  obtain ⟨s, hs, htarget, hnone⟩ := Layout.mem_dangling_iff.1 hdangling
  -- the target is one of the last move of a piece, and started a block before
  obtain ⟨p, hp, rfl, _⟩ := (Layout.get?_ofMoves_iff h.distinct).1 hs
  obtain ⟨_, m, _, q, hlast, rfl⟩ := exists_last_of_mem_pieces hp
  rw [(Segment.targets_ofMoves (hlast ▸ List.getLast?_concat)).1] at htarget
  exact hnone (Layout.starts_mono hsub h.moves_eq target (h.target_mem_starts (by simp) htarget))

end LaidOut

/-- **A strict build that accepts a body accepts it under more labels**, with the same moves. -/
theorem Graph.exists_build_of_subset {policy : Policy} {labels labels' : OffsetSet} {code : Code}
    {g : Graph} (hsub : labels ⊆ labels') (hstrict : policy.strictEdges = true)
    (hdistinct : code.offsets.Nodup)
    (hbuild : (Graph.build policy labels code).outcome = .ok g) :
    ∃ ms, LaidOut policy labels code ms ∧ g = (Layout.ofMoves labels ms).toGraph ∧
      (Graph.build policy labels' code).outcome = .ok (Layout.ofMoves labels' ms).toGraph := by
  obtain ⟨hcheck, _⟩ := Graph.build_eq_ok_iff_moves.1 hbuild
  obtain ⟨ms, h, hg⟩ := Graph.laidOut_of_build hbuild hdistinct hstrict
  refine ⟨ms, h, hg, Graph.build_eq_ok_iff_moves.2 ⟨hcheck, ms, h.moves_eq, ?_, rfl⟩⟩
  intro _
  exact (h.mono hsub).dangling_eq

end BytecodeFlow
