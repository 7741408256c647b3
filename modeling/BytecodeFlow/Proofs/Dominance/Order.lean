/-
  BytecodeFlow.Proofs.Dominance.Order — DOMINANCE AS AN ORDER.

  Membership in the sets of the solver is a preorder on all live blocks: whatever lies on every
  root path to `b`, and `b` on every root path to `c`, lies on every root path to `c`.  Where no
  root path leads this holds for want of paths, since everything live dominates such a block.

  Where root paths lead it is more:

    • `dominates_antisymm` — of two blocks a path meets one first, and before it not the other,
    • `exists_dominated_by_all` — dominators of one block stand in line: behind the last one on a
      root path there is no way around the others, so those are on every root path to it.

  Main statement: `order_of_build`.  Two dead jumps that feed each other dominate each other, so
  antisymmetry ends where root paths do (`order_of_deadCycle`).
-/
import BytecodeFlow.Proofs.Dominance.Passes

namespace BytecodeFlow.Dominance

variable {g : Graph} {a b c : Offset} {p : List Offset}

/-! ## §1. A preorder on the live blocks -/

/-- A live block dominates itself, also where no root path leads. -/
theorem dominates_refl (hg : g.Linked) (hb : b ∈ g.live) : (ofGraph g).dominates b b = true := by
  rw [dominates_iff_shared hg]
  exact ⟨hb, hb, fun _ hp => hp.target_mem⟩

/-- Whatever dominates a dominator dominates; this needs no root path. -/
theorem dominates_trans (hg : g.Linked) (hab : (ofGraph g).dominates a b = true)
    (hbc : (ofGraph g).dominates b c = true) : (ofGraph g).dominates a c = true := by
  rw [dominates_iff_shared hg] at hab hbc ⊢
  obtain ⟨_, ha, hab⟩ := hab
  obtain ⟨hc, _, hbc⟩ := hbc
  refine ⟨hc, ha, ?_⟩
  intro p hp
  -- up to `b`, which is on `p`, the path is a root path to `b`
  obtain ⟨q, hq, hfront⟩ := hp.front_of_mem (hbc p hp)
  exact hfront.subset (hab q hq)

/-! ## §2. Where root paths lead -/

/-- A dominator of a block that a root path leads to lies on a root path itself. -/
theorem exists_rootPath_of_dominates (hg : g.Linked) (hp : g.RootPath p b)
    (h : (ofGraph g).dominates a b = true) : ∃ q, g.RootPath q a := by
  obtain ⟨q, hq, _⟩ := hp.front_of_mem ((dominates_iff_of_rootPath hg hp).1 h p hp)
  exact ⟨q, hq⟩

/-- **Two blocks do not dominate each other** where a root path leads: it meets one of them first,
    and up to there it lacks the other. -/
theorem dominates_antisymm (hg : g.Linked) (hp : g.RootPath p b)
    (hab : (ofGraph g).dominates a b = true) (hba : (ofGraph g).dominates b a = true) :
    a = b := by
  -- whichever of the two a root path meets first, the other one is on the path up to it
  obtain ⟨x, q, hx, hq, _, hnone⟩ :=
    hp.exists_first (P := fun x => x = a ∨ x = b) ⟨b, hp.target_mem, .inr rfl⟩
  have hother : ∀ y, y = a ∨ y = b → y ∈ q ++ [x] → y = x := by
    intro y hy hmem
    rcases List.mem_append.1 hmem with hmem | hmem
    · exact absurd hy (hnone y hmem)
    · exact List.mem_singleton.1 hmem
  rcases hx with rfl | rfl
  · exact (hother b (.inr rfl) ((dominates_iff_of_rootPath hg hq).1 hba _ hq)).symm
  · exact hother a (.inl rfl) ((dominates_iff_of_rootPath hg hq).1 hab _ hq)

/-- **Of any dominators of one block, all dominate one of them.** -/
theorem exists_dominated_by_all (hg : g.Linked) (hp : g.RootPath p b) {P : Offset → Prop}
    (hdom : ∀ x, P x → (ofGraph g).dominates x b = true) (hsome : ∃ x, P x) :
    ∃ a, P a ∧ ∀ c, P c → (ofGraph g).dominates c a = true := by
  have hvisit : ∃ x ∈ p, P x := by
    obtain ⟨x, hx⟩ := hsome
    exact ⟨x, (dominates_iff_of_rootPath hg hp).1 (hdom x hx) p hp, hx⟩
  obtain ⟨a, q, ha, hnone, hsplice⟩ := hp.exists_last hvisit
  refine ⟨a, ha, ?_⟩
  intro c hc
  obtain ⟨p', hp'⟩ := exists_rootPath_of_dominates hg hp (hdom a ha)
  rw [dominates_iff_of_rootPath hg hp']
  -- `c` is on every root path to `b`, and the rest of this one lacks it
  intro r hr
  have hmem := (dominates_iff_of_rootPath hg hp).1 (hdom c hc) _ (hsplice r hr)
  rcases List.mem_append.1 hmem with hmem | hmem
  · exact hmem
  · exact absurd hc (hnone c hmem)

/-- **The dominators of a block are in a row** where a root path leads. -/
theorem dominates_total (hg : g.Linked) (hp : g.RootPath p b)
    (hab : (ofGraph g).dominates a b = true) (hcb : (ofGraph g).dominates c b = true) :
    (ofGraph g).dominates a c = true ∨ (ofGraph g).dominates c a = true := by
  have hdom : ∀ x, x = a ∨ x = c → (ofGraph g).dominates x b = true := by
    rintro x (rfl | rfl)
    · exact hab
    · exact hcb
  obtain ⟨x, rfl | rfl, hall⟩ := exists_dominated_by_all hg hp hdom ⟨a, .inl rfl⟩
  · exact .inr (hall c (.inr rfl))
  · exact .inl (hall a (.inl rfl))

/-! ## §3. The laws of a built graph -/

/-- **Dominance is a preorder on the live blocks, and where root paths lead a partial order in which
    the dominators of a block stand in line.**  A block dominates itself exactly if it is live. -/
theorem order_of_build {policy : Policy} {labels : OffsetSet} {code : Code} {g : Graph}
    (h : (Graph.build policy labels code).outcome = .ok g) :
    (∀ b, (ofGraph g).dominates b b = true ↔ b ∈ g.live) ∧
    (∀ a b c, (ofGraph g).dominates a b = true → (ofGraph g).dominates b c = true →
      (ofGraph g).dominates a c = true) ∧
    (∀ a b, (∃ p, g.RootPath p b) → (ofGraph g).dominates a b = true →
      (ofGraph g).dominates b a = true → a = b) ∧
    (∀ a₁ a₂ b, (∃ p, g.RootPath p b) → (ofGraph g).dominates a₁ b = true →
      (ofGraph g).dominates a₂ b = true →
      (ofGraph g).dominates a₁ a₂ = true ∨ (ofGraph g).dominates a₂ a₁ = true) := by
  have hg := Graph.linked_of_build h
  refine ⟨?_, ?_, ?_, ?_⟩
  · intro b
    constructor
    · intro hb
      exact ((dominates_iff_shared hg).1 hb).1
    · exact dominates_refl hg
  · intro a b c hab hbc
    exact dominates_trans hg hab hbc
  · intro a b ⟨_, hp⟩ hab hba
    exact dominates_antisymm hg hp hab hba
  · intro a₁ a₂ b ⟨_, hp⟩ h₁ h₂
    exact dominates_total hg hp h₁ h₂

/-- `0 POP_JUMP_IF_TRUE 0`, `2 POP_JUMP_IF_TRUE 2`, `4 RETURN_VALUE`, `6 JUMP_ABSOLUTE 8`,
    `8 JUMP_ABSOLUTE 6`. -/
def twoLoops : Code :=
  [.decode 0 .popJumpIfTrue (some 0) 2, .decode 2 .popJumpIfTrue (some 2) 4,
    .decode 4 .returnValue none 6, .decode 6 .jumpAbsolute (some 8) 8,
    .decode 8 .jumpAbsolute (some 6) 10]

/-- Two loops in a row, both on the way to 4, and behind the end two dead jumps that feed each
    other: these dominate each other, and each of them itself. -/
theorem order_of_deadCycle :
    ∃ g, (Graph.build .strict {0, 2, 6, 8} twoLoops).outcome = .ok g ∧
      g.RootPath [0, 2, 4] 4 ∧
      ((ofGraph g).dominates 0 2 = true ∨ (ofGraph g).dominates 2 0 = true) ∧
      (ofGraph g).dominates 6 8 = true ∧ (ofGraph g).dominates 8 6 = true ∧
      (ofGraph g).dominates 6 6 = true := by
  obtain ⟨g, hbuild, hentry, h₂, h₄, hsize, htable₄, htable₆, htable₈⟩ :
      ∃ g, (Graph.build .strict {0, 2, 6, 8} twoLoops).outcome = .ok g ∧
      g.entry = 0 ∧ g.Edge 0 2 ∧ g.Edge 2 4 ∧ g.live.size ≤ 4 + 1 ∧
      (Solver.pass^[4] (Solver.start g)).table.get? 4 = some {0, 2, 4} ∧
      (Solver.pass^[4] (Solver.start g)).table.get? 6 = some {0, 2, 4, 6, 8} ∧
      (Solver.pass^[4] (Solver.start g)).table.get? 8 = some {0, 2, 4, 6, 8} :=
    ⟨_, rfl, rfl, by decide, by decide, by decide, by decide, by decide, by decide⟩
  have hg := Graph.linked_of_build hbuild
  have hpath : g.RootPath [0, 2, 4] 4 := by
    have hroot : g.RootPath [0] 0 := by
      rw [← hentry]
      exact hg.isRoot_entry.rootPath
    exact (hroot.snoc h₂ (hg.live_of_edge h₂)).snoc h₄ (hg.live_of_edge h₄)
  -- four passes are enough for five live blocks, so the sets can be read off
  rw [Solver.table_iterate_eq hg hsize] at htable₄ htable₆ htable₈
  obtain ⟨_, htrans, _, htotal⟩ := order_of_build hbuild
  have h₆₈ : (ofGraph g).dominates 6 8 = true := dominates_iff.2 ⟨_, htable₈, by decide⟩
  have h₈₆ : (ofGraph g).dominates 8 6 = true := dominates_iff.2 ⟨_, htable₆, by decide⟩
  refine ⟨g, hbuild, hpath, ?_, h₆₈, h₈₆, htrans 6 8 6 h₆₈ h₈₆⟩
  exact htotal 0 2 4 ⟨_, hpath⟩ (dominates_iff.2 ⟨_, htable₄, by decide⟩)
    (dominates_iff.2 ⟨_, htable₄, by decide⟩)

end BytecodeFlow.Dominance
