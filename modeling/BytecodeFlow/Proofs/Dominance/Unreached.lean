/-
  BytecodeFlow.Proofs.Dominance.Unreached — IMMEDIATE DOMINATORS where no root path leads.

  On and behind cycles of dead code the sets stay at everything live.  `Dominance.immediate?` looks
  for a block whose set is everything live but `b`.  A block without a root path has `b` in its
  set, so what is found is a block at the end of root paths, and its set says that root paths to it
  visit each live block but `b` (`immediate?_eq_some_iff_gathers`).

  As a rule there is none: one further live block without a root path is enough, or one live block
  that these paths can avoid.  Where `b` is the only live block without a root path, it feeds
  itself and nothing else feeds it (`selfLoop_of_gathers`), and a line of blocks before a dead
  jump to itself is such a case (`immediate_of_deadSelfLoop`): the last block of the line has the
  set that the search asks for, although it leads nowhere near `b`.

  Main statement: `unreached_of_build`.
-/
import BytecodeFlow.Proofs.Dominance.Nearest

namespace BytecodeFlow

/-- Root paths lead to `a`, and they all visit each live block but `b`. -/
def Graph.Gathers (g : Graph) (b a : Offset) : Prop :=
  (∃ p, g.RootPath p a) ∧ ∀ c ∈ g.live, c ≠ b → ∀ p, g.RootPath p a → c ∈ p

namespace Dominance

variable {g : Graph} {a b c : Offset}

/-! ## §1. What the search finds -/

/-- Where no root path leads, every live block is on all of them, so the set is everything live. -/
theorem get?_of_unreached (hg : g.Linked) (hb : b ∈ g.live) (hunreached : ∀ p, ¬ g.RootPath p b) :
    (ofGraph g).get? b = some g.live := by
  obtain ⟨s, hs⟩ : ∃ s, (ofGraph g).get? b = some s := (covers_ofGraph hg).exists_of_live hb
  have heq : s = g.live := by
    ext a
    rw [mem_iff_dominates hs, dominates_iff_shared hg]
    constructor
    · intro h
      exact h.2.1
    · intro ha
      exact ⟨hb, ha, fun p hp => absurd hp (hunreached p)⟩
  rw [hs, heq]

/-- A set that lacks a live block is the set of a block that a root path leads to. -/
theorem exists_rootPath_of_get? (hg : g.Linked) (hb : b ∈ g.live)
    (hset : (ofGraph g).get? a = some (g.live.erase b)) : ∃ p, g.RootPath p a := by
  by_contra hunreached
  push Not at hunreached
  have ha : a ∈ g.live := (covers_ofGraph hg).live_of_get? hset
  have heq : g.live = g.live.erase b :=
    Option.some.inj ((get?_of_unreached hg ha hunreached).symm.trans hset)
  rw [heq] at hb
  exact (OffsetSet.mem_erase.1 hb).2 rfl

/-- An immediate dominator there has everything live but the block itself. -/
theorem immediate?_eq_some_iff_get? (hg : g.Linked) (hb : b ∈ g.live)
    (hunreached : ∀ p, ¬ g.RootPath p b) :
    (ofGraph g).immediate? b = some a ↔ (ofGraph g).get? a = some (g.live.erase b) := by
  have hs := get?_of_unreached hg hb hunreached
  constructor
  · intro hfound
    obtain ⟨s, hs', _, _, hset⟩ := immediate?_eq_some hfound
    obtain rfl := Option.some.inj (hs.symm.trans hs')
    exact hset
  · intro hset
    obtain ⟨p, hp⟩ := exists_rootPath_of_get? hg hb hset
    exact immediate?_of_get?_eq hg hp hs hset

/-- Root paths to a block visit each live block but `b` exactly if that is what its set holds. -/
theorem gathers_iff (hg : g.Linked) (hb : b ∈ g.live) (hunreached : ∀ p, ¬ g.RootPath p b) :
    g.Gathers b a ↔ (ofGraph g).get? a = some (g.live.erase b) := by
  constructor
  · intro ⟨⟨p, hp⟩, hall⟩
    obtain ⟨s, hs, hiff⟩ := exists_dominators hg (hp.live_of_mem hp.target_mem)
    have heq : s = g.live.erase b := by
      ext c
      rw [hiff, OffsetSet.mem_erase]
      refine and_congr_right fun hc => ⟨?_, hall c hc⟩
      -- `b` is on no root path at all
      rintro hshared rfl
      obtain ⟨q, hq, _⟩ := hp.front_of_mem (hshared p hp)
      exact hunreached q hq
    rw [hs, heq]
  · intro hset
    refine ⟨exists_rootPath_of_get? hg hb hset, ?_⟩
    intro c hc hne
    have hdom : (ofGraph g).dominates c a = true :=
      (mem_iff_dominates hset).1 (OffsetSet.mem_erase.2 ⟨hc, hne⟩)
    exact ((dominates_iff_shared hg).1 hdom).2.2

/-- **The immediate dominator of a block without root paths is a block that gathers the rest.** -/
theorem immediate?_eq_some_iff_gathers (hg : g.Linked) (hb : b ∈ g.live)
    (hunreached : ∀ p, ¬ g.RootPath p b) :
    (ofGraph g).immediate? b = some a ↔ g.Gathers b a := by
  rw [immediate?_eq_some_iff_get? hg hb hunreached, gathers_iff hg hb hunreached]

/-! ## §2. When something gathers the rest -/

/-- A block that gathers all but `b` leaves no other block without a root path. -/
theorem exists_rootPath_of_gathers (ha : g.Gathers b a) (hc : c ∈ g.live) (hne : c ≠ b) :
    ∃ p, g.RootPath p c := by
  obtain ⟨⟨p, hp⟩, hall⟩ := ha
  obtain ⟨q, hq, _⟩ := hp.front_of_mem (hall c hc hne p hp)
  exact ⟨q, hq⟩

/-- So `b` feeds itself, and nothing else that is live feeds it. -/
theorem selfLoop_of_gathers (hb : b ∈ g.live) (hunreached : ∀ p, ¬ g.RootPath p b)
    (ha : g.Gathers b a) : ∀ c ∈ g.live, g.Edge c b ↔ c = b := by
  have honly : ∀ c ∈ g.live, g.Edge c b → c = b := by
    intro c hc hedge
    by_contra hne
    -- a root path to any other predecessor would lead on to `b`
    obtain ⟨p, hp⟩ := exists_rootPath_of_gathers ha hc hne
    exact hunreached _ (hp.snoc hedge hb)
  have hfed : ∃ c ∈ g.live, g.Edge c b := by
    by_contra hnone
    push Not at hnone
    exact hunreached _ (Graph.IsRoot.rootPath ⟨hb, .inr hnone⟩)
  obtain ⟨d, hd, hedge⟩ := hfed
  obtain rfl := honly d hd hedge
  intro c hc
  constructor
  · exact honly c hc
  · rintro rfl
    exact hedge

/-! ## §3. The blocks of dead cycles in a built graph -/

/-- **A live block that no root path leads to has an immediate dominator only by coincidence.**  Its
    set is everything live, and it has none unless some block gathers everything but `b`; then it
    is that block.  Hence it has none if another live block is without a root path, and none
    unless it feeds itself and nothing else feeds it. -/
theorem unreached_of_build {policy : Policy} {labels : OffsetSet} {code : Code} {g : Graph}
    {b : Offset} (h : (Graph.build policy labels code).outcome = .ok g) (hb : b ∈ g.live)
    (hunreached : ∀ p, ¬ g.RootPath p b) :
    (ofGraph g).get? b = some g.live ∧
    ((ofGraph g).immediate? b = none ↔ ∀ a, ¬ g.Gathers b a) ∧
    (∀ a, (ofGraph g).immediate? b = some a ↔ g.Gathers b a) ∧
    ((∃ c ∈ g.live, c ≠ b ∧ ∀ p, ¬ g.RootPath p c) → (ofGraph g).immediate? b = none) ∧
    ((ofGraph g).immediate? b ≠ none → ∀ c ∈ g.live, g.Edge c b ↔ c = b) := by
  have hg := Graph.linked_of_build h
  have hsome : ∀ a, (ofGraph g).immediate? b = some a ↔ g.Gathers b a :=
    fun a => immediate?_eq_some_iff_gathers hg hb hunreached
  have hnone : (ofGraph g).immediate? b = none ↔ ∀ a, ¬ g.Gathers b a := by
    rw [Option.eq_none_iff_forall_ne_some]
    exact forall_congr' fun a => not_congr (hsome a)
  refine ⟨get?_of_unreached hg hb hunreached, hnone, hsome, ?_, ?_⟩
  · intro ⟨c, hc, hne, hother⟩
    rw [hnone]
    intro a ha
    -- a block that gathers for `b` leaves no other block without root paths
    obtain ⟨p, hp⟩ := exists_rootPath_of_gathers ha hc hne
    exact hother p hp
  · intro hne
    obtain ⟨a, ha⟩ := Option.ne_none_iff_exists'.1 hne
    exact selfLoop_of_gathers hb hunreached ((hsome a).1 ha)

/-- `0 RETURN_VALUE`, `2 JUMP_ABSOLUTE 4`, `4 JUMP_ABSOLUTE 2`. -/
def deadCycle : Code :=
  [.decode 0 .returnValue none 2, .decode 2 .jumpAbsolute (some 4) 4,
    .decode 4 .jumpAbsolute (some 2) 6]

/-- Two dead jumps that feed each other behind a return: neither has an immediate dominator. -/
theorem unreached_of_deadCycle :
    ∃ g, (Graph.build .strict {2, 4} deadCycle).outcome = .ok g ∧
      2 ∈ g.live ∧ (∀ p, ¬ g.RootPath p 2) ∧ (ofGraph g).get? 2 = some g.live ∧
      (ofGraph g).immediate? 2 = none := by
  obtain ⟨g, hbuild, h₂, h₄, hfed, hclosed⟩ :
      ∃ g, (Graph.build .strict {2, 4} deadCycle).outcome = .ok g ∧
      2 ∈ g.live ∧ 4 ∈ g.live ∧
      (∀ c ∈ [2, 4], c ≠ g.entry ∧ ∃ a ∈ g.live.toList, g.Edge a c) ∧
      ∀ a ∈ g.live.toList, ∀ c ∈ [2, 4], g.Edge a c → a ∈ [2, 4] :=
    ⟨_, rfl, by decide, by decide, by decide, by decide⟩
  -- a root path would have to enter the two from outside, and nothing leads there
  have hdead : ∀ c ∈ [2, 4], ∀ p, ¬ g.RootPath p c :=
    fun c hc => Graph.not_rootPath_of_cycle hfed hclosed hc
  have h₂dead := hdead 2 (by decide)
  obtain ⟨hset, _, _, hnone, _⟩ := unreached_of_build hbuild h₂ h₂dead
  exact ⟨g, hbuild, h₂, h₂dead, hset, hnone ⟨4, h₄, by decide, hdead 4 (by decide)⟩⟩

/-- `0 RETURN_VALUE`, `2 JUMP_ABSOLUTE 2`. -/
def deadSelfLoop : Code :=
  [.decode 0 .returnValue none 2, .decode 2 .jumpAbsolute (some 2) 4]

/-- **A return, and behind it a dead jump to itself.**  No root path leads to the jump, but it gets
    an immediate dominator: its set is `{0, 2}`, and without the jump that is the set of the
    entry. -/
theorem immediate_of_deadSelfLoop :
    ∃ g, (Graph.build .strict {2} deadSelfLoop).outcome = .ok g ∧
      2 ∈ g.live ∧ (∀ p, ¬ g.RootPath p 2) ∧ ¬ g.Edge 0 2 ∧
      (ofGraph g).immediate? 2 = some 0 := by
  obtain ⟨g, hbuild, hentry, hlive, h₂, hfed, hclosed, hedge⟩ :
      ∃ g, (Graph.build .strict {2} deadSelfLoop).outcome = .ok g ∧
      g.entry = 0 ∧ g.live.erase 2 = {0} ∧ 2 ∈ g.live ∧
      (∀ c ∈ [2], c ≠ g.entry ∧ ∃ a ∈ g.live.toList, g.Edge a c) ∧
      (∀ a ∈ g.live.toList, ∀ c ∈ [2], g.Edge a c → a ∈ [2]) ∧ ¬ g.Edge 0 2 :=
    ⟨_, rfl, rfl, by decide, by decide, by decide, by decide, by decide⟩
  have hg := Graph.linked_of_build hbuild
  have hdead : ∀ p, ¬ g.RootPath p 2 :=
    Graph.not_rootPath_of_cycle hfed hclosed (List.mem_singleton_self 2)
  -- without the jump the live blocks are the entry alone, which is the set of the entry
  have hset : (ofGraph g).get? 0 = some (g.live.erase 2) := by
    rw [hlive, ← hentry]
    exact (covers_ofGraph hg).entry_eq
  exact ⟨g, hbuild, h₂, hdead, hedge, (immediate?_eq_some_iff_get? hg h₂ hdead).2 hset⟩

end Dominance

end BytecodeFlow
