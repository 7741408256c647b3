/-
  BytecodeFlow.Proofs.Dominance.Nearest — IMMEDIATE DOMINATORS and the forest that they form.

  `Dominance.immediate?` only compares sets: it takes the first strict dominator whose own set is
  the strict dominators of the block.  That there is such a dominator, and no other, rests on
  paths: of the strict dominators of a block all dominate one of them (`exists_nearest`).

  Dominance orders the blocks that root paths lead to, so the nearest strict dominator is unique,
  and its set is the set of `b` without `b` (`get?_of_nearest`).  Each step from a block to its
  immediate dominator then takes exactly one member out of the set.

  Main statement: `immediate_of_build` — at every block that a root path leads to, the immediate
  dominator is the nearest strict one, and the way up from it visits the dominators of the block,
  each once.  Blocks without a root path have all live blocks in their sets and are left out.
-/
import BytecodeFlow.Proofs.Dominance.Order

namespace BytecodeFlow.Dominance

/-! ## §1. Nearest dominators and the way up -/

/-- `a` dominates `b` strictly, and every other strict dominator of `b` dominates `a`. -/
def Nearest (d : Dominance) (a b : Offset) : Prop :=
  d.strictlyDominates a b = true ∧
    ∀ c, d.strictlyDominates c b = true → c ≠ a → d.dominates c a = true

/-- `d.Climb b above`: from `b`, immediate dominators lead through `above` and then no further. -/
inductive Climb (d : Dominance) : Offset → List Offset → Prop
  /-- There is no immediate dominator. -/
  | top {b : Offset} (hnone : d.immediate? b = none) : Climb d b []
  /-- The way goes on from the immediate dominator. -/
  | up {a b : Offset} {above : List Offset} (hsome : d.immediate? b = some a)
      (rest : Climb d a above) : Climb d b (a :: above)

theorem strictlyDominates_iff {d : Dominance} {a b : Offset} :
    d.strictlyDominates a b = true ↔ d.dominates a b = true ∧ a ≠ b := by
  unfold strictlyDominates
  rw [Bool.and_eq_true, bne_iff_ne, and_comm]

/-! ## §2. The nearest strict dominator -/

variable {g : Graph} {a b c : Offset} {p : List Offset}

/-- **Of the strict dominators of a block, all dominate one of them.** -/
theorem exists_nearest (hg : g.Linked) (hp : g.RootPath p b)
    (hstrict : ∃ a, (ofGraph g).strictlyDominates a b = true) :
    ∃ a, (ofGraph g).strictlyDominates a b = true ∧
      ∀ c, (ofGraph g).strictlyDominates c b = true → (ofGraph g).dominates c a = true :=
  exists_dominated_by_all hg hp (fun _ hx => (strictlyDominates_iff.1 hx).1) hstrict

/-- **There is one nearest strict dominator at most**: two would dominate each other. -/
theorem nearest_unique (hg : g.Linked) (hp : g.RootPath p b) (ha : (ofGraph g).Nearest a b)
    (hc : (ofGraph g).Nearest c b) : a = c := by
  by_contra hne
  obtain ⟨q, hq⟩ := exists_rootPath_of_dominates hg hp (strictlyDominates_iff.1 hc.1).1
  exact hne (dominates_antisymm hg hq (hc.2 a ha.1 hne) (ha.2 c hc.1 (Ne.symm hne)))

/-! ## §3. Its set -/

variable {s : OffsetSet}

theorem mem_iff_dominates (hs : (ofGraph g).get? b = some s) :
    a ∈ s ↔ (ofGraph g).dominates a b = true := by
  rw [dominates_iff, hs]
  simp

theorem mem_self (hg : g.Linked) (hs : (ofGraph g).get? b = some s) : b ∈ s := by
  rw [mem_iff_dominates hs]
  exact dominates_refl hg ((covers_ofGraph hg).live_of_get? hs)

/-- The dominators of the nearest strict dominator of `b` are those of `b` without `b`. -/
theorem get?_of_nearest (hg : g.Linked) (hp : g.RootPath p b) (hs : (ofGraph g).get? b = some s)
    (ha : (ofGraph g).strictlyDominates a b = true)
    (hnearest : ∀ c, (ofGraph g).strictlyDominates c b = true → (ofGraph g).dominates c a = true) :
    (ofGraph g).get? a = some (s.erase b) := by
  obtain ⟨hab, hne⟩ := strictlyDominates_iff.1 ha
  obtain ⟨t, ht, _⟩ := dominates_iff.1 (hnearest a ha)
  have heq : t = s.erase b := by
    ext x
    rw [OffsetSet.mem_erase, mem_iff_dominates ht, mem_iff_dominates hs]
    constructor
    · intro hxa
      refine ⟨dominates_trans hg hxa hab, ?_⟩
      -- were `b` a dominator of `a`, the two would be the same
      rintro rfl
      exact hne (dominates_antisymm hg hp hab hxa)
    · intro hx
      exact hnearest x (strictlyDominates_iff.2 hx)
  rw [ht, heq]

/-- The search over the sets finds the block whose set is that of `b` without `b`. -/
theorem immediate?_of_get?_eq (hg : g.Linked) (hp : g.RootPath p a)
    (hs : (ofGraph g).get? b = some s) (hset : (ofGraph g).get? a = some (s.erase b)) :
    (ofGraph g).immediate? b = some a := by
  have hmem : a ∈ s.erase b := mem_self hg hset
  cases hfound : (ofGraph g).immediate? b with
  | none =>
    unfold immediate? at hfound
    rw [hs, Option.bind_some, List.find?_eq_none] at hfound
    exact absurd (decide_eq_true hset) (hfound a hmem)
  | some c =>
    -- what is found has the set of `a`, so the two dominate each other
    obtain ⟨s', hs', hc, hcb, hcset⟩ := immediate?_eq_some hfound
    obtain rfl := Option.some.inj (hs.symm.trans hs')
    have hca : (ofGraph g).dominates c a = true :=
      (mem_iff_dominates hset).1 (OffsetSet.mem_erase.2 ⟨hc, hcb⟩)
    rw [dominates_antisymm hg hp hca ((mem_iff_dominates hcset).1 hmem)]

/-- A set with nothing but its own block has no immediate dominator. -/
theorem immediate?_of_singleton (hs : (ofGraph g).get? b = some {b}) :
    (ofGraph g).immediate? b = none := by
  cases hfound : (ofGraph g).immediate? b with
  | none => rfl
  | some a =>
    obtain ⟨s, hs', ha, hne, _⟩ := immediate?_eq_some hfound
    obtain rfl := Option.some.inj (hs.symm.trans hs')
    exact absurd (OffsetSet.mem_singleton.1 ha) hne

/-- A block with another one in its set has an immediate dominator. -/
theorem exists_immediate? (hg : g.Linked) (hp : g.RootPath p b)
    (hs : (ofGraph g).get? b = some s) (hne : s ≠ {b}) :
    ∃ a, (ofGraph g).immediate? b = some a ∧ (ofGraph g).Nearest a b ∧
      (ofGraph g).get? a = some (s.erase b) := by
  -- the set has more than `b` in it, so some block dominates `b` strictly
  have hstrict : ∃ a, (ofGraph g).strictlyDominates a b = true := by
    by_contra hnone
    push Not at hnone
    refine hne (OffsetSet.ext fun x => ?_)
    rw [OffsetSet.mem_singleton]
    constructor
    · intro hx
      by_contra hxb
      exact hnone x (strictlyDominates_iff.2 ⟨(mem_iff_dominates hs).1 hx, hxb⟩)
    · rintro rfl
      exact mem_self hg hs
  obtain ⟨a, ha, hnearest⟩ := exists_nearest hg hp hstrict
  have hset := get?_of_nearest hg hp hs ha hnearest
  obtain ⟨q, hq⟩ := exists_rootPath_of_dominates hg hp (strictlyDominates_iff.1 ha).1
  exact ⟨a, immediate?_of_get?_eq hg hq hs hset, ⟨ha, fun c hc _ => hnearest c hc⟩, hset⟩

/-! ## §4. The way up -/

/-- **The way up from a block visits its dominators, each once.** -/
theorem exists_climb (hg : g.Linked) (hp : g.RootPath p b) (hs : (ofGraph g).get? b = some s) :
    ∃ above, (ofGraph g).Climb b above ∧ above.length + 1 = s.size ∧ (b :: above).Nodup ∧
      ∀ x, x ∈ b :: above ↔ x ∈ s := by
  -- each step up takes one member out of the set
  induction hn : s.size generalizing b p s with
  | zero => exact absurd hn (Nat.ne_of_gt (List.length_pos_of_mem (mem_self hg hs)))
  | succ n ih =>
    by_cases hsingle : s = {b}
    · subst hsingle
      refine ⟨[], .top (immediate?_of_singleton hs), hn, by simp, ?_⟩
      intro x
      rw [List.mem_singleton, OffsetSet.mem_singleton]
    · obtain ⟨a, hsome, hnearest, hset⟩ := exists_immediate? hg hp hs hsingle
      obtain ⟨q, hq⟩ :=
        exists_rootPath_of_dominates hg hp (strictlyDominates_iff.1 hnearest.1).1
      have hself := mem_self hg hs
      have hsize : (s.erase b).size = n := by
        have := OffsetSet.size_erase hself
        omega
      obtain ⟨above, hclimb, hlength, hnodup, hmem⟩ := ih hq hset hsize
      have hb : b ∉ a :: above := by
        rw [hmem, OffsetSet.mem_erase]
        exact fun h => h.2 rfl
      refine ⟨a :: above, .up hsome hclimb, ?_, List.nodup_cons.2 ⟨hb, hnodup⟩, ?_⟩
      · rw [List.length_cons, hlength]
      · intro x
        rw [List.mem_cons, hmem, OffsetSet.mem_erase]
        by_cases hx : x = b
        · subst hx
          simp [hself]
        · simp [hx]

theorem Climb.unique {d : Dominance} {l m : List Offset} (hl : d.Climb b l) (hm : d.Climb b m) :
    l = m := by
  -- on the climb: each step up is an answer of one function
  induction hl generalizing m with
  | top hnone => cases hm with
    | top => rfl
    | up hsome =>
      rw [hnone] at hsome
      cases hsome
  | up hsome _ ih => cases hm with
    | top hnone =>
      rw [hnone] at hsome
      cases hsome
    | up hsome' rest =>
      obtain rfl := Option.some.inj (hsome.symm.trans hsome')
      rw [ih rest]

/-! ## §5. Immediate dominators -/

/-- **Immediate dominators form a forest that spells out the dominator sets.**  A block that a root
    path leads to has none exactly if its set holds itself alone.  Otherwise its immediate
    dominator is the one nearest strict dominator, whose set is that of the block without the
    block.  The way up takes one step for each further member of the set and visits the members,
    each once. -/
theorem immediate_of_build {policy : Policy} {labels : OffsetSet} {code : Code} {g : Graph}
    {b : Offset} (h : (Graph.build policy labels code).outcome = .ok g)
    (hreach : ∃ p, g.RootPath p b) :
    ∃ s, (ofGraph g).get? b = some s ∧
      ((ofGraph g).immediate? b = none ↔ s = {b}) ∧
      (s ≠ {b} → ∃ a, (ofGraph g).immediate? b = some a ∧
        (∀ c, (ofGraph g).Nearest c b ↔ c = a) ∧ (ofGraph g).get? a = some (s.erase b)) ∧
      ∃ above, (∀ l, (ofGraph g).Climb b l ↔ l = above) ∧ above.length = s.size - 1 ∧
        (b :: above).Nodup ∧ ∀ x, x ∈ b :: above ↔ x ∈ s := by
  have hg := Graph.linked_of_build h
  obtain ⟨p, hp⟩ := hreach
  obtain ⟨s, hs, _⟩ := exists_dominators hg (hp.live_of_mem hp.target_mem)
  refine ⟨s, hs, ⟨?_, ?_⟩, ?_, ?_⟩
  · intro hnone
    -- were there a strict dominator, the nearest one would be found
    by_contra hne
    obtain ⟨a, hsome, _⟩ := exists_immediate? hg hp hs hne
    rw [hnone] at hsome
    cases hsome
  · rintro rfl
    exact immediate?_of_singleton hs
  · intro hne
    obtain ⟨a, hsome, hnearest, hset⟩ := exists_immediate? hg hp hs hne
    refine ⟨a, hsome, ?_, hset⟩
    intro c
    constructor
    · intro hc
      exact nearest_unique hg hp hc hnearest
    · rintro rfl
      exact hnearest
  · obtain ⟨above, hclimb, hlength, hnodup, hmem⟩ := exists_climb hg hp hs
    refine ⟨above, ?_, by omega, hnodup, hmem⟩
    intro l
    constructor
    · intro hl
      exact hl.unique hclimb
    · rintro rfl
      exact hclimb

/-- A loop: of the blocks on the way to its exit at 6 the body at 4 is no dominator, and the way up
    from 6 visits the header and the entry. -/
theorem immediate_of_loop :
    ∃ g, (Graph.build .strict {2} Code.loop).outcome = .ok g ∧
      g.RootPath [0, 2, 6] 6 ∧ g.Edge 4 2 ∧
      ∃ a above, (ofGraph g).immediate? 6 = some a ∧ (ofGraph g).get? a = some {0, 2} ∧
        (ofGraph g).Climb 6 above ∧ above.length = 2 ∧
        ∀ x, x ∈ 6 :: above ↔ x ∈ ({0, 2, 6} : OffsetSet) := by
  obtain ⟨g, hbuild, hentry, h₂, h₆, hback, hsize, htable⟩ :
      ∃ g, (Graph.build .strict {2} Code.loop).outcome = .ok g ∧
      g.entry = 0 ∧ g.Edge 0 2 ∧ g.Edge 2 6 ∧ g.Edge 4 2 ∧ g.live.size ≤ 3 + 1 ∧
      (Solver.pass^[3] (Solver.start g)).table.get? 6 = some {0, 2, 6} :=
    ⟨_, rfl, rfl, by decide, by decide, by decide, by decide, by decide⟩
  have hg := Graph.linked_of_build hbuild
  have hpath : g.RootPath [0, 2, 6] 6 := by
    have hroot : g.RootPath [0] 0 := by
      rw [← hentry]
      exact hg.isRoot_entry.rootPath
    exact (hroot.snoc h₂ (hg.live_of_edge h₂)).snoc h₆ (hg.live_of_edge h₆)
  obtain ⟨s, hs, _, hsome, above, hclimb, hlength, _, hmem⟩ :=
    immediate_of_build hbuild ⟨_, hpath⟩
  -- three passes are enough for four live blocks, so the set can be read off
  have hset : s = {0, 2, 6} := by
    rw [Solver.table_iterate_eq hg hsize] at htable
    exact Option.some.inj (hs.symm.trans htable)
  subst hset
  obtain ⟨a, ha, _, hgeta⟩ := hsome (by decide)
  exact ⟨g, hbuild, hpath, hback, a, above, ha, hgeta, (hclimb above).2 rfl, hlength, hmem⟩

end BytecodeFlow.Dominance
