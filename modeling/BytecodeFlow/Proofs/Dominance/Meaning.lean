/-
  BytecodeFlow.Proofs.Dominance.Meaning — WHAT THE DOMINATOR SETS MEAN.

  The solver knows equations and nothing of paths.  Two bounds tie its result to them:

    • from below, at every moment: whatever all root paths to `b` share stays in the set of `b`
      through every update (`Covers.update`), so it is there in the end;
    • from above, at the end: where every equation holds, each member of the set of `b` lies on
      every root path to `b` (`mem_of_rootPath`), by induction on the path.

  Main statement: `dominators_eq_shared` — the set of a live block holds exactly the live blocks
  that all root paths to it share.
-/
import BytecodeFlow.Analysis
import BytecodeFlow.Proofs.Graph.Root

namespace BytecodeFlow.Dominance

/-! ## §1. What updates keep, runs keep -/

section Keeping

variable {g : Graph} {P : Table → Prop}

@[simp] theorem Table.keys_update {t : Table} {b : Offset} (hb : b ∈ t.keys) :
    (t.update g b).keys = t.keys := by
  unfold Table.update
  rw [OffsetMap.keys_insert]
  ext x
  rw [OffsetSet.mem_insert]
  constructor
  · intro h
    rcases h with rfl | h
    · exact hb
    · exact h
  · intro h
    exact .inr h

theorem Table.get?_update {t : Table} {b c : Offset} :
    (t.update g b).get? c = if c = b then some (t.evaluate g b) else t.get? c :=
  OffsetMap.get?_insert

/-- The candidate a run starts from, as it answers: a block that is not live has no set. -/
theorem Table.get?_initial {b : Offset} :
    (Table.initial g).get? b =
      if b ∈ g.live then some (if b = g.entry then {g.entry} else g.live) else none :=
  OffsetMap.get?_ofKeys

/-- **What every update keeps, a list of updates keeps.** The blocks are keys of the table at the
    start; updates leave the keys alone, so they are keys still when it is their turn. -/
theorem Table.foldl_update_keeps
    (hkeep : ∀ t b, b ∈ t.keys → b ≠ g.entry → P t → P (t.update g b)) :
    ∀ (bs : List Offset) (t : Table), (∀ b ∈ bs, b ∈ t.keys ∧ b ≠ g.entry) → P t →
      P (bs.foldl (Table.update g) t) := by
  -- the table changes on the way, so it stays general in the induction
  intro bs
  induction bs with
  | nil => intro t _ ht; exact ht
  | cons b rest ih =>
    intro t hbs ht
    obtain ⟨hb, hne⟩ := hbs b List.mem_cons_self
    refine ih (t.update g b) ?_ (hkeep t b hb hne ht)
    intro c hc
    rw [Table.keys_update hb]
    exact hbs c (List.mem_cons_of_mem _ hc)

theorem Table.mem_swept_iff {t : Table} {b : Offset} :
    b ∈ (t.keys.erase g.entry).toList ↔ b ∈ t.keys ∧ b ≠ g.entry := by
  rw [OffsetSet.mem_toList, OffsetSet.mem_erase]

/-- What every update keeps holds behind a sweep; the order in which it goes plays no part. -/
theorem Table.sweep_keeps (hkeep : ∀ t b, b ∈ t.keys → b ≠ g.entry → P t → P (t.update g b))
    {t : Table} (ht : P t) : P (t.sweep g) :=
  Table.foldl_update_keeps hkeep _ t (fun _ hb => Table.mem_swept_iff.1 hb) ht

/-- What every update keeps holds where a solver ends, if it holds where the solver is. -/
theorem Solver.run_keeps (hkeep : ∀ t b, b ∈ t.keys → b ≠ g.entry → P t → P (t.update g b))
    (s : Solver g) (hs : P s.table) : P s.run.table := by
  -- on the passes; a run ends with a pass as well, so both cases sweep
  fun_induction Solver.run s with
  | case1 s _ ih => exact ih (Table.sweep_keeps hkeep hs)
  | case2 s _ => exact Table.sweep_keeps hkeep hs

end Keeping

/-! ## §2. The equations, read off the edges -/

section Equations

variable {g : Graph} {t : Table} {b x : Offset} {s : OffsetSet}

/-- The sets that constrain `b` are those of its live predecessors, since just those have a set. -/
theorem Table.mem_constraints_iff_of_keys (hg : g.Linked) (hkeys : t.keys = g.live) :
    s ∈ t.constraints g b ↔ ∃ a ∈ g.live, g.Edge a b ∧ t.get? a = some s := by
  rw [Table.mem_constraints_iff]
  constructor
  · intro ⟨a, ha, hs⟩
    exact ⟨a, hkeys ▸ OffsetMap.mem_keys_of_get? hs, (hg.mem_predecessors_iff a b).1 ha, hs⟩
  · intro ⟨a, _, hedge, hs⟩
    exact ⟨a, (hg.mem_predecessors_iff a b).2 hedge, hs⟩

theorem Table.constraints_ne_nil_iff (hg : g.Linked) (hkeys : t.keys = g.live) :
    t.constraints g b ≠ [] ↔ ∃ a ∈ g.live, g.Edge a b := by
  constructor
  · intro hne
    obtain ⟨s, hs⟩ := List.exists_mem_of_ne_nil _ hne
    obtain ⟨a, ha, hedge, _⟩ := (mem_constraints_iff_of_keys hg hkeys).1 hs
    exact ⟨a, ha, hedge⟩
  · intro ⟨a, ha, hedge⟩
    obtain ⟨s, hs⟩ := OffsetMap.mem_keys_iff.1 (hkeys ▸ ha)
    exact List.ne_nil_of_mem ((mem_constraints_iff_of_keys hg hkeys).2 ⟨a, ha, hedge, hs⟩)

/-- The right-hand side of an equation: `b`, and what the sets of its live predecessors share if it
    has any. -/
theorem Table.mem_evaluate_iff_of_keys (hg : g.Linked) (hkeys : t.keys = g.live) :
    x ∈ t.evaluate g b ↔ x = b ∨ (∃ a ∈ g.live, g.Edge a b) ∧
      ∀ a ∈ g.live, g.Edge a b → ∀ s, t.get? a = some s → x ∈ s := by
  rw [mem_evaluate_iff, constraints_ne_nil_iff hg hkeys]
  refine or_congr_right (and_congr_right fun _ => ?_)
  constructor
  · intro hall a ha hedge s hs
    exact hall s ((mem_constraints_iff_of_keys hg hkeys).2 ⟨a, ha, hedge, hs⟩)
  · intro hall s hs
    obtain ⟨a, ha, hedge, hget⟩ := (mem_constraints_iff_of_keys hg hkeys).1 hs
    exact hall a ha hedge s hget

end Equations

/-! ## §3. From below: what all root paths share is never lost -/

/-- A table over the live blocks that has lost nothing which all root paths to a block share. -/
structure Table.Covers (g : Graph) (t : Table) : Prop where
  keys_eq : t.keys = g.live
  entry_eq : t.get? g.entry = some {g.entry}
  subset_live : ∀ b s, t.get? b = some s → s ⊆ g.live
  mem_of_shared : ∀ b s d, t.get? b = some s → d ∈ g.live → (∀ p, g.RootPath p b → d ∈ p) → d ∈ s

variable {g : Graph} {t : Table}

/-- Every live block has a set, so no question asked of a live block goes unanswered. -/
theorem Table.Covers.exists_of_live (ht : t.Covers g) {b : Offset} (hb : b ∈ g.live) :
    ∃ s, t.get? b = some s :=
  OffsetMap.mem_keys_iff.1 (ht.keys_eq ▸ hb)

theorem Table.Covers.live_of_get? (ht : t.Covers g) {b : Offset} {s : OffsetSet}
    (hs : t.get? b = some s) : b ∈ g.live :=
  ht.keys_eq ▸ OffsetMap.mem_keys_of_get? hs

/-- The largest candidate has lost nothing: it has everything live but at the entry, where the path
    that stays there leaves only the entry to share. -/
theorem Table.covers_initial (hg : g.Linked) : (Table.initial g).Covers g := by
  refine ⟨OffsetMap.keys_ofKeys, ?_, ?_, ?_⟩
  · rw [Table.get?_initial, if_pos hg.entry_live, if_pos rfl]
  · intro b s hs x hx
    rw [Table.get?_initial] at hs
    split at hs
    · obtain rfl := Option.some.inj hs
      split at hx
      · obtain rfl := OffsetSet.mem_singleton.1 hx
        exact hg.entry_live
      · exact hx
    · cases hs
  · -- nothing shared is missing
    intro b s d hs hd hshared
    rw [Table.get?_initial] at hs
    split at hs
    · obtain rfl := Option.some.inj hs
      split
      · -- at the entry only the entry itself is on the path that stays there
        rename_i heq
        subst heq
        have := hshared _ hg.isRoot_entry.rootPath
        rw [List.mem_singleton] at this
        exact OffsetSet.mem_singleton.2 this
      · exact hd
    · cases hs

/-- Whatever all root paths to `b` share, the right-hand side of the equation of `b` keeps. -/
theorem Table.Covers.mem_evaluate_of_shared (hg : g.Linked) (ht : t.Covers g) {b d : Offset}
    (hb : b ∈ g.live) (hd : d ∈ g.live) (hshared : ∀ p, g.RootPath p b → d ∈ p) :
    d ∈ t.evaluate g b := by
  rw [Table.mem_evaluate_iff_of_keys hg ht.keys_eq]
  by_cases hdb : d = b
  · exact .inl hdb
  refine .inr ⟨?_, ?_⟩
  · -- without live predecessors `b` is a root, and the path that stays there lacks `d`
    refine Classical.byContradiction fun hnone => hdb ?_
    have hroot : g.IsRoot b := ⟨hb, .inr fun a ha hedge => hnone ⟨a, ha, hedge⟩⟩
    exact List.mem_singleton.1 (hshared _ hroot.rootPath)
  · intro a _ hedge s hget
    refine ht.mem_of_shared a s d hget hd ?_
    -- a root path to the predecessor goes on to `b`, so it has met `d` before
    intro p hp
    rcases List.mem_append.1 (hshared _ (hp.snoc hedge hb)) with h | h
    · exact h
    · exact absurd (List.mem_singleton.1 h) hdb

/-- A right-hand side holds live blocks only, for it takes them from sets that do. -/
theorem Table.Covers.evaluate_subset_live (hg : g.Linked) (ht : t.Covers g) {b : Offset}
    (hb : b ∈ g.live) : t.evaluate g b ⊆ g.live := by
  intro x hx
  rcases (Table.mem_evaluate_iff_of_keys hg ht.keys_eq).1 hx with rfl | ⟨⟨a, ha, hedge⟩, hall⟩
  · exact hb
  · -- `x` is in the set of a live predecessor, and that set holds live blocks only
    obtain ⟨s, hget⟩ := ht.exists_of_live ha
    exact ht.subset_live a s hget x (hall a ha hedge s hget)

/-- **No update loses what root paths share.** The set that is replaced gets the right-hand side,
    which keeps it; the others stay. -/
theorem Table.Covers.update (hg : g.Linked) {b : Offset} (hb : b ∈ t.keys) (hne : b ≠ g.entry)
    (ht : t.Covers g) : (t.update g b).Covers g := by
  have hlive : b ∈ g.live := ht.keys_eq ▸ hb
  refine ⟨(Table.keys_update hb).trans ht.keys_eq, ?_, ?_, ?_⟩
  · -- the set of the entry is never replaced
    rw [Table.get?_update, if_neg (Ne.symm hne)]
    exact ht.entry_eq
  · intro c s hs
    rw [Table.get?_update] at hs
    split at hs
    · obtain rfl := Option.some.inj hs
      exact ht.evaluate_subset_live hg hlive
    · exact ht.subset_live c s hs
  · -- the one set that changed still has what all root paths share
    intro c s d hs hd hshared
    rw [Table.get?_update] at hs
    split at hs
    · rename_i heq
      subst heq
      obtain rfl := Option.some.inj hs
      exact ht.mem_evaluate_of_shared hg hlive hd hshared
    · exact ht.mem_of_shared c s d hs hd hshared

theorem Table.Covers.sweep (hg : g.Linked) (ht : t.Covers g) : (t.sweep g).Covers g :=
  Table.sweep_keeps (fun _ _ hb hne ht => ht.update hg hb hne) ht

/-! ## §4. From above: where every equation holds -/

/-- Where every equation holds, the members of a set lie on every root path to its block. -/
theorem Table.Covers.mem_of_rootPath (hg : g.Linked) (ht : t.Covers g)
    (hsolved : ∀ b ∈ t.keys, b ≠ g.entry → t.get? b = some (t.evaluate g b))
    {p : List Offset} {b : Offset} (hp : g.RootPath p b) {s : OffsetSet} {d : Offset}
    (hs : t.get? b = some s) (hd : d ∈ s) : d ∈ p := by
  obtain ⟨r, hroot, hpath, hlive⟩ := hp
  -- along the path, with the set of its last block: each step uses the equation of its target
  induction hpath generalizing s with
  | start =>
    rw [List.mem_singleton]
    by_cases hr : r = g.entry
    · subst hr
      obtain rfl := Option.some.inj (hs.symm.trans ht.entry_eq)
      exact OffsetSet.mem_singleton.1 hd
    · -- no live predecessor, so nothing but `r` itself is in the set
      have hall := hroot.2.resolve_left hr
      rw [hsolved r (OffsetMap.mem_keys_of_get? hs) hr] at hs
      obtain rfl := Option.some.inj hs
      rcases (Table.mem_evaluate_iff_of_keys hg ht.keys_eq).1 hd with rfl | ⟨⟨a, ha, hedge⟩, -⟩
      · rfl
      · exact absurd hedge (hall a ha)
  | @snoc p b c hwalk hedge ih =>
    have hlive' : ∀ x ∈ p, x ∈ g.live := fun x hx => hlive x (List.mem_append_left _ hx)
    rw [List.mem_append, List.mem_singleton]
    by_cases hc : c = g.entry
    · subst hc
      obtain rfl := Option.some.inj (hs.symm.trans ht.entry_eq)
      exact .inr (OffsetSet.mem_singleton.1 hd)
    · rw [hsolved c (OffsetMap.mem_keys_of_get? hs) hc] at hs
      obtain rfl := Option.some.inj hs
      rcases (Table.mem_evaluate_iff_of_keys hg ht.keys_eq).1 hd with rfl | ⟨-, hall⟩
      · exact .inr rfl
      · -- `d` is in the set of every live predecessor, and the path comes from one
        have hb : b ∈ g.live := hlive' b (Walk.target_mem hwalk)
        obtain ⟨u, hu⟩ := ht.exists_of_live hb
        exact .inl (ih hu (hall b hb hedge u hu) hlive')

/-! ## §5. The final table -/

/-- The final table has lost nothing that root paths share. -/
theorem covers_ofGraph (hg : g.Linked) : (ofGraph g).table.Covers g :=
  Solver.run_keeps (P := Table.Covers g) (fun _ _ hb hne ht => ht.update hg hb hne)
    (Solver.start g) (Table.covers_initial hg)

/-- The final table solves every equation; at the entry there is none. -/
theorem solved_ofGraph :
    ∀ b ∈ (ofGraph g).table.keys, b ≠ g.entry →
      (ofGraph g).table.get? b = some ((ofGraph g).table.evaluate g b) :=
  fun _ hb hne => (Solver.start g).solves_run hb hne

/-- The set of a live block: the live blocks on every root path to it. -/
theorem exists_dominators (hg : g.Linked) {b : Offset} (hb : b ∈ g.live) :
    ∃ s, (ofGraph g).get? b = some s ∧
      ∀ d, d ∈ s ↔ d ∈ g.live ∧ ∀ p, g.RootPath p b → d ∈ p := by
  have hcovers := covers_ofGraph hg
  obtain ⟨s, hs⟩ := hcovers.exists_of_live hb
  refine ⟨s, hs, ?_⟩
  intro d
  constructor
  · intro hd
    exact ⟨hcovers.subset_live b s hs d hd,
      fun p hp => hcovers.mem_of_rootPath hg solved_ofGraph hp hs hd⟩
  · intro ⟨hlive, hshared⟩
    exact hcovers.mem_of_shared b s d hs hlive hshared

/-- The result lies inside every table that covers what root paths share. -/
theorem Table.Covers.within (hg : g.Linked) (ht : t.Covers g) :
    Table.Within (ofGraph g).table t := by
  refine ⟨(covers_ofGraph hg).keys_eq.trans ht.keys_eq.symm, ?_⟩
  intro b s s' hs hs' d hd
  obtain ⟨r, hr, hiff⟩ := exists_dominators hg (ht.live_of_get? hs')
  obtain rfl := Option.some.inj (hs.symm.trans hr)
  -- what the result has is shared by all root paths, and `t` has lost nothing of that
  obtain ⟨hlive, hshared⟩ := (hiff d).1 hd
  exact ht.mem_of_shared b s' d hs' hlive hshared

theorem get?_of_not_live (hg : g.Linked) {b : Offset} (hb : b ∉ g.live) :
    (ofGraph g).get? b = none := by
  show (ofGraph g).table.get? b = none
  rw [OffsetMap.get?_eq_none_iff, (covers_ofGraph hg).keys_eq]
  exact hb

/-- **Dominance without the table**: a live block that lies on every root path to another. -/
theorem dominates_iff_shared (hg : g.Linked) {d b : Offset} :
    (ofGraph g).dominates d b = true ↔
      b ∈ g.live ∧ d ∈ g.live ∧ ∀ p, g.RootPath p b → d ∈ p := by
  rw [dominates_iff]
  by_cases hb : b ∈ g.live
  · obtain ⟨s, hs, hiff⟩ := exists_dominators hg hb
    constructor
    · intro ⟨s', hs', hd⟩
      obtain rfl := Option.some.inj (hs.symm.trans hs')
      exact ⟨hb, (hiff d).1 hd⟩
    · intro ⟨_, hshared⟩
      exact ⟨s, hs, (hiff d).2 hshared⟩
  · constructor
    · intro ⟨s, hs, _⟩
      rw [get?_of_not_live hg hb] at hs
      cases hs
    · intro h
      exact absurd h.1 hb

/-- At a block that some root path leads to, dominators are what all root paths share. -/
theorem dominates_iff_of_rootPath (hg : g.Linked) {p : List Offset} {d b : Offset}
    (hp : g.RootPath p b) :
    (ofGraph g).dominates d b = true ↔ ∀ q, g.RootPath q b → d ∈ q := by
  rw [dominates_iff_shared hg]
  constructor
  · intro h
    exact h.2.2
  · intro hshared
    exact ⟨hp.live_of_mem hp.target_mem, hp.live_of_mem (hshared p hp), hshared⟩

/-- **The set of a live block holds exactly the live blocks that all root paths to it share.**
    So it is everything live where no root path leads, the entry has itself alone whatever leads
    back to it, blocks that are not live take no part, and no path from the entry avoids a
    dominator of its end. -/
theorem dominators_eq_shared {policy : Policy} {labels : OffsetSet} {code : Code} {g : Graph}
    (h : (Graph.build policy labels code).outcome = .ok g) :
    (∀ b ∈ g.live, ∃ s, (ofGraph g).get? b = some s ∧
      ∀ d ∈ g.live, d ∈ s ↔ ∀ p, g.RootPath p b → d ∈ p) ∧
    (∀ b ∈ g.live, (∀ p, ¬ g.RootPath p b) → (ofGraph g).get? b = some g.live) ∧
    (ofGraph g).get? g.entry = some {g.entry} ∧
    (∀ b, b ∉ g.live → (ofGraph g).get? b = none ∧
      ∀ c s, (ofGraph g).get? c = some s → b ∉ s) ∧
    (∀ b p d, g.Path g.entry p b → (ofGraph g).dominates d b = true → d ∈ p) := by
  have hg := Graph.linked_of_build h
  refine ⟨?_, ?_, (covers_ofGraph hg).entry_eq, ?_, ?_⟩
  · intro b hb
    obtain ⟨s, hs, hiff⟩ := exists_dominators hg hb
    refine ⟨s, hs, ?_⟩
    intro d hd
    rw [hiff]
    exact and_iff_right hd
  · -- without root paths every live block is on all of them
    intro b hb hunreached
    obtain ⟨s, hs, hiff⟩ := exists_dominators hg hb
    have heq : s = g.live := by
      ext d
      rw [hiff]
      exact and_iff_left fun p hp => absurd hp (hunreached p)
    rw [hs, heq]
  · intro b hb
    refine ⟨get?_of_not_live hg hb, ?_⟩
    intro c s hs hmem
    exact hb ((covers_ofGraph hg).subset_live c s hs b hmem)
  · intro b p d hpath hdom
    exact ((dominates_iff_shared hg).1 hdom).2.2 p (hg.rootPath_of_entry hpath)

/-- `0 POP_JUMP_IF_TRUE 0`, `2 RETURN_VALUE`, `4 JUMP_ABSOLUTE 6`, `6 JUMP_ABSOLUTE 4`. -/
def backToEntry : Code :=
  [.decode 0 .popJumpIfTrue (some 0) 2, .decode 2 .returnValue none 4,
    .decode 4 .jumpAbsolute (some 6) 6, .decode 6 .jumpAbsolute (some 4) 8]

/-- A branch back to the entry, and two dead jumps that feed each other. -/
theorem dominators_of_backEdge :
    ∃ g, (Graph.build .strict {0, 2, 4, 6} backToEntry).outcome = .ok g ∧
      g.Edge 0 g.entry ∧ (ofGraph g).get? g.entry = some {g.entry} ∧
      4 ∈ g.live ∧ ∃ s, (ofGraph g).get? 4 = some s ∧
        ∀ d ∈ g.live, d ∈ s ↔ ∀ p, g.RootPath p 4 → d ∈ p := by
  obtain ⟨g, hbuild, hedge, hlive⟩ :
      ∃ g, (Graph.build .strict {0, 2, 4, 6} backToEntry).outcome = .ok g ∧
      g.Edge 0 g.entry ∧ 4 ∈ g.live := ⟨_, rfl, by decide, by decide⟩
  have hmeaning := dominators_eq_shared hbuild
  exact ⟨g, hbuild, hedge, hmeaning.2.2.1, hlive, hmeaning.1 4 hlive⟩

end BytecodeFlow.Dominance
