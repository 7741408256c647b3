/-
  BytecodeFlow.Dominance.Table — DOMINATOR SETS AS A SYSTEM OF EQUATIONS.

  A table gives each live block a set of blocks.  The dominator sets solve

      T[entry] = {entry}
      T[b]     = {b} ∪ ⋂ { T[p] | p a live predecessor of b }      for every other live block

  where a block without live predecessors has nothing to intersect and keeps `{b}` alone.  The
  start is the largest candidate: all live blocks everywhere but at the entry.  From there every
  update shrinks a set or leaves it, and that is what ends the search:

    • `evaluate_mono` — smaller sets make the right-hand side smaller,
    • `Descending.update` — a table whose equations lie inside its sets stays so,
    • `Descending.solves_of_sweep_eq` — a sweep that changes nothing has solved the equations,
    • `Within.weight_lt` — a table that shrinks at all loses weight.
-/
import BytecodeFlow.Graph.Basic

namespace BytecodeFlow.Dominance

/-! ## §1. Tables and the equation -/

/-- A set of blocks for each live block. -/
abbrev Table := OffsetMap OffsetSet

/-- What all sets of a list have in common; nothing if the list is empty. -/
def meet : List OffsetSet → OffsetSet
  | [] => ∅
  | s :: rest => rest.foldl (· ∩ ·) s

theorem mem_foldl_inter {x : Offset} {l : List OffsetSet} {s : OffsetSet} :
    x ∈ l.foldl (· ∩ ·) s ↔ x ∈ s ∧ ∀ t ∈ l, x ∈ t := by
  induction l generalizing s with
  | nil => simp
  | cons t rest ih => simp [ih, and_assoc]

/-- The sets of an empty list have nothing in common here, where an intersection over nothing would
    be everything. -/
theorem mem_meet {x : Offset} {l : List OffsetSet} : x ∈ meet l ↔ l ≠ [] ∧ ∀ s ∈ l, x ∈ s := by
  cases l with
  | nil => simp [meet]
  | cons s rest => simp [meet, mem_foldl_inter]

namespace Table

/-- The sets of the predecessors of `b`, as far as they have one. -/
def constraints (g : Graph) (t : Table) (b : Offset) : List OffsetSet :=
  ((g.predecessors? b).getD ∅).toList.filterMap t.get?

/-- The right-hand side of the equation of `b`. -/
def evaluate (g : Graph) (t : Table) (b : Offset) : OffsetSet := insert b (meet (t.constraints g b))

/-- The table with the set of `b` replaced by the right-hand side of its equation. -/
def update (g : Graph) (t : Table) (b : Offset) : Table := t.insert b (t.evaluate g b)

/-- The largest candidate: the entry alone at the entry, all live blocks elsewhere. -/
def initial (g : Graph) : Table := .ofKeys g.live fun b => if b = g.entry then {g.entry} else g.live

/-- Every block but the entry updated once, in ascending order, each on top of the one before. -/
def sweep (g : Graph) (t : Table) : Table := (t.keys.erase g.entry).toList.foldl (update g) t

/-- A predecessor without a set constrains nothing. -/
theorem mem_constraints_iff {g : Graph} {t : Table} {b : Offset} {s : OffsetSet} :
    s ∈ t.constraints g b ↔ ∃ p ∈ (g.predecessors? b).getD ∅, t.get? p = some s := by
  simp [constraints]

/-- The right-hand side of an equation as a statement on its members; all that later proofs use of
    it. -/
theorem mem_evaluate_iff {g : Graph} {t : Table} {b x : Offset} :
    x ∈ t.evaluate g b ↔ x = b ∨ t.constraints g b ≠ [] ∧ ∀ s ∈ t.constraints g b, x ∈ s := by
  simp [evaluate, mem_meet]

/-! ## §2. Smaller tables -/

/-- `t` has the keys of `u`, and each of its sets lies inside that of `u`. -/
structure Within (t u : Table) : Prop where
  keys_eq : t.keys = u.keys
  subset : ∀ b s s', t.get? b = some s → u.get? b = some s' → s ⊆ s'

theorem Within.refl (t : Table) : Within t t :=
  ⟨rfl, fun b s s' h h' => by
    obtain rfl : s = s' := Option.some.inj (h.symm.trans h')
    exact OffsetSet.Subset.refl s⟩

theorem Within.trans {t u v : Table} (h : Within t u) (k : Within u v) : Within t v :=
  ⟨h.keys_eq.trans k.keys_eq, fun b s s' hs hs' => by
    obtain ⟨r, hr⟩ := OffsetMap.mem_keys_iff.1 (h.keys_eq ▸ OffsetMap.mem_keys_of_get? hs)
    exact OffsetSet.Subset.trans (h.subset b s r hs hr) (k.subset b r s' hr hs')⟩

/-- Two tables that lie inside each other are the same table. -/
theorem Within.antisymm {t u : Table} (h : Within t u) (k : Within u t) : t = u := by
  ext1 b
  cases hs : t.get? b with
  | none =>
    rw [OffsetMap.get?_eq_none_iff, h.keys_eq, ← OffsetMap.get?_eq_none_iff] at hs
    exact hs.symm
  | some s =>
    obtain ⟨r, hr⟩ := OffsetMap.mem_keys_iff.1 (h.keys_eq ▸ OffsetMap.mem_keys_of_get? hs)
    rw [hr, OffsetSet.Subset.antisymm (h.subset b s r hs hr) (k.subset b r s hr hs)]

/-- A smaller table makes the right-hand sides smaller. -/
theorem evaluate_mono {g : Graph} {t u : Table} (h : Within t u) (b : Offset) :
    t.evaluate g b ⊆ u.evaluate g b := by
  intro x hx
  rw [mem_evaluate_iff] at hx ⊢
  refine hx.imp id fun ⟨hne, hall⟩ => ⟨fun hnil => hne ?_, fun s' hs' => ?_⟩
  · -- a predecessor that constrains `t` constrains `u`
    rw [List.eq_nil_iff_forall_not_mem] at hnil ⊢
    intro s hs
    obtain ⟨p, hp, hps⟩ := mem_constraints_iff.1 hs
    obtain ⟨r, hr⟩ := OffsetMap.mem_keys_iff.1 (h.keys_eq ▸ OffsetMap.mem_keys_of_get? hps)
    exact hnil r (mem_constraints_iff.2 ⟨p, hp, hr⟩)
  · -- a constraint of `u` lies around the one that the same predecessor has in `t`
    obtain ⟨p, hp, hps⟩ := mem_constraints_iff.1 hs'
    obtain ⟨r, hr⟩ := OffsetMap.mem_keys_iff.1 (h.keys_eq ▸ OffsetMap.mem_keys_of_get? hps)
    exact h.subset p r s' hr hps x (hall r (mem_constraints_iff.2 ⟨p, hp, hr⟩))

/-! ## §3. Tables that only shrink -/

/-- Away from the entry the right-hand side of each equation lies inside the set it is for. -/
def Descending (g : Graph) (t : Table) : Prop :=
  ∀ b s, b ≠ g.entry → t.get? b = some s → t.evaluate g b ⊆ s

/-- An update of a descending table takes members away and adds none. -/
theorem Descending.update_within {g : Graph} {t : Table} (h : Descending g t) {b : Offset}
    (hb : b ∈ t.keys) (hne : b ≠ g.entry) : Within (t.update g b) t := by
  refine ⟨?_, fun c s s' hs hs' => ?_⟩
  · rw [update, OffsetMap.keys_insert]
    ext x
    grind
  · rw [update, OffsetMap.get?_insert] at hs
    split at hs
    · rename_i heq
      subst heq
      cases hs
      exact h c s' hne hs'
    · obtain rfl : s = s' := Option.some.inj (hs.symm.trans hs')
      exact OffsetSet.Subset.refl s

/-- **Descending tables stay descending.** The set that is replaced is the right-hand side itself,
    and the right-hand sides of the others can only have become smaller. -/
theorem Descending.update {g : Graph} {t : Table} (h : Descending g t) {b : Offset}
    (hb : b ∈ t.keys) (hne : b ≠ g.entry) : Descending g (t.update g b) := by
  intro c s hc hs
  -- every right-hand side, that of `b` included, is no larger after the update
  have hmono := evaluate_mono (g := g) (h.update_within hb hne) c
  rw [Table.update, OffsetMap.get?_insert] at hs
  split at hs
  · rename_i heq
    subst heq
    cases hs
    exact hmono
  · exact OffsetSet.Subset.trans hmono (h c s hc hs)

/-- Updating any blocks but the entry, in any order, keeps a table descending and inside itself. -/
theorem Descending.foldl_update {g : Graph} {bs : List Offset} {t : Table} (h : Descending g t)
    (hbs : ∀ b ∈ bs, b ∈ t.keys ∧ b ≠ g.entry) :
    Descending g (bs.foldl (Table.update g) t) ∧ Within (bs.foldl (Table.update g) t) t := by
  induction bs generalizing t with
  | nil => exact ⟨h, .refl t⟩
  | cons b rest ih =>
    obtain ⟨hb, hne⟩ := hbs b (by simp)
    have hwithin := h.update_within hb hne
    have := ih (h.update hb hne) fun c hc => by
      rw [hwithin.keys_eq]
      exact hbs c (by simp [hc])
    exact ⟨this.1, this.2.trans hwithin⟩

/-- A whole sweep does what its updates do: it keeps the table descending and inside itself. -/
theorem Descending.sweep {g : Graph} {t : Table} (h : Descending g t) :
    Descending g (t.sweep g) ∧ Within (t.sweep g) t :=
  h.foldl_update fun b hb => by simpa using hb

/-- Updates that leave a descending table as it is leave it so one by one. -/
theorem Descending.update_eq_of_foldl_eq {g : Graph} {bs : List Offset} {t : Table}
    (h : Descending g t) (hbs : ∀ b ∈ bs, b ∈ t.keys ∧ b ≠ g.entry)
    (heq : bs.foldl (Table.update g) t = t) : ∀ b ∈ bs, t.update g b = t := by
  induction bs with
  | nil => intro b hb; cases hb
  | cons b rest ih =>
    obtain ⟨hb, hne⟩ := hbs b (by simp)
    have hwithin := h.update_within hb hne
    have hrest : ∀ c ∈ rest, c ∈ t.keys ∧ c ≠ g.entry := fun c hc => hbs c (by simp [hc])
    have hrest' : ∀ c ∈ rest, c ∈ (t.update g b).keys ∧ c ≠ g.entry := by
      rw [hwithin.keys_eq]
      exact hrest
    -- the updates behind the first lead back up to `t`, so the first took nothing away
    have hback : Within t (t.update g b) := by
      have hend := ((h.update hb hne).foldl_update hrest').2
      rwa [show rest.foldl (Table.update g) (t.update g b) = t from heq] at hend
    have hupdate : t.update g b = t := hwithin.antisymm hback
    intro c hc
    rcases List.mem_cons.1 hc with rfl | hc
    · exact hupdate
    · exact ih hrest (by rw [List.foldl_cons, hupdate] at heq; exact heq) c hc

/-- **A sweep that changes nothing has solved the equations.** -/
theorem Descending.solves_of_sweep_eq {g : Graph} {t : Table} (h : Descending g t)
    (heq : t.sweep g = t) {b : Offset} (hb : b ∈ t.keys) (hne : b ≠ g.entry) :
    t.get? b = some (t.evaluate g b) := by
  have hupdate := h.update_eq_of_foldl_eq (fun c hc => by simpa using hc) heq b (by simp [hb, hne])
  calc t.get? b = (t.update g b).get? b := by rw [hupdate]
    _ = some (t.evaluate g b) := by simp [Table.update]

theorem descending_initial (g : Graph) : Descending g (initial g) := by
  intro b s hb hs x hx
  simp only [initial, OffsetMap.get?_ofKeys] at hs
  split at hs
  · rename_i hlive
    cases hs
    rw [mem_evaluate_iff] at hx
    rcases hx with rfl | ⟨hne, hall⟩
    · exact hlive
    · obtain ⟨s, hs⟩ := List.exists_mem_of_ne_nil _ hne
      obtain ⟨p, -, hps⟩ := mem_constraints_iff.1 hs
      have hxs := hall s hs
      simp only [initial, OffsetMap.get?_ofKeys] at hps
      grind
  · cases hs

/-! ## §4. Weight -/

/-- The number of memberships in the entries of a table. -/
def weigh : List (Offset × OffsetSet) → Nat
  | [] => 0
  | e :: rest => e.2.size + weigh rest

/-- The number of memberships in a table. -/
def weight (t : Table) : Nat := weigh t.entries

/-- Lists of entries with the same keys and smaller sets: less weight, or the same list. -/
theorem weigh_lt {l m : List (Offset × OffsetSet)} (hkeys : l.map Prod.fst = m.map Prod.fst)
    (hsub : ∀ b s s', (b, s) ∈ l → (b, s') ∈ m → s ⊆ s') :
    l = m ∨ weigh l < weigh m := by
  -- the keys agree, so both lists are walked entry by entry
  induction l generalizing m with
  | nil => cases m <;> simp_all
  | cons e l ih => cases m with
    | nil => simp at hkeys
    | cons e' m =>
      obtain ⟨b, s⟩ := e
      obtain ⟨b', s'⟩ := e'
      simp only [List.map_cons, List.cons.injEq] at hkeys
      obtain ⟨rfl, hkeys⟩ := hkeys
      have htail := ih hkeys fun c u u' hu hu' => hsub c u u' (by simp [hu]) (by simp [hu'])
      have hhead := hsub b s s' (by simp) (by simp)
      have hle := OffsetSet.size_le_of_subset hhead
      -- the first entries differ, or the difference is further on
      by_cases heq : s = s'
      · subst heq
        rcases htail with rfl | hlt
        · exact .inl rfl
        · exact .inr (Nat.add_lt_add_left hlt s.size)
      · have hlt := OffsetSet.size_lt_of_subset_of_ne hhead heq
        refine .inr ?_
        show s.size + weigh l < s'.size + weigh m
        rcases htail with rfl | htail <;> omega

/-- A smaller table that is not the same weighs less. -/
theorem Within.weight_lt {t u : Table} (h : Within t u) (hne : t ≠ u) : t.weight < u.weight := by
  have hkeys : t.entries.map Prod.fst = u.entries.map Prod.fst :=
    congrArg OffsetSet.toList h.keys_eq
  have hsubset : ∀ b s s', (b, s) ∈ t.entries → (b, s') ∈ u.entries → s ⊆ s' := fun b s s' hs hs' =>
    h.subset b s s' (OffsetMap.get?_eq_some_iff.2 hs) (OffsetMap.get?_eq_some_iff.2 hs')
  rcases weigh_lt hkeys hsubset with heq | hlt
  · refine absurd ?_ hne
    cases t
    cases u
    congr
  · exact hlt

end Table

end BytecodeFlow.Dominance
