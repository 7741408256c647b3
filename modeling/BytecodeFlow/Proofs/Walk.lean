/-
  BytecodeFlow.Proofs.Walk — WALKS along a relation, with the list of what they visit.

  A walk grows at its end: whoever reasons about the last step takes the walk before it as the
  smaller case.  The list holds both ends, so a walk that goes nowhere visits one place.

  The lemmas:
    • `source_mem`, `target_mem` — both ends are visited,
    • `getLast?_eq` — the target is visited last,
    • `append` — two walks that meet make one,
    • `exists_first`, `exists_last` — a walk up to the first place of some kind, and from the last,
    • `suffix_of_mem` — from any place visited on, the rest of a walk is a walk,
    • `exists_nodup` — where a walk leads, one leads that visits nothing twice.
-/

namespace BytecodeFlow

/-- `Walk step a p b`: a walk from `a` to `b` visits the members of `p`, in that order. -/
inductive Walk {α : Type} (step : α → α → Prop) (a : α) : List α → α → Prop where
  /-- Stays where it starts. -/
  | start : Walk step a [a] a
  /-- Goes one step further. -/
  | snoc {p : List α} {b c : α} (walk : Walk step a p b) (hstep : step b c) :
      Walk step a (p ++ [c]) c

namespace Walk

variable {α : Type} {step : α → α → Prop} {a b c : α} {p q : List α} {P : α → Prop}

theorem source_mem (h : Walk step a p b) : a ∈ p := by
  induction h with
  | start => exact List.mem_singleton_self a
  | snoc _ _ ih => exact List.mem_append_left _ ih

theorem target_mem (h : Walk step a p b) : b ∈ p := by
  cases h with
  | start => exact List.mem_singleton_self a
  | snoc _ _ => exact List.mem_append_right _ (List.mem_singleton_self _)

theorem ne_nil (h : Walk step a p b) : p ≠ [] := List.ne_nil_of_mem h.target_mem

/-- A walk ends at what it visits last. -/
theorem getLast?_eq (h : Walk step a p b) : p.getLast? = some b := by
  cases h with
  | start => rfl
  | snoc _ _ => exact List.getLast?_concat

/-- Two walks that meet make one; the place where they meet is visited once. -/
theorem append (h : Walk step a p b) (k : Walk step b q c) : Walk step a (p ++ q.tail) c := by
  -- on the second walk, which is the one that grows
  induction k with
  | start =>
    rw [List.tail_cons, List.append_nil]
    exact h
  | snoc hwalk hstep ih =>
    rw [List.tail_append_of_ne_nil hwalk.ne_nil, ← List.append_assoc]
    exact ih.snoc hstep

/-- Up to the first place of some kind that it visits, a walk is a walk. -/
theorem exists_first (h : Walk step a p b) (hvisit : ∃ x ∈ p, P x) :
    ∃ x q, P x ∧ Walk step a (q ++ [x]) x ∧ q ++ [x] <+: p ∧ ∀ y ∈ q, ¬ P y := by
  induction h with
  | start =>
    obtain ⟨x, hx, hPx⟩ := hvisit
    obtain rfl := List.mem_singleton.1 hx
    exact ⟨x, [], hPx, .start, List.prefix_rfl, fun y hy => absurd hy List.not_mem_nil⟩
  | @snoc p b c hwalk hstep ih =>
    by_cases hbefore : ∃ x ∈ p, P x
    · obtain ⟨x, q, hPx, hq, hfront, hnone⟩ := ih hbefore
      exact ⟨x, q, hPx, hq, hfront.trans (List.prefix_append p [c]), hnone⟩
    · -- nothing of the kind before the last step, so that step leads to it
      obtain ⟨x, hx, hPx⟩ := hvisit
      rcases List.mem_append.1 hx with hx | hx
      · exact absurd ⟨x, hx, hPx⟩ hbefore
      · obtain rfl := List.mem_singleton.1 hx
        exact ⟨x, p, hPx, hwalk.snoc hstep, List.prefix_rfl, fun y hy hPy => hbefore ⟨y, hy, hPy⟩⟩

/-- From the last place of some kind that it visits, a walk is a walk. -/
theorem exists_last (h : Walk step a p b) (hvisit : ∃ x ∈ p, P x) :
    ∃ x q, P x ∧ Walk step x (x :: q) b ∧ x :: q <:+ p ∧ ∀ y ∈ q, ¬ P y := by
  induction h with
  | start =>
    obtain ⟨x, hx, hPx⟩ := hvisit
    obtain rfl := List.mem_singleton.1 hx
    exact ⟨x, [], hPx, .start, List.suffix_rfl, fun y hy => absurd hy List.not_mem_nil⟩
  | @snoc p b c hwalk hstep ih =>
    -- the last step leads to such a place, or the last one lies on the walk before it
    by_cases hc : P c
    · exact ⟨c, [], hc, .start, List.suffix_append p [c], fun y hy => absurd hy List.not_mem_nil⟩
    · have hbefore : ∃ x ∈ p, P x := by
        obtain ⟨x, hx, hPx⟩ := hvisit
        rcases List.mem_append.1 hx with hx | hx
        · exact ⟨x, hx, hPx⟩
        · obtain rfl := List.mem_singleton.1 hx
          exact absurd hPx hc
      obtain ⟨x, q, hPx, hq, ⟨front, hp⟩, hnone⟩ := ih hbefore
      refine ⟨x, q ++ [c], hPx, hq.snoc hstep, ⟨front, by rw [← hp]; simp⟩, ?_⟩
      intro y hy
      rcases List.mem_append.1 hy with hy | hy
      · exact hnone y hy
      · obtain rfl := List.mem_singleton.1 hy
        exact hc

/-- From any place visited on, the rest of the walk is a walk. -/
theorem suffix_of_mem (h : Walk step a p b) {x : α} (hx : x ∈ p) :
    ∃ q, Walk step x q b ∧ ∀ y ∈ q, y ∈ p := by
  obtain ⟨y, q, rfl, hq, hsuffix, _⟩ := h.exists_last (P := (· = x)) ⟨x, hx, rfl⟩
  exact ⟨y :: q, hq, fun z hz => hsuffix.subset hz⟩

/-- Where a walk leads, one leads that visits nothing twice. -/
theorem exists_nodup (h : Walk step a p b) :
    ∃ q, Walk step a q b ∧ q.Nodup ∧ ∀ x ∈ q, x ∈ p := by
  induction h with
  | start => exact ⟨[a], .start, by simp, fun x hx => hx⟩
  | @snoc p b c _ hstep ih =>
    obtain ⟨q, hq, hnodup, hsub⟩ := ih
    by_cases hc : c ∈ q
    · -- the walk has been at `c` before, so it stops there
      obtain ⟨x, r, rfl, hr, hfront, _⟩ := hq.exists_first (P := (· = c)) ⟨c, hc, rfl⟩
      refine ⟨r ++ [x], hr, hnodup.sublist hfront.sublist, ?_⟩
      intro y hy
      exact List.mem_append_left _ (hsub y (hfront.subset hy))
    · refine ⟨q ++ [c], hq.snoc hstep, ?_, ?_⟩
      · rw [List.nodup_append]
        refine ⟨hnodup, by simp, ?_⟩
        intro x hx y hy hxy
        obtain rfl := List.mem_singleton.1 hy
        exact hc (hxy ▸ hx)
      · intro x hx
        rcases List.mem_append.1 hx with hx | hx
        · exact List.mem_append_left _ (hsub x hx)
        · exact List.mem_append_right _ hx

end Walk

end BytecodeFlow
