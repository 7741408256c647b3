/-
  BytecodeFlow.Proofs.Flow.Cut — WALKS THROUGH BLOCKS.

  A relation between places is cut into blocks if every step either goes on inside a block or
  leads from the last place of a block to the first place of a block, along an edge.  A walk from
  place to place then enters one block after another, and these blocks are a walk along edges.

  `Cut.bijOn` — between fixed ends this is one-to-one: every walk through blocks comes from
  exactly one walk through places.  The three parts are
    • `Cut.path` — the blocks entered are a walk,
    • `Cut.eq_of_entered` — walks that enter the same blocks are the same,
    • `Cut.exists_walk` — every walk through blocks is entered by some walk.
-/
import Mathlib.Data.List.Induction
import Mathlib.Data.Set.Function
import BytecodeFlow.Proofs.Neighbours
import BytecodeFlow.Proofs.Walk

namespace BytecodeFlow

/-! ## §1. Cuts -/

/-- `body` cuts the places of `step` into blocks that hang together by `edge`; `enters?` names the
    block that a place is the first of. -/
structure Cut {α β : Type} (step : α → α → Prop) (edge : β → β → Prop) (body : β → List α)
    (enters? : α → Option β) : Prop where
  /-- A step goes on inside a block, or from the end of a block to the front of the next. -/
  step_iff : ∀ i j, step i j ↔ (∃ b, [i, j] <:+: body b) ∨
    ∃ a b, edge a b ∧ (body a).getLast? = some i ∧ (body b).head? = some j
  enters?_eq_some_iff : ∀ {a b i}, i ∈ body a → (enters? i = some b ↔ (body b).head? = some i)
  nodup : ∀ b, (body b).Nodup
  disjoint : ∀ {a b i}, i ∈ body a → i ∈ body b → a = b
  ne_nil_of_edge : ∀ {a b}, edge a b → body a ≠ [] ∧ body b ≠ []

namespace Cut

variable {α β : Type} {step : α → α → Prop} {edge : β → β → Prop} {body : β → List α}
  {enters? : α → Option β} {e b : β} {i₀ i j : α} {p : List α}

theorem enters?_of_head (h : Cut step edge body enters?) (hi : (body b).head? = some i) :
    enters? i = some b :=
  (h.enters?_eq_some_iff (List.mem_of_head? hi)).2 hi

/-- Inside a block nothing is entered. -/
theorem enters?_of_follows (h : Cut step edge body enters?) (hij : [i, j] <:+: body b) :
    enters? j = none := by
  cases hentry : enters? j with
  | none => rfl
  | some a =>
    have hb : j ∈ body b := hij.subset (by simp)
    have ha := (h.enters?_eq_some_iff hb).1 hentry
    rw [h.disjoint (List.mem_of_head? ha) hb] at ha
    exact absurd ha (head?_ne_of_follows (h.nodup b) hij)

/-- A step enters the block that it leads to, or none and then stays in its own. -/
theorem step_cases (h : Cut step edge body enters?) (hstep : step i j) (hj : j ∈ body b) :
    (enters? j = none ∧ [i, j] <:+: body b) ∨
      (enters? j = some b ∧ ∃ a, edge a b ∧ (body a).getLast? = some i) := by
  rcases (h.step_iff i j).1 hstep with ⟨c, hij⟩ | ⟨a, c, hedge, hlast, hhead⟩
  · have hc : j ∈ body c := hij.subset (by simp)
    rw [h.disjoint hc hj] at hij
    exact .inl ⟨h.enters?_of_follows hij, hij⟩
  · rw [h.disjoint (List.mem_of_head? hhead) hj] at hedge hhead
    exact .inr ⟨h.enters?_of_head hhead, a, hedge, hlast⟩

theorem exists_mem_body (h : Cut step edge body enters?) (hstep : step i j) : ∃ b, j ∈ body b := by
  rcases (h.step_iff i j).1 hstep with ⟨b, hij⟩ | ⟨a, b, _, _, hhead⟩
  · exact ⟨b, hij.subset (by simp)⟩
  · exact ⟨b, List.mem_of_head? hhead⟩

/-! ## §2. The three parts -/

/-- **The blocks that a walk enters are a walk.** -/
theorem path (h : Cut step edge body enters?) (he : (body e).head? = some i₀)
    (hwalk : Walk step i₀ p i) (hi : i ∈ body b) : Walk edge e (p.filterMap enters?) b := by
  -- along the walk, for the block of its last place
  induction hwalk generalizing b with
  | start =>
    rw [h.disjoint hi (List.mem_of_head? he), List.filterMap_cons_some (h.enters?_of_head he)]
    exact .start
  | snoc _ hstep ih =>
    rw [List.filterMap_append]
    rcases h.step_cases hstep hi with ⟨hnone, hij⟩ | ⟨hsome, a, hedge, hlast⟩
    · -- inside the block: nothing is entered
      rw [List.filterMap_cons_none hnone, List.filterMap_nil, List.append_nil]
      exact ih (hij.subset (by simp))
    · -- over an edge: one more block
      rw [List.filterMap_cons_some hsome]
      exact (ih (List.mem_of_getLast? hlast)).snoc hedge

/-- Where a walk starts, a block is entered. -/
theorem mem_entered (h : Cut step edge body enters?) (he : (body e).head? = some i₀)
    (hwalk : Walk step i₀ p i) : e ∈ p.filterMap enters? :=
  List.mem_filterMap.2 ⟨i₀, hwalk.source_mem, h.enters?_of_head he⟩

/-- A walk that comes back to where it starts enters more blocks than one that stays there. -/
theorem entered_ne_of_return (h : Cut step edge body enters?) (he : (body e).head? = some i₀)
    (hwalk : Walk step i₀ p i) : (p ++ [i₀]).filterMap enters? ≠ [i₀].filterMap enters? := by
  intro hsame
  rw [List.filterMap_append] at hsame
  have hnil := List.append_left_eq_self.1 hsame
  have hmem := h.mem_entered he hwalk
  rw [hnil] at hmem
  cases hmem

/-- **Walks that enter the same blocks are the same.** -/
theorem eq_of_entered (h : Cut step edge body enters?) (he : (body e).head? = some i₀)
    {p' : List α} (hwalk : Walk step i₀ p i) (hwalk' : Walk step i₀ p' i)
    (hsame : p.filterMap enters? = p'.filterMap enters?) : p = p' := by
  -- backwards from the common end, which fixes the last step of either walk
  induction hwalk generalizing p' with
  | start => cases hwalk' with
    | start => rfl
    | snoc hback _ => exact absurd hsame.symm (h.entered_ne_of_return he hback)
  | @snoc q j k hq hstep ih => cases hwalk' with
    | start => exact absurd hsame (h.entered_ne_of_return he hq)
    | @snoc q' j' _ hq' hstep' =>
      -- the last step enters a block or not, and both walks agree on that
      rw [List.filterMap_append, List.filterMap_append] at hsame
      have hentered := List.append_cancel_right hsame
      obtain ⟨b, hk⟩ := h.exists_mem_body hstep
      have hj : j = j' := by
        rcases h.step_cases hstep hk with ⟨hnone, hjk⟩ | ⟨hsome, a, _, hlast⟩
        · rcases h.step_cases hstep' hk with ⟨_, hjk'⟩ | ⟨hsome', _⟩
          · exact eq_of_follows (h.nodup b) hjk hjk'
          · rw [hnone] at hsome'
            cases hsome'
        · rcases h.step_cases hstep' hk with ⟨hnone', _⟩ | ⟨_, a', _, hlast'⟩
          · rw [hsome] at hnone'
            cases hnone'
          · -- both come from the end of the block entered last before
            have hpath := h.path he hq (List.mem_of_getLast? hlast)
            have hpath' := h.path he hq' (List.mem_of_getLast? hlast')
            rw [hentered] at hpath
            have ha : a = a' := Option.some.inj (hpath.getLast?_eq.symm.trans hpath'.getLast?_eq)
            subst ha
            exact Option.some.inj (hlast.symm.trans hlast')
      subst hj
      rw [ih hq' hentered]

/-- From the first place of a block a walk goes on to any place in it, entering nothing. -/
theorem exists_walk_inside (h : Cut step edge body enters?) {j₀ : α}
    (hhead : (body b).head? = some j₀) (hwalk : Walk step i₀ p j₀) (hi : i ∈ body b) :
    ∃ p', Walk step i₀ p' i ∧ p'.filterMap enters? = p.filterMap enters? := by
  obtain ⟨before, after, hbody⟩ := List.append_of_mem hi
  -- the induction is on the places of the block in front of `i`
  induction before using List.reverseRecOn generalizing i after with
  | nil =>
    rw [hbody] at hhead
    obtain rfl := Option.some.inj hhead
    exact ⟨p, hwalk, rfl⟩
  | append_singleton before k ih =>
    have hki : [k, i] <:+: body b := ⟨before, after, by rw [hbody]; simp⟩
    have hk : k ∈ body b := hki.subset (by simp)
    obtain ⟨p', hp', hsame⟩ := ih hk (i :: after) (by rw [hbody]; simp)
    refine ⟨p' ++ [i], hp'.snoc ((h.step_iff k i).2 (.inl ⟨b, hki⟩)), ?_⟩
    rw [List.filterMap_append, List.filterMap_cons_none (h.enters?_of_follows hki),
      List.filterMap_nil, List.append_nil, hsame]

/-- **Every walk through blocks is entered by some walk.** -/
theorem exists_walk (h : Cut step edge body enters?) (he : (body e).head? = some i₀)
    {q : List β} (hpath : Walk edge e q b) (hi : i ∈ body b) :
    ∃ p, Walk step i₀ p i ∧ p.filterMap enters? = q := by
  induction hpath generalizing i with
  | start =>
    obtain ⟨p, hp, hsame⟩ := h.exists_walk_inside he .start hi
    refine ⟨p, hp, ?_⟩
    rw [hsame, List.filterMap_cons_some (h.enters?_of_head he), List.filterMap_nil]
  | @snoc q a b _ hedge ih =>
    obtain ⟨ha, hb⟩ := h.ne_nil_of_edge hedge
    have hlast := List.getLast?_eq_some_getLast ha
    have hhead := List.head?_eq_some_head hb
    -- to the end of the block before, over the edge, and on to `i`
    obtain ⟨p, hp, hq⟩ := ih (List.getLast_mem ha)
    have hstep := (h.step_iff _ _).2 (.inr ⟨a, b, hedge, hlast, hhead⟩)
    obtain ⟨p', hp', hsame⟩ := h.exists_walk_inside hhead (hp.snoc hstep) hi
    refine ⟨p', hp', ?_⟩
    rw [hsame, List.filterMap_append, hq, List.filterMap_cons_some (h.enters?_of_head hhead),
      List.filterMap_nil]

/-- **Walks through places and walks through blocks are the same.** -/
theorem bijOn (h : Cut step edge body enters?) (he : (body e).head? = some i₀)
    (hi : i ∈ body b) :
    Set.BijOn (List.filterMap enters?) {p | Walk step i₀ p i} {q | Walk edge e q b} := by
  refine ⟨?_, ?_, ?_⟩
  · intro p hp
    exact h.path he hp hi
  · intro p hp p' hp' hsame
    exact h.eq_of_entered he hp hp' hsame
  · intro q hq
    exact h.exists_walk he hq hi

end Cut

end BytecodeFlow
