/-
  BytecodeFlow.Proofs.Neighbours — NEIGHBOURS in lists.

  `[a, b] <:+: l` says that somewhere in `l` the entry `b` stands directly behind `a`.  In a list
  without repeats an entry has one neighbour on either side.  In a list of parts, read one after
  another, neighbours are neighbours in a part or meet where two parts meet
  (`follows_flatten_iff`).  A search along the neighbours of a list finds the first that it is
  for (`find?_neighbours_eq_some_iff`).
-/
import Mathlib.Data.List.Chain
import Mathlib.Data.List.Nodup
import Mathlib.Data.List.Pairwise

namespace BytecodeFlow

variable {α : Type} {l : List α} {a b c : α}

/-! ## §1. One list -/

theorem mem_zip_tail_iff : (a, b) ∈ l.zip l.tail ↔ [a, b] <:+: l := by
  induction l with
  | nil => simp
  | cons x rest ih => cases rest with
    | nil =>
      have hlong : ¬ [a, b] <:+: [x] := fun h => absurd h.length_le (by simp)
      simp [hlong]
    | cons y rest =>
      rw [List.infix_cons_iff, ← ih]
      simp only [List.tail_cons, List.zip_cons_cons, List.mem_cons, Prod.mk.injEq,
        List.cons_prefix_cons, List.nil_prefix, and_true]

/-- One entry more makes one pair of neighbours more. -/
theorem zip_tail_concat (h : l.getLast? = some a) :
    (l ++ [b]).zip (l ++ [b]).tail = l.zip l.tail ++ [(a, b)] := by
  induction l with
  | nil => cases h
  | cons x rest ih => cases rest with
    | nil =>
      obtain rfl := Option.some.inj h
      rfl
    | cons y rest => exact congrArg ((x, y) :: ·) (ih h)

/-- Neighbours among images are images of neighbours. -/
theorem follows_map_iff {β : Type} {f : α → β} {x y : β} :
    [x, y] <:+: l.map f ↔ ∃ a b, [a, b] <:+: l ∧ f a = x ∧ f b = y := by
  rw [List.infix_map_iff]
  constructor
  · intro ⟨l', hl', hmap⟩
    match l', hmap with
    | [a, b], hmap =>
      simp only [List.map_cons, List.map_nil, List.cons.injEq, and_true] at hmap
      exact ⟨a, b, hl', hmap.1.symm, hmap.2.symm⟩
  · intro ⟨a, b, hab, ha, hb⟩
    exact ⟨[a, b], hab, by rw [← ha, ← hb]; rfl⟩

theorem head?_concat_of_cons {x : α} {before after rest : List α}
    (h : x :: rest = before ++ a :: after) : (before ++ [a]).head? = some x := by
  cases before with
  | nil =>
    obtain ⟨rfl, _⟩ := List.cons.inj h
    rfl
  | cons y before =>
    obtain ⟨rfl, _⟩ := List.cons.inj h
    rfl

/-- The first neighbours that satisfy `p`, by position: none in front of them do. -/
theorem find?_neighbours_eq_some_iff {p : α → α → Bool} :
    (l.zip l.tail).find? (fun e => p e.1 e.2) = some (a, b) ↔
      ∃ before after, l = before ++ a :: b :: after ∧
        (before ++ [a]).IsChain (fun x y => p x y = false) ∧ p a b = true := by
  -- on the list: its first pair of neighbours is the one, or the search goes on behind it
  induction l with
  | nil => simp
  | cons x rest ih => cases rest with
    | nil =>
      have hshort : ∀ before after, [x] ≠ before ++ a :: b :: after := by
        intro before after h
        have hlen := congrArg List.length h
        simp at hlen
        omega
      simp [hshort]
    | cons y rest =>
      rw [List.tail_cons, List.zip_cons_cons]
      cases hxy : p x y with
      | true =>
        rw [List.find?_cons_of_pos (p := fun e : α × α => p e.1 e.2) hxy]
        constructor
        · intro h
          obtain ⟨rfl, rfl⟩ := Prod.mk.inj (Option.some.inj h)
          exact ⟨[], rest, rfl, .singleton x, hxy⟩
        · intro ⟨before, after, hl, hbefore, hab⟩
          cases before with
          | nil =>
            obtain ⟨rfl, hrest⟩ := List.cons.inj hl
            obtain ⟨rfl, _⟩ := List.cons.inj hrest
            rfl
          | cons z before =>
            -- `x` and `y` are two of the neighbours in front
            obtain ⟨rfl, hrest⟩ := List.cons.inj hl
            have hfalse := (List.isChain_cons.1 hbefore).1 y (head?_concat_of_cons hrest)
            rw [hxy] at hfalse
            cases hfalse
      | false =>
        rw [List.find?_cons_of_neg (p := fun e : α × α => p e.1 e.2) (by simp [hxy])]
        refine ih.trans ?_
        constructor
        · intro ⟨before, after, hl, hbefore, hab⟩
          refine ⟨x :: before, after, by rw [hl]; rfl, List.isChain_cons.2 ⟨?_, hbefore⟩, hab⟩
          intro z hz
          obtain rfl := Option.some.inj ((head?_concat_of_cons hl).symm.trans hz)
          exact hxy
        · intro ⟨before, after, hl, hbefore, hab⟩
          cases before with
          | nil =>
            obtain ⟨rfl, hrest⟩ := List.cons.inj hl
            -- the pair found would be `x` and `y`, which fails the test
            obtain ⟨rfl, _⟩ := List.cons.inj hrest
            rw [hxy] at hab
            cases hab
          | cons z before =>
            exact ⟨before, after, (List.cons.inj hl).2, (List.isChain_cons.1 hbefore).2, hab⟩

/-! ## §2. Lists without repeats -/

/-- What has something behind it is not the last entry, unless it comes twice. -/
theorem getLast?_ne_of_follows (hl : l.Nodup) (h : [a, b] <:+: l) : l.getLast? ≠ some a := by
  intro hlast
  obtain ⟨before, after, rfl⟩ := h
  rw [List.append_assoc] at hl hlast
  -- were `a` last, it would stand in `b :: after` as well
  have hmem : a ∈ b :: after := by
    apply List.mem_of_getLast? (l := b :: after)
    rw [← hlast, List.getLast?_append_of_ne_nil _ (by simp)]
    rfl
  rw [List.nodup_append] at hl
  exact (List.nodup_cons.1 hl.2.1).1 hmem

/-- What has something in front of it is not the first entry. -/
theorem head?_ne_of_follows (hl : l.Nodup) (h : [a, b] <:+: l) : l.head? ≠ some b := by
  intro hhead
  obtain ⟨before, after, rfl⟩ := h
  have hnodup : ((before ++ [a]) ++ b :: after).Nodup := by simpa using hl
  rw [List.nodup_append] at hnodup
  have hmem : b ∈ before ++ [a] := by
    apply List.mem_of_head?
    rw [← hhead]
    cases before <;> rfl
  exact hnodup.2.2 b hmem b List.mem_cons_self rfl

/-- **One neighbour in front**: an entry stands behind one other entry only. -/
theorem eq_of_follows (hl : l.Nodup) (ha : [a, c] <:+: l) (hb : [b, c] <:+: l) : a = b := by
  induction l with
  | nil => exact absurd ha.length_le (by simp)
  | cons x rest ih =>
    have hrest := (List.nodup_cons.1 hl).2
    rw [List.infix_cons_iff] at ha hb
    -- a neighbour pair at the front makes `c` the first of the rest, where it has no other
    have hfront : ∀ y z, [y, c] <+: x :: rest → [z, c] <:+: rest → False := by
      intro y z hy hz
      rw [List.cons_prefix_cons] at hy
      obtain ⟨tail, htail⟩ := hy.2
      exact head?_ne_of_follows hrest hz (by rw [← htail]; rfl)
    rcases ha with ha | ha
    · rcases hb with hb | hb
      · rw [List.cons_prefix_cons] at ha hb
        rw [ha.1, hb.1]
      · exact absurd hb (hfront a b ha)
    · rcases hb with hb | hb
      · exact absurd ha (hfront b a hb)
      · exact ih hrest ha hb

/-- **One neighbour behind.** Read backwards, the list has its neighbours swapped. -/
theorem next_eq_of_follows (hl : l.Nodup) (hb : [a, b] <:+: l) (hc : [a, c] <:+: l) : b = c := by
  have hreverse : ∀ x, [a, x] <:+: l → [x, a] <:+: l.reverse := fun _ hx => List.reverse_infix.2 hx
  exact eq_of_follows (List.nodup_reverse.2 hl) (hreverse b hb) (hreverse c hc)

/-! ## §3. Lists of parts -/

variable {ps : List (List α)}

/-- Where two lists meet, one pair of neighbours comes to theirs. -/
theorem follows_append_iff {m : List α} :
    [a, b] <:+: l ++ m ↔
      [a, b] <:+: l ∨ [a, b] <:+: m ∨ l.getLast? = some a ∧ m.head? = some b := by
  rw [List.infix_append_iff_ne_nil]
  constructor
  · intro hab
    rcases hab with h | h | ⟨l₁, l₂, hl₁, hl₂, heq, hsuffix, hfront⟩
    · exact .inl h
    · exact .inr (.inl h)
    · -- neither part is empty, so each holds one of the two
      match l₁, l₂ with
      | [], _ => exact absurd rfl hl₁
      | _, [] => exact absurd rfl hl₂
      | [x], [y] =>
        simp only [List.cons_append, List.nil_append, List.cons.injEq, and_true] at heq
        obtain ⟨rfl, rfl⟩ := heq
        exact .inr (.inr ⟨List.singleton_suffix_iff_getLast?_eq_some.1 hsuffix,
          List.singleton_prefix_iff_head?_eq_some.1 hfront⟩)
      | x :: x' :: l₁, y :: l₂ =>
        have hlen := congrArg List.length heq
        simp at hlen
      | [x], y :: y' :: l₂ =>
        have hlen := congrArg List.length heq
        simp at hlen
  · intro hab
    rcases hab with h | h | ⟨hlast, hhead⟩
    · exact .inl h
    · exact .inr (.inl h)
    · exact .inr (.inr ⟨[a], [b], by simp, by simp, rfl,
        List.singleton_suffix_iff_getLast?_eq_some.2 hlast,
        List.singleton_prefix_iff_head?_eq_some.2 hhead⟩)

/-- No part is empty, so the first part brings the first entry. -/
theorem head?_flatten_iff (hne : ∀ p ∈ ps, p ≠ []) :
    ps.flatten.head? = some b ↔ ∃ q, ps.head? = some q ∧ q.head? = some b := by
  cases ps with
  | nil => simp
  | cons p ps => cases p with
    | nil => exact absurd rfl (hne [] List.mem_cons_self)
    | cons x rest => simp

theorem getLast?_flatten_iff (hne : ∀ p ∈ ps, p ≠ []) :
    ps.flatten.getLast? = some b ↔ ∃ q, ps.getLast? = some q ∧ q.getLast? = some b := by
  rcases List.eq_nil_or_concat ps with rfl | ⟨rest, p, rfl⟩
  · simp
  · have hp : p ≠ [] := hne p (by simp)
    simp [List.getLast?_append_of_ne_nil _ hp]

/-- Neighbours in a list of parts are neighbours in a part, or the end of one part and the front
    of the part behind it. -/
theorem follows_flatten_iff (hne : ∀ p ∈ ps, p ≠ []) :
    [a, b] <:+: ps.flatten ↔ (∃ p ∈ ps, [a, b] <:+: p) ∨
      ∃ p q, [p, q] <:+: ps ∧ p.getLast? = some a ∧ q.head? = some b := by
  induction ps with
  | nil => simp
  | cons r ps ih =>
    have hrest : ∀ p ∈ ps, p ≠ [] := fun p hp => hne p (List.mem_cons_of_mem r hp)
    rw [List.flatten_cons, follows_append_iff, ih hrest, head?_flatten_iff hrest]
    -- the first two parts are neighbours, or two of the rest are
    have hfront : ∀ p q, [p, q] <:+: r :: ps ↔ (p = r ∧ ps.head? = some q) ∨ [p, q] <:+: ps := by
      intro p q
      rw [List.infix_cons_iff, List.cons_prefix_cons, List.singleton_prefix_iff_head?_eq_some]
    simp only [hfront, List.mem_cons, exists_eq_or_imp]
    constructor
    · intro hab
      rcases hab with h | (h | ⟨p, q, hpq, h⟩) | ⟨hlast, q, hq, hhead⟩
      · exact .inl (.inl h)
      · exact .inl (.inr h)
      · exact .inr ⟨p, q, .inr hpq, h⟩
      · exact .inr ⟨r, q, .inl ⟨rfl, hq⟩, hlast, hhead⟩
    · intro hab
      rcases hab with (h | h) | ⟨p, q, ⟨rfl, hq⟩ | hpq, hlast, hhead⟩
      · exact .inl h
      · exact .inr (.inl (.inl h))
      · exact .inr (.inr ⟨hlast, q, hq, hhead⟩)
      · exact .inr (.inl (.inr ⟨p, q, hpq, hlast, hhead⟩))

/-- In a list without repeats no entry is in two parts. -/
theorem eq_of_mem_parts (h : ps.flatten.Nodup) {p q : List α} (hp : p ∈ ps) (hq : q ∈ ps)
    (ha : a ∈ p) (hb : a ∈ q) : p = q := by
  have : Std.Symm (@List.Disjoint α) := ⟨fun _ _ hdisjoint _ hx hy => hdisjoint hy hx⟩
  by_contra hne
  exact (List.nodup_flatten.1 h).2.forall hp hq hne ha hb

end BytecodeFlow
