/-
  BytecodeFlow.Proofs.Scan.Leader — LEADERS, and a body cut in front of them.

  Where blocks begin can be said without any scan: at the first instruction, at labels, at loop
  entries, and behind whatever transfers control away.  Such an instruction is a leader
  (`Instruction.IsLeader`), and `Code.cut` cuts a body in front of its leaders and nowhere else
  (`Code.cutAtLeaders_cut`).

  The moves of a body that the scan accepts fall into the same parts: forgetting what the
  instructions do turns their pieces into the parts of the cut (`Code.map_pieces`).
-/
import BytecodeFlow.Proofs.Scan.Piece

namespace BytecodeFlow

/-! ## §1. Where parts of a list begin -/

section SplitBy

variable {α β : Type} {r : α → α → Bool} {l before after : List α} {x : α}

/-- A part begins with `x` exactly if `x` does not join what is in front of it. -/
theorem splitBy_starts_iff (hl : l = before ++ x :: after) :
    (∃ ps p qs, l.splitBy r = ps ++ (x :: p) :: qs ∧ ps.flatten = before) ↔
      ∀ y ∈ before.getLast?, r y x = false := by
  constructor
  · intro ⟨ps, p, qs, hsplit, hbefore⟩ y hy
    subst hbefore
    rcases List.eq_nil_or_concat' ps with rfl | ⟨ps, q, rfl⟩
    · cases hy
    · -- the part in front of `x` ends with `y`, and neighbouring parts do not join
      have hq : q ∈ l.splitBy r := by
        rw [hsplit]
        simp
      have hne : q ≠ [] := List.ne_nil_of_mem_splitBy hq
      have hlast : q.getLast? = some y := by
        rw [List.flatten_concat, List.getLast?_append_of_ne_nil _ hne] at hy
        exact hy
      have hcut := List.isChain_getLast_head_splitBy r l
      rw [hsplit, List.append_assoc, List.isChain_append] at hcut
      obtain ⟨_, hcut, _⟩ := hcut
      rw [List.singleton_append, List.isChain_cons_cons] at hcut
      obtain ⟨_, _, hfalse⟩ := hcut.1
      rw [List.getLast?_eq_some_getLast hne] at hlast
      rwa [Option.some.inj hlast] at hfalse
  · intro hcut
    -- cut in front of `x`; what is behind it starts with a part that starts with `x`
    have hsplit : l.splitBy r = before.splitBy r ++ (x :: after).splitBy r := by
      rw [hl]
      exact List.splitBy_append_cons after hcut
    have hne : (x :: after).splitBy r ≠ [] := List.splitBy_ne_nil.2 (by simp)
    obtain ⟨q, qs, hqs⟩ := List.exists_cons_of_ne_nil hne
    have hflat := List.flatten_splitBy r (x :: after)
    rw [hqs, List.flatten_cons] at hflat
    cases q with
    | nil => exact absurd rfl (List.ne_nil_of_mem_splitBy (hqs ▸ List.mem_cons_self))
    | cons y p =>
      obtain rfl := (List.cons.inj hflat).1
      exact ⟨before.splitBy r, p, qs, by rw [hsplit, hqs], List.flatten_splitBy r before⟩

/-- A map that keeps what joins takes the parts of a list to the parts of its image. -/
theorem splitBy_map {f : α → β} {r' : β → β → Bool}
    (h : ∀ a ∈ l, ∀ b ∈ l, r' (f a) (f b) = r a b) :
    (l.map f).splitBy r' = (l.splitBy r).map (List.map f) := by
  obtain ⟨hflat, hnil, hjoin, hcut⟩ := List.splitBy_eq_iff.1 (rfl : l.splitBy r = l.splitBy r)
  have hmem : ∀ p ∈ l.splitBy r, ∀ a ∈ p, a ∈ l := by
    intro p hp a ha
    rw [hflat]
    exact List.mem_flatten.2 ⟨p, hp, ha⟩
  rw [List.splitBy_eq_iff]
  refine ⟨?_, ?_, ?_, ?_⟩
  · rw [← List.map_flatten, ← hflat]
  · intro hmap
    obtain ⟨p, hp, hpnil⟩ := List.mem_map.1 hmap
    rw [List.map_eq_nil_iff] at hpnil
    exact hnil (hpnil ▸ hp)
  · intro q hq
    obtain ⟨p, hp, rfl⟩ := List.mem_map.1 hq
    rw [List.isChain_map]
    refine (hjoin p hp).imp_of_mem_imp ?_
    intro a b ha hb hab
    rw [h a (hmem p hp a ha) b (hmem p hp b hb)]
    exact hab
  · rw [List.isChain_map]
    refine hcut.imp_of_mem_imp ?_
    intro p q hp hq ⟨hpne, hqne, hfalse⟩
    refine ⟨by simpa using hpne, by simpa using hqne, ?_⟩
    rw [List.getLast_map, List.head_map, h _ (hmem p hp _ (List.getLast_mem hpne)) _
      (hmem q hq _ (List.head_mem hqne))]
    exact hfalse

end SplitBy

/-! ## §2. Leaders -/

/-- `i`, with `before` in front of it, begins a block. -/
def Instruction.IsLeader (labels : OffsetSet) (before : Code) (i : Instruction) : Prop :=
  before = [] ∨ i.offset ∈ labels ∨ i.flow = .loopEntry ∨
    ∃ j, before.getLast? = some j ∧ (j.flow = .iteration ∨ j.flow = .conditionalBranch ∨
      j.flow = .unconditionalBranch ∨ j.flow = .functionReturn)

/-- `parts` is `code` cut in front of each leader and nowhere else. -/
structure Code.CutAtLeaders (labels : OffsetSet) (code : Code) (parts : List Code) : Prop where
  flatten_eq : parts.flatten = code
  ne_nil : ∀ p ∈ parts, p ≠ []
  /-- The leaders are the instructions that parts begin with. -/
  leader_iff : ∀ before i after, code = before ++ i :: after →
    (i.IsLeader labels before ↔ ∃ ps p qs, parts = ps ++ (i :: p) :: qs ∧ ps.flatten = before)

/-- Whether `j` stays in the block of the instruction `i` before it. -/
def Instruction.joins (labels : OffsetSet) (i j : Instruction) : Bool :=
  !i.flow.endsBlock && !j.beginsBlock labels

/-- The parts of a body between its leaders. -/
def Code.cut (labels : OffsetSet) (code : Code) : List Code :=
  code.splitBy (Instruction.joins labels)

theorem Flow.endsBlock_iff {f : Flow} : f.endsBlock = true ↔
    f = .iteration ∨ f = .conditionalBranch ∨ f = .unconditionalBranch ∨ f = .functionReturn := by
  cases f <;> decide

theorem Flow.opensBlock_iff {f : Flow} : f.opensBlock = true ↔ f = .loopEntry := by
  cases f <;> decide

/-- An instruction is a leader exactly if it does not join the one in front of it. -/
theorem Instruction.isLeader_iff {labels : OffsetSet} {before : Code} {i : Instruction} :
    i.IsLeader labels before ↔ ∀ j ∈ before.getLast?, j.joins labels i = false := by
  unfold IsLeader joins beginsBlock
  cases hlast : before.getLast? with
  | none => simp [List.getLast?_eq_none_iff.1 hlast]
  | some j =>
    have hne : before ≠ [] := by
      intro hnil
      rw [hnil] at hlast
      cases hlast
    simp only [hne, false_or, Option.mem_some_iff, forall_eq', Option.some.injEq,
      exists_eq_left', ← Flow.endsBlock_iff, ← Flow.opensBlock_iff]
    cases j.flow.endsBlock <;> cases i.flow.opensBlock <;> simp

namespace Code

variable {labels : OffsetSet} {code : Code}

/-- **The cut is in front of each leader and nowhere else.** -/
theorem cutAtLeaders_cut : code.CutAtLeaders labels (code.cut labels) := by
  refine ⟨List.flatten_splitBy _ code, fun p hp => List.ne_nil_of_mem_splitBy hp, ?_⟩
  intro before i after hcode
  rw [Instruction.isLeader_iff]
  exact (splitBy_starts_iff hcode).symm

end Code

/-! ## §3. The pieces of the moves -/

/-- What an instruction does ends a block exactly if its class of flow does. -/
theorem Instruction.Does.flow_endsBlock {policy : Policy} {scopes : Scopes} {i : Instruction}
    {t : Transfer} (h : i.Does policy scopes t) : i.flow.endsBlock = t.endsBlock := by
  cases h with
  | goOn hflow | enterLoop hflow | leaveLoop hflow | iterate hflow | branch hflow | jump hflow
  | leaveFunction hflow => simp [Transfer.endsBlock, Flow.endsBlock, hflow]

/-- **The pieces of the moves are the parts between leaders.** -/
theorem Code.map_pieces {policy : Policy} {labels : OffsetSet} {code : Code} {ms : List Move}
    (hmoves : code.moves policy [] = .ok ms) :
    (pieces labels ms).map (List.map (·.instruction)) = code.cut labels := by
  unfold cut pieces
  rw [← map_instruction_moves hmoves]
  -- joining asks what a move does to control, and its class of flow tells as much
  refine (splitBy_map ?_).symm
  intro m hm n _
  obtain ⟨before, after, rfl⟩ := List.append_of_mem hm
  unfold Instruction.joins Move.joins
  rw [(does_of_moves hmoves).1.flow_endsBlock]

end BytecodeFlow
