/-
  BytecodeFlow.Proofs.Scan.Scope — LOOP SCOPES, read off the text of a body.

  The scan keeps the exits of the open loops on a stack.  Where a loop is open can also be read
  off the instructions: a loop entry opens a scope, and the loop exit that matches it like a
  bracket closes it.  `Code.InLoop` says which entry is the innermost one left open.

  The two agree wherever the scan gets to: `Code.scopeExit_iff` — the top of the stack is the
  exit of the innermost open loop.  With it the targets that a move notes are stated without the
  stack (`Move.mem_targets_iff`).
-/
import Mathlib.Data.List.Induction
import BytecodeFlow.Proofs.Scan.Move

namespace BytecodeFlow

/-! ## §1. Matching loop entries and exits -/

namespace Code

/-- Bodies in which loop entries and loop exits match like brackets. -/
inductive Matched : Code → Prop
  | nil : Matched []
  | plain {c : Code} {i : Instruction} (h : Matched c) (hentry : i.flow ≠ .loopEntry)
      (hexit : i.flow ≠ .loopExit) : Matched (c ++ [i])
  | loop {c d : Code} {e x : Instruction} (h : Matched c) (hentry : e.flow = .loopEntry)
      (inside : Matched d) (hexit : x.flow = .loopExit) : Matched (c ++ e :: d ++ [x])

/-- At the end of `before` the loop that `e` enters is open, and none inside it. -/
def InLoop (before : Code) (e : Instruction) : Prop :=
  ∃ outside inside, before = outside ++ e :: inside ∧ e.flow = .loopEntry ∧ Matched inside

/-- The innermost loop that is open at the end of `before` ends at `x`. -/
def ScopeExit (before : Code) (x : Offset) : Prop :=
  ∃ e extent, before.InLoop e ∧ e.arg = some extent ∧ x = e.next + extent

/-- All loops that are open at the end of a body, by their exits and from the innermost out. -/
inductive Nested : Code → Scopes → Prop
  | none {c : Code} (h : Matched c) : Nested c []
  | scope {outside inside : Code} {e : Instruction} {extent : Nat} {scopes : Scopes}
      (h : Nested outside scopes) (hentry : e.flow = .loopEntry) (harg : e.arg = some extent)
      (hinside : Matched inside) :
      Nested (outside ++ e :: inside) ((e.next + extent) :: scopes)

/-- What keeps matched bodies matched opens and closes no loop. -/
theorem Nested.extend {c m : Code} {scopes : Scopes} (h : Nested c scopes)
    (hm : ∀ d, Matched d → Matched (d ++ m)) : Nested (c ++ m) scopes := by
  cases h with
  | none hc => exact .none (hm _ hc)
  | @scope outside inside e extent scopes houter hentry harg hinside =>
    rw [List.append_assoc, List.cons_append]
    exact .scope houter hentry harg (hm _ hinside)

/-- Neither does an instruction that is no loop entry and no loop exit. -/
theorem Nested.plain {c : Code} {i : Instruction} {scopes : Scopes} (h : Nested c scopes)
    (hentry : i.flow ≠ .loopEntry) (hexit : i.flow ≠ .loopExit) : Nested (c ++ [i]) scopes :=
  h.extend fun _ hd => hd.plain hentry hexit

/-- A loop exit closes the innermost loop. -/
theorem Nested.close {c : Code} {i : Instruction} {exit : Offset} {scopes : Scopes}
    (h : Nested c (exit :: scopes)) (hexit : i.flow = .loopExit) : Nested (c ++ [i]) scopes := by
  cases h with
  | @scope outside inside e extent scopes houter hentry harg hinside =>
    -- the loop is closed, so all of it now lies inside the loop around it
    rw [List.append_assoc]
    apply houter.extend
    intro d hd
    rw [← List.append_assoc]
    exact hd.loop hentry hinside hexit

/-- The first exit is that of the innermost loop. -/
theorem Nested.scopeExit {c : Code} {exit : Offset} {scopes : Scopes}
    (h : Nested c (exit :: scopes)) : c.ScopeExit exit := by
  cases h with
  | @scope outside inside e extent scopes houter hentry harg hinside =>
    exact ⟨e, extent, ⟨outside, inside, rfl, hentry, hinside⟩, harg, rfl⟩

end Code

/-! ## §2. The stack of scopes -/

namespace Scopes

theorem after_append {scopes : Scopes} {ms₁ ms₂ : List Move} :
    scopes.after (ms₁ ++ ms₂) = (scopes.after ms₁).after ms₂ :=
  List.foldl_append

theorem after_concat {scopes : Scopes} {ms : List Move} {m : Move} :
    scopes.after (ms ++ [m]) = m.transfer.scopes (scopes.after ms) := by
  rw [after_append]
  rfl

end Scopes

namespace Instruction.Does

variable {policy : Policy} {scopes : Scopes} {i : Instruction} {t : Transfer}

theorem scopes_of_plain (h : i.Does policy scopes t) (hentry : i.flow ≠ .loopEntry)
    (hexit : i.flow ≠ .loopExit) : t.scopes scopes = scopes := by
  cases h with
  | enterLoop hflow => exact absurd hflow hentry
  | leaveLoop hflow => exact absurd hflow hexit
  | goOn | iterate | branch | jump | leaveFunction => rfl

/-- A loop entry pushes the exit that its argument names. -/
theorem scopes_of_entry (h : i.Does policy scopes t) (hentry : i.flow = .loopEntry) :
    ∃ extent, i.arg = some extent ∧ i.next + extent ≤ Offset.limit ∧
      t.scopes scopes = (i.next + extent) :: scopes := by
  cases h with
  | enterLoop _ harg _ hle => exact ⟨_, harg, hle, rfl⟩
  | goOn hflow | leaveLoop hflow | iterate hflow | branch hflow | jump hflow
  | leaveFunction hflow =>
    rw [hentry] at hflow
    cases hflow

/-- A loop exit takes one away, so there has to be one. -/
theorem scopes_of_exit (h : i.Does policy scopes t) (hexit : i.flow = .loopExit) :
    ∃ exit, scopes = exit :: t.scopes scopes := by
  cases h with
  | leaveLoop _ hscopes =>
    subst hscopes
    exact ⟨_, rfl⟩
  | goOn hflow | enterLoop hflow | iterate hflow | branch hflow | jump hflow
  | leaveFunction hflow =>
    rw [hexit] at hflow
    cases hflow

end Instruction.Does

namespace Code

variable {policy : Policy} {scopes : Scopes} {code : Code} {ms : List Move} {i : Instruction}

/-- The last instruction moves where the scopes of the body before it are open. -/
theorem moves_concat_eq_ok_iff :
    moves policy scopes (code ++ [i]) = .ok ms ↔
      ∃ ms' t, moves policy scopes code = .ok ms' ∧ i.Does policy (scopes.after ms') t ∧
        ms = ms' ++ [⟨i, t⟩] := by
  rw [moves_append_eq_ok_iff]
  constructor
  · intro ⟨ms₁, ms₂, h₁, h₂, hms⟩
    obtain ⟨t, rest, ht, hrest, rfl⟩ := moves_cons_eq_ok_iff.1 h₂
    obtain rfl := moves_nil_eq_ok_iff.1 hrest
    exact ⟨ms₁, t, h₁, ht, hms⟩
  · intro ⟨ms', t, h, ht, hms⟩
    exact ⟨ms', _, h, moves_cons_eq_ok_iff.2 ⟨t, [], ht, moves_nil_eq_ok_iff.2 rfl, rfl⟩, hms⟩

/-- A matched body leaves the stack as it finds it. -/
theorem Matched.after_eq (h : Matched code) (hms : moves policy scopes code = .ok ms) :
    scopes.after ms = scopes := by
  induction h generalizing scopes ms with
  | nil => rw [moves_nil_eq_ok_iff.1 hms]; rfl
  | plain _ hentry hexit ih =>
    obtain ⟨ms', t, hms', ht, rfl⟩ := moves_concat_eq_ok_iff.1 hms
    rw [Scopes.after_concat, ht.scopes_of_plain hentry hexit, ih hms']
  | @loop c d e x _ hentry _ hexit ih ihInside =>
    obtain ⟨ms', tx, hms', htx, rfl⟩ := moves_concat_eq_ok_iff.1 hms
    obtain ⟨ms₁, ms₂, h₁, h₂, rfl⟩ := moves_append_eq_ok_iff.1 hms'
    obtain ⟨te, rest, hte, hrest, rfl⟩ := moves_cons_eq_ok_iff.1 h₂
    rw [ih h₁] at hte hrest
    obtain ⟨extent, -, -, hpush⟩ := hte.scopes_of_entry hentry
    -- the entry pushes one exit, the inside leaves it on top, and the loop exit takes it away
    have hstack : scopes.after (ms₁ ++ ⟨e, te⟩ :: rest) = (e.next + extent) :: scopes := by
      rw [Scopes.after_append, ih h₁, ← hpush]
      exact ihInside hrest
    rw [hstack] at htx
    obtain ⟨exit, hpop⟩ := htx.scopes_of_exit hexit
    rw [Scopes.after_concat, hstack]
    exact (List.cons.inj hpop).2.symm

/-- **The stack holds the exits of the open loops.** -/
theorem nested_after (h : moves policy [] code = .ok ms) : Nested code (Scopes.after [] ms) := by
  induction code using List.reverseRecOn generalizing ms with
  | nil =>
    obtain rfl := moves_nil_eq_ok_iff.1 h
    exact .none .nil
  | append_singleton code i ih =>
    obtain ⟨ms', t, hms', ht, rfl⟩ := moves_concat_eq_ok_iff.1 h
    rw [Scopes.after_concat]
    -- an entry pushes, an exit pops, and nothing else touches the stack
    by_cases hentry : i.flow = .loopEntry
    · obtain ⟨extent, harg, -, hpush⟩ := ht.scopes_of_entry hentry
      rw [hpush]
      exact .scope (ih hms') hentry harg .nil
    · by_cases hexit : i.flow = .loopExit
      · obtain ⟨exit, hpop⟩ := ht.scopes_of_exit hexit
        have hopen := ih hms'
        rw [hpop] at hopen
        exact hopen.close hexit
      · rw [ht.scopes_of_plain hentry hexit]
        exact (ih hms').plain hentry hexit

/-- Inside a loop the entry has an extent, and the top of the stack is the exit that it names. -/
theorem exists_extent_of_inLoop {e : Instruction} (h : moves policy [] code = .ok ms)
    (hloop : code.InLoop e) :
    ∃ extent, e.arg = some extent ∧ e.next + extent ≤ Offset.limit ∧
      (Scopes.after [] ms).head? = some (e.next + extent) := by
  obtain ⟨outside, inside, rfl, hentry, hinside⟩ := hloop
  obtain ⟨ms₁, ms₂, h₁, h₂, rfl⟩ := moves_append_eq_ok_iff.1 h
  obtain ⟨t, rest, ht, hrest, rfl⟩ := moves_cons_eq_ok_iff.1 h₂
  obtain ⟨extent, harg, hle, hpush⟩ := ht.scopes_of_entry hentry
  refine ⟨extent, harg, hle, ?_⟩
  -- what the entry pushes is still on top when the matched inside is done
  rw [Scopes.after_append]
  show ((t.scopes _ : Scopes).after rest).head? = _
  rw [hinside.after_eq hrest, hpush]
  rfl

/-- The top of the stack is the exit of the innermost open loop. -/
theorem scopeExit_iff {x : Offset} (h : moves policy [] code = .ok ms) :
    code.ScopeExit x ↔ (Scopes.after [] ms).head? = some x := by
  constructor
  · intro ⟨e, extent, hloop, harg, hx⟩
    obtain ⟨extent', harg', _, hhead⟩ := exists_extent_of_inLoop h hloop
    obtain rfl : extent = extent' := Option.some.inj (harg.symm.trans harg')
    rw [hx]
    exact hhead
  · intro hx
    -- the stack is nested with the loops, so whatever is on top names an open one
    have hnested := nested_after h
    cases hscopes : Scopes.after [] ms with
    | nil =>
      rw [hscopes] at hx
      cases hx
    | cons exit outer =>
      rw [hscopes] at hx hnested
      obtain rfl := Option.some.inj hx
      exact hnested.scopeExit

/-- The exit of an open loop is within the word, since its entry was checked for that. -/
theorem le_limit_of_scopeExit {x : Offset} (h : moves policy [] code = .ok ms)
    (hx : code.ScopeExit x) : x ≤ Offset.limit := by
  obtain ⟨e, extent, hloop, harg, rfl⟩ := hx
  obtain ⟨extent', harg', hle, _⟩ := exists_extent_of_inLoop h hloop
  obtain rfl : extent = extent' := Option.some.inj (harg.symm.trans harg')
  exact hle

end Code

/-! ## §3. Where a branch leads -/

/-- `i`, with `before` in front of it, may go to `x` by a branch. -/
def Instruction.LeadsTo (before : Code) (i : Instruction) (x : Offset) : Prop :=
  match i.flow with
  | .iteration => before.ScopeExit x ∨ x = i.next
  | .conditionalBranch => i.target = some x ∨ x = i.next
  | .unconditionalBranch => i.target = some x
  | .sequential | .loopEntry | .loopExit | .functionReturn | .unsupported => False

/-- `i`, with `before` in front of it, knows the targets that its kind of branch asks for. -/
def Instruction.Resolved (before : Code) (i : Instruction) : Prop :=
  match i.flow with
  | .iteration => ∃ exit, before.ScopeExit exit ∧ exit ≤ Offset.limit
  | .conditionalBranch | .unconditionalBranch => ∃ target, i.target = some target
  | .sequential | .loopEntry | .loopExit | .functionReturn | .unsupported => True

/-- What an instruction notes as its targets is what it leads to. -/
theorem Instruction.Does.mem_targets_iff {policy : Policy} {scopes : Scopes} {i : Instruction}
    {t : Transfer} {before : Code} {x : Offset} (h : i.Does policy scopes t)
    (hexit : before.ScopeExit x ↔ scopes.head? = some x) :
    x ∈ t.targets ↔ i.LeadsTo before x := by
  unfold LeadsTo
  cases h with
  | iterate hflow hscopes =>
    rw [hscopes] at hexit
    simp only [hflow, hexit, Transfer.targets, OffsetSet.mem_insert, OffsetSet.mem_singleton,
      List.head?_cons, Option.some.injEq, eq_comm]
  | branch hflow htarget =>
    simp only [hflow, htarget, Transfer.targets, OffsetSet.mem_insert, OffsetSet.mem_singleton,
      Option.some.injEq, eq_comm]
  | jump hflow htarget =>
    simp only [hflow, htarget, Transfer.targets, OffsetSet.mem_singleton, Option.some.injEq,
      eq_comm]
  | goOn hflow | enterLoop hflow | leaveLoop hflow | leaveFunction hflow =>
    simp only [hflow, Transfer.targets, OffsetSet.not_mem_empty]

/-- **The targets that a move notes** are those its instruction leads to. -/
theorem Move.mem_targets_iff {policy : Policy} {code : Code} {before after : List Move} {m : Move}
    {x : Offset} (h : code.moves policy [] = .ok (before ++ m :: after)) :
    x ∈ m.transfer.targets ↔ m.instruction.LeadsTo (before.map (·.instruction)) x := by
  obtain ⟨hdoes, hbefore⟩ := Code.does_of_moves h
  exact hdoes.mem_targets_iff (Code.scopeExit_iff hbefore)

theorem Instruction.Does.resolved {policy : Policy} {scopes : Scopes} {i : Instruction}
    {t : Transfer} {before : Code} (h : i.Does policy scopes t)
    (hexit : ∀ exit ∈ scopes.head?, before.ScopeExit exit ∧ exit ≤ Offset.limit) :
    i.Resolved before := by
  unfold Resolved
  cases h with
  | @iterate exit outer hflow hscopes =>
    simp only [hflow]
    exact ⟨exit, hexit exit (by rw [hscopes]; rfl)⟩
  | branch hflow htarget | jump hflow htarget =>
    simp only [hflow]
    exact ⟨_, htarget⟩
  | goOn hflow | enterLoop hflow | leaveLoop hflow | leaveFunction hflow => simp only [hflow]

/-- Where a scan gets past a branch, the branch knows its targets. -/
theorem Move.resolved {policy : Policy} {code : Code} {before after : List Move} {m : Move}
    (h : code.moves policy [] = .ok (before ++ m :: after)) :
    m.instruction.Resolved (before.map (·.instruction)) := by
  obtain ⟨hdoes, hbefore⟩ := Code.does_of_moves h
  apply hdoes.resolved
  intro exit hhead
  have hexit := (Code.scopeExit_iff hbefore).2 hhead
  exact ⟨hexit, Code.le_limit_of_scopeExit hbefore hexit⟩

end BytecodeFlow
